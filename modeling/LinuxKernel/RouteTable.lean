import LinuxKernel.RouteModel

/-!
# The order of the routing table

The masks that come into the table are those that `bad_mask` lets pass, and of two such
masks the one covers the other.  So the insertion loop of `rt_add` keeps the table ordered,
and the first entry for an address is the one with the most specific mask.
-/

namespace LinuxKernel.Route
open List

open BitMask

theorem getLsbD_ntohl (x : BitVec 32) {i : ℕ} (hi : i < 32) :
    (ntohl x).getLsbD i = x.getLsbD (24 - 8 * (i / 8) + i % 8) := by
  unfold ntohl
  interval_cases i <;> simp

theorem getLsbD_eq_ntohl (x : BitVec 32) {i : ℕ} (hi : i < 32) :
    x.getLsbD i = (ntohl x).getLsbD (24 - 8 * (i / 8) + i % 8) := by
  rw [getLsbD_ntohl x (by omega)]
  congr 1
  omega

theorem badMask_eq_false_iff (mask addr : BitVec 32) :
    badMask mask addr = false ↔ addr &&& ~~~mask = 0 ∧ LowOnes (ntohl (~~~mask)) := by
  unfold badMask LowOnes
  simp

variable {mask : BitVec 32}

theorem badMask_zero_of_badMask {addr : BitVec 32} (h : badMask mask addr = false) :
    badMask mask 0 = false := by
  rw [badMask_eq_false_iff] at h ⊢
  exact ⟨BitVec.zero_and, h.2⟩

theorem and_eq_right_of_ntohl_not {a b : BitVec 32}
    (h : ntohl (~~~a) &&& ntohl (~~~b) = ntohl (~~~a)) : a &&& b = b := by
  apply BitVec.eq_of_getLsbD_eq
  intro i hi
  have hbit : ((~~~a).getLsbD i && (~~~b).getLsbD i) = (~~~a).getLsbD i := by
    rw [getLsbD_eq_ntohl (~~~a) hi, getLsbD_eq_ntohl (~~~b) hi, ← BitVec.getLsbD_and, h]
  rw [BitVec.getLsbD_and]
  simp only [BitVec.getLsbD_not, hi, decide_true, Bool.true_and] at hbit
  revert hbit
  cases a.getLsbD i <;> cases b.getLsbD i <;> decide

theorem and_total {a b : BitVec 32} (ha : badMask a 0 = false) (hb : badMask b 0 = false) :
    a &&& b = b ∨ b &&& a = a := by
  rw [badMask_eq_false_iff] at ha hb
  rcases ha.2.and_total hb.2 with h | h
  · left
    exact and_eq_right_of_ntohl_not h
  · right
    refine and_eq_right_of_ntohl_not ?_
    rw [BitVec.and_comm]
    exact h

theorem badMask_defaultMask (dst : BitVec 32) : badMask (defaultMask dst) 0 = false := by
  unfold defaultMask
  dsimp only
  split
  · decide
  · split <;> decide

theorem badMask_guessMask (dst : BitVec 32) (dev : DeviceInfo) :
    badMask (guessMask dst dev) 0 = false := by
  unfold guessMask
  dsimp only
  split
  · decide
  · split
    · exact badMask_defaultMask dst
    · exact dev.mask_ok

theorem badMask_of_resolve {dev : DeviceInfo} {flags flags' : BitVec 16}
    {dst dst' mask' : BitVec 32}
    (hok : flags &&& RTF_HOST ≠ 0 ∨ mask = 0 ∨ badMask mask dst = false)
    (h : resolve dev flags dst mask = some (flags', dst', mask')) : badMask mask' 0 = false := by
  unfold resolve at h
  split at h
  · obtain rfl : 0xffffffff = mask' := by simpa using congrArg (fun o => o.map (·.2.2)) h
    decide
  · rename_i hhost
    split at h
    · split at h
      · dsimp only at h
        split at h
        · cases h
        · obtain rfl : dev.paMask = mask' := by simpa using congrArg (fun o => o.map (·.2.2)) h
          exact dev.mask_ok
      · obtain rfl : guessMask dst dev = mask' := by
          simpa using congrArg (fun o => o.map (·.2.2)) h
        exact badMask_guessMask dst dev
    · rename_i hmask
      obtain rfl : mask = mask' := by simpa using congrArg (fun o => o.map (·.2.2)) h
      rcases hok with hok | hok | hok
      · exact absurd hok hhost
      · exact absurd hok hmask
      · exact badMask_zero_of_badMask hok

section

variable {Device : Type} {s : Routes Device} {rt : Rtable Device}

structure TableOk (s : Routes Device) : Prop where
  sorted : s.rtBase.Pairwise fun a b => a.rtMask &&& b.rtMask = b.rtMask
  masks : ∀ r ∈ s.rtBase, badMask r.rtMask 0 = false
  dests : s.rtBase.Pairwise fun a b => a.rtDst ≠ b.rtDst
  loopback : ∀ r, s.rtLoopback = some r → r ∈ s.rtBase

theorem empty_tableOk (info : Device → DeviceInfo) : TableOk (Routes.empty info) := by
  refine ⟨List.Pairwise.nil, ?_, List.Pairwise.nil, ?_⟩
  · intro r hr
    cases hr
  · intro r hr
    cases hr

def MostSpecific (s : Routes Device) (daddr : BitVec 32) : Option (Rtable Device) → Prop
  | none => ∀ r ∈ s.rtBase, ¬r.Covers daddr
  | some best => best ∈ s.rtBase ∧ best.Covers daddr ∧
      ∀ r ∈ s.rtBase, r.Covers daddr → ones r.rtMask ≤ ones best.rtMask

theorem routeWalk_eq_find {daddr : BitVec 32} {info : Device → DeviceInfo}
    (hbroadcast : ∀ d, (info d).broadcast = true → (info d).paBrdaddr ≠ daddr)
    (entries : List (Rtable Device)) :
    routeWalk info daddr entries = entries.find? fun r => r.Covers daddr := by
  induction entries with
  | nil => rfl
  | cons r rest ih =>
    unfold routeWalk
    by_cases hr : r.Covers daddr
    · simp [hr]
    · have hskip : ¬((info r.rtDev).broadcast = true ∧ (info r.rtDev).paBrdaddr = daddr) :=
        fun hb => hbroadcast r.rtDev hb.1 hb.2
      simp [hr, hskip, ih]

theorem TableOk.mostSpecific (h : TableOk s) {daddr : BitVec 32}
    (hbroadcast : ∀ d, (s.info d).broadcast = true → (s.info d).paBrdaddr ≠ daddr) :
    MostSpecific s daddr (routeWalk s.info daddr s.rtBase) := by
  rw [routeWalk_eq_find hbroadcast]
  cases hfind : s.rtBase.find? fun r => r.Covers daddr with
  | none =>
    intro r hr
    simpa using List.find?_eq_none.1 hfind r hr
  | some best =>
    obtain ⟨hcovers, before, after, hbase, hbefore⟩ := List.find?_eq_some_iff_append.1 hfind
    refine ⟨?_, by simpa using hcovers, ?_⟩
    · rw [hbase]
      exact mem_append_right _ mem_cons_self
    · intro r hr hcov
      have hsorted := h.sorted
      rw [hbase] at hr hsorted
      rcases mem_append.1 hr with hr | hr
      · exact absurd hcov (by simpa using hbefore r hr)
      · rcases mem_cons.1 hr with rfl | hr
        · exact le_rfl
        · refine ones_le_of_and_eq ?_
          exact (pairwise_cons.1 (pairwise_append.1 hsorted).2.1).1 r hr

variable [DecidableEq Device]

theorem removeWalk_fst (hit : Rtable Device → Bool) (loopback : Option (Rtable Device))
    (entries : List (Rtable Device)) :
    (removeWalk hit loopback entries).1 = entries.filter fun r => !hit r := by
  induction entries generalizing loopback with
  | nil => rfl
  | cons r rest ih =>
    unfold removeWalk
    by_cases hr : hit r = true
    · simp [hr, ih]
    · simp [hr, ih]

variable {entries : List (Rtable Device)}

theorem removeWalk_snd {hit : Rtable Device → Bool} {loopback : Option (Rtable Device)}
    {r : Rtable Device} (h : (removeWalk hit loopback entries).2 = some r) :
    loopback = some r ∧ (r ∈ entries → hit r = false) := by
  induction entries generalizing loopback with
  | nil => exact ⟨h, by simp⟩
  | cons x rest ih =>
    unfold removeWalk at h
    by_cases hx : hit x = true
    · simp only [hx, if_true] at h
      obtain ⟨hloop, hrest⟩ := ih h
      split at hloop
      · cases hloop
      · rename_i hne
        refine ⟨hloop, ?_⟩
        intro hmem
        rcases mem_cons.1 hmem with rfl | hmem
        · exact absurd hloop hne
        · exact hrest hmem
    · rw [if_neg hx] at h
      obtain ⟨hloop, hrest⟩ := ih h
      refine ⟨hloop, ?_⟩
      intro hmem
      rcases mem_cons.1 hmem with rfl | hmem
      · simpa using hx
      · exact hrest hmem

theorem TableOk.remove (h : TableOk s) (hit : Rtable Device → Bool) : TableOk (s.remove hit) := by
  have hbase : (s.remove hit).rtBase = s.rtBase.filter fun r => !hit r := removeWalk_fst ..
  refine ⟨?_, ?_, ?_, ?_⟩
  · rw [hbase]
    exact h.sorted.filter _
  · intro r hr
    rw [hbase] at hr
    exact h.masks r (mem_filter.1 hr).1
  · rw [hbase]
    exact h.dests.filter _
  · intro r hr
    obtain ⟨hloop, hkept⟩ := removeWalk_snd hr
    have hmem := h.loopback r hloop
    rw [hbase, mem_filter]
    exact ⟨hmem, by simp [hkept hmem]⟩

theorem mem_insertWalk {r : Rtable Device} : r ∈ insertWalk rt entries ↔ r = rt ∨ r ∈ entries := by
  induction entries with
  | nil => simp [insertWalk]
  | cons x rest ih =>
    unfold insertWalk
    split
    · simp
    · rw [mem_cons, ih, mem_cons]
      tauto

theorem and_eq_trans {a b c : BitVec 32} (hab : a &&& b = b) (hbc : b &&& c = c) : a &&& c = c := by
  rw [← hbc, ← BitVec.and_assoc, hab]

theorem sorted_insertWalk (hsorted : entries.Pairwise fun a b => a.rtMask &&& b.rtMask = b.rtMask)
    (hmasks : ∀ r ∈ entries, badMask r.rtMask 0 = false) (hrt : badMask rt.rtMask 0 = false) :
    (insertWalk rt entries).Pairwise fun a b => a.rtMask &&& b.rtMask = b.rtMask := by
  induction entries with
  | nil => exact pairwise_singleton _ _
  | cons x rest ih =>
    obtain ⟨hx, hrest⟩ := pairwise_cons.1 hsorted
    unfold insertWalk
    split
    · rename_i hstop
      -- `x` does not cover the new mask, so the new mask covers `x` and all behind it
      have hcover : rt.rtMask &&& x.rtMask = x.rtMask :=
        (and_total (hmasks x mem_cons_self) hrt).resolve_left hstop
      refine pairwise_cons.2 ⟨?_, hsorted⟩
      intro r hr
      rcases mem_cons.1 hr with rfl | hr
      · exact hcover
      · exact and_eq_trans hcover (hx r hr)
    · rename_i hgo
      refine pairwise_cons.2 ⟨?_, ih hrest fun r hr => hmasks r (mem_cons_of_mem x hr)⟩
      intro r hr
      rcases mem_insertWalk.1 hr with rfl | hr
      · exact not_not.1 hgo
      · exact hx r hr

theorem dests_insertWalk (hdests : entries.Pairwise fun a b => a.rtDst ≠ b.rtDst)
    (hnew : ∀ r ∈ entries, r.rtDst ≠ rt.rtDst) :
    (insertWalk rt entries).Pairwise fun a b => a.rtDst ≠ b.rtDst := by
  induction entries with
  | nil => exact pairwise_singleton _ _
  | cons x rest ih =>
    obtain ⟨hx, hrest⟩ := pairwise_cons.1 hdests
    unfold insertWalk
    split
    · refine pairwise_cons.2 ⟨?_, hdests⟩
      intro r hr
      exact (hnew r hr).symm
    · refine pairwise_cons.2 ⟨?_, ih hrest fun r hr => hnew r (mem_cons_of_mem x hr)⟩
      intro r hr
      rcases mem_insertWalk.1 hr with rfl | hr
      · exact hnew x mem_cons_self
      · exact hx r hr

theorem TableOk.insert (h : TableOk s) (hrt : badMask rt.rtMask 0 = false) :
    TableOk (s.insert rt) := by
  have hold := h.remove fun r => r.rtDst = rt.rtDst
  have hnew : ∀ r ∈ (s.remove fun r => r.rtDst = rt.rtDst).rtBase, r.rtDst ≠ rt.rtDst := by
    intro r hr
    rw [show (s.remove fun r => r.rtDst = rt.rtDst).rtBase = _ from removeWalk_fst ..,
      mem_filter] at hr
    simpa using hr.2
  refine ⟨?_, ?_, ?_, ?_⟩
  · exact sorted_insertWalk hold.sorted hold.masks hrt
  · intro r hr
    rcases mem_insertWalk.1 hr with rfl | hr
    · exact hrt
    · exact hold.masks r hr
  · exact dests_insertWalk hold.dests hnew
  · intro r hr
    apply mem_insertWalk.2
    unfold Routes.insert at hr
    split at hr
    · left
      exact (Option.some.inj hr).symm
    · right
      exact hold.loopback r hr

theorem TableOk.rtAdd (h : TableOk s) {flags : BitVec 16} {dst : BitVec 32}
    (hok : flags &&& RTF_HOST ≠ 0 ∨ mask = 0 ∨ badMask mask dst = false) (gw : BitVec 32)
    (dev : Device) (memory : Bool) : TableOk (s.rtAdd flags dst mask gw dev memory) := by
  unfold Routes.rtAdd
  split
  · exact h
  · rename_i flags' dst' mask' hresolve
    have hmask := badMask_of_resolve hok hresolve
    dsimp only
    generalize (if gw = (s.info dev).paAddr then flags' &&& ~~~RTF_GATEWAY else flags') = kept
    split
    · exact h
    · split
      · exact h.insert hmask
      · exact h

theorem TableOk.step (h : TableOk s) {e : Event Device} (he : e.MaskOk) : TableOk (s.step e) := by
  cases e with
  | add flags dst mask gw dev memory => exact h.rtAdd he gw dev memory
  | del dst => exact h.remove _
  | flush dev => exact h.remove _
  | device dev info => exact ⟨h.sorted, h.masks, h.dests, h.loopback⟩

/-- A new entry is one of the device that a route was added for. -/
theorem mem_step {e : Event Device} {r : Rtable Device} (h : r ∈ (s.step e).rtBase) :
    r ∈ s.rtBase ∨ ∃ flags dst mask gw memory, e = .add flags dst mask gw r.rtDev memory := by
  have hremove : ∀ hit, r ∈ (s.remove hit).rtBase → r ∈ s.rtBase := by
    intro hit hr
    rw [show (s.remove hit).rtBase = _ from removeWalk_fst ..] at hr
    exact mem_of_mem_filter hr
  cases e with
  | add flags dst mask gw dev memory =>
    change r ∈ (s.rtAdd flags dst mask gw dev memory).rtBase at h
    unfold Routes.rtAdd at h
    split at h
    · exact .inl h
    · dsimp only at h
      generalize (if gw = _ then _ else _) = flags' at h
      split at h
      · exact .inl h
      · split at h
        · obtain rfl | hr := mem_insertWalk.mp h
          · exact .inr ⟨_, _, _, _, _, rfl⟩
          · exact .inl (hremove _ hr)
        · exact .inl h
  | del dst => exact .inl (hremove _ h)
  | flush dev => exact .inl (hremove _ h)
  | device dev info => exact .inl h

theorem TableOk.run (h : TableOk s) {events : List (Event Device)}
    (hevents : ∀ e ∈ events, e.MaskOk) : TableOk (s.run events) := by
  induction events generalizing s with
  | nil => exact h
  | cons e events ih =>
    refine ih (h.step (hevents e mem_cons_self)) ?_
    intro e' he'
    exact hevents e' (mem_cons_of_mem e he')

/-- Every table that routes are added to with masks that `bad_mask` lets pass, and taken
from, is ordered by the masks and has one entry a destination.  For an address that no
device broadcasts to, `rt_route` finds the entry with the most specific mask; where the
address is that of the entry's own device it gives `rt_loopback` instead, which is an entry
of the table or nothing. -/
theorem run_longest_match (info : Device → DeviceInfo) (events : List (Event Device))
    (hevents : ∀ e ∈ events, e.MaskOk) :
    let s := (Routes.empty info).run events
    (s.rtBase.Pairwise fun a b => ones b.rtMask ≤ ones a.rtMask) ∧
      (s.rtBase.Pairwise fun a b => a.rtDst ≠ b.rtDst) ∧
      (∀ r, s.rtLoopback = some r → r ∈ s.rtBase) ∧
      ∀ daddr, (∀ d, (s.info d).broadcast = true → (s.info d).paBrdaddr ≠ daddr) →
        ∃ best, MostSpecific s daddr best ∧
          s.rtRoute daddr = best.bind fun rt =>
            if daddr = (s.info rt.rtDev).paAddr then s.rtLoopback else some rt := by
  have h := (empty_tableOk info).run hevents
  refine ⟨h.sorted.imp ones_le_of_and_eq, h.dests, h.loopback, ?_⟩
  intro daddr hbroadcast
  refine ⟨_, h.mostSpecific hbroadcast, ?_⟩
  unfold Routes.rtRoute
  cases routeWalk ((Routes.empty info).run events).info daddr
      ((Routes.empty info).run events).rtBase with
  | none => rfl
  | some rt => rfl

omit [DecidableEq Device] in
theorem mem_routeWalk {daddr : BitVec 32} {r : Rtable Device}
    (h : routeWalk s.info daddr entries = some r) : r ∈ entries := by
  induction entries with
  | nil => cases h
  | cons x rest ih =>
    unfold routeWalk at h
    grind

/-- A device whose routes were flushed is not used until a route is added for it. -/
theorem flushed_not_used (info : Device → DeviceInfo) (dev : Device)
    (events after : List (Event Device)) (hok : ∀ e ∈ events ++ .flush dev :: after, e.MaskOk)
    (hafter : ∀ flags dst mask gw memory, .add flags dst mask gw dev memory ∉ after)
    (daddr : BitVec 32) (rt : Rtable Device)
    (hrt : ((Routes.empty info).run (events ++ .flush dev :: after)).rtRoute daddr = some rt) :
    rt.rtDev ≠ dev := by
  have htable := (empty_tableOk info).run hok
  have hnone : ∀ s : Routes Device, (∀ r ∈ s.rtBase, r.rtDev ≠ dev) →
      ∀ r ∈ (s.run after).rtBase, r.rtDev ≠ dev := by
    clear hok htable hrt
    induction after with
    | nil => exact fun s hs => hs
    | cons e after ih =>
      refine fun s hs => ih (fun _ _ _ _ _ h => hafter _ _ _ _ _ (mem_cons_of_mem _ h)) _ ?_
      intro r hr hdev
      obtain hold | ⟨flags, dst, mask, gw, memory, rfl⟩ := mem_step hr
      · exact hs r hold hdev
      · exact hafter flags dst mask gw memory (by simp [hdev])
  have hmem : rt ∈ ((Routes.empty info).run (events ++ .flush dev :: after)).rtBase := by
    unfold Routes.rtRoute at hrt
    split at hrt
    · cases hrt
    next r hwalk =>
      split_ifs at hrt
      · exact htable.loopback rt hrt
      · cases hrt
        exact mem_routeWalk hwalk
  rw [show (Routes.empty info).run (events ++ .flush dev :: after) = _ from foldl_append ..] at hmem
  refine hnone _ (fun r hr hdev => ?_) rt hmem
  rw [show Routes.rtBase _ = _ from removeWalk_fst .., mem_filter] at hr
  simpa [hdev] using hr.2

def ether : DeviceInfo where
  paAddr := 0x0100000a
  paMask := 0x000000ff
  paBrdaddr := 0xffffff0a
  broadcast := true
  loopback := false
  mtu := 1500
  mask_ok := by decide

theorem run_longest_match_ether :
    (∀ e ∈ [Event.add 0 0x0000000a 0 0 () true], e.MaskOk) ∧
      ∃ best, MostSpecific
        ((Routes.empty fun _ => ether).run [Event.add 0 0x0000000a 0 0 () true]) 0x0200000a best ∧
        ((Routes.empty fun _ => ether).run [Event.add 0 0x0000000a 0 0 () true]).rtRoute 0x0200000a
          = best.bind fun rt =>
            if 0x0200000a#32 = ether.paAddr then none else some rt := by
  have hok : ∀ e ∈ [Event.add 0 0x0000000a 0 0 () true], e.MaskOk := by
    intro e he
    rw [mem_singleton.1 he]
    exact .inr (.inl rfl)
  refine ⟨hok, ?_⟩
  exact (run_longest_match (fun _ => ether) _ hok).2.2.2 0x0200000a (fun ⟨⟩ _ => by decide)

theorem flushed_not_used_twoDevices :
    let events : List (Event Bool) := [.add 0 10 0 0 true true, .add 0 11 0xff 0 false true]
    ∃ rt, ((Routes.empty fun _ => ether).run (events ++ [.flush true])).rtRoute 11 = some rt ∧
      rt.rtDev ≠ true := by
  intro events
  have hok : ∀ e ∈ events ++ [.flush true], e.MaskOk := by
    simp only [events, List.cons_append, List.nil_append, List.forall_mem_cons]
    exact ⟨.inr (.inl rfl), .inr (.inr rfl), trivial, by simp⟩
  exact ⟨_, rfl, flushed_not_used (fun _ => ether) true events [] hok (by simp) 11 _ rfl⟩

/-- The address of the device itself is covered by the route to its net, and without a
loopback route there is none to it. -/
theorem own_address_not_routed :
    ¬∀ (info : Unit → DeviceInfo) (events : List (Event Unit)) (daddr : BitVec 32),
      (∀ e ∈ events, e.MaskOk) →
      (∀ d, (((Routes.empty info).run events).info d).broadcast = true →
        (((Routes.empty info).run events).info d).paBrdaddr ≠ daddr) →
      (((Routes.empty info).run events).rtRoute daddr = none ↔
        ∀ r ∈ ((Routes.empty info).run events).rtBase, ¬r.Covers daddr) := by
  intro h
  have hnone := (h (fun _ => ether) [Event.add 0 0x0000000a 0 0 () true] 0x0100000a
    (by
      intro e he
      rw [mem_singleton.1 he]
      exact .inr (.inl rfl))
    (fun ⟨⟩ _ => by decide)).1 (by decide)
  exact absurd hnone (by decide)

end

end LinuxKernel.Route
