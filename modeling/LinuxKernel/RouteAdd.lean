import LinuxKernel.RouteTable
import Mathlib

/-!
# What a new route changes

`rt_add` takes the entries with the destination of the new one out of the table, whatever
their masks are.  An address that such an entry with another mask covers is left aside here;
for every other one the new entry is chosen where it covers the address and no entry that
covers it is more specific, and nowhere else.
-/

namespace LinuxKernel.Route

open BitMask

section

variable {Device : Type} {s : Routes Device} {rt : Rtable Device}

def DestsOk (s : Routes Device) : Prop := ∀ r ∈ s.rtBase, r.rtDst &&& ~~~r.rtMask = 0

section
variable {r : Rtable Device} {daddr : BitVec 32} (h : r.Covers daddr)
include h

theorem Rtable.Covers.and_eq : r.rtDst &&& r.rtMask = daddr &&& r.rtMask := by
  apply BitVec.eq_of_getLsbD_eq
  intro i _
  have hbit := congrArg (·.getLsbD i) (show (r.rtDst ^^^ daddr) &&& r.rtMask = 0 from h)
  cases hmask : r.rtMask.getLsbD i <;> simp_all

theorem Rtable.Covers.dst_eq (hdst : r.rtDst &&& ~~~r.rtMask = 0) :
    r.rtDst = daddr &&& r.rtMask := by
  rw [← h.and_eq]
  apply BitVec.eq_of_getLsbD_eq
  intro i hi
  have hbit := congrArg (·.getLsbD i) hdst
  simp only [BitVec.getLsbD_and, BitVec.getLsbD_not] at hbit ⊢
  cases hmask : r.rtMask.getLsbD i <;> simp_all

end

theorem and_and_not (a b : BitVec 32) : a &&& b &&& ~~~b = 0 := by
  rw [BitVec.and_assoc, BitVec.and_not_self]
  exact BitVec.and_zero

theorem resolve_dest {dev : DeviceInfo} {flags flags' : BitVec 16} {dst dst' mask mask' : BitVec 32}
    (hok : flags &&& RTF_HOST ≠ 0 ∨ mask = 0 ∨ badMask mask dst = false)
    (h : resolve dev flags dst mask = some (flags', dst', mask')) : dst' &&& ~~~mask' = 0 := by
  unfold resolve at h
  split at h
  · obtain ⟨-, -, rfl⟩ := h
    exact BitVec.and_zero
  · rename_i hhost
    split at h
    · split at h
      · dsimp only at h
        split at h
        · cases h
        · obtain ⟨-, rfl, rfl⟩ := h
          exact and_and_not dst dev.paMask
      · obtain ⟨-, rfl, rfl⟩ := h
        exact and_and_not dst (guessMask dst dev)
    · rename_i hmask
      obtain ⟨-, rfl, rfl⟩ := h
      rcases hok with hok | hok | hok
      · exact absurd hok hhost
      · exact absurd hok hmask
      · exact ((badMask_eq_false_iff mask dst).mp hok).1

variable [DecidableEq Device]

/-- An entry that `rt_add` takes out for `rt`, though it is not for the same addresses. -/
def Replaced (s : Routes Device) (rt : Rtable Device) (daddr : BitVec 32) : Prop :=
  ∃ r ∈ s.rtBase, r.rtDst = rt.rtDst ∧ r.rtMask ≠ rt.rtMask ∧ r.Covers daddr

theorem TableOk.eq_of_ones (h : TableOk s) (hdests : DestsOk s) {a b : Rtable Device}
    {daddr : BitVec 32} (ha : a ∈ s.rtBase) (hb : b ∈ s.rtBase) (hacov : a.Covers daddr)
    (hbcov : b.Covers daddr) (hones : ones a.rtMask = ones b.rtMask) : a = b := by
  have hmask : a.rtMask = b.rtMask := by
    rcases and_total (h.masks a ha) (h.masks b hb) with hab | hba
    · exact eq_of_and_eq_of_ones_le hab hones.le
    · exact (eq_of_and_eq_of_ones_le hba hones.ge).symm
  have hdst : a.rtDst = b.rtDst := by
    rw [hacov.dst_eq (hdests a ha), hbcov.dst_eq (hdests b hb), hmask]
  by_contra hne
  have : Std.Symm fun a b : Rtable Device => a.rtDst ≠ b.rtDst := ⟨fun _ _ hdiff => hdiff.symm⟩
  exact h.dests.forall ha hb hne hdst

theorem MostSpecific.eq_some (h : TableOk s) (hdests : DestsOk s) {a : Rtable Device}
    {daddr : BitVec 32} {found : Option (Rtable Device)} (hfound : MostSpecific s daddr found)
    (ha : a ∈ s.rtBase) (hcov : a.Covers daddr)
    (hmax : ∀ r ∈ s.rtBase, r.Covers daddr → ones r.rtMask ≤ ones a.rtMask) : found = some a := by
  cases found with
  | none => exact absurd hcov (hfound a ha)
  | some b =>
    obtain ⟨hb, hbcov, hbmax⟩ := hfound
    rw [h.eq_of_ones hdests hb ha hbcov hcov (le_antisymm (hmax b hb hbcov) (hbmax a ha hcov))]

theorem mem_insert_rtBase {r : Rtable Device} :
    r ∈ (s.insert rt).rtBase ↔ r = rt ∨ r ∈ s.rtBase ∧ r.rtDst ≠ rt.rtDst := by
  have hbase : (s.insert rt).rtBase =
      insertWalk rt (s.rtBase.filter fun r => !decide (r.rtDst = rt.rtDst)) := by
    unfold Routes.insert Routes.remove
    dsimp only
    rw [removeWalk_fst]
  rw [hbase, mem_insertWalk, List.mem_filter]
  simp

theorem DestsOk.insert (h : DestsOk s) (hrt : rt.rtDst &&& ~~~rt.rtMask = 0) :
    DestsOk (s.insert rt) := by
  intro r hr
  rcases mem_insert_rtBase.mp hr with rfl | ⟨hr, -⟩
  · exact hrt
  · exact h r hr

theorem DestsOk.remove (h : DestsOk s) (hit : Rtable Device → Bool) : DestsOk (s.remove hit) := by
  intro r hr
  rw [show (s.remove hit).rtBase = _ from removeWalk_fst .., List.mem_filter] at hr
  exact h r hr.1

theorem rtAdd_cases (s : Routes Device) {flags : BitVec 16} {dst mask : BitVec 32}
    (hok : flags &&& RTF_HOST ≠ 0 ∨ mask = 0 ∨ badMask mask dst = false) (gw : BitVec 32)
    (dev : Device) (memory : Bool) :
    s.rtAdd flags dst mask gw dev memory = s ∨
      ∃ rt : Rtable Device, s.rtAdd flags dst mask gw dev memory = s.insert rt ∧
        rt.rtDev = dev ∧ badMask rt.rtMask 0 = false ∧ rt.rtDst &&& ~~~rt.rtMask = 0 ∧
        ∃ flags', resolve (s.info dev) flags dst mask = some (flags', rt.rtDst, rt.rtMask) := by
  unfold Routes.rtAdd
  split
  · exact .inl rfl
  · rename_i flags' dst' mask' hresolve
    dsimp only
    generalize (if gw = (s.info dev).paAddr then flags' &&& ~~~RTF_GATEWAY else flags') = kept
    split
    · exact .inl rfl
    · split
      · refine .inr ⟨_, rfl, rfl, ?_, ?_, flags', hresolve⟩
        · exact badMask_of_resolve hok hresolve
        · exact resolve_dest hok hresolve
      · exact .inl rfl

theorem DestsOk.step (h : DestsOk s) {e : Event Device} (he : e.MaskOk) : DestsOk (s.step e) := by
  cases e with
  | add flags dst mask gw dev memory =>
    change DestsOk (s.rtAdd flags dst mask gw dev memory)
    rcases rtAdd_cases s he gw dev memory with hsame | ⟨rt, hins, -, -, hdst, -⟩
    · rw [hsame]
      exact h
    · rw [hins]
      exact h.insert hdst
  | del dst => exact h.remove _
  | flush dev => exact h.remove _
  | device dev info => exact h

theorem DestsOk.run (h : DestsOk s) {events : List (Event Device)}
    (hevents : ∀ e ∈ events, e.MaskOk) : DestsOk (s.run events) := by
  induction events generalizing s with
  | nil => exact h
  | cons e events ih =>
    refine ih (h.step (hevents e List.mem_cons_self)) ?_
    intro e' he'
    exact hevents e' (List.mem_cons_of_mem e he')

theorem routeWalk_insert (h : TableOk s) (hdests : DestsOk s) (hmask : badMask rt.rtMask 0 = false)
    (hdst : rt.rtDst &&& ~~~rt.rtMask = 0) {daddr : BitVec 32}
    (hbroadcast : ∀ d, (s.info d).broadcast = true → (s.info d).paBrdaddr ≠ daddr)
    (hreplaced : ¬Replaced s rt daddr) :
    (¬rt.Covers daddr →
        routeWalk s.info daddr (s.insert rt).rtBase = routeWalk s.info daddr s.rtBase) ∧
      (rt.Covers daddr → (∃ r ∈ s.rtBase, r.Covers daddr ∧ ones rt.rtMask < ones r.rtMask) →
        routeWalk s.info daddr (s.insert rt).rtBase = routeWalk s.info daddr s.rtBase) ∧
      (rt.Covers daddr → (∀ r ∈ s.rtBase, r.Covers daddr → ones r.rtMask ≤ ones rt.rtMask) →
        routeWalk s.info daddr (s.insert rt).rtBase = some rt) := by
  have hnew := h.insert hmask
  have hbest := h.mostSpecific hbroadcast
  have hdests' := hdests.insert hdst
  have hbest' : MostSpecific (s.insert rt) daddr
      (routeWalk s.info daddr (s.insert rt).rtBase) := hnew.mostSpecific hbroadcast
  have hmem : ∀ r ∈ (s.insert rt).rtBase, r = rt ∨ r ∈ s.rtBase := fun r hr =>
    (mem_insert_rtBase.mp hr).imp_right And.left
  -- an entry for the address with another mask than `rt` stays
  have hstays : ∀ r ∈ s.rtBase, r.Covers daddr → r.rtMask ≠ rt.rtMask →
      r ∈ (s.insert rt).rtBase := by
    intro r hr hcov hne
    rw [mem_insert_rtBase]
    exact .inr ⟨hr, fun heq => hreplaced ⟨r, hr, heq, hne, hcov⟩⟩
  generalize routeWalk s.info daddr (s.insert rt).rtBase = found' at hbest' ⊢
  generalize routeWalk s.info daddr s.rtBase = found at hbest ⊢
  refine ⟨fun huncov => ?_, fun hcov hmore => ?_, fun hcov hmost => ?_⟩
  · cases found with
    | none =>
      cases found' with
      | none => rfl
      | some b =>
        obtain ⟨hb, hbcov, -⟩ := hbest'
        rcases hmem b hb with rfl | hb
        · exact absurd hbcov huncov
        · exact absurd hbcov (hbest b hb)
    | some a =>
      obtain ⟨ha, hacov, hmax⟩ := hbest
      refine hbest'.eq_some hnew hdests' ?_ hacov ?_
      · by_cases hsame : a.rtMask = rt.rtMask
        · rw [mem_insert_rtBase]
          refine .inr ⟨ha, fun heq => huncov ?_⟩
          unfold Rtable.Covers at hacov ⊢
          rw [← heq, ← hsame]
          exact hacov
        · exact hstays a ha hacov hsame
      · intro r hr hrcov
        rcases hmem r hr with rfl | hr
        · exact absurd hrcov huncov
        · exact hmax r hr hrcov
  · obtain ⟨r0, hr0, hcov0, hlt⟩ := hmore
    cases found with
    | none => exact absurd hcov0 (hbest r0 hr0)
    | some a =>
      obtain ⟨ha, hacov, hmax⟩ := hbest
      have hgt := hlt.trans_le (hmax r0 hr0 hcov0)
      refine hbest'.eq_some hnew hdests' ?_ hacov ?_
      · exact hstays a ha hacov fun heq => by rw [heq] at hgt; exact lt_irrefl _ hgt
      · intro r hr hrcov
        rcases hmem r hr with rfl | hr
        · exact hgt.le
        · exact hmax r hr hrcov
  · refine hbest'.eq_some hnew hdests' (mem_insert_rtBase.mpr (.inl rfl)) hcov ?_
    intro r hr hrcov
    rcases hmem r hr with rfl | hr
    · exact le_rfl
    · exact hmost r hr hrcov

theorem insert_rtLoopback (hdev : (s.info rt.rtDev).loopback = false)
    (hkeep : ∀ r, s.rtLoopback = some r → r.rtDst ≠ rt.rtDst) :
    (s.insert rt).rtLoopback = s.rtLoopback := by
  have hwalk : ∀ entries, (∀ r, s.rtLoopback = some r → r.rtDst ≠ rt.rtDst) →
      (removeWalk (fun r => decide (r.rtDst = rt.rtDst)) s.rtLoopback entries).2 =
        s.rtLoopback := by
    intro entries _
    induction entries with
    | nil => rfl
    | cons x rest ih =>
      unfold removeWalk
      by_cases hx : x.rtDst = rt.rtDst
      · have hne : s.rtLoopback ≠ some x := fun heq => hkeep x heq hx
        simp [hx, hne, ih]
      · simp [hx, ih]
  unfold Routes.insert Routes.remove
  simp only [hdev, Bool.false_eq_true, if_false]
  exact hwalk s.rtBase hkeep

omit [DecidableEq Device] in
theorem rtRoute_eq (s : Routes Device) (daddr : BitVec 32) :
    s.rtRoute daddr = (routeWalk s.info daddr s.rtBase).bind fun r =>
      if daddr = (s.info r.rtDev).paAddr then s.rtLoopback else some r := by
  unfold Routes.rtRoute
  cases routeWalk s.info daddr s.rtBase <;> rfl

/-- In every table, `rt_add` does nothing or puts in an entry for what `resolve` makes of its
arguments.  Leave aside the addresses that a device broadcasts to and those for which an
entry with the same destination and another mask is taken out.  Then `rt_route` gives the
same for an address that the new entry does not cover and for one that a more specific entry
covers, and the new entry for the others; the own addresses of devices, which are routed to
`rt_loopback`, follow it where it does not change. -/
theorem rtAdd_frame (info : Device → DeviceInfo) (events : List (Event Device))
    (hevents : ∀ e ∈ events, e.MaskOk) (flags : BitVec 16) (dst mask gw : BitVec 32)
    (dev : Device) (memory : Bool) (hok : (Event.add flags dst mask gw dev memory).MaskOk) :
    let s := (Routes.empty info).run events
    let s' := s.rtAdd flags dst mask gw dev memory
    s' = s ∨ ∃ rt : Rtable Device, rt.rtDev = dev ∧
      (∃ flags', resolve (s.info dev) flags dst mask = some (flags', rt.rtDst, rt.rtMask)) ∧
      ((s.info dev).loopback = false →
        (∀ r, s.rtLoopback = some r → r.rtDst ≠ rt.rtDst) → s'.rtLoopback = s.rtLoopback) ∧
      ∀ daddr, (∀ d, (s.info d).broadcast = true → (s.info d).paBrdaddr ≠ daddr) →
        ¬Replaced s rt daddr →
        ((∀ d, (s.info d).paAddr ≠ daddr) ∨ s'.rtLoopback = s.rtLoopback →
          ¬rt.Covers daddr ∨ (∃ r ∈ s.rtBase, r.Covers daddr ∧ ones rt.rtMask < ones r.rtMask) →
            s'.rtRoute daddr = s.rtRoute daddr) ∧
        (rt.Covers daddr →
          (∀ r ∈ s.rtBase, r.Covers daddr → ones r.rtMask ≤ ones rt.rtMask) →
            s'.rtRoute daddr = if daddr = (s.info dev).paAddr then s'.rtLoopback else some rt) := by
  intro s s'
  have hs := (empty_tableOk info).run hevents
  have hdests : DestsOk s := DestsOk.run (fun r hr => by cases hr) hevents
  rcases rtAdd_cases s hok gw dev memory with hsame | ⟨rt, hins, hdev, hmask, hdst, hresolve⟩
  · exact .inl hsame
  · right
    have hs' : s' = s.insert rt := hins
    rw [hs']
    refine ⟨rt, hdev, hresolve, ?_, ?_⟩
    · intro hloop hkeep
      exact insert_rtLoopback (by rw [hdev]; exact hloop) hkeep
    · intro daddr hbroadcast hreplaced
      obtain ⟨huncov, hmore, hmost⟩ := routeWalk_insert hs hdests hmask hdst hbroadcast hreplaced
      refine ⟨fun hown hcase => ?_, fun hcov hmax => ?_⟩
      · have hwalk : routeWalk s.info daddr (s.insert rt).rtBase =
            routeWalk s.info daddr s.rtBase := by
          by_cases hcov : rt.Covers daddr
          · exact hmore hcov (hcase.resolve_left (not_not.mpr hcov))
          · exact huncov hcov
        have hroute : (s.insert rt).rtRoute daddr =
            (routeWalk s.info daddr (s.insert rt).rtBase).bind fun r =>
              if daddr = (s.info r.rtDev).paAddr then (s.insert rt).rtLoopback else some r :=
          rtRoute_eq (s.insert rt) daddr
        rw [hroute, rtRoute_eq, hwalk]
        rcases hown with hother | hloop
        · refine Option.bind_congr fun r _ => ?_
          rw [if_neg (hother r.rtDev).symm, if_neg (hother r.rtDev).symm]
        · rw [hloop]
      · have hroute := rtRoute_eq (s.insert rt) daddr
        change _ = (routeWalk s.info daddr (s.insert rt).rtBase).bind
          fun r => if daddr = (s.info r.rtDev).paAddr then _ else _ at hroute
        rw [hroute, hmost hcov hmax, Option.bind_some, hdev]

/-- A table with the route to the net 10, and one to the host 10.0.0.0 that is added. -/
theorem rtAdd_frame_ether :
    let s := (Routes.empty fun _ : Unit => ether).run [Event.add 0 0x0000000a 0 0 () true]
    (∀ e ∈ [Event.add 0 0x0000000a 0 0 () true], e.MaskOk) ∧
      (s.rtAdd RTF_HOST 0x0200000a 0 0 () true).rtRoute 0x0300000a = s.rtRoute 0x0300000a := by
  intro s
  have hok : ∀ e ∈ [Event.add 0 0x0000000a 0 0 () true], e.MaskOk := by
    intro e he
    rw [List.mem_singleton.1 he]
    exact Or.inr (Or.inl rfl)
  refine ⟨hok, ?_⟩
  rcases rtAdd_frame (fun _ : Unit => ether) _ hok RTF_HOST 0x0200000a 0 0 () true
    (.inl (by decide)) with hsame | ⟨rt, -, ⟨flags', hresolve⟩, -, hframe⟩
  · rw [hsame]
  · have hrt : rt.rtDst = 0x0200000a ∧ rt.rtMask = 0xffffffff := by
      have hhost : resolve (s.info ()) RTF_HOST 0x0200000a 0 =
          some (RTF_HOST, 0x0200000a, 0xffffffff) := by decide
      rw [hhost] at hresolve
      simp only [Option.some.injEq, Prod.mk.injEq] at hresolve
      exact ⟨hresolve.2.1.symm, hresolve.2.2.symm⟩
    refine (hframe 0x0300000a (fun ⟨⟩ _ => by decide) ?_).1 (.inl fun ⟨⟩ => by decide) (.inl ?_)
    · rintro ⟨r, hr, hdst, -, -⟩
      have hbase : ∀ r ∈ s.rtBase, r.rtDst ≠ 0x0200000a := by decide
      exact hbase r hr (hdst.trans hrt.1)
    · unfold Rtable.Covers
      rw [hrt.1, hrt.2]
      decide

theorem lo_mask : badMask 0x000000ff 0 = false := by decide

def lo : DeviceInfo where
  paAddr := 0x0100007f
  paMask := 0x000000ff
  paBrdaddr := 0
  broadcast := false
  loopback := true
  mtu := 2000
  mask_ok := lo_mask

/-- The route to the net 10 is found for the address that its device broadcasts to; the
route to the net 127 for the address of the Ethernet device; and the route to the host
10.0.0.0 takes the one to the net 10 out. -/
theorem rtAdd_not_frame :
    ((Routes.empty fun _ : Unit => { ether with paBrdaddr := 0xffffffff }).rtAdd 0 0x0000000a 0 0
        () true).rtRoute 0xffffffff ≠ none ∧
      (((Routes.empty fun d : Bool => if d then ether else lo).rtAdd 0 0x0000000a 0 0 true
        true).rtRoute 0x0100000a = none ∧
      (((Routes.empty fun d : Bool => if d then ether else lo).rtAdd 0 0x0000000a 0 0 true
        true).rtAdd 0 0x0000007f 0 0 false true).rtRoute 0x0100000a ≠ none) ∧
      ((Routes.empty fun _ : Unit => ether).rtAdd 0 0x0000000a 0 0 () true).rtRoute 0x0300000a ≠
        none ∧
      (((Routes.empty fun _ : Unit => ether).rtAdd 0 0x0000000a 0 0 () true).rtAdd RTF_HOST
        0x0000000a 0 0 () true).rtRoute 0x0300000a = none := by
  refine ⟨by decide, ⟨by decide, by decide⟩, by decide, by decide⟩

end

end LinuxKernel.Route
