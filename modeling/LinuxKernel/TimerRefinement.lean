import LinuxKernel.TimerModel

/-!
# The timer list counts every timer down

The list of differences refines a set of independent countdowns: with each step both
show the same, and the sums of the differences are the times that the countdowns have
left, in the order in which they will fire.
-/

namespace LinuxKernel.Timer
open Function List

open DeltaList

def deltas (expires : ℕ → UInt32) (l : List ℕ) : List (ℕ × ℕ) :=
  l.map fun p => (p, (expires p).toNat)

theorem deltas_keys (expires : ℕ → UInt32) (l : List ℕ) : (deltas expires l).map Prod.fst = l := by
  unfold deltas
  rw [map_map]
  exact map_id l

variable {expires : ℕ → UInt32} {l : List ℕ}

theorem deltas_congr {expires' : ℕ → UInt32}
    (h : ∀ p ∈ l, expires' p = expires p) : deltas expires' l = deltas expires l := by
  apply map_congr_left
  intro p hp
  rw [h p hp]

theorem deltas_update {t : ℕ} (ht : t ∉ l) (v : UInt32) :
    deltas (update expires t v) l = deltas expires l := by
  apply deltas_congr
  intro p hp
  apply update_of_ne
  rintro rfl
  exact ht hp

theorem addWalk_deltas (t : ℕ) (expires : ℕ → UInt32) (ht : t ∉ l)
    (hnodup : l.Nodup) :
    deltas (addWalk t expires l).1 (addWalk t expires l).2 =
        DeltaList.insert t (expires t).toNat (deltas expires l) ∧
      ∀ q, q ≠ t → q ∉ l → (addWalk t expires l).1 q = expires q := by
  induction l generalizing expires with
  | nil => exact ⟨rfl, fun q _ _ => rfl⟩
  | cons p l ih =>
    rw [mem_cons, not_or] at ht
    rw [nodup_cons] at hnodup
    unfold addWalk
    by_cases hlt : expires t < expires p
    · rw [if_pos hlt]
      refine ⟨?_, ?_⟩
      · change (t, _) :: (p, _) :: deltas _ l = DeltaList.insert t _ ((p, _) :: deltas expires l)
        dsimp only
        rw [update_of_ne ht.1, update_self, deltas_update hnodup.1]
        have hle : (expires t).toNat < (expires p).toNat := UInt32.lt_iff_toNat_lt.mp hlt
        simp only [DeltaList.insert, if_pos hle]
        rw [UInt32.toNat_sub_of_le _ _ (UInt32.le_of_lt hlt)]
      · intro q _ hq
        rw [mem_cons, not_or] at hq
        exact update_of_ne hq.1 _ _
    · rw [if_neg hlt]
      have hle : expires p ≤ expires t := UInt32.not_lt.mp hlt
      obtain ⟨hwalk, hframe⟩ := ih (update expires t (expires t - expires p)) ht.2 hnodup.2
      refine ⟨?_, ?_⟩
      · change (p, _) :: deltas _ _ = DeltaList.insert t _ ((p, _) :: deltas expires l)
        have hnat : ¬(expires t).toNat < (expires p).toNat := fun h =>
          hlt (UInt32.lt_iff_toNat_lt.mpr h)
        rw [hwalk, hframe p (Ne.symm ht.1) hnodup.1, update_self,
          update_of_ne (Ne.symm ht.1), deltas_update ht.2]
        simp only [DeltaList.insert, if_neg hnat]
        rw [UInt32.toNat_sub_of_le _ _ hle]
      · intro q hqt hq
        rw [mem_cons, not_or] at hq
        rw [hframe q hqt hq.2, update_of_ne hqt]

theorem addWalk_keys (t : ℕ) (expires : ℕ → UInt32) (ht : t ∉ l)
    (hnodup : l.Nodup) : (addWalk t expires l).2.Perm (t :: l) := by
  induction l generalizing expires with
  | nil => exact List.Perm.refl _
  | cons p l ih =>
    rw [mem_cons, not_or] at ht
    rw [nodup_cons] at hnodup
    unfold addWalk
    split_ifs
    · exact List.Perm.refl _
    · exact ((ih _ ht.2 hnodup.2).cons p).trans (List.Perm.swap t p l)

theorem delWalk_none {t : ℕ} (expires : ℕ → UInt32) (ht : t ∉ l) (before : UInt32) :
    delWalk t expires before l = none := by
  induction l generalizing before with
  | nil => rfl
  | cons p l ih =>
    rw [mem_cons, not_or] at ht
    unfold delWalk
    rw [if_neg (Ne.symm ht.1), ih ht.2]
    rfl

def Bounded (s : ℕ) (l : List (ℕ × ℕ)) : Prop := ∀ x ∈ decode s l, x.2 < 4294967296

theorem toNat_add_of_lt {a b : UInt32} (h : a.toNat + b.toNat < 4294967296) :
    (a + b).toNat = a.toNat + b.toNat := by
  exact Nat.mod_eq_of_lt h

theorem delWalk_some {t : ℕ} (ht : t ∈ l) (hnodup : l.Nodup)
    (before : UInt32) (hbound : Bounded before.toNat (deltas expires l)) :
    ∃ expires' l', delWalk t expires before l = some (expires', l') ∧
      l' = l.filter (· ≠ t) ∧ deltas expires' l' = erase t (deltas expires l) ∧
      (t, (expires' t).toNat) ∈ decode before.toNat (deltas expires l) ∧
      ∀ q, q ∉ l → expires' q = expires q := by
  induction l generalizing before with
  | nil => exact absurd ht not_mem_nil
  | cons p l ih =>
    rw [nodup_cons] at hnodup
    have hfirst : before.toNat + (expires p).toNat < 4294967296 :=
      hbound (p, before.toNat + (expires p).toNat) mem_cons_self
    unfold delWalk
    by_cases hp : p = t
    · subst hp
      rw [if_pos rfl]
      have hrest : l.filter (· ≠ p) = l := by
        rw [filter_eq_self]
        intro q hq
        rw [decide_eq_true_eq]
        rintro rfl
        exact hnodup.1 hq
      refine ⟨_, _, rfl, ?_, ?_, ?_, ?_⟩
      · rw [filter_cons_of_neg (by simp), hrest]
      · change _ = erase p ((p, (expires p).toNat) :: deltas expires l)
        unfold erase
        rw [if_pos rfl]
        cases l with
        | nil => rfl
        | cons q l =>
          rw [mem_cons, not_or] at hnodup
          have hq : q ∉ l := (nodup_cons.mp hnodup.2).1
          have hsum : (expires q).toNat + (expires p).toNat < 4294967296 := by
            have := hbound (q, before.toNat + (expires p).toNat + (expires q).toNat)
              (mem_cons_of_mem _ mem_cons_self)
            omega
          change (q, _) :: deltas _ l = (q, (expires q).toNat + (expires p).toNat) :: _
          unfold unlink
          dsimp only
          rw [update_of_ne (Ne.symm hnodup.1.1), update_self,
            deltas_update hnodup.1.2, deltas_update hq, toNat_add_of_lt hsum]
          rfl
      · have hself : unlink expires p before l p = expires p + before := by
          cases l with
          | nil => exact update_self _ _ _
          | cons q l =>
            rw [mem_cons, not_or] at hnodup
            unfold unlink
            dsimp only
            rw [update_self, update_of_ne hnodup.1.1]
        rw [hself, toNat_add_of_lt (by omega), Nat.add_comm]
        exact mem_cons_self
      · intro q hq
        rw [mem_cons, not_or] at hq
        cases l with
        | nil => exact update_of_ne hq.1 _ _
        | cons r l =>
          unfold unlink
          dsimp only
          rw [update_of_ne hq.1, update_of_ne]
          rintro rfl
          exact hq.2 mem_cons_self
    · rw [if_neg hp]
      have ht' : t ∈ l := by
        rcases mem_cons.mp ht with rfl | ht'
        · exact absurd rfl hp
        · exact ht'
      have hsum := toNat_add_of_lt hfirst
      have hbound' : Bounded (before + expires p).toNat (deltas expires l) := by
        rw [hsum]
        intro x hx
        exact hbound x (mem_cons_of_mem _ hx)
      obtain ⟨expires', l', hwalk, hl', hdeltas, hmem, hframe⟩ := ih ht' hnodup.2 _ hbound'
      refine ⟨expires', p :: l', ?_, ?_, ?_, ?_, ?_⟩
      · rw [hwalk]
        rfl
      · rw [filter_cons_of_pos (by simpa using hp), hl']
      · change (p, _) :: deltas expires' l' = erase t ((p, _) :: deltas expires l)
        rw [hdeltas, hframe p hnodup.1]
        simp only [erase, if_neg hp]
      · rw [hsum] at hmem
        exact mem_cons_of_mem _ hmem
      · intro q hq
        rw [mem_cons, not_or] at hq
        exact hframe q hq.2

/-! ### The refinement -/

section Countdowns

variable {cs : List Countdown} {c : Countdown} {t : ℕ}

theorem countdownStep_del_none (h : cs.find? (·.timer = t) = none) :
    countdownStep cs (.del t) = (cs, .none) := by
  unfold countdownStep
  dsimp only
  rw [h]

theorem countdownStep_del_some (h : cs.find? (·.timer = t) = some c) :
    countdownStep cs (.del t) = (cs.filter (·.timer ≠ t), .deleted t (c.ticks - c.elapsed)) := by
  unfold countdownStep
  dsimp only
  rw [h]

theorem countdownStep_bh_none (h : cs.find? (·.due) = none) :
    countdownStep cs .bh = (cs, .none) := by
  unfold countdownStep
  rw [h]

theorem countdownStep_bh_some (h : cs.find? (·.due) = some c) :
    countdownStep cs .bh = (cs.filter (·.timer ≠ c.timer), .fired c.timer) := by
  unfold countdownStep
  rw [h]

end Countdowns

def Countdown.pair (c : Countdown) : ℕ × ℕ := (c.timer, c.ticks - c.elapsed)

structure Refines (s : Timers) (cs : List Countdown) : Prop where
  nodup : s.nextTimer.Nodup
  sorts : StableSorts s.remaining (cs.map Countdown.pair)
  bounded : ∀ x ∈ s.remaining, x.2 < 4294967296
  elapsed_le : ∀ c ∈ cs, c.elapsed ≤ c.ticks
  timers_nodup : (cs.map Countdown.timer).Nodup

section Refines

variable {s : Timers} {cs : List Countdown} (h : Refines s cs)

include h

theorem Refines.pending_iff (t : ℕ) : t ∈ s.nextTimer ↔ ∃ c ∈ cs, c.timer = t := by
  have hkeys : s.remaining.map Prod.fst = s.nextTimer := by
    unfold Timers.remaining
    rw [decode_keys]
    exact deltas_keys s.expires s.nextTimer
  rw [← hkeys]
  constructor
  · intro ht
    obtain ⟨x, hx, rfl⟩ := mem_map.mp ht
    obtain ⟨c, hc, rfl⟩ := mem_map.mp ((h.sorts.mem_iff x).mp hx)
    exact ⟨c, hc, rfl⟩
  · rintro ⟨c, hc, rfl⟩
    exact mem_map_of_mem (f := Prod.fst)
      ((h.sorts.mem_iff c.pair).mpr (mem_map_of_mem hc))

theorem Refines.due_iff {c : Countdown} (hc : c ∈ cs) : c.due = true ↔ c.pair.2 = 0 := by
  have hle := h.elapsed_le c hc
  unfold Countdown.due Countdown.pair
  rw [decide_eq_true_eq]
  omega

theorem Refines.add {t : ℕ} (ht : t ∉ s.nextTimer) (n : UInt32) :
    Refines (s.addTimer t n) (cs ++ [⟨t, n.toNat, 0⟩]) := by
  have hwalk := (addWalk_deltas t (update s.expires t n) ht h.nodup).1
  have hremaining : (s.addTimer t n).remaining = insertAfter (t, n.toNat) s.remaining := by
    change decode 0 (deltas (addWalk t (update s.expires t n) s.nextTimer).1
      (addWalk t (update s.expires t n) s.nextTimer).2) =
        insertAfter _ (decode 0 (deltas s.expires s.nextTimer))
    rw [hwalk, decode_insert, update_self, deltas_update ht, Nat.zero_add]
  refine ⟨?_, ?_, ?_, ?_, ?_⟩
  · have hperm := addWalk_keys t (update s.expires t n) ht h.nodup
    exact hperm.nodup_iff.mpr (nodup_cons.mpr ⟨ht, h.nodup⟩)
  · rw [hremaining, map_append]
    exact h.sorts.insert (t, n.toNat)
  · rw [hremaining]
    intro x hx
    rcases mem_insertAfter.mp hx with rfl | hx
    · exact n.toNat_lt
    · exact h.bounded x hx
  · intro c hc
    rcases mem_append.mp hc with hc | hc
    · exact h.elapsed_le c hc
    · rw [mem_singleton] at hc
      subst hc
      exact Nat.zero_le _
  · rw [map_append, nodup_append]
    refine ⟨h.timers_nodup, nodup_singleton _, ?_⟩
    intro x hx y hy
    rw [map_singleton, mem_singleton] at hy
    obtain ⟨c, hc, rfl⟩ := mem_map.mp hx
    rw [hy]
    intro heq
    exact ht ((h.pending_iff t).mpr ⟨c, hc, heq⟩)

theorem Refines.remove {s' : Timers} {t : ℕ} (hlist : s'.nextTimer = s.nextTimer.filter (· ≠ t))
    (hremaining : s'.remaining = s.remaining.filter fun x => x.1 ≠ t) :
    Refines s' (cs.filter (·.timer ≠ t)) := by
  refine ⟨?_, ?_, ?_, ?_, ?_⟩
  · rw [hlist]
    exact h.nodup.filter _
  · have hmap : (cs.filter (·.timer ≠ t)).map Countdown.pair =
        (cs.map Countdown.pair).filter fun x => x.1 ≠ t := by
      rw [filter_map]
      rfl
    rw [hremaining, hmap]
    exact h.sorts.filter _
  · rw [hremaining]
    intro x hx
    exact h.bounded x (mem_filter.mp hx).1
  · intro c hc
    exact h.elapsed_le c (mem_filter.mp hc).1
  · exact h.timers_nodup.sublist ((filter_sublist).map _)

theorem Refines.find?_eq {t : ℕ} {c : Countdown} (hc : c ∈ cs) (ht : c.timer = t) :
    cs.find? (·.timer = t) = some c := by
  cases hfind : cs.find? (·.timer = t) with
  | none =>
    rw [List.find?_eq_none] at hfind
    exact absurd (decide_eq_true ht) (hfind c hc)
  | some c' =>
    have hmem := mem_of_find?_eq_some hfind
    have heq := List.find?_some hfind
    rw [decide_eq_true_eq] at heq
    rw [inj_on_of_nodup_map h.timers_nodup hmem hc (heq.trans ht.symm)]

theorem Refines.del (t : ℕ) :
    Refines (s.step (.del t)).1 (countdownStep cs (.del t)).1 ∧
      (s.step (.del t)).2 = (countdownStep cs (.del t)).2 := by
  by_cases ht : t ∈ s.nextTimer
  · obtain ⟨expires', l', hwalk, hl', hdeltas, hmem, -⟩ := delWalk_some ht h.nodup 0 h.bounded
    have hnodup : ((deltas s.expires s.nextTimer).map Prod.fst).Nodup := by
      rw [deltas_keys]
      exact h.nodup
    obtain ⟨c, hc, hpair⟩ := mem_map.mp ((h.sorts.mem_iff _).mp hmem)
    have htimer : c.timer = t := congrArg Prod.fst hpair
    have htime : c.ticks - c.elapsed = (expires' t).toNat := congrArg Prod.snd hpair
    have hstep : s.step (.del t) =
        ({ s with nextTimer := l', expires := expires' }, .deleted t (expires' t).toNat) := by
      simp only [Timers.step, Timers.delTimer, hwalk]
    rw [hstep, countdownStep_del_some (h.find?_eq hc htimer), htime]
    refine ⟨h.remove hl' ?_, rfl⟩
    change decode 0 (deltas expires' l') = _
    rw [hdeltas, decode_erase t 0 _ hnodup]
    rfl
  · have hnone : cs.find? (·.timer = t) = none := by
      rw [List.find?_eq_none]
      intro c hc heq
      rw [decide_eq_true_eq] at heq
      exact ht ((h.pending_iff t).mpr ⟨c, hc, heq⟩)
    have hstep : s.step (.del t) = (s, .none) := by
      simp only [Timers.step, Timers.delTimer, delWalk_none s.expires ht]
    rw [hstep, countdownStep_del_none hnone]
    exact ⟨h, rfl⟩

omit h in
theorem Timers.remaining_cons {p : ℕ} {rest : List ℕ} (hlist : s.nextTimer = p :: rest) :
    s.remaining = (p, (s.expires p).toNat) ::
      decode (s.expires p).toNat (deltas s.expires rest) := by
  have hdecode : decode 0 (deltas s.expires (p :: rest)) =
      (p, 0 + (s.expires p).toNat) :: decode (0 + (s.expires p).toNat) (deltas s.expires rest) :=
    rfl
  rw [Nat.zero_add] at hdecode
  rw [← hdecode, ← hlist]
  rfl

omit h in
theorem Timers.doTimer_cons {p : ℕ} {rest : List ℕ} (hlist : s.nextTimer = p :: rest) :
    s.doTimer =
      if s.expires p ≠ 0 then
        { s with expires := update s.expires p (s.expires p - 1) }
      else { s with lostTicks := s.lostTicks + 1 } := by
  unfold Timers.doTimer
  rw [hlist]

theorem Refines.tick :
    Refines (s.step .tick).1 (countdownStep cs .tick).1 ∧
      (s.step .tick).2 = (countdownStep cs .tick).2 := by
  refine ⟨?_, rfl⟩
  change Refines s.doTimer (if cs.any (·.due) then cs else cs.map (·.tick))
  cases hlist : s.nextTimer with
  | nil =>
    have hstep : s.doTimer = s := by
      unfold Timers.doTimer
      rw [hlist]
    rw [hstep]
    have hcs : cs = [] := by
      apply eq_nil_iff_forall_not_mem.mpr
      intro c hc
      have hmem := (h.pending_iff c.timer).mpr ⟨c, hc, rfl⟩
      rw [hlist] at hmem
      exact not_mem_nil hmem
    subst hcs
    exact h
  | cons p rest =>
    have hremaining := Timers.remaining_cons hlist
    rw [Timers.doTimer_cons hlist]
    by_cases hzero : s.expires p = 0
    · -- The tick is lost: the first timer waits for its call.
      have hdue : cs.any (·.due) = true := by
        have hmem : (p, 0) ∈ s.remaining := by
          rw [hremaining, hzero]
          exact mem_cons_self
        obtain ⟨c, hc, hpair⟩ := mem_map.mp ((h.sorts.mem_iff _).mp hmem)
        rw [any_eq_true]
        exact ⟨c, hc, (h.due_iff hc).mpr (congrArg Prod.snd hpair)⟩
      rw [if_pos hdue, if_neg (not_not.mpr hzero)]
      exact ⟨h.nodup, h.sorts, h.bounded, h.elapsed_le, h.timers_nodup⟩
    · have hpos : 0 < (s.expires p).toNat := by
        rw [Nat.pos_iff_ne_zero]
        intro hnat
        exact hzero (UInt32.toNat_inj.mp hnat)
      have hleast : ∀ c ∈ cs, 0 < c.pair.2 := by
        intro c hc
        exact hpos.trans_le (h.sorts.head_le hremaining c.pair (mem_map_of_mem hc))
      have hnotdue : ¬cs.any (·.due) = true := by
        rw [any_eq_true]
        rintro ⟨c, hc, hdue⟩
        have := hleast c hc
        rw [h.due_iff hc] at hdue
        omega
      have hp : p ∉ rest := by
        have := h.nodup
        rw [hlist, nodup_cons] at this
        exact this.1
      rw [if_neg hnotdue, if_pos hzero]
      have hnext : Timers.remaining
          { s with expires := update s.expires p (s.expires p - 1) } =
          s.remaining.map fun x => (x.1, x.2 - 1) := by
        unfold Timers.remaining
        dsimp only
        rw [hlist]
        change decode 0 ((p, _) :: deltas _ rest) = (decode 0 ((p, _) :: deltas _ rest)).map _
        have hone : (1 : UInt32) ≤ s.expires p := by
          exact hpos
        rw [update_self, deltas_update hp, UInt32.toNat_sub_of_le _ _ hone]
        exact decode_pred 0 p hpos _
      refine ⟨h.nodup, ?_, ?_, ?_, ?_⟩
      · rw [hnext]
        have hmap : (cs.map (·.tick)).map Countdown.pair =
            (cs.map Countdown.pair).map fun x => (x.1, x.2 - 1) := by
          rw [map_map, map_map]
          apply map_congr_left
          intro c _
          exact congrArg (Prod.mk c.timer) (Nat.sub_add_eq c.ticks c.elapsed 1)
        rw [hmap]
        apply h.sorts.pred
        intro x hx
        have hx' := (h.sorts.mem_iff x).mp hx
        exact hpos.trans_le (h.sorts.head_le hremaining x hx')
      · rw [hnext]
        intro x hx
        obtain ⟨y, hy, rfl⟩ := mem_map.mp hx
        have := h.bounded y hy
        omega
      · intro c hc
        obtain ⟨c', hc', rfl⟩ := mem_map.mp hc
        have := hleast c' hc'
        change c'.elapsed + 1 ≤ c'.ticks
        unfold Countdown.pair at this
        omega
      · rw [map_map]
        exact h.timers_nodup

theorem Refines.bh :
    Refines (s.step .bh).1 (countdownStep cs .bh).1 ∧
      (s.step .bh).2 = (countdownStep cs .bh).2 := by
  cases hlist : s.nextTimer with
  | nil =>
    have hcs : cs = [] := by
      apply eq_nil_iff_forall_not_mem.mpr
      intro c hc
      have hmem := (h.pending_iff c.timer).mpr ⟨c, hc, rfl⟩
      rw [hlist] at hmem
      exact not_mem_nil hmem
    have hstep : s.step .bh = (s, .none) := by
      simp only [Timers.step, Timers.timerBh, hlist]
    rw [hstep, hcs]
    rw [hcs] at h
    exact ⟨h, rfl⟩
  | cons p rest =>
    have hremaining := Timers.remaining_cons hlist
    by_cases hzero : s.expires p = 0
    · rw [hzero] at hremaining
      have hstep : s.step .bh = ({ s with nextTimer := rest }, .fired p) := by
        simp only [Timers.step, Timers.timerBh, hlist, if_pos hzero]
      have hhead := h.sorts.head hremaining
      have hfind : ∃ c, cs.find? (·.due) = some c ∧ c.timer = p := by
        have hfilter : (cs.map Countdown.pair).filter (fun y => y.2 = 0) =
            (cs.filter (·.due)).map Countdown.pair := by
          rw [filter_map]
          congr 1
          apply filter_congr
          intro c hc
          rw [Bool.eq_iff_iff, h.due_iff hc, Function.comp_apply, decide_eq_true_eq]
        change ((cs.map Countdown.pair).filter fun y => y.2 = 0).head? = _ at hhead
        rw [hfilter, List.head?_map, List.head?_filter, Option.map_eq_some_iff] at hhead
        obtain ⟨c, hc, hpair⟩ := hhead
        exact ⟨c, hc, congrArg Prod.fst hpair⟩
      obtain ⟨c, hc, htimer⟩ := hfind
      have hcount := countdownStep_bh_some hc
      rw [htimer] at hcount
      have hnodup := h.nodup
      rw [hlist, nodup_cons] at hnodup
      have hother : rest.filter (· ≠ p) = rest := by
        rw [filter_eq_self]
        intro q hq
        rw [decide_eq_true_eq]
        rintro rfl
        exact hnodup.1 hq
      rw [hstep, hcount]
      refine ⟨h.remove ?_ ?_, rfl⟩
      · rw [hlist, filter_cons_of_neg (by simp)]
        exact hother.symm
      · have herase : erase p ((p, 0) :: deltas s.expires rest) = deltas s.expires rest := by
          unfold erase
          rw [if_pos rfl]
          cases deltas s.expires rest with
          | nil => rfl
          | cons x l => rfl
        have hkeys : (((p, 0) :: deltas s.expires rest).map Prod.fst).Nodup := by
          rw [map_cons, deltas_keys]
          exact nodup_cons.mpr hnodup
        have hdecode := decode_erase p 0 _ hkeys
        rw [herase] at hdecode
        rw [hremaining]
        exact hdecode
    · have hstep : s.step .bh = (s, .none) := by
        simp only [Timers.step, Timers.timerBh, hlist, if_neg hzero]
      have hnone : cs.find? (·.due) = none := by
        rw [List.find?_eq_none]
        intro c hc hdue
        have hle := h.sorts.head_le hremaining c.pair (mem_map_of_mem hc)
        rw [h.due_iff hc] at hdue
        rw [hdue, Nat.le_zero] at hle
        exact hzero (UInt32.toNat_inj.mp hle)
      rw [hstep, countdownStep_bh_none hnone]
      exact ⟨h, rfl⟩

theorem Refines.step {e : Event} (hadds : StepAdds s e) :
    Refines (s.step e).1 (countdownStep cs e).1 ∧ (s.step e).2 = (countdownStep cs e).2 := by
  cases e with
  | add t n => exact ⟨h.add hadds n, rfl⟩
  | del t => exact h.del t
  | tick => exact h.tick
  | bh => exact h.bh

end Refines

/-! ### Runs -/

theorem countdownRun_append (cs : List Countdown) (es es' : List Event) :
    (countdownRun cs (es ++ es')).1 = (countdownRun (countdownRun cs es).1 es').1 := by
  induction es generalizing cs with
  | nil => rfl
  | cons e es ih => exact ih _

variable {es : List Event}

theorem Refines.run {s : Timers} {cs : List Countdown} (h : Refines s cs)
    (hadds : RunAdds s es) :
    Refines (s.run es).1 (countdownRun cs es).1 ∧ (s.run es).2 = (countdownRun cs es).2 := by
  induction es generalizing s cs with
  | nil => exact ⟨h, rfl⟩
  | cons e es ih =>
    obtain ⟨hstep, hout⟩ := h.step hadds.1
    obtain ⟨hrun, houts⟩ := ih hstep hadds.2
    exact ⟨hrun, congrArg₂ List.cons hout houts⟩

theorem RunAdds.append {s : Timers} {es' : List Event} (h : RunAdds s (es ++ es')) :
    RunAdds s es ∧ RunAdds (s.run es).1 es' := by
  induction es generalizing s with
  | nil => exact ⟨trivial, h⟩
  | cons e es ih =>
    obtain ⟨hes, hes'⟩ := ih h.2
    exact ⟨⟨h.1, hes⟩, hes'⟩

theorem refines_init : Refines Timers.init [] :=
  ⟨nodup_nil, stableSorts_nil, fun _ hx => absurd hx not_mem_nil,
    fun _ hc => absurd hc not_mem_nil, nodup_nil⟩

def adds (t : ℕ) (es : List Event) : ℕ :=
  es.countP fun e => match e with
    | .add timer _ => timer = t
    | _ => false

def ends (t : ℕ) (outs : List Outcome) : ℕ :=
  outs.countP fun o => match o with
    | .fired timer => timer = t
    | .deleted timer _ => timer = t
    | .none => false

section
variable {cs : List Countdown} (hnodup : (cs.map Countdown.timer).Nodup)
include hnodup

theorem count_remove {c : Countdown} (hc : c ∈ cs) (t : ℕ) :
    (cs.filter (·.timer ≠ c.timer)).countP (·.timer = t) + (if c.timer = t then 1 else 0) =
      cs.countP (·.timer = t) := by
  induction cs with
  | nil => exact absurd hc not_mem_nil
  | cons d cs ih =>
    rw [map_cons, nodup_cons] at hnodup
    rcases mem_cons.mp hc with rfl | hc
    · have hrest : cs.filter (·.timer ≠ c.timer) = cs := by
        rw [filter_eq_self]
        intro d hd
        rw [decide_eq_true_eq]
        intro heq
        exact hnodup.1 (heq ▸ mem_map_of_mem hd)
      rw [filter_cons_of_neg (by simp), hrest, countP_cons]
      simp
    · have hne : d.timer ≠ c.timer := by
        intro heq
        exact hnodup.1 (heq ▸ mem_map_of_mem hc)
      rw [filter_cons_of_pos (by simpa using hne), countP_cons, countP_cons, ← ih hnodup.2 hc]
      omega

theorem count_step (e : Event) (t : ℕ) :
    cs.countP (·.timer = t) + adds t [e] =
      ends t [(countdownStep cs e).2] + (countdownStep cs e).1.countP (·.timer = t) := by
  cases e with
  | add timer n =>
    simp [countdownStep, adds, ends, countP_append, countP_cons]
  | del timer =>
    cases hfind : cs.find? (·.timer = timer) with
    | none =>
      rw [countdownStep_del_none hfind]
      simp [adds, ends]
    | some c =>
      have htimer := List.find?_some hfind
      rw [decide_eq_true_eq] at htimer
      have hcount := count_remove hnodup (mem_of_find?_eq_some hfind) t
      rw [htimer] at hcount
      rw [countdownStep_del_some hfind]
      simp only [adds, ends, countP_singleton, decide_eq_true_eq, Bool.false_eq_true, if_false]
      omega
  | tick =>
    have hcount : (if cs.any (·.due) then cs else cs.map (·.tick)).countP (·.timer = t) =
        cs.countP (·.timer = t) := by
      split_ifs
      · rfl
      · rw [countP_map]
        rfl
    simp only [countdownStep, hcount, adds, ends, countP_singleton]
    simp
  | bh =>
    cases hfind : cs.find? (·.due) with
    | none =>
      rw [countdownStep_bh_none hfind]
      simp [adds, ends]
    | some c =>
      have hcount := count_remove hnodup (mem_of_find?_eq_some hfind) t
      rw [countdownStep_bh_some hfind]
      simp only [adds, ends, countP_singleton, decide_eq_true_eq, Bool.false_eq_true, if_false]
      omega

end

theorem count_run {s : Timers} {cs : List Countdown} (h : Refines s cs)
    (hadds : RunAdds s es) (t : ℕ) :
    cs.countP (·.timer = t) + adds t es =
      ends t (countdownRun cs es).2 + (countdownRun cs es).1.countP (·.timer = t) := by
  induction es generalizing s cs with
  | nil => simp [adds, ends, countdownRun]
  | cons e es ih =>
    have hstep := count_step h.timers_nodup e t
    have hrun := ih (h.step hadds.1).1 hadds.2
    have hsplit : adds t (e :: es) = adds t [e] + adds t es := by
      unfold adds
      rw [← countP_append]
      rfl
    have hends : ends t (countdownRun cs (e :: es)).2 =
        ends t [(countdownStep cs e).2] + ends t (countdownRun (countdownStep cs e).1 es).2 := by
      unfold ends
      rw [← countP_append]
      rfl
    change _ = _ + (countdownRun (countdownStep cs e).1 es).1.countP _
    omega

theorem elapsed_run {t : ℕ} {cs : List Countdown}
    (hother : ∀ n, .add t n ∉ es) {k m : ℕ}
    (hcs : ∀ c ∈ cs, c.timer = t → c.ticks = k ∧ c.elapsed ≤ m) :
    ∀ c ∈ (countdownRun cs es).1, c.timer = t → c.ticks = k ∧ c.elapsed ≤ m + es.count .tick := by
  induction es generalizing cs m with
  | nil => exact hcs
  | cons e es ih =>
    have hrest : ∀ n, .add t n ∉ es := fun n hn => hother n (mem_cons_of_mem e hn)
    have hfilter : ∀ p : Countdown → Bool,
        ∀ c ∈ cs.filter p, c.timer = t → c.ticks = k ∧ c.elapsed ≤ m := fun p c hc =>
      hcs c (mem_filter.mp hc).1
    cases e with
    | add timer n =>
      have hne : timer ≠ t := by
        rintro rfl
        exact hother n mem_cons_self
      refine ih hrest ?_
      intro c hc htimer
      rcases mem_append.mp hc with hc | hc
      · exact hcs c hc htimer
      · rw [mem_singleton] at hc
        subst hc
        exact absurd htimer hne
    | del timer =>
      refine ih hrest ?_
      cases hfind : cs.find? (·.timer = timer) with
      | none =>
        rw [countdownStep_del_none hfind]
        exact hcs
      | some c =>
        rw [countdownStep_del_some hfind]
        exact hfilter _
    | tick =>
      rw [count_cons_self, Nat.add_comm (es.count _), ← Nat.add_assoc]
      refine ih hrest ?_
      intro c hc htimer
      change c ∈ (if cs.any (·.due) then cs else cs.map (·.tick)) at hc
      split_ifs at hc
      · have := hcs c hc htimer
        omega
      · obtain ⟨d, hd, rfl⟩ := mem_map.mp hc
        have := hcs d hd htimer
        change d.ticks = k ∧ d.elapsed + 1 ≤ m + 1
        omega
    | bh =>
      refine ih hrest ?_
      cases hfind : cs.find? (·.due) with
      | none =>
        rw [countdownStep_bh_none hfind]
        exact hcs
      | some c =>
        rw [countdownStep_bh_some hfind]
        exact hfilter _

theorem Refines.fires {s : Timers} {cs : List Countdown} (h : Refines s cs) {t : ℕ}
    (ht : (t, 0) ∈ s.remaining) {n : ℕ} (hn : s.nextTimer.length ≤ n) :
    .fired t ∈ (s.run (List.replicate n .bh)).2 := by
  induction n generalizing s cs with
  | zero =>
    have hnil : s.nextTimer = [] := length_eq_zero_iff.mp (Nat.le_zero.mp hn)
    unfold Timers.remaining at ht
    rw [hnil] at ht
    exact absurd ht not_mem_nil
  | succ n ih =>
    change _ ∈ (s.step .bh).2 :: ((s.step .bh).1.run (List.replicate n .bh)).2
    cases hlist : s.nextTimer with
    | nil =>
      unfold Timers.remaining at ht
      rw [hlist] at ht
      exact absurd ht not_mem_nil
    | cons p rest =>
      have hremaining := Timers.remaining_cons hlist
      have hzero : s.expires p = 0 := by
        have hle := h.sorts.head_le hremaining (t, 0) ((h.sorts.mem_iff _).mp ht)
        exact UInt32.toNat_inj.mp (Nat.le_zero.mp hle)
      have hstep : s.step .bh = ({ s with nextTimer := rest }, .fired p) := by
        simp only [Timers.step, Timers.timerBh, hlist, if_pos hzero]
      have hnext := h.bh.1
      rw [hstep] at hnext ⊢
      rw [hzero] at hremaining
      rw [hremaining] at ht
      rcases mem_cons.mp ht with heq | ht
      · rw [Prod.mk.injEq] at heq
        rw [heq.1]
        exact mem_cons_self
      · apply mem_cons_of_mem
        apply ih hnext ht
        rw [hlist, length_cons] at hn
        exact Nat.le_of_succ_le_succ hn

structure RightAfter (es : List Event) : Prop where
  outcomes : (Timers.init.run es).2 = (countdownRun [] es).2
  represents : StableSorts (Timers.init.run es).1.remaining
    ((countdownRun [] es).1.map Countdown.pair)
  add_keeps : ∀ t n, t ∉ (Timers.init.run es).1.nextTimer → ∀ t' r, t' ≠ t →
    ((t', r) ∈ ((Timers.init.run es).1.addTimer t n).remaining ↔
      (t', r) ∈ (Timers.init.run es).1.remaining)
  del_keeps : ∀ t t' r, t' ≠ t →
    ((t', r) ∈ ((Timers.init.run es).1.delTimer t).1.remaining ↔
      (t', r) ∈ (Timers.init.run es).1.remaining)
  del_restores : ∀ t r, (t, r) ∈ (Timers.init.run es).1.remaining →
    ((Timers.init.run es).1.delTimer t).2 = some r
  once : ∀ t, adds t es = ends t (Timers.init.run es).2 + (Timers.init.run es).1.nextTimer.count t
  not_early : ∀ t n before mid, es = before ++ .add t n :: mid → (∀ m, .add t m ∉ mid) →
    ((Timers.init.run es).1.step .bh).2 = .fired t → n.toNat ≤ mid.count .tick
  fires : ∀ t, (t, 0) ∈ (Timers.init.run es).1.remaining →
    .fired t ∈ ((Timers.init.run es).1.run
      (List.replicate (Timers.init.run es).1.nextTimer.length .bh)).2

theorem Refines.delTimer {s : Timers} {cs : List Countdown} (h : Refines s cs) (t : ℕ) :
    (s.delTimer t).1 = (s.step (.del t)).1 ∧
      ∀ r, (t, r) ∈ s.remaining → (s.delTimer t).2 = some r := by
  refine ⟨?_, ?_⟩
  · unfold Timers.step
    dsimp only
    split <;> rfl
  · intro r hr
    obtain ⟨c, hc, hpair⟩ := mem_map.mp ((h.sorts.mem_iff _).mp hr)
    have htimer : c.timer = t := congrArg Prod.fst hpair
    have htime : c.ticks - c.elapsed = r := congrArg Prod.snd hpair
    have hout := (h.del t).2
    rw [countdownStep_del_some (h.find?_eq hc htimer), htime] at hout
    unfold Timers.step at hout
    dsimp only at hout
    split at hout
    · exact absurd hout (by simp)
    · next n hn =>
      rw [hn]
      simpa using hout

def twoTimers : List Event := [.add 1 2, .add 2 2, .tick, .del 1, .add 1 1, .tick, .bh, .bh]

theorem twoTimers_adds : RunAdds Timers.init twoTimers := by
  refine ⟨?_, ?_, trivial, trivial, ?_, trivial, trivial, trivial, trivial⟩
  · change 1 ∉ _
    decide
  · change 2 ∉ _
    decide
  · change 1 ∉ _
    decide

example : (Timers.init.run twoTimers).2 =
    [.none, .none, .none, .deleted 1 1, .none, .none, .fired 2, .fired 1] := by
  decide

end LinuxKernel.Timer
