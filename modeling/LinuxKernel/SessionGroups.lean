import LinuxKernel.SessionModel

/-!
# Process groups stay in their sessions

The tasks of a group are in one session, and in the session of the task whose number the group
has, as long as that task is there.  `sys_setsid` looks only whether its caller leads a session:
a caller whose number is that of a group with other members takes the group apart.
-/

namespace LinuxKernel.Session
open List

section

variable {s s' : State} {pid lastPid n : ℕ}

/-! ## The search for a number -/

theorem mem_slots {i : Slot} : i ∈ slots ↔ 1 ≤ i ∧ i < nrTasks := by
  unfold slots nrTasks
  rw [range_eq_range', tail_range', mem_range'_1]

theorem anyTask_iff {q : Task → Bool} :
    s.anyTask q = true ↔ ∃ i ∈ slots, ∃ t, s.task i = some t ∧ q t = true := by
  unfold State.anyTask
  rw [any_eq_true]
  refine exists_congr fun i => and_congr_right fun _ => ?_
  cases s.task i with
  | none => simp
  | some t => simp

theorem taken_iff : s.taken pid = true ↔
    ∃ i ∈ slots, ∃ t, s.task i = some t ∧ (t.pid = pid ∨ t.pgrp = pid ∨ t.session = pid) := by
  unfold State.taken
  rw [anyTask_iff]
  refine exists_congr fun i => and_congr_right fun _ => exists_congr fun t => and_congr_right fun _ => ?_
  rw [Bool.or_eq_true, Bool.or_eq_true, decide_eq_true_eq, decide_eq_true_eq, decide_eq_true_eq,
    or_assoc]

theorem nextPid_range (lastPid : ℕ) : 1 ≤ nextPid lastPid ∧ nextPid lastPid < 0x8000 := by
  unfold nextPid
  split <;> omega

theorem findPid_some (h : s.findPid n lastPid = some pid) :
    s.taken pid = false ∧ 1 ≤ pid ∧ pid < 0x8000 := by
  induction n generalizing lastPid with
  | zero => cases h
  | succ n ih =>
    unfold State.findPid at h
    split at h
    · exact ih h
    · next hfree =>
      rw [← Option.some.inj h]
      exact ⟨by simpa using hfree, nextPid_range lastPid⟩

theorem taken_above (h : s.findPid n lastPid = none) {q : ℕ} (hlow : lastPid < q) (hq : q < 0x8000)
    (hn : q ≤ lastPid + n) : s.taken q = true := by
  induction n generalizing lastPid with
  | zero => omega
  | succ n ih =>
    unfold State.findPid at h
    split at h
    · next htaken =>
      have hnext : nextPid lastPid = lastPid + 1 := if_neg (by omega)
      rw [hnext] at h htaken
      by_cases heq : q = lastPid + 1
      · rw [heq]
        exact htaken
      · exact ih h (by omega) (by omega)
    · cases h

theorem taken_below (h : s.findPid n lastPid = none) {q : ℕ} (hpos : 1 ≤ q) (hle : q ≤ lastPid)
    (hlast : lastPid < 0x8000) (hn : 0x7fff - lastPid + q ≤ n) : s.taken q = true := by
  induction n generalizing lastPid with
  | zero => omega
  | succ n ih =>
    unfold State.findPid at h
    split at h
    · next htaken =>
      by_cases hwrap : 0x8000 ≤ lastPid + 1
      · have hnext : nextPid lastPid = 1 := if_pos hwrap
        rw [hnext] at h htaken
        by_cases heq : q = 1
        · rw [heq]
          exact htaken
        · exact taken_above h (by omega) (by omega) (by omega)
      · have hnext : nextPid lastPid = lastPid + 1 := if_neg hwrap
        exact ih h (by omega) (by omega) (by omega)
    · cases h

def State.numbers (s : State) : List ℕ :=
  slots.flatMap fun i => match s.task i with
    | some t => [t.pid, t.pgrp, t.session]
    | none => []

theorem numbers_length (s : State) : s.numbers.length ≤ 3 * slots.length := by
  unfold State.numbers
  rw [length_flatMap]
  induction slots with
  | nil => simp
  | cons i l ih =>
    rw [map_cons, sum_cons, length_cons]
    have hone : (match s.task i with
        | some t => [t.pid, t.pgrp, t.session]
        | none => []).length ≤ 3 := by
      split <;> simp
    omega

theorem mem_numbers (h : s.taken pid = true) : pid ∈ s.numbers := by
  obtain ⟨i, hi, t, ht, hpid⟩ := taken_iff.mp h
  unfold State.numbers
  rw [mem_flatMap]
  refine ⟨i, hi, ?_⟩
  rw [ht]
  rcases hpid with h | h | h <;> simp [h]

theorem findPid_isSome (s : State) (hlast : lastPid < 0x8000) :
    s.findPid 0x8000 lastPid ≠ none := by
  intro hnone
  have hall : ∀ q, 1 ≤ q → q < 0x8000 → s.taken q = true := by
    intro q hpos hq
    by_cases hle : q ≤ lastPid
    · exact taken_below hnone hpos hle hlast (by omega)
    · exact taken_above hnone (by omega) hq (by omega)
  have hsub : Finset.Ico 1 0x8000 ⊆ s.numbers.toFinset := by
    intro q hq
    rw [Finset.mem_Ico] at hq
    exact mem_toFinset.mpr (mem_numbers (hall q hq.1 hq.2))
  have hcard := Finset.card_le_card hsub
  rw [Nat.card_Ico] at hcard
  have hlen := (toFinset_card_le s.numbers).trans (numbers_length s)
  have hslots : slots.length = 127 := by
    unfold slots nrTasks
    rw [length_tail, length_range]
  omega

end

/-! ## The invariant -/

/-- Numbers are unique, and every group is in one session, that of the task with its number. -/
structure Inv (s : State) : Prop where
  pids : ∀ i j t u, s.task i = some t → s.task j = some u → t.pid = u.pid → i = j
  groups : ∀ i j t u, s.task i = some t → s.task j = some u → t.pgrp = u.pgrp → t.session =
    u.session
  heads : ∀ i j t u, s.task i = some t → s.task j = some u → t.pgrp = u.pid → t.session = u.session
  used : ∀ i t, s.task i = some t → i < nrTasks
  idle : ∀ t, s.task 0 = some t → t.pid = 0 ∧ t.pgrp = 0 ∧ t.session = 0
  last : s.lastPid < 0x8000

section

variable {s s' : State} {i cur : Slot} {t : Task} {pid : ℕ}

section
variable (h : Inv s)
include h

theorem Inv.mono (hlast : s'.lastPid < 0x8000)
    (hsub : ∀ i t', s'.task i = some t' → ∃ t, s.task i = some t ∧ t.pid = t'.pid ∧
      t.pgrp = t'.pgrp ∧ t.session = t'.session) : Inv s' := by
  refine ⟨?_, ?_, ?_, ?_, ?_, hlast⟩
  · intro i j t' u' ht' hu' heq
    obtain ⟨t, ht, htp, -, -⟩ := hsub i t' ht'
    obtain ⟨u, hu, hup, -, -⟩ := hsub j u' hu'
    exact h.pids i j t u ht hu (by rw [htp, hup, heq])
  · intro i j t' u' ht' hu' heq
    obtain ⟨t, ht, -, htg, hts⟩ := hsub i t' ht'
    obtain ⟨u, hu, -, hug, hus⟩ := hsub j u' hu'
    rw [← hts, ← hus]
    exact h.groups i j t u ht hu (by rw [htg, hug, heq])
  · intro i j t' u' ht' hu' heq
    obtain ⟨t, ht, -, htg, hts⟩ := hsub i t' ht'
    obtain ⟨u, hu, hup, -, hus⟩ := hsub j u' hu'
    rw [← hts, ← hus]
    exact h.heads i j t u ht hu (by rw [htg, hup, heq])
  · intro i t' ht'
    obtain ⟨t, ht, -⟩ := hsub i t' ht'
    exact h.used i t ht
  · intro t' ht'
    obtain ⟨t, ht, htp, htg, hts⟩ := hsub 0 t' ht'
    rw [← htp, ← htg, ← hts]
    exact h.idle t ht

omit h in
theorem setTask_task (s : State) (i j : Slot) (t : Option Task) :
    (s.setTask i t).task j = if j = i then t else s.task j :=
  Function.update_apply s.task i t j

theorem Inv.setTask (ht : s.task i = some t) {t' : Task} (hpid : t'.pid = t.pid)
    (hpgrp : t'.pgrp = t.pgrp) (hsession : t'.session = t.session) :
    Inv (s.setTask i (some t')) := by
  refine h.mono h.last fun j u hu => ?_
  rw [setTask_task] at hu
  split at hu
  · next hj =>
    rw [← Option.some.inj hu, hj]
    exact ⟨t, ht, hpid.symm, hpgrp.symm, hsession.symm⟩
  · exact ⟨u, hu, rfl, rfl, rfl⟩

theorem Inv.removeTask (i : Slot) : Inv (s.setTask i none) := by
  refine h.mono h.last fun j u hu => ?_
  rw [setTask_task] at hu
  split at hu
  · cases hu
  · exact ⟨u, hu, rfl, rfl, rfl⟩

theorem Inv.reparent (f : Task → Slot × Slot) : Inv (s.reparent f) := by
  refine h.mono h.last fun j u hu => ?_
  obtain ⟨t, ht, rfl⟩ := Option.map_eq_some_iff.mp hu
  exact ⟨t, ht, rfl, rfl, rfl⟩

theorem Inv.fresh (hfree : s.taken pid = false) (hpos : 1 ≤ pid) {u : Task} (hu : s.task i = some u)
    : u.pid ≠ pid ∧ u.pgrp ≠ pid ∧ u.session ≠ pid := by
  by_cases hi : i = 0
  · rw [hi] at hu
    obtain ⟨hp, hg, hs⟩ := h.idle u hu
    omega
  · have hslot : i ∈ slots := mem_slots.mpr ⟨Nat.pos_of_ne_zero hi, h.used i u hu⟩
    have hnone : ¬(u.pid = pid ∨ u.pgrp = pid ∨ u.session = pid) := by
      intro hor
      rw [taken_iff.mpr ⟨i, hslot, u, hu, hor⟩] at hfree
      cases hfree
    push Not at hnone
    exact hnone

theorem Inv.findEmptyProcess (uid : ℕ) : ∃ pid r,
    s.findEmptyProcess uid = some (pid, r) ∧ s.taken pid = false ∧ 1 ≤ pid ∧ pid < 0x8000 ∧
      ∀ i, r = .ok i → i ∈ slots ∧ s.task i = none := by
  cases hpid : s.findPid 0x8000 s.lastPid with
  | none => exact absurd hpid (findPid_isSome s h.last)
  | some pid =>
    obtain ⟨hfree, hpos, hlt⟩ := findPid_some hpid
    unfold State.findEmptyProcess
    rw [hpid]
    dsimp only
    split
    · exact ⟨pid, _, rfl, hfree, hpos, hlt, fun i hi => nomatch hi⟩
    · split
      · next i hi =>
        refine ⟨pid, _, rfl, hfree, hpos, hlt, fun j hj => ?_⟩
        have hmem := mem_of_head? hi
        rw [mem_filter, Option.isNone_iff_eq_none] at hmem
        have hij : i = j := by
          cases hj
          rfl
        rw [← hij]
        exact hmem
      · exact ⟨pid, _, rfl, hfree, hpos, hlt, fun i hi => nomatch hi⟩

theorem Inv.fork (ht : s.task cur = some t) : Inv (s.fork cur t) := by
  obtain ⟨pid, r, hfind, hfree, hpos, hlt, hslot⟩ := h.findEmptyProcess t.uid
  have hlast : Inv { s with lastPid := pid } := h.mono hlt fun i u hu => ⟨u, hu, rfl, rfl, rfl⟩
  unfold State.fork
  rw [hfind]
  cases r with
  | error e => exact hlast
  | ok i =>
    obtain ⟨hi, hnone⟩ := hslot i rfl
    set new : Task := { t with
      pid := pid, leader := false, didExec := false, pptr := cur, opptr := cur, stage := .making }
    have hcases : ∀ j u, ({ s with lastPid := pid }.setTask i (some new)).task j = some u →
        (j = i ∧ u = new) ∨ s.task j = some u := by
      intro j u hu
      rw [setTask_task] at hu
      split at hu
      · next hj => exact .inl ⟨hj, (Option.some.inj hu).symm⟩
      · exact .inr hu
    have hfresh : ∀ j u, s.task j = some u → u.pid ≠ pid ∧ u.pgrp ≠ pid ∧ u.session ≠ pid :=
      fun j u hu => h.fresh hfree hpos hu
    refine ⟨?_, ?_, ?_, ?_, ?_, hlt⟩
    · intro a b u w hu hw heq
      rcases hcases a u hu with ⟨ha, rfl⟩ | hu
      · rcases hcases b w hw with ⟨hb, rfl⟩ | hw
        · rw [ha, hb]
        · exact absurd heq.symm (hfresh b w hw).1
      · rcases hcases b w hw with ⟨hb, rfl⟩ | hw
        · exact absurd heq (hfresh a u hu).1
        · exact h.pids a b u w hu hw heq
    · intro a b u w hu hw heq
      rcases hcases a u hu with ⟨-, rfl⟩ | hu
      · rcases hcases b w hw with ⟨-, rfl⟩ | hw
        · rfl
        · exact h.groups cur b t w ht hw heq
      · rcases hcases b w hw with ⟨-, rfl⟩ | hw
        · exact h.groups a cur u t hu ht heq
        · exact h.groups a b u w hu hw heq
    · intro a b u w hu hw heq
      rcases hcases b w hw with ⟨-, rfl⟩ | hw
      · -- nobody is in the group of the new number
        rcases hcases a u hu with ⟨-, rfl⟩ | hu
        · exact absurd heq (hfresh cur t ht).2.1
        · exact absurd heq (hfresh a u hu).2.1
      · rcases hcases a u hu with ⟨-, rfl⟩ | hu
        · exact h.heads cur b t w ht hw heq
        · exact h.heads a b u w hu hw heq
    · intro a u hu
      rcases hcases a u hu with ⟨rfl, -⟩ | hu
      · exact (mem_slots.mp hi).2
      · exact h.used a u hu
    · intro u hu
      rcases hcases 0 u hu with ⟨h0, -⟩ | hu
      · exact absurd (mem_slots.mp hi).1 (by rw [← h0]; decide)
      · exact h.idle u hu

theorem Inv.setPgrp (hi : i ∈ slots) (ht : s.task i = some t) {pgid : ℕ}
    (hjoin : pgid = t.pid ∨ ∃ j u, s.task j = some u ∧ u.pgrp = pgid ∧ u.session = t.session) :
    Inv (s.setTask i (some { t with pgrp := pgid })) := by
  have hcases : ∀ j u, (s.setTask i (some { t with pgrp := pgid })).task j = some u →
      (j = i ∧ u = { t with pgrp := pgid }) ∨ (j ≠ i ∧ s.task j = some u) := by
    intro j u hu
    rw [setTask_task] at hu
    split at hu
    · next hj => exact .inl ⟨hj, (Option.some.inj hu).symm⟩
    · next hj => exact .inr ⟨hj, hu⟩
  -- the members of the group are in the session of the task
  have hmember : ∀ j u, s.task j = some u → u.pgrp = pgid → u.session = t.session := by
    intro j u hu heq
    rcases hjoin with hown | ⟨k, w, hw, hpgrp, hsession⟩
    · exact h.heads j i u t hu ht (by rw [heq, hown])
    · rw [h.groups j k u w hu hw (by rw [heq, hpgrp]), hsession]
  have hhead : ∀ j u, s.task j = some u → u.pid = pgid → u.session = t.session := by
    intro j u hu heq
    rcases hjoin with hown | ⟨k, w, hw, hpgrp, hsession⟩
    · have hij : j = i := h.pids j i u t hu ht (by rw [heq, hown])
      rw [hij, ht] at hu
      rw [Option.some.inj hu]
    · rw [← hsession]
      exact (h.heads k j w u hw hu (by rw [hpgrp, heq])).symm
  refine ⟨?_, ?_, ?_, ?_, ?_, h.last⟩
  · intro a b u w hu hw heq
    rcases hcases a u hu with ⟨ha, rfl⟩ | ⟨-, hu⟩
    · rcases hcases b w hw with ⟨hb, rfl⟩ | ⟨-, hw⟩
      · rw [ha, hb]
      · rw [ha]
        exact h.pids i b t w ht hw heq
    · rcases hcases b w hw with ⟨hb, rfl⟩ | ⟨-, hw⟩
      · rw [hb]
        exact h.pids a i u t hu ht heq
      · exact h.pids a b u w hu hw heq
  · intro a b u w hu hw heq
    rcases hcases a u hu with ⟨-, rfl⟩ | ⟨-, hu⟩
    · rcases hcases b w hw with ⟨-, rfl⟩ | ⟨-, hw⟩
      · rfl
      · exact (hmember b w hw heq.symm).symm
    · rcases hcases b w hw with ⟨-, rfl⟩ | ⟨-, hw⟩
      · exact hmember a u hu heq
      · exact h.groups a b u w hu hw heq
  · intro a b u w hu hw heq
    rcases hcases a u hu with ⟨-, rfl⟩ | ⟨-, hu⟩
    · rcases hcases b w hw with ⟨-, rfl⟩ | ⟨-, hw⟩
      · rfl
      · exact (hhead b w hw heq.symm).symm
    · rcases hcases b w hw with ⟨-, rfl⟩ | ⟨-, hw⟩
      · exact h.heads a i u t hu ht heq
      · exact h.heads a b u w hu hw heq
  · intro a u hu
    rcases hcases a u hu with ⟨rfl, -⟩ | ⟨-, hu⟩
    · exact (mem_slots.mp hi).2
    · exact h.used a u hu
  · intro u hu
    rcases hcases 0 u hu with ⟨h0, -⟩ | ⟨-, hu⟩
    · exact absurd (mem_slots.mp hi).1 (by rw [← h0]; decide)
    · exact h.idle u hu

omit h in
theorem findTask_some {q : Task → Bool} (h : s.findTask q = some i) :
    i ∈ slots ∧ ∃ t, s.task i = some t ∧ q t = true := by
  refine ⟨mem_of_find?_eq_some h, ?_⟩
  have hany := List.find?_some h
  cases htask : s.task i with
  | none =>
    rw [htask] at hany
    cases hany
  | some t =>
    rw [htask] at hany
    exact ⟨t, rfl, hany⟩

theorem Inv.setpgid (ht : s.task cur = some t) (pid pgid : ℤ) :
    Inv (s.setpgid cur t pid pgid).1 := by
  unfold State.setpgid
  dsimp only
  generalize (if pid = 0 then (t.pid : ℤ) else pid) = pid'
  generalize (if pgid = 0 then pid' else pgid) = pgid'
  split
  · exact h
  · next hneg =>
    split
    · exact h
    · next i hfind =>
      obtain ⟨hi, p, hp, hpid⟩ := findTask_some hfind
      rw [decide_eq_true_eq] at hpid
      rw [hp]
      dsimp only
      split
      · exact h
      · next hforeign =>
        split
        · exact h
        · split
          · exact h
          · next hstranger =>
            split
            · exact h
            · split
              · exact h
              · next hjoin =>
                have hsession : p.session = t.session := by
                  by_cases hchild : p.pptr = cur ∨ p.opptr = cur
                  · by_contra hne
                    exact hforeign ⟨hchild, hne⟩
                  · have hself : i = cur := by
                      by_contra hne
                      exact hstranger ⟨hchild, hne⟩
                    rw [hself, ht] at hp
                    rw [Option.some.inj hp]
                refine h.setPgrp hi hp ?_
                by_cases heq : pgid' = pid'
                · left
                  rw [heq, ← hpid, Int.toNat_natCast]
                · right
                  have hany : s.anyTask (fun tmp => decide ((tmp.pgrp : ℤ) = pgid') &&
                      decide (tmp.session = t.session)) = true := by
                    by_contra hnone
                    exact hjoin ⟨heq, by simpa using hnone⟩
                  obtain ⟨j, -, u, hu, hboth⟩ := anyTask_iff.mp hany
                  rw [Bool.and_eq_true, decide_eq_true_eq, decide_eq_true_eq] at hboth
                  refine ⟨j, u, hu, ?_, hboth.2.trans hsession.symm⟩
                  rw [← hboth.1, Int.toNat_natCast]

theorem Inv.setsid (hcur : cur ∈ slots) (ht : s.task cur = some t)
    (halone : t.leader = false → ∀ j u, s.task j = some u → u.pgrp = t.pid → j = cur) :
    Inv (s.setsid cur t).1 := by
  unfold State.setsid
  split
  · exact h
  · next hleader =>
    set new : Task := { t with leader := true, session := t.pid, pgrp := t.pid }
    have hcases : ∀ j u, (s.setTask cur (some new)).task j = some u →
        (j = cur ∧ u = new) ∨ (j ≠ cur ∧ s.task j = some u) := by
      intro j u hu
      rw [setTask_task] at hu
      split at hu
      · next hj => exact .inl ⟨hj, (Option.some.inj hu).symm⟩
      · next hj => exact .inr ⟨hj, hu⟩
    have hnone : ∀ j u, j ≠ cur → s.task j = some u → u.pgrp ≠ t.pid :=
      fun j u hj hu heq => hj (halone (by simpa using hleader) j u hu heq)
    refine ⟨?_, ?_, ?_, ?_, ?_, h.last⟩
    · intro a b u w hu hw heq
      rcases hcases a u hu with ⟨ha, rfl⟩ | ⟨-, hu⟩
      · rcases hcases b w hw with ⟨hb, rfl⟩ | ⟨-, hw⟩
        · rw [ha, hb]
        · rw [ha]
          exact h.pids cur b t w ht hw heq
      · rcases hcases b w hw with ⟨hb, rfl⟩ | ⟨-, hw⟩
        · rw [hb]
          exact h.pids a cur u t hu ht heq
        · exact h.pids a b u w hu hw heq
    · intro a b u w hu hw heq
      rcases hcases a u hu with ⟨-, rfl⟩ | ⟨ha, hu⟩
      · rcases hcases b w hw with ⟨-, rfl⟩ | ⟨hb, hw⟩
        · rfl
        · exact absurd heq.symm (hnone b w hb hw)
      · rcases hcases b w hw with ⟨-, rfl⟩ | ⟨-, hw⟩
        · exact absurd heq (hnone a u ha hu)
        · exact h.groups a b u w hu hw heq
    · intro a b u w hu hw heq
      rcases hcases a u hu with ⟨-, rfl⟩ | ⟨ha, hu⟩
      · rcases hcases b w hw with ⟨-, rfl⟩ | ⟨hb, hw⟩
        · rfl
        · exact absurd (h.pids b cur w t hw ht heq.symm) hb
      · rcases hcases b w hw with ⟨-, rfl⟩ | ⟨-, hw⟩
        · exact absurd heq (hnone a u ha hu)
        · exact h.heads a b u w hu hw heq
    · intro a u hu
      rcases hcases a u hu with ⟨ha, -⟩ | ⟨-, hu⟩
      · rw [ha]
        exact (mem_slots.mp hcur).2
      · exact h.used a u hu
    · intro u hu
      rcases hcases 0 u hu with ⟨h0, -⟩ | ⟨-, hu⟩
      · exact absurd (mem_slots.mp hcur).1 (by rw [← h0]; decide)
      · exact h.idle u hu

end

theorem caller_some (h : s.caller cur = some t) : cur ∈ slots ∧ s.task cur = some t := by
  unfold State.caller at h
  split at h
  · next u hu =>
    split at h
    · next hruns => exact ⟨hruns.1, by rw [hu]; exact h⟩
    · cases h
  · cases h

end

/-- `sys_setsid` is called by a leader, where it fails, or by a task whose number is not the group
of another one. -/
def Event.GroupSafe (s : State) : Event → Prop
  | .setsid cur => ∀ t, s.caller cur = some t → t.leader = false →
      ∀ j u, s.task j = some u → u.pgrp = t.pid → j = cur
  | _ => True

def RunGroupSafe : State → List Event → Prop
  | _, [] => True
  | s, e :: es => e.GroupSafe s ∧ RunGroupSafe (step s e) es

section

variable {s : State}

theorem Inv.step (h : Inv s) {e : Event} (he : e.GroupSafe s) : Inv (step s e) := by
  cases e with
  | fork cur =>
    dsimp only [Session.step]
    split
    · next t ht => exact h.fork (caller_some ht).2
    · exact h
  | forkEnd i =>
    dsimp only [Session.step]
    split
    · next t ht =>
      split
      · exact h.setTask ht rfl rfl rfl
      · exact h
    · exact h
  | forkFail i =>
    dsimp only [Session.step]
    split
    · split
      · exact h.removeTask i
      · exact h
    · exact h
  | exec cur =>
    dsimp only [Session.step]
    split
    · next t ht => exact h.setTask (caller_some ht).2 rfl rfl rfl
    · exact h
  | exit cur =>
    dsimp only [Session.step]
    split
    · next t ht =>
      have hzombie : Inv (s.setTask cur (some { t with stage := .zombie })) :=
        h.setTask (caller_some ht).2 rfl rfl rfl
      exact hzombie.reparent _
    · exact h
  | wait cur i =>
    dsimp only [Session.step]
    split
    · next t ht =>
      split
      · split
        · exact h.setTask ht rfl rfl rfl
        · exact h.removeTask i
      · exact h
    · exact h
  | trace i tracer =>
    dsimp only [Session.step]
    split
    · next t ht => exact h.setTask ht rfl rfl rfl
    · exact h
  | setpgid cur pid pgid =>
    dsimp only [Session.step]
    split
    · next t ht => exact h.setpgid (caller_some ht).2 pid pgid
    · exact h
  | setsid cur =>
    dsimp only [Session.step]
    split
    · next t ht => exact h.setsid (caller_some ht).1 (caller_some ht).2 (he t ht)
    · exact h
  | setuid cur uid =>
    dsimp only [Session.step]
    split
    · next t ht => exact h.setTask (caller_some ht).2 rfl rfl rfl
    · exact h

theorem Inv.run (h : Inv s) (es : List Event) (hes : RunGroupSafe s es) : Inv (run s es) := by
  induction es generalizing s with
  | nil => exact h
  | cons e es ih => exact ih (h.step hes.1) hes.2

theorem boot_inv : Inv boot := by
  have hcases : ∀ i t, boot.task i = some t →
      (i = 0 ∧ t.pid = 0 ∨ i = 1 ∧ t.pid = 1) ∧ t.pgrp = 0 ∧ t.session = 0 := by
    intro i t ht
    unfold boot at ht
    dsimp only at ht
    split at ht
    · next hi =>
      rw [← Option.some.inj ht]
      exact ⟨.inl ⟨hi, rfl⟩, rfl, rfl⟩
    · split at ht
      · next hi =>
        rw [← Option.some.inj ht]
        exact ⟨.inr ⟨hi, rfl⟩, rfl, rfl⟩
      · cases ht
  refine ⟨?_, ?_, ?_, ?_, ?_, by decide⟩
  · intro i j t u ht hu heq
    rcases (hcases i t ht).1 with ⟨hi, htp⟩ | ⟨hi, htp⟩
    · rcases (hcases j u hu).1 with ⟨hj, hup⟩ | ⟨hj, hup⟩
      · rw [hi, hj]
      · omega
    · rcases (hcases j u hu).1 with ⟨hj, hup⟩ | ⟨hj, hup⟩
      · omega
      · rw [hi, hj]
  · intro i j t u ht hu _
    rw [(hcases i t ht).2.2, (hcases j u hu).2.2]
  · intro i j t u ht hu _
    rw [(hcases i t ht).2.2, (hcases j u hu).2.2]
  · intro i t ht
    rcases (hcases i t ht).1 with ⟨hi, -⟩ | ⟨hi, -⟩ <;> rw [hi] <;> decide
  · intro t ht
    obtain ⟨hpid, hpgrp, hsession⟩ := hcases 0 t ht
    refine ⟨?_, hpgrp, hsession⟩
    rcases hpid with ⟨-, hpid⟩ | ⟨h01, -⟩
    · exact hpid
    · exact absurd h01 (by decide)

/-- Groups do not span sessions, and a new number is not one of an existing task. -/
structure SessionsOk (s : State) : Prop where
  groups : ∀ i j t u, s.task i = some t → s.task j = some u → t.pgrp = u.pgrp → t.session =
    u.session
  fresh : ∀ uid, ∃ pid r, s.findEmptyProcess uid = some (pid, r) ∧
    ∀ i t, s.task i = some t → t.pid ≠ pid ∧ t.pgrp ≠ pid ∧ t.session ≠ pid

theorem Inv.sessionsOk (h : Inv s) : SessionsOk s := by
  refine ⟨h.groups, fun uid => ?_⟩
  obtain ⟨pid, r, hfind, hfree, hpos, -, -⟩ := h.findEmptyProcess uid
  exact ⟨pid, r, hfind, fun i t ht => h.fresh hfree hpos ht⟩

end

/-- Groups stay in their sessions in every run where nobody leaves a group of its own number, with
others in it, for a session of its own. -/
theorem run_sessionsOk (es : List Event) (hes : RunGroupSafe boot es) : SessionsOk (run boot es) :=
  (boot_inv.run es hes).sessionsOk

def aloneInGroup : State := step (step (step boot (.fork 1)) (.forkEnd 2)) (.setpgid 2 0 0)

theorem aloneInGroup_inv : Inv aloneInGroup := by
  have hfork : Inv (step boot (.fork 1)) := boot_inv.step trivial
  have hmade : Inv (step (step boot (.fork 1)) (.forkEnd 2)) := hfork.step trivial
  exact hmade.step trivial

theorem aloneInGroup_safe : Event.GroupSafe aloneInGroup (.setsid 2) := by
  have hcaller : aloneInGroup.caller 2 = some ⟨2, 2, 0, false, 0, false, 1, 1, .running⟩ := by
    decide +kernel
  have hgroup : ∀ j < nrTasks, (aloneInGroup.task j).all
      (fun u => decide (u.pgrp = 2 → j = 2)) = true := by
    decide +kernel
  intro t ht _ j u hu heq
  rw [hcaller] at ht
  rw [← Option.some.inj ht] at heq
  have hall := hgroup j (aloneInGroup_inv.used j u hu)
  rw [hu, Option.all_some, decide_eq_true_eq] at hall
  exact hall heq

/-- It becomes the leader of a session before it makes a third process. -/
theorem run_sessionsOk_leader :
    SessionsOk (run boot [.fork 1, .forkEnd 2, .setpgid 2 0 0, .setsid 2, .fork 2]) :=
  run_sessionsOk _ ⟨trivial, trivial, trivial, aloneInGroup_safe, trivial, trivial⟩

/-- The second process becomes the leader of a group, makes a third one, and then begins a session:
the third one is left in the group, and in the old session. -/
theorem split_group :
    ¬SessionsOk (run boot
      [.fork 1, .forkEnd 2, .setpgid 2 0 0, .fork 2, .forkEnd 3, .setsid 2]) := by
  intro hok
  have hleader : (run boot
      [.fork 1, .forkEnd 2, .setpgid 2 0 0, .fork 2, .forkEnd 3, .setsid 2]).task 2 =
        some ⟨2, 2, 2, true, 0, false, 1, 1, .running⟩ := by
    decide +kernel
  have hmember : (run boot
      [.fork 1, .forkEnd 2, .setpgid 2 0 0, .fork 2, .forkEnd 3, .setsid 2]).task 3 =
        some ⟨3, 2, 0, false, 0, false, 2, 2, .running⟩ := by
    decide +kernel
  exact absurd (hok.groups 2 3 _ _ hleader hmember rfl) (by decide)

end LinuxKernel.Session
