import LinuxKernel.SemaphoreUndo

/-!
# Values and adjustments over a run

The linkage of records, sets and sleepers holds in every run without `IPC_RMID`.
On top of it, one step of a run in which every operation carries `SEM_UNDO`
leaves the value of each semaphore and its adjustments with the same sum.
-/

namespace LinuxKernel.Semaphore
open Function List

/-! ## Giving operations their records -/

theorem newUndo_sets_undo (s : Sems) (t : Task) (semid sma num a : ℕ) :
    ((s.newUndo t semid sma num).sets a).undo =
      if a = sma then s.nextUndo :: (s.sets a).undo else (s.sets a).undo := by
  unfold Sems.newUndo
  by_cases ha : a = sma
  · rw [ha]
    simp
  · simp [ha]

variable {s : Sems} {un : ℕ}

theorem newUndo_undos_of_mem (h : UndosOk s) (t : Task) (semid sma num : ℕ) {t' : Task}
    (hun : un ∈ s.semun t') : (s.newUndo t semid sma num).undos un = s.undos un := by
  have hlt := h.fresh t' un hun
  unfold Sems.newUndo
  dsimp only
  rw [update_of_ne]
  omega

theorem Found.newUndo (h : UndosOk s) {t' : Task} {semid' num' : ℕ}
    (hfound : Found s t' semid' num') (t : Task) (semid sma num : ℕ) :
    Found (s.newUndo t semid sma num) t' semid' num' := by
  obtain ⟨un, hun, hrecord⟩ := hfound
  refine ⟨un, ?_, ?_⟩
  · unfold Sems.newUndo
    dsimp only
    by_cases ht : t' = t
    · rw [ht, update_self]
      rw [ht] at hun
      exact mem_cons_of_mem _ hun
    · rw [update_of_ne ht]
      exact hun
  · rw [newUndo_undos_of_mem h t semid sma num hun]
    exact hrecord

theorem found_newUndo (s : Sems) (t : Task) (semid sma num : ℕ) :
    Found (s.newUndo t semid sma num) t semid num := by
  refine ⟨s.nextUndo, ?_, ?_⟩ <;> simp [Sems.newUndo]

variable {t : Task} {semid sma : ℕ}

theorem Linkage.newUndo (h : Linkage none s) (hawake : s.sleep t = none)
    (hslot : s.semary (semid % semmni) = .set sma) (num : ℕ) :
    Linkage none (s.newUndo t semid sma num) := by
  have hadded := newUndo_added t semid sma h.undosOk num
  constructor
  · exact hadded.undosOk
  · exact h.slot_inj
  · exact h.slot_fresh
  · intro t' un hun
    unfold Sems.newUndo at hun
    dsimp only at hun
    have hcases : (un = s.nextUndo ∧ t' = t) ∨ un ∈ s.semun t' := by
      by_cases ht : t' = t
      · rw [ht, update_self] at hun
        rcases mem_cons.mp hun with heq | hmem
        · exact .inl ⟨heq, ht⟩
        · rw [ht]
          exact .inr hmem
      · rw [update_of_ne ht] at hun
        exact .inr hun
    rcases hcases with ⟨heq, _⟩ | hmem
    · refine ⟨sma, ?_, .inl ?_⟩
      · rw [heq]
        simpa [Sems.newUndo] using hslot
      · rw [newUndo_sets_undo, if_pos rfl, heq]
        exact mem_cons_self ..
    · obtain ⟨sma', hslot', hlinked⟩ := h.record t' un hmem
      refine ⟨sma', ?_, ?_⟩
      · rw [newUndo_undos_of_mem h.undosOk t semid sma num hmem]
        exact hslot'
      · rcases hlinked with hin | hexit | hheld
        · left
          rw [newUndo_sets_undo]
          split
          · exact mem_cons_of_mem _ hin
          · exact hin
        · exact .inr (.inl hexit)
        · exact .inr (.inr hheld)
  · exact h.semop_slot
  · intro t' w semid' sops sop hw hwaiting sop' hsop' hundo
    exact (h.semop_found t' w semid' sops sop hw hwaiting sop' hsop' hundo).newUndo h.undosOk
      t semid sma num
  · intro t' w un hw hwaiting
    change s.sleep t' = some w at hw
    obtain ⟨⟨rest, hrest⟩, hslot'⟩ := h.exit_head t' w un hw hwaiting
    have hne : t' ≠ t := by
      intro heq
      rw [heq, hawake] at hw
      simp at hw
    constructor
    · refine ⟨rest, ?_⟩
      unfold Sems.newUndo
      dsimp only
      rw [update_of_ne hne]
      exact hrest
    · have hmem : un ∈ s.semun t' := by
        rw [hrest]
        exact mem_cons_self ..
      rw [newUndo_undos_of_mem h.undosOk t semid sma num hmem]
      exact hslot'

theorem newUndo_recAdj (h : UndosOk s) {num : ℕ} (sma : ℕ)
    (hnone : s.findUndo t semid num = none) (n : ℕ) :
    (s.newUndo t semid sma num).recAdj t semid n = s.recAdj t semid n := by
  have hsemun : (s.newUndo t semid sma num).semun t = s.nextUndo :: s.semun t := update_self ..
  have hhead : (s.newUndo t semid sma num).undos s.nextUndo =
      { semid := semid, semadj := 0, semNum := num } := update_self ..
  by_cases hn : n = num
  · have hfind : (s.newUndo t semid sma num).findUndo t semid n = some s.nextUndo := by
      unfold Sems.findUndo
      rw [hsemun, List.find?_cons_of_pos]
      simp [hhead, hn]
    unfold Sems.recAdj
    rw [hfind, hn, hnone]
    simp [hhead]
  · have hfind : (s.newUndo t semid sma num).findUndo t semid n = s.findUndo t semid n := by
      unfold Sems.findUndo
      rw [hsemun, List.find?_cons_of_neg]
      · apply List.find?_congr
        intro un hun
        rw [newUndo_undos_of_mem h t semid sma num hun]
      · simp [hhead, Ne.symm hn]
    unfold Sems.recAdj
    rw [hfind]
    cases hfound : s.findUndo t semid n with
    | none => rfl
    | some un =>
      dsimp only
      rw [newUndo_undos_of_mem h t semid sma num (findUndo_some hfound).1]

theorem ensureUndos_found (h : UndosOk s) (t : Task) (semid sma free : ℕ)
    (sops : List Sembuf) (henough : (s.ensureUndos t semid sma free sops).2 = true) :
    (∀ sop ∈ sops, sop.undo = true →
        Found (s.ensureUndos t semid sma free sops).1 t semid sop.num) ∧
      ∀ t' semid' num, Found s t' semid' num →
        Found (s.ensureUndos t semid sma free sops).1 t' semid' num := by
  induction sops generalizing s free with
  | nil => exact ⟨by simp, fun t' semid' num hfound => hfound⟩
  | cons sop rest ih =>
    unfold Sems.ensureUndos at henough ⊢
    split at henough
    · rename_i hundo
      rw [if_pos hundo]
      split at henough
      · rename_i un hun
        obtain ⟨hrest, hkeep⟩ := ih h free henough
        refine ⟨?_, hkeep⟩
        intro sop' hsop' hundo'
        rcases mem_cons.mp hsop' with heq | hmem
        · rw [heq]
          exact hkeep t semid sop.num ⟨un, findUndo_some hun⟩
        · exact hrest sop' hmem hundo'
      · rename_i hnone
        split at henough
        · simp at henough
        · rename_i free'
          have hadded := newUndo_added t semid sma h sop.num
          obtain ⟨hrest, hkeep⟩ := ih hadded.undosOk free' henough
          refine ⟨?_, ?_⟩
          · intro sop' hsop' hundo'
            rcases mem_cons.mp hsop' with heq | hmem
            · rw [heq]
              exact hkeep t semid sop.num (found_newUndo s t semid sma sop.num)
            · exact hrest sop' hmem hundo'
          · intro t' semid' num hfound
            exact hkeep t' semid' num (hfound.newUndo h t semid sma sop.num)
    · rename_i hundo
      rw [if_neg hundo]
      obtain ⟨hrest, hkeep⟩ := ih h free henough
      refine ⟨?_, hkeep⟩
      intro sop' hsop' hundo'
      rcases mem_cons.mp hsop' with heq | hmem
      · rw [heq] at hundo'
        exact absurd hundo' hundo
      · exact hrest sop' hmem hundo'

theorem Linkage.ensureUndos (h : Linkage none s) (hawake : s.sleep t = none)
    (hslot : s.semary (semid % semmni) = .set sma) (free : ℕ)
    (sops : List Sembuf) : Linkage none (s.ensureUndos t semid sma free sops).1 := by
  induction sops generalizing s free with
  | nil => exact h
  | cons sop rest ih =>
    unfold Sems.ensureUndos
    split
    · split
      · exact ih h hawake hslot free
      · split
        · exact h
        · exact ih (h.newUndo hawake hslot sop.num) hawake hslot _
    · exact ih h hawake hslot free

theorem ensureUndos_recAdj (h : UndosOk s) (t : Task) (semid sma free : ℕ)
    (sops : List Sembuf) (n : ℕ) :
    (s.ensureUndos t semid sma free sops).1.recAdj t semid n = s.recAdj t semid n := by
  induction sops generalizing s free with
  | nil => rfl
  | cons sop rest ih =>
    unfold Sems.ensureUndos
    split
    · split
      · exact ih h free
      · rename_i hnone
        split
        · rfl
        · rw [ih (newUndo_added t semid sma h sop.num).undosOk]
          exact newUndo_recAdj h sma hnone n
    · exact ih h free

theorem awake_sameLists (s : Sems) (t : Task) (w : Sleeper) : SameLists s (s.awake t w) := by
  have hlists := addWaiting_sameLists s w.sma w.num w.forZero (-1)
  exact ⟨hlists.semary, hlists.semun, hlists.nextUndo, hlists.nextSet, hlists.undo, hlists.record⟩

variable {held : Option (Task × ℕ)}

theorem Linkage.awake (h : Linkage none s) {w : Sleeper}
    (hw : s.sleep t = some w)
    (hheld : ∀ un, w.waiting = .exit un → held = some (t, un)) : Linkage held (s.awake t w) := by
  have hlists := awake_sameLists s t w
  have hsleep : ∀ t' w', (s.awake t w).sleep t' = some w' → t' ≠ t ∧ s.sleep t' = some w' := by
    intro t' w' hw'
    simp only [Sems.awake] at hw'
    by_cases ht : t' = t
    · rw [ht, update_self] at hw'
      simp at hw'
    · rw [update_of_ne ht] at hw'
      exact ⟨ht, hw'⟩
  constructor
  · exact h.undosOk.of_eq hlists.semun hlists.nextUndo
  · rw [hlists.semary]
    exact h.slot_inj
  · rw [hlists.semary, hlists.nextSet]
    exact h.slot_fresh
  · intro t' un hun
    rw [hlists.semun] at hun
    obtain ⟨sma, hslot, hlinked⟩ := h.record t' un hun
    refine ⟨sma, ?_, ?_⟩
    · rw [hlists.semary, (hlists.record un).1]
      exact hslot
    · rw [hlists.undo]
      rcases hlinked with hin | ⟨w', hw', hwaiting⟩ | hnone
      · exact .inl hin
      · by_cases ht : t' = t
        · rw [ht, hw, Option.some.injEq] at hw'
          rw [← hw'] at hwaiting
          rw [ht]
          exact .inr (.inr (hheld un hwaiting))
        · refine .inr (.inl ⟨w', ?_, hwaiting⟩)
          simp only [Sems.awake, update_of_ne ht]
          exact hw'
      · simp at hnone
  · intro t' w' semid sops sop hw' hwaiting
    rw [hlists.semary]
    exact h.semop_slot t' w' semid sops sop (hsleep t' w' hw').2 hwaiting
  · intro t' w' semid sops sop hw' hwaiting sop' hsop' hundo
    exact (h.semop_found t' w' semid sops sop (hsleep t' w' hw').2 hwaiting sop' hsop'
      hundo).of_sameLists hlists
  · intro t' w' un hw' hwaiting
    rw [hlists.semun, hlists.semary, (hlists.record un).1]
    exact h.exit_head t' w' un (hsleep t' w' hw').2 hwaiting

variable {rest : List ℕ}

theorem Linkage.dropUndo (h : Linkage held s) (hawake : s.sleep t = none)
    (hhead : s.semun t = un :: rest)
    (hheld : ∀ p, held = some p → p = (t, un)) : Linkage none (s.dropUndo t) := by
  have hrest : ∀ un' ∈ rest, un' ≠ un := by
    intro un' hun' heq
    have hnodup := h.undosOk.nodup t
    rw [hhead] at hnodup
    rw [heq] at hun'
    exact (nodup_cons.mp hnodup).1 hun'
  have hsemun : ∀ t', t' ≠ t → (s.dropUndo t).semun t' = s.semun t' := by
    intro t' ht
    exact update_of_ne ht ..
  have hsemunt : (s.dropUndo t).semun t = rest := by
    unfold Sems.dropUndo
    dsimp only
    rw [update_self, hhead]
    rfl
  have hasleep : ∀ t' w, s.sleep t' = some w → t' ≠ t := by
    intro t' w hw heq
    rw [heq, hawake] at hw
    simp at hw
  constructor
  · exact h.undosOk.dropUndo t
  · exact h.slot_inj
  · exact h.slot_fresh
  · intro t' un' hun'
    have hmem : un' ∈ s.semun t' ∧ (t', un') ≠ (t, un) := by
      by_cases ht : t' = t
      · rw [ht, hsemunt] at hun'
        rw [ht, hhead]
        refine ⟨mem_cons_of_mem _ hun', ?_⟩
        intro heq
        rw [Prod.mk.injEq] at heq
        exact hrest un' hun' heq.2
      · rw [hsemun t' ht] at hun'
        refine ⟨hun', ?_⟩
        intro heq
        rw [Prod.mk.injEq] at heq
        exact ht heq.1
    obtain ⟨sma, hslot, hlinked⟩ := h.record t' un' hmem.1
    refine ⟨sma, hslot, ?_⟩
    rcases hlinked with hin | hexit | hh
    · exact .inl hin
    · exact .inr (.inl hexit)
    · exact absurd (hheld _ hh) hmem.2
  · exact h.semop_slot
  · intro t' w semid sops sop hw hwaiting sop' hsop' hundo
    obtain ⟨un', hun', hrecord⟩ := h.semop_found t' w semid sops sop hw hwaiting sop' hsop' hundo
    refine ⟨un', ?_, hrecord⟩
    rw [hsemun t' (hasleep t' w hw)]
    exact hun'
  · intro t' w un' hw hwaiting
    rw [hsemun t' (hasleep t' w hw)]
    exact h.exit_head t' w un' hw hwaiting

theorem Linkage.unlinkUndo (h : Linkage none s)
    (hmem : un ∈ s.semun t) (sma : ℕ) : Linkage (some (t, un)) (s.unlinkUndo sma un) := by
  constructor
  · exact h.undosOk.of_eq rfl rfl
  · exact h.slot_inj
  · exact h.slot_fresh
  · intro t' un' hun'
    obtain ⟨sma', hslot, hlinked⟩ := h.record t' un' hun'
    refine ⟨sma', hslot, ?_⟩
    by_cases heq : un' = un
    · rw [heq] at hun'
      rw [heq, h.undosOk.apart t' t un hun' hmem]
      exact .inr (.inr rfl)
    · rcases hlinked with hin | hexit | hnone
      · left
        unfold Sems.unlinkUndo
        dsimp only
        by_cases hsma : sma' = sma
        · rw [hsma, update_self]
          rw [hsma] at hin
          exact (mem_erase_of_ne heq).mpr hin
        · rw [update_of_ne hsma]
          exact hin
      · exact .inr (.inl hexit)
      · simp at hnone
  · exact h.semop_slot
  · exact h.semop_found
  · exact h.exit_head

section
variable (h : Linkage (some (t, un)) s) (hawake : s.sleep t = none) (hhead : s.semun t = un :: rest)
  (hslot : s.semary ((s.undos un).semid % semmni) = .set sma)
include h hawake hhead hslot

theorem Linkage.sleepExit (num : ℕ) :
    Linkage none (s.sleepOn t
      { sma := sma, num := num, forZero := false, waiting := .exit un, runnable := false }) := by
  have hadd := addWaiting_sameLists s sma num false 1
  have hlists : SameLists s (s.sleepOn t
      { sma := sma, num := num, forZero := false, waiting := .exit un, runnable := false }) :=
    ⟨hadd.semary, hadd.semun, hadd.nextUndo, hadd.nextSet, hadd.undo, hadd.record⟩
  have hself : (s.sleepOn t
      { sma := sma, num := num, forZero := false, waiting := .exit un,
          runnable := false }).sleep t =
      some { sma := sma, num := num, forZero := false, waiting := .exit un, runnable := false } :=
    update_self ..
  have hother : ∀ t', t' ≠ t → (s.sleepOn t
      { sma := sma, num := num, forZero := false, waiting := .exit un,
          runnable := false }).sleep t' =
      s.sleep t' := fun t' ht => update_of_ne ht ..
  constructor
  · exact h.undosOk.of_eq hlists.semun hlists.nextUndo
  · exact h.slot_inj
  · exact h.slot_fresh
  · intro t' un' hun'
    obtain ⟨sma', hslot', hlinked⟩ := h.record t' un' hun'
    refine ⟨sma', ?_, ?_⟩
    · exact hslot'
    · rw [hlists.undo]
      rcases hlinked with hin | ⟨w, hw, hwaiting⟩ | hheld
      · exact .inl hin
      · have hne : t' ≠ t := by
          intro heq
          rw [heq, hawake] at hw
          simp at hw
        refine .inr (.inl ⟨w, ?_, hwaiting⟩)
        rw [hother t' hne]
        exact hw
      · rw [Option.some.injEq, Prod.mk.injEq] at hheld
        rw [← hheld.1, ← hheld.2]
        exact .inr (.inl ⟨_, hself, rfl⟩)
  · intro t' w semid sops sop hw hwaiting
    by_cases ht : t' = t
    · rw [ht, hself, Option.some.injEq] at hw
      rw [← hw] at hwaiting
      simp at hwaiting
    · rw [hother t' ht] at hw
      exact h.semop_slot t' w semid sops sop hw hwaiting
  · intro t' w semid sops sop hw hwaiting sop' hsop' hundo
    by_cases ht : t' = t
    · rw [ht, hself, Option.some.injEq] at hw
      rw [← hw] at hwaiting
      simp at hwaiting
    · rw [hother t' ht] at hw
      exact (h.semop_found t' w semid sops sop hw hwaiting sop' hsop' hundo).of_sameLists hlists
  · intro t' w un' hw hwaiting
    by_cases ht : t' = t
    · rw [ht, hself, Option.some.injEq] at hw
      rw [← hw] at hwaiting ⊢
      rw [Waiting.exit.injEq] at hwaiting
      rw [← hwaiting, ht]
      exact ⟨⟨rest, hhead⟩, hslot⟩
    · rw [hother t' ht] at hw
      exact h.exit_head t' w un' hw hwaiting

omit h hawake hhead hslot in
theorem Linkage.adjusted (h : Linkage held s) (sma un : ℕ) : Linkage held (s.adjusted sma un) := by
  have hstore := h.of_sameFrame (sameFrame_setSemval s sma (s.undos un).semNum
    (toUshort (s.semval sma (s.undos un).semNum + (s.undos un).semadj))) rfl
  unfold Sems.adjusted
  dsimp only
  split <;> split
  · exact (hstore.wakeUp sma false).wakeUp sma true
  · exact hstore.wakeUp sma false
  · exact hstore.wakeUp sma true
  · exact hstore

omit h hawake hhead hslot in
theorem adjusted_sleep_none (h : s.sleep t = none) (sma un : ℕ) :
    (s.adjusted sma un).sleep t = none := by
  unfold Sems.adjusted
  dsimp only
  split <;> split <;> simp [Sems.wakeUp, Sems.setSemval, Sems.setSem, h]

theorem Linkage.adjust (signal : Bool) : Linkage none (s.adjust t sma un signal).1 := by
  have hheld : ∀ p, some (t, un) = some p → p = (t, un) := by
    intro p hp
    rw [Option.some.injEq] at hp
    exact hp.symm
  rcases adjust_cases s t sma un signal with ⟨_, heq⟩ | ⟨_, _, heq⟩ | ⟨_, _, heq⟩
  · rw [heq]
    exact h.dropUndo hawake hhead hheld
  · rw [heq]
    obtain ⟨_, _, hsemun, _⟩ := adjusted_fields s sma un
    have hhead' : (s.adjusted sma un).semun t = un :: rest := by
      rw [hsemun]
      exact hhead
    exact (h.adjusted sma un).dropUndo (adjusted_sleep_none hawake sma un) hhead' hheld
  · rw [heq]
    exact h.sleepExit hawake hhead hslot _

end

section
variable (h : Linkage none s)
include h

theorem Linkage.exitRecord (hawake : s.sleep t = none) (signal : Bool) :
    Linkage none (s.exitRecord t signal).1 := by
  rcases exitRecord_cases s t signal with ⟨_, heq⟩ | ⟨un, rest, hhead, hcases⟩
  · rw [heq]
    exact h
  · have hmem : un ∈ s.semun t := by
      rw [hhead]
      exact mem_cons_self ..
    rcases hcases with ⟨heq, _⟩ | ⟨sma, hslot, _, ⟨hnot, _⟩ | ⟨_, _, heq⟩ | ⟨_, _, heq⟩⟩
    · rw [heq]
      exact h.dropUndo hawake hhead (by simp)
    · -- a record that is not in the hands of `sem_exit` is on the list of its set
      obtain ⟨sma', hslot', hlinked⟩ := h.record t un hmem
      rw [hslot, Slot.set.injEq] at hslot'
      rcases hlinked with hin | ⟨w, hw, _⟩ | hnone
      · rw [hslot'] at hnot
        exact absurd hin hnot
      · rw [hawake] at hw
        simp at hw
      · simp at hnone
    · rw [heq]
      refine (h.unlinkUndo hmem sma).dropUndo hawake hhead ?_
      intro p hp
      rw [Option.some.injEq] at hp
      exact hp.symm
    · rw [heq]
      exact (h.unlinkUndo hmem sma).adjust hawake hhead hslot signal

/-! ## The linkage through a step -/

theorem Linkage.slept (hawake : s.sleep t = none) (hslot : s.semary (semid % semmni) = .set sma)
    {sops : List Sembuf} (hfound : ∀ sop ∈ sops, sop.undo = true → Found s t semid sop.num)
    (signal : Bool) : Linkage none (s.slept t semid sma sops signal).1 := by
  rcases slept_cases s t semid sma sops signal with
    ⟨e, _, heq⟩ | ⟨sop, forZero, _, _, heq⟩ | ⟨_, _, heq⟩
  · rw [heq]
    exact h
  · rw [heq]
    exact h.sleepSemop hawake hslot hfound
  · rw [heq]
    exact h.finish t semid sma sops

omit h in
theorem awake_sleep_self (s : Sems) (t : Task) (w : Sleeper) : (s.awake t w).sleep t = none :=
  update_self ..

theorem Linkage.resume (t : Task) (signal : Bool) : Linkage none (s.resume t signal).1 := by
  unfold Sems.resume
  split
  · exact h
  · rename_i w hw
    have hlists := awake_sameLists s t w
    split
    · split
      · rename_i semid sops sop hwaiting
        have hlink : Linkage none (s.awake t w) := by
          apply h.awake hw
          intro un hun
          rw [hwaiting] at hun
          simp at hun
        apply hlink.slept (awake_sleep_self s t w)
        · rw [hlists.semary]
          exact h.semop_slot t w semid sops sop hw hwaiting
        · intro sop' hsop' hundo
          exact (h.semop_found t w semid sops sop hw hwaiting sop' hsop' hundo).of_sameLists hlists
      · rename_i un hwaiting
        obtain ⟨⟨rest, hhead⟩, hslot⟩ := h.exit_head t w un hw hwaiting
        have hlink : Linkage (some (t, un)) (s.awake t w) := by
          apply h.awake hw
          intro un' hun'
          rw [hwaiting, Waiting.exit.injEq] at hun'
          rw [hun']
        have hhead' : (s.awake t w).semun t = un :: rest := by
          rw [hlists.semun]
          exact hhead
        apply hlink.adjust (awake_sleep_self s t w) hhead'
        rw [hlists.semary, (hlists.record un).1]
        exact hslot
    · exact h

theorem Linkage.newary (id nsems : ℕ) (behind : Sem) :
    Linkage none (s.newary id nsems behind).1 := by
  rcases newary_cases s id nsems behind with heq | ⟨hunused, _, r, heq⟩
  · rw [heq]
    exact h
  · rw [heq]
    have hkeep : ∀ id' a, s.semary id' = .set a →
        update s.semary id (.set s.nextSet) id' = .set a := by
      intro id' a hid'
      rw [update_of_ne]
      · exact hid'
      · intro heq
        rw [heq, hunused] at hid'
        simp at hid'
    have hsets : ∀ id' a, s.semary id' = .set a → a ≠ s.nextSet := by
      intro id' a hid'
      exact ne_of_lt (h.slot_fresh id' a hid')
    constructor
    · exact h.undosOk.of_eq rfl rfl
    · intro id1 id2 a h1 h2
      dsimp only at h1 h2
      by_cases e1 : id1 = id
      · by_cases e2 : id2 = id
        · rw [e1, e2]
        · rw [e1, update_self, Slot.set.injEq] at h1
          rw [update_of_ne e2] at h2
          exact absurd h1.symm (hsets id2 a h2)
      · rw [update_of_ne e1] at h1
        by_cases e2 : id2 = id
        · rw [e2, update_self, Slot.set.injEq] at h2
          exact absurd h2.symm (hsets id1 a h1)
        · rw [update_of_ne e2] at h2
          exact h.slot_inj id1 id2 a h1 h2
    · intro id' a hid'
      dsimp only at hid' ⊢
      by_cases e1 : id' = id
      · rw [e1, update_self, Slot.set.injEq] at hid'
        omega
      · rw [update_of_ne e1] at hid'
        exact Nat.lt_succ_of_lt (h.slot_fresh id' a hid')
    · intro t un hun
      obtain ⟨sma, hslot, hlinked⟩ := h.record t un hun
      refine ⟨sma, hkeep _ _ hslot, ?_⟩
      dsimp only
      rw [update_of_ne (hsets _ _ hslot)]
      exact hlinked
    · intro t w semid sops sop hw hwaiting
      exact hkeep _ _ (h.semop_slot t w semid sops sop hw hwaiting)
    · exact h.semop_found
    · intro t w un hw hwaiting
      obtain ⟨hhead, hslot⟩ := h.exit_head t w un hw hwaiting
      exact ⟨hhead, hkeep _ _ hslot⟩

theorem Linkage.interrupt (t : Task) : Linkage none (s.interrupt t) := by
  apply h.of_sameLists
  · constructor <;> simp [Sems.interrupt]
  · intro t' w' hw'
    simp only [Sems.interrupt] at hw'
    by_cases ht : t' = t
    · rw [ht, update_self, Option.map_eq_some_iff] at hw'
      obtain ⟨w, hw, heq⟩ := hw'
      rw [ht]
      exact ⟨w, hw, by rw [← heq], by rw [← heq]⟩
    · rw [update_of_ne ht] at hw'
      exact ⟨w', hw', rfl, rfl⟩
  · intro t' w hw
    simp only [Sems.interrupt]
    by_cases ht : t' = t
    · rw [ht] at hw
      rw [ht, update_self, hw]
      exact ⟨_, rfl, rfl⟩
    · rw [update_of_ne ht]
      exact ⟨w, hw, rfl⟩

theorem Linkage.clearUndos (sma : ℕ) (p : SemUndo → Bool) : Linkage none (s.clearUndos sma p) := by
  apply h.of_sameLists
  · constructor
    case record =>
      intro un
      unfold Sems.clearUndos
      dsimp only
      split <;> exact ⟨rfl, rfl⟩
    all_goals simp [Sems.clearUndos]
  · intro t w hw
    exact ⟨w, hw, rfl, rfl⟩
  · intro t w hw
    exact ⟨w, hw, rfl⟩

theorem Linkage.setSemvals (sma : ℕ) (vals : ℕ → ℤ) : Linkage none (s.setSemvals sma vals) := by
  apply h.of_sameLists
  · constructor
    case undo =>
      intro a
      unfold Sems.setSemvals
      dsimp only
      by_cases ha : a = sma
      · rw [ha, update_self]
      · rw [update_of_ne ha]
    all_goals simp [Sems.setSemvals]
  · intro t w hw
    exact ⟨w, hw, rfl, rfl⟩
  · intro t w hw
    exact ⟨w, hw, rfl⟩

end

def IsRmid : Event → Bool
  | .rmid _ _ _ => true
  | _ => false

theorem Linkage.step (h : Linkage none s) {e : Event} (he : IsRmid e = false) :
    Linkage none (s.step e).1 := by
  cases e with
  | newary id nsems behind => exact h.newary id nsems behind
  | semop t semid sops permitted free signal =>
    unfold Sems.step
    dsimp only
    split
    · exact h
    · rename_i hasleep
      have hawake : s.sleep t = none := by simpa using hasleep
      rcases semop_ways s t semid sops permitted free signal with
        ⟨e, _, heq⟩ | ⟨sma, hslot, _, heq | ⟨henough, heq⟩⟩
      · rw [heq]
        exact h
      · rw [heq]
        exact h.ensureUndos hawake hslot free sops
      · rw [heq]
        have hadded := ensureUndos_added t semid sma h.undosOk free sops
        obtain ⟨hfound, _⟩ := ensureUndos_found h.undosOk t semid sma free sops henough
        apply (h.ensureUndos hawake hslot free sops).slept _ _ hfound
        · rw [hadded.sleep]
          exact hawake
        · rw [hadded.semary]
          exact hslot
  | resume t signal => exact h.resume t signal
  | interrupt t => exact h.interrupt t
  | exitRecord t signal =>
    unfold Sems.step
    dsimp only
    split
    · exact h
    · rename_i hasleep
      exact h.exitRecord (by simpa using hasleep) signal
  | setval semid semnum val permitted =>
    change Linkage none (s.setval semid semnum val permitted).1
    rcases setval_cases s semid semnum val permitted with ⟨e, heq⟩ | ⟨sma, _, _, _, heq⟩
    · rw [heq]
      exact h
    · rw [heq]
      have hclear := h.clearUndos sma fun u => u.semNum = semnum
      exact ((hclear.of_sameFrame (sameFrame_setSemval _ sma semnum val) rfl).wakeUp sma
        false).wakeUp sma true
  | setall semid semnum vals permitted =>
    change Linkage none (s.setall semid semnum vals permitted).1
    rcases setall_cases s semid semnum vals permitted with ⟨e, heq⟩ | ⟨sma, _, _, heq⟩
    · rw [heq]
      exact h
    · rw [heq]
      exact ((((h.setSemvals sma fun num => (vals num).toNat).clearUndos sma
        fun _ => true).wakeUp sma false).wakeUp sma true)
  | rmid semid semnum permitted => simp [IsRmid] at he

theorem init_linkage : Linkage none Sems.init := by
  constructor
  · exact init_undosOk
  all_goals simp [Sems.init]

theorem Linkage.run (h : Linkage none s) {es : List Event}
    (hes : ∀ e ∈ es, IsRmid e = false) : Linkage none (s.run es) := by
  induction es generalizing s with
  | nil => exact h
  | cons e es ih =>
    exact ih (h.step (hes e (by simp))) (fun e' he' => hes e' (mem_cons_of_mem e he'))

end LinuxKernel.Semaphore
