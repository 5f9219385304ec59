import LinuxKernel.SemaphoreModel
import Mathlib.Tactic

/-!
# What the pieces of the semaphore calls change

For every store of the model: which values, undo records and sleepers it
changes.  `Sems.adj` adds up the undo records of a task for one semaphore.
-/

namespace LinuxKernel.Semaphore
open Function List

def Sems.undoAdj (s : Sems) (semid num un : ℕ) : ℤ :=
  if (s.undos un).semid = semid ∧ (s.undos un).semNum = num then (s.undos un).semadj else 0

def Sems.adj (s : Sems) (t : Task) (semid num : ℕ) : ℤ :=
  ((s.semun t).map (s.undoAdj semid num)).sum

theorem sum_change {f g : Task → ℤ} (t : Task) (heq : ∀ t', t' ≠ t → g t' = f t') :
    ∑ t', g t' = ∑ t', f t' + (g t - f t) := by
  rw [← Finset.add_sum_erase Finset.univ g (Finset.mem_univ t),
    ← Finset.add_sum_erase Finset.univ f (Finset.mem_univ t)]
  have hrest : ∑ t' ∈ Finset.univ.erase t, g t' = ∑ t' ∈ Finset.univ.erase t, f t' := by
    apply Finset.sum_congr rfl
    intro t' ht'
    exact heq t' (Finset.ne_of_mem_erase ht')
  rw [hrest]
  ring

/-! ## Stores to semaphores -/

section Sem

variable (s : Sems) (sma num : ℕ)

section
variable (sem : Sem)

@[simp] theorem setSem_semary : (s.setSem sma num sem).semary = s.semary := rfl

@[simp] theorem setSem_undos : (s.setSem sma num sem).undos = s.undos := rfl

@[simp] theorem setSem_semun : (s.setSem sma num sem).semun = s.semun := rfl

@[simp] theorem setSem_sleep : (s.setSem sma num sem).sleep = s.sleep := rfl

@[simp] theorem setSem_nextUndo : (s.setSem sma num sem).nextUndo = s.nextUndo := rfl

@[simp] theorem setSem_nextSet : (s.setSem sma num sem).nextSet = s.nextSet := rfl

@[simp] theorem setSem_seq (a : ℕ) : ((s.setSem sma num sem).sets a).seq = (s.sets a).seq := by
  unfold Sems.setSem
  by_cases h : a = sma
  · rw [h]
    simp
  · simp [h]

@[simp] theorem setSem_semNsems (a : ℕ) :
    ((s.setSem sma num sem).sets a).semNsems = (s.sets a).semNsems := by
  unfold Sems.setSem
  by_cases h : a = sma
  · rw [h]
    simp
  · simp [h]

@[simp] theorem setSem_undo (a : ℕ) : ((s.setSem sma num sem).sets a).undo = (s.sets a).undo := by
  unfold Sems.setSem
  by_cases h : a = sma
  · rw [h]
    simp
  · simp [h]

theorem setSem_base (a n : ℕ) :
    ((s.setSem sma num sem).sets a).base n =
      if a = sma ∧ n = num then sem else (s.sets a).base n := by
  unfold Sems.setSem
  by_cases h : a = sma
  · rw [h]
    by_cases hn : n = num
    · rw [hn]
      simp
    · simp [hn]
  · simp [h]

end

theorem setSemval_semval (value : ℤ) (a n : ℕ) :
    (s.setSemval sma num value).semval a n = if a = sma ∧ n = num then value else s.semval a n := by
  unfold Sems.semval Sems.setSemval
  rw [setSem_base]
  split <;> rfl

theorem setSemval_counts (value : ℤ) (a n : ℕ) :
    (((s.setSemval sma num value).sets a).base n).semncnt = ((s.sets a).base n).semncnt ∧
      (((s.setSemval sma num value).sets a).base n).semzcnt = ((s.sets a).base n).semzcnt := by
  unfold Sems.setSemval
  rw [setSem_base]
  split
  · rename_i h
    rw [h.1, h.2]
    exact ⟨rfl, rfl⟩
  · exact ⟨rfl, rfl⟩

section
variable (z : Bool) (d : ℤ)

@[simp] theorem addWaiting_semval (a n : ℕ) :
    (s.addWaiting sma num z d).semval a n = s.semval a n := by
  unfold Sems.semval Sems.addWaiting
  cases z <;> simp only [Bool.false_eq_true, if_true, if_false] <;> rw [setSem_base] <;> split
  · rename_i h
    rw [h.1, h.2]
  · rfl
  · rename_i h
    rw [h.1, h.2]
  · rfl

@[simp] theorem addWaiting_seq (a : ℕ) : ((s.addWaiting sma num z d).sets a).seq =
    (s.sets a).seq := by
  unfold Sems.addWaiting
  cases z <;> simp

@[simp] theorem addWaiting_semNsems (a : ℕ) :
    ((s.addWaiting sma num z d).sets a).semNsems = (s.sets a).semNsems := by
  unfold Sems.addWaiting
  cases z <;> simp

@[simp] theorem addWaiting_undo (a : ℕ) : ((s.addWaiting sma num z d).sets a).undo =
    (s.sets a).undo := by
  unfold Sems.addWaiting
  cases z <;> simp

@[simp] theorem addWaiting_undos : (s.addWaiting sma num z d).undos = s.undos := by
  unfold Sems.addWaiting
  cases z <;> simp

@[simp] theorem addWaiting_semun : (s.addWaiting sma num z d).semun = s.semun := by
  unfold Sems.addWaiting
  cases z <;> simp

@[simp] theorem addWaiting_semary : (s.addWaiting sma num z d).semary = s.semary := by
  unfold Sems.addWaiting
  cases z <;> simp

@[simp] theorem addWaiting_nextUndo : (s.addWaiting sma num z d).nextUndo = s.nextUndo := by
  unfold Sems.addWaiting
  cases z <;> simp

@[simp] theorem addWaiting_nextSet : (s.addWaiting sma num z d).nextSet = s.nextSet := by
  unfold Sems.addWaiting
  cases z <;> simp

end

end Sem

/-! ## Applying operations -/

section Apply

variable (s : Sems) (t : Task) (semid sma : ℕ)

structure SameFrame (s s' : Sems) : Prop where
  semary : s'.semary = s.semary
  semun : s'.semun = s.semun
  nextUndo : s'.nextUndo = s.nextUndo
  nextSet : s'.nextSet = s.nextSet
  seq : ∀ a, (s'.sets a).seq = (s.sets a).seq
  semNsems : ∀ a, (s'.sets a).semNsems = (s.sets a).semNsems
  undo : ∀ a, (s'.sets a).undo = (s.sets a).undo
  semncnt : ∀ a n, ((s'.sets a).base n).semncnt = ((s.sets a).base n).semncnt
  semzcnt : ∀ a n, ((s'.sets a).base n).semzcnt = ((s.sets a).base n).semzcnt
  record : ∀ un, (s'.undos un).semid = (s.undos un).semid ∧
    (s'.undos un).semNum = (s.undos un).semNum

theorem SameFrame.refl : SameFrame s s := by
  constructor <;> simp

theorem SameFrame.trans {s1 s2 s3 : Sems} (h1 : SameFrame s1 s2) (h2 : SameFrame s2 s3) :
    SameFrame s1 s3 := by
  constructor
  · rw [h2.semary, h1.semary]
  · rw [h2.semun, h1.semun]
  · rw [h2.nextUndo, h1.nextUndo]
  · rw [h2.nextSet, h1.nextSet]
  · intro a
    rw [h2.seq, h1.seq]
  · intro a
    rw [h2.semNsems, h1.semNsems]
  · intro a
    rw [h2.undo, h1.undo]
  · intro a n
    rw [h2.semncnt, h1.semncnt]
  · intro a n
    rw [h2.semzcnt, h1.semzcnt]
  · intro un
    rw [(h2.record un).1, (h1.record un).1, (h2.record un).2, (h1.record un).2]
    exact ⟨rfl, rfl⟩

theorem sameFrame_setSemval (num : ℕ) (value : ℤ) : SameFrame s (s.setSemval sma num value) := by
  constructor
  case semncnt =>
    intro a n
    exact (setSemval_counts s sma num value a n).1
  case semzcnt =>
    intro a n
    exact (setSemval_counts s sma num value a n).2
  all_goals simp [Sems.setSemval]

theorem sameFrame_setSemadj (un : ℕ) (value : ℤ) : SameFrame s (s.setSemadj un value) := by
  constructor
  case record =>
    intro un'
    unfold Sems.setSemadj
    by_cases h : un' = un
    · rw [h]
      simp
    · simp [h]
  all_goals simp [Sems.setSemadj]

theorem applyOp_sameFrame (sop : Sembuf) : SameFrame s (s.applyOp t semid sma sop) := by
  unfold Sems.applyOp
  dsimp only
  split
  · split
    · exact sameFrame_setSemval s sma _ _
    · exact (sameFrame_setSemval s sma _ _).trans (sameFrame_setSemadj _ _ _)
  · exact sameFrame_setSemval s sma _ _

@[simp] theorem setSemadj_semval (un : ℕ) (value : ℤ) (a n : ℕ) :
    (s.setSemadj un value).semval a n = s.semval a n := rfl

theorem applyOp_semval (sop : Sembuf) (a n : ℕ) :
    (s.applyOp t semid sma sop).semval a n =
      if a = sma ∧ n = sop.num then toUshort (s.semval sma sop.num + sop.op)
      else s.semval a n := by
  unfold Sems.applyOp
  dsimp only
  split
  · split
    · rw [setSemval_semval]
    · rw [setSemadj_semval, setSemval_semval]
  · rw [setSemval_semval]

theorem applyOp_sleep (sop : Sembuf) : (s.applyOp t semid sma sop).sleep = s.sleep := by
  unfold Sems.applyOp
  dsimp only
  split
  · split
    · rfl
    · rfl
  · rfl

theorem applyOps_sameFrame (sops : List Sembuf) : SameFrame s (s.applyOps t semid sma sops).1 := by
  induction sops generalizing s with
  | nil => exact SameFrame.refl s
  | cons sop rest ih => exact (applyOp_sameFrame s t semid sma sop).trans (ih _)

theorem applyOps_sleep (sops : List Sembuf) : (s.applyOps t semid sma sops).1.sleep = s.sleep := by
  induction sops generalizing s with
  | nil => rfl
  | cons sop rest ih =>
    unfold Sems.applyOps
    rw [ih, applyOp_sleep]

theorem applyOps_semval_of_ne (sops : List Sembuf) {a : ℕ} (ha : a ≠ sma) (n : ℕ) :
    (s.applyOps t semid sma sops).1.semval a n = s.semval a n := by
  induction sops generalizing s with
  | nil => rfl
  | cons sop rest ih =>
    unfold Sems.applyOps
    rw [ih, applyOp_semval, if_neg]
    rintro ⟨h, _⟩
    exact ha h

end Apply

/-! ## Undo records -/

section Undo

variable (s : Sems) (t : Task) (semid sma : ℕ)

/-- Every record on a task's list was allocated, and is on it once and on no
other. -/
structure UndosOk (s : Sems) : Prop where
  fresh : ∀ t, ∀ un ∈ s.semun t, un < s.nextUndo
  nodup : ∀ t, (s.semun t).Nodup
  apart : ∀ t t' un, un ∈ s.semun t → un ∈ s.semun t' → t = t'

theorem UndosOk.of_eq {s s' : Sems} (h : UndosOk s) (hsemun : s'.semun = s.semun)
    (hnext : s'.nextUndo = s.nextUndo) : UndosOk s' := by
  constructor
  · rw [hsemun, hnext]
    exact h.fresh
  · rw [hsemun]
    exact h.nodup
  · rw [hsemun]
    exact h.apart

theorem adj_congr {s s' : Sems} {t : Task} (hsemun : s'.semun t = s.semun t)
    (hundos : ∀ un ∈ s.semun t, s'.undos un = s.undos un) (semid num : ℕ) :
    s'.adj t semid num = s.adj t semid num := by
  unfold Sems.adj
  rw [hsemun]
  congr 1
  apply map_congr_left
  intro un hun
  unfold Sems.undoAdj
  rw [hundos un hun]

/-- What `ensureUndos` leaves alone; the records it adds start with zero. -/
structure UndosAdded (s s' : Sems) (sma : ℕ) : Prop where
  undosOk : UndosOk s'
  semary : s'.semary = s.semary
  sleep : s'.sleep = s.sleep
  nextSet : s'.nextSet = s.nextSet
  base : ∀ a, (s'.sets a).base = (s.sets a).base
  seq : ∀ a, (s'.sets a).seq = (s.sets a).seq
  semNsems : ∀ a, (s'.sets a).semNsems = (s.sets a).semNsems
  adj : ∀ t semid num, s'.adj t semid num = s.adj t semid num
  nextUndo : s.nextUndo ≤ s'.nextUndo
  undo : ∀ a, a ≠ sma → (s'.sets a).undo = (s.sets a).undo

theorem UndosAdded.refl {s : Sems} (h : UndosOk s) (sma : ℕ) : UndosAdded s s sma := by
  constructor <;> simp [h]

theorem UndosAdded.trans {s1 s2 s3 : Sems} {sma : ℕ} (h1 : UndosAdded s1 s2 sma)
    (h2 : UndosAdded s2 s3 sma) : UndosAdded s1 s3 sma := by
  constructor
  · exact h2.undosOk
  · rw [h2.semary, h1.semary]
  · rw [h2.sleep, h1.sleep]
  · rw [h2.nextSet, h1.nextSet]
  · intro a
    rw [h2.base, h1.base]
  · intro a
    rw [h2.seq, h1.seq]
  · intro a
    rw [h2.semNsems, h1.semNsems]
  · intro t semid num
    rw [h2.adj, h1.adj]
  · exact le_trans h1.nextUndo h2.nextUndo
  · intro a ha
    rw [h2.undo a ha, h1.undo a ha]

theorem newUndo_added {s : Sems} (h : UndosOk s) (num : ℕ) :
    UndosAdded s (s.newUndo t semid sma num) sma := by
  have hnew : ∀ t', s.nextUndo ∉ s.semun t' := by
    intro t' hmem
    exact absurd (h.fresh t' _ hmem) (lt_irrefl _)
  have hsets : ∀ a, ((s.newUndo t semid sma num).sets a).base = (s.sets a).base ∧
      ((s.newUndo t semid sma num).sets a).seq = (s.sets a).seq ∧
      ((s.newUndo t semid sma num).sets a).semNsems = (s.sets a).semNsems := by
    intro a
    unfold Sems.newUndo
    by_cases ha : a = sma
    · rw [ha]
      simp
    · simp [ha]
  constructor
  case undosOk =>
    constructor
    · intro t' un hun
      unfold Sems.newUndo at hun ⊢
      dsimp only at hun ⊢
      by_cases ht : t' = t
      · rw [ht, update_self] at hun
        rcases mem_cons.mp hun with heq | hmem
        · omega
        · have := h.fresh t un hmem
          omega
      · rw [update_of_ne ht] at hun
        have := h.fresh t' un hun
        omega
    · intro t'
      unfold Sems.newUndo
      dsimp only
      by_cases ht : t' = t
      · rw [ht, update_self]
        exact nodup_cons.mpr ⟨hnew t, h.nodup t⟩
      · rw [update_of_ne ht]
        exact h.nodup t'
    · intro t1 t2 un h1 h2
      have hold : ∀ t', un ∈ (s.newUndo t semid sma num).semun t' →
          (un = s.nextUndo ∧ t' = t) ∨ un ∈ s.semun t' := by
        intro t' hun
        unfold Sems.newUndo at hun
        dsimp only at hun
        by_cases ht : t' = t
        · rw [ht, update_self] at hun
          rcases mem_cons.mp hun with heq | hmem
          · exact .inl ⟨heq, ht⟩
          · rw [ht]
            exact .inr hmem
        · rw [update_of_ne ht] at hun
          exact .inr hun
      rcases hold t1 h1 with ⟨e1, ht1⟩ | m1
      · rcases hold t2 h2 with ⟨_, ht2⟩ | m2
        · rw [ht1, ht2]
        · rw [e1] at m2
          exact absurd m2 (hnew t2)
      · rcases hold t2 h2 with ⟨e₂, _⟩ | m2
        · rw [e₂] at m1
          exact absurd m1 (hnew t1)
        · exact h.apart t1 t2 un m1 m2
  case base =>
    intro a
    exact (hsets a).1
  case seq =>
    intro a
    exact (hsets a).2.1
  case semNsems =>
    intro a
    exact (hsets a).2.2
  case adj =>
    intro t' semid' num'
    have hkeep : ∀ un ∈ s.semun t', (s.newUndo t semid sma num).undos un = s.undos un := by
      intro un hun
      unfold Sems.newUndo
      apply update_of_ne
      intro heq
      exact hnew t' (heq ▸ hun)
    by_cases ht : t' = t
    · have hsemun : (s.newUndo t semid sma num).semun t' = s.nextUndo :: s.semun t' := by
        rw [ht]
        exact update_self ..
      unfold Sems.adj
      rw [hsemun, map_cons, sum_cons]
      have hzero : (s.newUndo t semid sma num).undoAdj semid' num' s.nextUndo = 0 := by
        unfold Sems.undoAdj Sems.newUndo
        simp
      rw [hzero, zero_add]
      congr 1
      apply map_congr_left
      intro un hun
      unfold Sems.undoAdj
      rw [hkeep un hun]
    · apply adj_congr _ hkeep
      exact update_of_ne ht ..
  case nextUndo => exact Nat.le_succ _
  case undo =>
    intro a ha
    unfold Sems.newUndo
    simp [ha]
  all_goals rfl

theorem ensureUndos_added {s : Sems} (h : UndosOk s) (free : ℕ) (sops : List Sembuf) :
    UndosAdded s (s.ensureUndos t semid sma free sops).1 sma := by
  induction sops generalizing s free with
  | nil => exact UndosAdded.refl h sma
  | cons sop rest ih =>
    unfold Sems.ensureUndos
    split
    · split
      · exact ih h free
      · split
        · exact UndosAdded.refl h sma
        · have hadded := newUndo_added t semid sma h sop.num
          exact hadded.trans (ih hadded.undosOk _)
    · exact ih h free

theorem UndosAdded.semval {s s' : Sems} {sma : ℕ} (h : UndosAdded s s' sma) (a n : ℕ) :
    s'.semval a n = s.semval a n := by
  unfold Sems.semval
  rw [h.base]

end Undo

/-! ## Calls -/

theorem check_error_pos {value : ℕ → ℤ} {sops : List Sembuf} {e : ℤ}
    (h : check value sops = .error e) : 0 < e := by
  induction sops with
  | nil => simp [check] at h
  | cons sop rest ih =>
    unfold check at h
    split at h
    · simp only [Check.error.injEq] at h
      rw [← h]
      decide
    · split at h
      · split at h
        · simp only [Check.error.injEq] at h
          rw [← h]
          decide
        · simp at h
      · split at h
        · split at h
          · simp only [Check.error.injEq] at h
            rw [← h]
            decide
          · simp at h
        · exact ih h

theorem slept_cases (s : Sems) (t : Task) (semid sma : ℕ) (sops : List Sembuf) (signal : Bool) :
    (∃ e, 0 < e ∧ s.slept t semid sma sops signal = (s, .returned (-e))) ∨
      (∃ sop forZero, (s.sets sma).seq = semid / semmni ∧
        check (s.semval sma) sops = .sleep sop forZero ∧
        s.slept t semid sma sops signal = (s.sleepOn t
          { sma := sma
            num := sop.num
            forZero := forZero
            waiting := .semop semid sops sop
            runnable := false }, .asleep)) ∨
      ((s.sets sma).seq = semid / semmni ∧ check (s.semval sma) sops = .pass ∧
        s.slept t semid sma sops signal = s.finish t semid sma sops) := by
  unfold Sems.slept
  by_cases hseq : (s.sets sma).seq = semid / semmni
  · rw [if_neg (not_not.mpr hseq)]
    cases hcheck : check (s.semval sma) sops with
    | error e => exact .inl ⟨e, check_error_pos hcheck, rfl⟩
    | sleep sop forZero =>
      cases signal with
      | true => exact .inl ⟨eintr, by decide, rfl⟩
      | false => exact .inr (.inl ⟨sop, forZero, hseq, rfl, rfl⟩)
    | pass => exact .inr (.inr ⟨hseq, rfl, rfl⟩)
  · rw [if_pos hseq]
    exact .inl ⟨eidrm, by decide, rfl⟩

theorem semop_ways (s : Sems) (t : Task) (semid : ℕ) (sops : List Sembuf) (permitted : Bool)
    (free : ℕ) (signal : Bool) :
    (∃ e, 0 < e ∧ s.semop t semid sops permitted free signal = (s, .returned (-e))) ∨
      ∃ sma, s.semary (semid % semmni) = .set sma ∧ sops ≠ [] ∧
        (s.semop t semid sops permitted free signal =
            ((s.ensureUndos t semid sma free sops).1, .returned (-enomem)) ∨
          ((s.ensureUndos t semid sma free sops).2 = true ∧
            s.semop t semid sops permitted free signal =
              (s.ensureUndos t semid sma free sops).1.slept t semid sma sops signal)) := by
  unfold Sems.semop
  split
  · exact .inl ⟨einval, by decide, rfl⟩
  · rename_i hne
    split
    · exact .inl ⟨e2big, by decide, rfl⟩
    · cases hslot : s.semary (semid % semmni) with
      | unused => exact .inl ⟨einval, by decide, rfl⟩
      | noid => exact .inl ⟨einval, by decide, rfl⟩
      | set sma =>
        dsimp only
        split
        · exact .inl ⟨efbig, by decide, rfl⟩
        · split
          · exact .inl ⟨eacces, by decide, rfl⟩
          · refine .inr ⟨sma, rfl, hne, ?_⟩
            split
            · rename_i henough
              exact .inr ⟨henough, rfl⟩
            · exact .inl rfl

theorem semop_cases {s : Sems} (h : UndosOk s) (t : Task) (semid : ℕ) (sops : List Sembuf)
    (permitted : Bool) (free : ℕ) (signal : Bool) :
    (∃ e s1 sma, 0 < e ∧ UndosAdded s s1 sma ∧
        s.semop t semid sops permitted free signal = (s1, .returned (-e))) ∨
      ∃ s1 sma, s.semary (semid % semmni) = .set sma ∧ UndosAdded s s1 sma ∧ sops ≠ [] ∧
        s.semop t semid sops permitted free signal = s1.slept t semid sma sops signal := by
  rcases semop_ways s t semid sops permitted free signal with
    ⟨e, hpos, heq⟩ | ⟨sma, hslot, hne, heq | ⟨_, heq⟩⟩
  · exact .inl ⟨e, s, 0, hpos, UndosAdded.refl h 0, heq⟩
  · exact .inl ⟨enomem, _, sma, by decide, ensureUndos_added t semid sma h free sops, heq⟩
  · exact .inr ⟨_, sma, hslot, ensureUndos_added t semid sma h free sops, hne, heq⟩

@[simp] theorem wakeUp_semval (s : Sems) (sma : ℕ) (z : Bool) (a n : ℕ) :
    (s.wakeUp sma z).semval a n = s.semval a n := rfl

theorem wakeUp_sleep {s : Sems} {sma : ℕ} {z : Bool} {t : Task} {w' : Sleeper}
    (h : (s.wakeUp sma z).sleep t = some w') :
    ∃ w, s.sleep t = some w ∧ w'.sma = w.sma ∧ w'.num = w.num ∧ w'.forZero = w.forZero ∧
      w'.waiting = w.waiting ∧
      (w'.runnable = false → w.runnable = false ∧ ¬(w.sma = sma ∧ w.forZero = z)) := by
  simp only [Sems.wakeUp, Option.map_eq_some_iff] at h
  obtain ⟨w, hw, heq⟩ := h
  refine ⟨w, hw, ?_⟩
  rw [← heq]
  split
  · exact ⟨rfl, rfl, rfl, rfl, by simp⟩
  · rename_i hnot
    exact ⟨rfl, rfl, rfl, rfl, fun hrun => ⟨hrun, hnot⟩⟩

theorem sleep_wakeUp {s : Sems} (sma : ℕ) (z : Bool) {t : Task} {w : Sleeper}
    (h : s.sleep t = some w) :
    ∃ w', (s.wakeUp sma z).sleep t = some w' ∧ w'.sma = w.sma ∧ w'.num = w.num ∧
      w'.forZero = w.forZero ∧ w'.waiting = w.waiting := by
  simp only [Sems.wakeUp, h, Option.map_some]
  refine ⟨_, rfl, ?_⟩
  split <;> exact ⟨rfl, rfl, rfl, rfl⟩

theorem finish_fields (s : Sems) (t : Task) (semid sma : ℕ) (sops : List Sembuf) :
    (s.finish t semid sma sops).1.sets = (s.applyOps t semid sma sops).1.sets ∧
      (s.finish t semid sma sops).1.undos = (s.applyOps t semid sma sops).1.undos ∧
      (s.finish t semid sma sops).1.semun = (s.applyOps t semid sma sops).1.semun ∧
      (s.finish t semid sma sops).1.semary = (s.applyOps t semid sma sops).1.semary ∧
      (s.finish t semid sma sops).1.nextUndo = (s.applyOps t semid sma sops).1.nextUndo ∧
      (s.finish t semid sma sops).1.nextSet = (s.applyOps t semid sma sops).1.nextSet := by
  unfold Sems.finish
  dsimp only
  split <;> split <;> exact ⟨rfl, rfl, rfl, rfl, rfl, rfl⟩

/-! ## Records through the calls -/

section
variable {s : Sems} (h : UndosOk s) (t : Task)
include h

theorem finish_undosOk (semid sma : ℕ) (sops : List Sembuf) :
    UndosOk (s.finish t semid sma sops).1 := by
  have hframe := applyOps_sameFrame s t semid sma sops
  obtain ⟨_, _, hsemun, _, hnext, _⟩ := finish_fields s t semid sma sops
  exact h.of_eq (hsemun.trans hframe.semun) (hnext.trans hframe.nextUndo)

theorem sleepOn_undosOk (w : Sleeper) : UndosOk (s.sleepOn t w) :=
  h.of_eq (addWaiting_semun s w.sma w.num w.forZero 1)
    (addWaiting_nextUndo s w.sma w.num w.forZero 1)

theorem awake_undosOk (w : Sleeper) : UndosOk (s.awake t w) :=
  h.of_eq (addWaiting_semun s w.sma w.num w.forZero (-1))
    (addWaiting_nextUndo s w.sma w.num w.forZero (-1))

theorem slept_undosOk (semid sma : ℕ) (sops : List Sembuf) (signal : Bool) :
    UndosOk (s.slept t semid sma sops signal).1 := by
  rcases slept_cases s t semid sma sops signal with
    ⟨e, _, heq⟩ | ⟨sop, forZero, _, _, heq⟩ | ⟨_, _, heq⟩
  · rw [heq]
    exact h
  · rw [heq]
    exact sleepOn_undosOk h t _
  · rw [heq]
    exact finish_undosOk h t semid sma sops

theorem UndosOk.cut {list : List ℕ} (hsub : list.Sublist (s.semun t)) :
    UndosOk { s with semun := update s.semun t list } := by
  have hmem : ∀ t' un, un ∈ update s.semun t list t' → un ∈ s.semun t' := by
    intro t' un hun
    by_cases ht : t' = t
    · rw [ht, update_self] at hun
      rw [ht]
      exact hsub.subset hun
    · rw [update_of_ne ht] at hun
      exact hun
  constructor
  · intro t' un hun
    exact h.fresh t' un (hmem t' un hun)
  · intro t'
    dsimp only
    by_cases ht : t' = t
    · rw [ht, update_self]
      exact (h.nodup t).sublist hsub
    · rw [update_of_ne ht]
      exact h.nodup t'
  · intro t1 t2 un h1 h2
    exact h.apart t1 t2 un (hmem t1 un h1) (hmem t2 un h2)

theorem UndosOk.dropUndo : UndosOk (s.dropUndo t) :=
  h.cut t (tail_sublist _)

omit h in
theorem adjusted_fields (s : Sems) (sma un : ℕ) :
    (s.adjusted sma un).sets = (s.setSemval sma (s.undos un).semNum
        (toUshort (s.semval sma (s.undos un).semNum + (s.undos un).semadj))).sets ∧
      (s.adjusted sma un).undos = s.undos ∧ (s.adjusted sma un).semun = s.semun ∧
      (s.adjusted sma un).semary = s.semary ∧ (s.adjusted sma un).nextUndo = s.nextUndo ∧
      (s.adjusted sma un).nextSet = s.nextSet := by
  unfold Sems.adjusted
  dsimp only
  split <;> split <;> exact ⟨rfl, rfl, rfl, rfl, rfl, rfl⟩

omit h in
theorem adjust_cases (s : Sems) (t : Task) (sma un : ℕ) (signal : Bool) :
    (((s.sets sma).seq ≠ (s.undos un).semid / semmni ∨
          (s.semval sma (s.undos un).semNum + (s.undos un).semadj < 0 ∧ signal = true)) ∧
        s.adjust t sma un signal = (s.dropUndo t, .none)) ∨
      ((s.sets sma).seq = (s.undos un).semid / semmni ∧
        0 ≤ s.semval sma (s.undos un).semNum + (s.undos un).semadj ∧
        s.adjust t sma un signal = ((s.adjusted sma un).dropUndo t, .none)) ∨
      ((s.sets sma).seq = (s.undos un).semid / semmni ∧
        s.semval sma (s.undos un).semNum + (s.undos un).semadj < 0 ∧
        s.adjust t sma un signal = (s.sleepOn t
          { sma := sma
            num := (s.undos un).semNum
            forZero := false
            waiting := .exit un
            runnable := false }, .asleep)) := by
  unfold Sems.adjust
  by_cases hseq : (s.sets sma).seq = (s.undos un).semid / semmni
  · rw [if_neg (not_not.mpr hseq)]
    by_cases hvalue : 0 ≤ s.semval sma (s.undos un).semNum + (s.undos un).semadj
    · rw [if_pos hvalue]
      exact .inr (.inl ⟨hseq, hvalue, rfl⟩)
    · rw [if_neg hvalue]
      cases signal with
      | true => exact .inl ⟨.inr ⟨not_le.mp hvalue, rfl⟩, rfl⟩
      | false => exact .inr (.inr ⟨hseq, not_le.mp hvalue, rfl⟩)
  · rw [if_pos hseq]
    exact .inl ⟨.inl hseq, rfl⟩

theorem adjust_undosOk (sma un : ℕ) (signal : Bool) : UndosOk (s.adjust t sma un signal).1 := by
  rcases adjust_cases s t sma un signal with ⟨_, heq⟩ | ⟨_, _, heq⟩ | ⟨_, _, heq⟩
  · rw [heq]
    exact h.dropUndo t
  · rw [heq]
    obtain ⟨_, _, hsemun, _, hnext, _⟩ := adjusted_fields s sma un
    exact (h.of_eq hsemun hnext).dropUndo t
  · rw [heq]
    exact sleepOn_undosOk h t _

end

def Sems.unlinkUndo (s : Sems) (sma un : ℕ) : Sems :=
  { s with
    sets := update s.sets sma
      { s.sets sma with undo := (s.sets sma).undo.erase un } }

theorem unlinkUndo_set (s : Sems) (sma un a : ℕ) :
    ((s.unlinkUndo sma un).sets a).base = (s.sets a).base ∧
      ((s.unlinkUndo sma un).sets a).seq = (s.sets a).seq ∧
      ((s.unlinkUndo sma un).sets a).semNsems = (s.sets a).semNsems := by
  unfold Sems.unlinkUndo
  by_cases h : a = sma
  · rw [h]
    simp
  · simp [h]

theorem unlinkUndo_semval (s : Sems) (sma un a n : ℕ) :
    (s.unlinkUndo sma un).semval a n = s.semval a n := by
  unfold Sems.semval
  rw [(unlinkUndo_set s sma un a).1]

theorem exitRecord_cases (s : Sems) (t : Task) (signal : Bool) :
    (s.semun t = [] ∧ s.exitRecord t signal = (s, .none)) ∨
      ∃ un rest, s.semun t = un :: rest ∧
        ((s.exitRecord t signal = (s.dropUndo t, .none) ∧
            ∀ sma, s.semary ((s.undos un).semid % semmni) = .set sma →
              (s.sets sma).seq ≠ (s.undos un).semid / semmni) ∨
          ∃ sma, s.semary ((s.undos un).semid % semmni) = .set sma ∧
            (s.sets sma).seq = (s.undos un).semid / semmni ∧
            ((un ∉ (s.sets sma).undo ∧ s.exitRecord t signal =
                ({ s with semun := update s.semun t [] }, .none)) ∨
              (un ∈ (s.sets sma).undo ∧ (s.undos un).semadj = 0 ∧
                s.exitRecord t signal = ((s.unlinkUndo sma un).dropUndo t, .none)) ∨
              (un ∈ (s.sets sma).undo ∧ (s.undos un).semadj ≠ 0 ∧
                s.exitRecord t signal = (s.unlinkUndo sma un).adjust t sma un signal))) := by
  unfold Sems.exitRecord
  cases hsemun : s.semun t with
  | nil => exact .inl ⟨rfl, rfl⟩
  | cons un rest =>
    refine .inr ⟨un, rest, rfl, ?_⟩
    dsimp only
    cases hslot : s.semary ((s.undos un).semid % semmni) with
    | unused => exact .inl ⟨rfl, by simp⟩
    | noid => exact .inl ⟨rfl, by simp⟩
    | set sma =>
      dsimp only
      by_cases hseq : (s.sets sma).seq = (s.undos un).semid / semmni
      · rw [if_neg (not_not.mpr hseq)]
        refine .inr ⟨sma, rfl, hseq, ?_⟩
        by_cases hun : un ∈ (s.sets sma).undo
        · rw [if_pos hun]
          by_cases hadj : (s.undos un).semadj = 0
          · rw [if_pos hadj]
            exact .inr (.inl ⟨hun, hadj, rfl⟩)
          · rw [if_neg hadj]
            exact .inr (.inr ⟨hun, hadj, rfl⟩)
        · rw [if_neg hun]
          exact .inl ⟨hun, rfl⟩
      · rw [if_pos hseq]
        refine .inl ⟨rfl, ?_⟩
        intro sma' hsma'
        rw [Slot.set.injEq] at hsma'
        rw [← hsma']
        exact hseq

/-! ## `sys_semctl` -/

theorem setval_cases (s : Sems) (semid semnum : ℕ) (val : ℤ) (permitted : Bool) :
    (∃ e, s.setval semid semnum val permitted = (s, .returned e)) ∨
      ∃ sma, s.ctlSet semid semnum = .ok sma ∧ 0 ≤ val ∧ val ≤ semvmx ∧
        s.setval semid semnum val permitted =
          ((((s.clearUndos sma fun u => u.semNum = semnum).setSemval sma semnum val).wakeUp
            sma false).wakeUp sma true, .returned 0) := by
  unfold Sems.setval
  cases hset : s.ctlSet semid semnum with
  | error e => exact .inl ⟨_, rfl⟩
  | ok sma =>
    dsimp only
    split
    · exact .inl ⟨_, rfl⟩
    · rename_i hval
      split
      · exact .inl ⟨_, rfl⟩
      · exact .inr ⟨sma, rfl, by omega, by omega, rfl⟩

theorem setall_cases (s : Sems) (semid semnum : ℕ) (vals : ℕ → UInt16) (permitted : Bool) :
    (∃ e, s.setall semid semnum vals permitted = (s, .returned e)) ∨
      ∃ sma, s.ctlSet semid semnum = .ok sma ∧
        (∀ num < (s.sets sma).semNsems, ((vals num).toNat : ℤ) ≤ semvmx) ∧
        s.setall semid semnum vals permitted =
          ((((s.setSemvals sma fun num => (vals num).toNat).clearUndos sma fun _ => true).wakeUp
            sma false).wakeUp sma true, .returned 0) := by
  unfold Sems.setall
  cases hset : s.ctlSet semid semnum with
  | error e => exact .inl ⟨_, rfl⟩
  | ok sma =>
    dsimp only
    split
    · exact .inl ⟨_, rfl⟩
    · rename_i hvals
      push Not at hvals
      split
      · exact .inl ⟨_, rfl⟩
      · exact .inr ⟨sma, rfl, hvals, rfl⟩

def Sems.removed (s : Sems) (semid sma : ℕ) : Sems :=
  { s.clearUndos sma fun _ => true with
    sets := update s.sets sma
      { s.sets sma with seq := ((s.sets sma).seq + 1) % 65536 }
    semSeq := (s.semSeq + 1) % 65536
    semary := update s.semary (semid % semmni) .unused }

theorem rmid_cases (s : Sems) (semid semnum : ℕ) (permitted : Bool) :
    (∃ e, s.rmid semid semnum permitted = (s, .returned e)) ∨
      ∃ sma, s.ctlSet semid semnum = .ok sma ∧ s.rmid semid semnum permitted =
        (((s.removed semid sma).wakeUp sma true).wakeUp sma false, .returned 0) := by
  unfold Sems.rmid
  cases hset : s.ctlSet semid semnum with
  | error e => exact .inl ⟨_, rfl⟩
  | ok sma =>
    dsimp only
    split
    · exact .inl ⟨_, rfl⟩
    · exact .inr ⟨sma, rfl, rfl⟩

theorem newary_cases (s : Sems) (id nsems : ℕ) (behind : Sem) :
    s.newary id nsems behind = (s, .none) ∨
      (s.semary id = .unused ∧ id < semmni ∧ ∃ r, s.newary id nsems behind =
        ({ s with
            sets := update s.sets s.nextSet
              { seq := s.semSeq
                semNsems := nsems
                base := fun num =>
                  if num < nsems then { semval := 0, semncnt := 0, semzcnt := 0 } else behind
                undo := [] }
            semary := update s.semary id (.set s.nextSet)
            nextSet := s.nextSet + 1 }, r)) := by
  unfold Sems.newary
  split
  · rename_i h
    exact .inr ⟨h.1, h.2.1, _, rfl⟩
  · exact .inl rfl

theorem UndosOk.exitRecord {s : Sems} (h : UndosOk s) (t : Task) (signal : Bool) :
    UndosOk (s.exitRecord t signal).1 := by
  have hunlink : ∀ sma un, UndosOk (s.unlinkUndo sma un) := fun sma un => h.of_eq rfl rfl
  rcases exitRecord_cases s t signal with ⟨_, heq⟩ | ⟨un, rest, _, hcases⟩
  · rw [heq]
    exact h
  · rcases hcases with ⟨heq, _⟩ | ⟨sma, _, _, ⟨_, heq⟩ | ⟨_, _, heq⟩ | ⟨_, _, heq⟩⟩
    · rw [heq]
      exact h.dropUndo t
    · rw [heq]
      exact h.cut t (nil_sublist _)
    · rw [heq]
      exact (hunlink sma un).dropUndo t
    · rw [heq]
      exact adjust_undosOk (hunlink sma un) t sma un signal

theorem UndosOk.resume {s : Sems} (h : UndosOk s) (t : Task) (signal : Bool) :
    UndosOk (s.resume t signal).1 := by
  unfold Sems.resume
  split
  · exact h
  · rename_i w _
    split
    · split
      · exact slept_undosOk (awake_undosOk h t w) t _ _ _ signal
      · exact adjust_undosOk (awake_undosOk h t w) t _ _ signal
    · exact h

theorem UndosOk.step {s : Sems} (h : UndosOk s) (e : Event) : UndosOk (s.step e).1 := by
  cases e with
  | newary id nsems behind =>
    change UndosOk (s.newary id nsems behind).1
    rcases newary_cases s id nsems behind with heq | ⟨_, _, r, heq⟩
    · rw [heq]
      exact h
    · rw [heq]
      exact h.of_eq rfl rfl
  | semop t semid sops permitted free signal =>
    unfold Sems.step
    dsimp only
    split
    · exact h
    · rcases semop_cases h t semid sops permitted free signal with
        ⟨e, s1, sma, _, hadded, heq⟩ | ⟨s1, sma, _, hadded, _, heq⟩
      · rw [heq]
        exact hadded.undosOk
      · rw [heq]
        exact slept_undosOk hadded.undosOk t semid sma sops signal
  | resume t signal => exact h.resume t signal
  | interrupt t => exact h.of_eq rfl rfl
  | exitRecord t signal =>
    unfold Sems.step
    dsimp only
    split
    · exact h
    · exact h.exitRecord t signal
  | setval semid semnum val permitted =>
    change UndosOk (s.setval semid semnum val permitted).1
    rcases setval_cases s semid semnum val permitted with ⟨e, heq⟩ | ⟨sma, _, _, _, heq⟩
    · rw [heq]
      exact h
    · rw [heq]
      exact h.of_eq rfl rfl
  | setall semid semnum vals permitted =>
    change UndosOk (s.setall semid semnum vals permitted).1
    rcases setall_cases s semid semnum vals permitted with ⟨e, heq⟩ | ⟨sma, _, _, heq⟩
    · rw [heq]
      exact h
    · rw [heq]
      exact h.of_eq rfl rfl
  | rmid semid semnum permitted =>
    change UndosOk (s.rmid semid semnum permitted).1
    rcases rmid_cases s semid semnum permitted with ⟨e, heq⟩ | ⟨sma, _, heq⟩
    · rw [heq]
      exact h
    · rw [heq]
      exact h.of_eq rfl rfl

theorem init_undosOk : UndosOk Sems.init := by
  constructor <;> simp [Sems.init]

end LinuxKernel.Semaphore
