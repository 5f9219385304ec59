import LinuxKernel.SemaphoreSteps

/-!
# The indices into `sem_base`

`sys_semop` compares `sem_num` with `sem_nsems` once, before anything else looks
at the operations.  From there a number reaches the check loop, the sleepers, the
loop that applies the operations, and through the undo records `sem_exit`.  The
comparison lets `sem_num = sem_nsems` pass; where no call names that semaphore,
no index ever used leaves its set.
-/

namespace LinuxKernel.Semaphore
open Function List

def checked (value : ℕ → ℤ) : List Sembuf → List ℕ
  | [] => []
  | sop :: rest =>
    sop.num ::
      if sop.op + value sop.num > semvmx then []
      else if sop.op = 0 ∧ value sop.num ≠ 0 then []
      else if sop.op + value sop.num < 0 then []
      else checked value rest

/-- The semaphores `sys_semop` works on from `slept` on: those it checks, and once
all have passed, those it applies the operations to. -/
def Sems.sleptIndices (s : Sems) (semid sma : ℕ) (sops : List Sembuf) : List (ℕ × ℕ) :=
  if (s.sets sma).seq ≠ semid / semmni then []
  else
    match check (s.semval sma) sops with
    | .pass => (checked (s.semval sma) sops ++ sops.map Sembuf.num).map fun num => (sma, num)
    | _ => (checked (s.semval sma) sops).map fun num => (sma, num)

def Sems.semopIndices (s : Sems) (t : Task) (semid : ℕ) (sops : List Sembuf) (permitted : Bool)
    (free : ℕ) : List (ℕ × ℕ) :=
  if sops = [] then []
  else if semopm < sops.length then []
  else
    match s.semary (semid % semmni) with
    | .unused => []
    | .noid => []
    | .set sma =>
      if sops.any fun sop => (s.sets sma).semNsems < sop.num then []
      else if ¬permitted then []
      else
        let (s1, enough) := s.ensureUndos t semid sma free sops
        if enough then s1.sleptIndices semid sma sops else []

def Sems.adjustIndices (s : Sems) (sma un : ℕ) : List (ℕ × ℕ) :=
  if (s.sets sma).seq ≠ (s.undos un).semid / semmni then [] else [(sma, (s.undos un).semNum)]

def Sems.exitIndices (s : Sems) (t : Task) : List (ℕ × ℕ) :=
  match s.semun t with
  | [] => []
  | un :: _ =>
    let u := s.undos un
    match s.semary (u.semid % semmni) with
    | .unused => []
    | .noid => []
    | .set sma =>
      if (s.sets sma).seq ≠ u.semid / semmni then []
      else if un ∈ (s.sets sma).undo then
        if u.semadj = 0 then [] else s.adjustIndices sma un
      else []

def Sems.resumeIndices (s : Sems) (t : Task) : List (ℕ × ℕ) :=
  match s.sleep t with
  | none => []
  | some w =>
    if w.runnable then
      (w.sma, w.num) ::
        match w.waiting with
        | .semop semid sops _ => (s.awake t w).sleptIndices semid w.sma sops
        | .exit un => (s.awake t w).adjustIndices w.sma un
    else []

/-- The set and the index of every semaphore that `sys_semop` or `sem_exit` uses in
a step. -/
def Sems.indices (s : Sems) : Event → List (ℕ × ℕ)
  | .semop t semid sops permitted free _ =>
    if (s.sleep t).isSome then [] else s.semopIndices t semid sops permitted free
  | .exitRecord t _ => if (s.sleep t).isSome then [] else s.exitIndices t
  | .resume t _ => s.resumeIndices t
  | _ => []

/-- The set whose bound a call of `sys_semop` compares its operations with. -/
def Sems.semopSet (s : Sems) (semid : ℕ) (sops : List Sembuf) : Option ℕ :=
  if sops = [] ∨ semopm < sops.length then none
  else
    match s.semary (semid % semmni) with
    | .set sma => some sma
    | _ => none

/-- Every index is inside its set, and a call with an operation outside the set
fails and changes nothing. -/
structure StepSafe (s : Sems) (e : Event) : Prop where
  index : ∀ i ∈ s.indices e, i.2 < (s.sets i.1).semNsems
  efbig : ∀ t semid sops permitted free signal sma,
    e = .semop t semid sops permitted free signal → s.sleep t = none →
    s.semopSet semid sops = some sma → (∃ sop ∈ sops, (s.sets sma).semNsems ≤ sop.num) →
    s.step e = (s, .returned (-efbig))

def AtBound (ds : SemidDs) (sops : List Sembuf) : Prop :=
  (∃ sop ∈ sops, sop.num = ds.semNsems) ∧ ∀ sop ∈ sops, sop.num ≤ ds.semNsems

instance (ds : SemidDs) (sops : List Sembuf) : Decidable (AtBound ds sops) :=
  inferInstanceAs (Decidable (_ ∧ _))

def BelowBound (s : Sems) : Event → Prop
  | .semop t semid sops _ _ _ =>
    s.sleep t = none → ∀ sma, s.semopSet semid sops = some sma → ¬AtBound (s.sets sma) sops
  | _ => True

def RunSafe (s : Sems) : List Event → Prop
  | [] => True
  | e :: es => StepSafe s e ∧ RunSafe (s.step e).1 es

def RunBelow (s : Sems) : List Event → Prop
  | [] => True
  | e :: es => BelowBound s e ∧ RunBelow (s.step e).1 es

/-! ## Where the numbers are kept -/

structure SleeperOk (s : Sems) (w : Sleeper) : Prop where
  set : w.sma < s.nextSet
  num : w.num < (s.sets w.sma).semNsems
  semop : ∀ semid sops sop, w.waiting = .semop semid sops sop →
    ∀ sop ∈ sops, sop.num < (s.sets w.sma).semNsems
  exit : ∀ un, w.waiting = .exit un →
    un < s.nextUndo ∧ (s.undos un).semNum < (s.sets w.sma).semNsems

structure IndexOk (s : Sems) : Prop where
  slot : ∀ id sma, s.semary id = .set sma → sma < s.nextSet
  undo : ∀ sma, ∀ un ∈ (s.sets sma).undo,
    un < s.nextUndo ∧ (s.undos un).semNum < (s.sets sma).semNsems
  asleep : ∀ t w, s.sleep t = some w → SleeperOk s w

structure Quiet (s s' : Sems) : Prop where
  semary : ∀ id sma, s'.semary id = .set sma → s.semary id = .set sma
  semNsems : ∀ sma, (s'.sets sma).semNsems = (s.sets sma).semNsems
  undo : ∀ sma, ∀ un ∈ (s'.sets sma).undo, un ∈ (s.sets sma).undo
  semNum : ∀ un, (s'.undos un).semNum = (s.undos un).semNum
  nextSet : s'.nextSet = s.nextSet
  nextUndo : s'.nextUndo = s.nextUndo
  asleep : ∀ t w', s'.sleep t = some w' → ∃ w, s.sleep t = some w ∧ w'.sma = w.sma ∧
    w'.num = w.num ∧ w'.waiting = w.waiting

theorem asleep_refl (s : Sems) (t : Task) (w' : Sleeper) (h : s.sleep t = some w') :
    ∃ w, s.sleep t = some w ∧ w'.sma = w.sma ∧ w'.num = w.num ∧ w'.waiting = w.waiting :=
  ⟨w', h, rfl, rfl, rfl⟩

theorem Quiet.trans {s1 s2 s3 : Sems} (h1 : Quiet s1 s2) (h2 : Quiet s2 s3) : Quiet s1 s3 := by
  constructor
  · intro id sma h
    exact h1.semary id sma (h2.semary id sma h)
  · intro sma
    rw [h2.semNsems, h1.semNsems]
  · intro sma un h
    exact h1.undo sma un (h2.undo sma un h)
  · intro un
    rw [h2.semNum, h1.semNum]
  · rw [h2.nextSet, h1.nextSet]
  · rw [h2.nextUndo, h1.nextUndo]
  · intro t w3 hw3
    obtain ⟨w2, hw2, e1, e2, e3⟩ := h2.asleep t w3 hw3
    obtain ⟨w1, hw1, f1, f2, f3⟩ := h1.asleep t w2 hw2
    exact ⟨w1, hw1, e1.trans f1, e2.trans f2, e3.trans f3⟩

variable {s' : Sems}

theorem SameFrame.quiet {s : Sems} (h : SameFrame s s') (hsleep : s'.sleep = s.sleep) :
    Quiet s s' := by
  constructor
  · intro id sma hslot
    rw [h.semary] at hslot
    exact hslot
  · exact h.semNsems
  · intro sma un hun
    rw [h.undo] at hun
    exact hun
  · intro un
    exact (h.record un).2
  · exact h.nextSet
  · exact h.nextUndo
  · intro t w hw
    rw [hsleep] at hw
    exact ⟨w, hw, rfl, rfl, rfl⟩

theorem Quiet.refl (s : Sems) : Quiet s s := (SameFrame.refl s).quiet rfl

theorem SleeperOk.of_eq {s : Sems} {w w' : Sleeper} (h : SleeperOk s w)
    (hset : s.nextSet ≤ s'.nextSet) (hundo : s.nextUndo ≤ s'.nextUndo)
    (hnsems : ∀ sma < s.nextSet, (s'.sets sma).semNsems = (s.sets sma).semNsems)
    (hnum : ∀ un < s.nextUndo, (s'.undos un).semNum = (s.undos un).semNum)
    (e1 : w'.sma = w.sma) (e2 : w'.num = w.num) (e3 : w'.waiting = w.waiting) :
    SleeperOk s' w' := by
  constructor
  · rw [e1]
    exact lt_of_lt_of_le h.set hset
  · rw [e1, e2, hnsems _ h.set]
    exact h.num
  · intro semid sops sop hw
    rw [e3] at hw
    rw [e1, hnsems _ h.set]
    exact h.semop semid sops sop hw
  · intro un hw
    rw [e3] at hw
    obtain ⟨hlt, hn⟩ := h.exit un hw
    rw [e1, hnsems _ h.set, hnum un hlt]
    exact ⟨lt_of_lt_of_le hlt hundo, hn⟩

theorem IndexOk.quiet {s : Sems} (h : IndexOk s) (hq : Quiet s s') : IndexOk s' := by
  constructor
  · intro id sma hslot
    rw [hq.nextSet]
    exact h.slot id sma (hq.semary id sma hslot)
  · intro sma un hun
    rw [hq.nextUndo, hq.semNum, hq.semNsems]
    exact h.undo sma un (hq.undo sma un hun)
  · intro t w' hw'
    obtain ⟨w, hw, e1, e2, e3⟩ := hq.asleep t w' hw'
    exact (h.asleep t w hw).of_eq hq.nextSet.ge hq.nextUndo.ge
      (fun sma _ => hq.semNsems sma) (fun un _ => hq.semNum un) e1 e2 e3

variable {value : ℕ → ℤ} {sops : List Sembuf}

theorem mem_of_check_sleep {sop : Sembuf} {forZero : Bool}
    (h : check value sops = .sleep sop forZero) : sop ∈ sops := by
  induction sops with
  | nil => simp [check] at h
  | cons first rest ih =>
    unfold check at h
    split at h
    · simp at h
    · split at h
      · split at h
        · simp at h
        · rw [Check.sleep.injEq] at h
          rw [h.1]
          exact mem_cons_self
      · split at h
        · split at h
          · simp at h
          · rw [Check.sleep.injEq] at h
            rw [h.1]
            exact mem_cons_self
        · exact mem_cons_of_mem _ (ih h)

/-! ## Quiet pieces -/

section Pieces

variable (s : Sems) (t : Task) (sma : ℕ)

theorem quiet_wakeUp (forZero : Bool) : Quiet s (s.wakeUp sma forZero) := by
  constructor
  case asleep =>
    intro t' w' hw'
    obtain ⟨w, hw, e1, e2, _, e3, _⟩ := wakeUp_sleep hw'
    exact ⟨w, hw, e1, e2, e3⟩
  all_goals simp [Sems.wakeUp]

theorem quiet_addWaiting (num : ℕ) (forZero : Bool) (d : ℤ) :
    Quiet s (s.addWaiting sma num forZero d) := by
  constructor
  case asleep =>
    intro t' w' hw'
    have hsleep : (s.addWaiting sma num forZero d).sleep = s.sleep := by
      unfold Sems.addWaiting
      cases forZero <;> simp
    rw [hsleep] at hw'
    exact ⟨w', hw', rfl, rfl, rfl⟩
  all_goals simp

theorem quiet_forget : Quiet s { s with sleep := update s.sleep t none } := by
  constructor
  case asleep =>
    intro t' w' hw'
    dsimp only at hw'
    by_cases ht : t' = t
    · rw [ht, update_self] at hw'
      simp at hw'
    · rw [update_of_ne ht] at hw'
      exact ⟨w', hw', rfl, rfl, rfl⟩
  all_goals simp

theorem quiet_awake (w : Sleeper) : Quiet s (s.awake t w) := by
  have hfirst := quiet_addWaiting s w.sma w.num w.forZero (-1)
  have hsleep : (s.addWaiting w.sma w.num w.forZero (-1)).sleep = s.sleep := by
    unfold Sems.addWaiting
    cases w.forZero <;> simp
  have hsecond := quiet_forget (s.addWaiting w.sma w.num w.forZero (-1)) t
  rw [hsleep] at hsecond
  exact hfirst.trans hsecond

theorem quiet_interrupt : Quiet s (s.interrupt t) := by
  constructor
  case asleep =>
    intro t' w' hw'
    unfold Sems.interrupt at hw'
    dsimp only at hw'
    by_cases ht : t' = t
    · rw [ht, update_self, Option.map_eq_some_iff] at hw'
      obtain ⟨w, hw, heq⟩ := hw'
      rw [← heq, ht]
      exact ⟨w, hw, rfl, rfl, rfl⟩
    · rw [update_of_ne ht] at hw'
      exact ⟨w', hw', rfl, rfl, rfl⟩
  all_goals simp [Sems.interrupt]

theorem quiet_clearUndos (p : SemUndo → Bool) : Quiet s (s.clearUndos sma p) := by
  constructor
  case semNum =>
    intro un
    unfold Sems.clearUndos
    dsimp only
    split <;> rfl
  case asleep => exact asleep_refl s
  all_goals simp [Sems.clearUndos]

theorem quiet_semun (list : List ℕ) : Quiet s { s with semun := update s.semun t list } := by
  constructor
  case asleep => exact asleep_refl s
  all_goals simp

theorem quiet_dropUndo : Quiet s (s.dropUndo t) := quiet_semun s t _

theorem quiet_unlinkUndo (un : ℕ) : Quiet s (s.unlinkUndo sma un) := by
  constructor
  case semNsems =>
    intro a
    exact (unlinkUndo_set s sma un a).2.2
  case undo =>
    intro a un' hun'
    unfold Sems.unlinkUndo at hun'
    dsimp only at hun'
    by_cases ha : a = sma
    · rw [ha, update_self] at hun'
      rw [ha]
      exact mem_of_mem_erase hun'
    · rw [update_of_ne ha] at hun'
      exact hun'
  case asleep => exact asleep_refl s
  all_goals simp [Sems.unlinkUndo]

theorem quiet_setSemval (num : ℕ) (value : ℤ) : Quiet s (s.setSemval sma num value) :=
  (sameFrame_setSemval s sma num value).quiet rfl

theorem quiet_setSemvals (vals : ℕ → ℤ) : Quiet s (s.setSemvals sma vals) := by
  have hset : ∀ a, ((s.setSemvals sma vals).sets a).semNsems = (s.sets a).semNsems ∧
      ((s.setSemvals sma vals).sets a).undo = (s.sets a).undo := by
    intro a
    unfold Sems.setSemvals
    by_cases ha : a = sma
    · rw [ha]
      simp
    · simp [ha]
  constructor
  case semNsems =>
    intro a
    exact (hset a).1
  case undo =>
    intro a un hun
    rw [(hset a).2] at hun
    exact hun
  case asleep => exact asleep_refl s
  all_goals simp [Sems.setSemvals]

theorem quiet_removed (semid : ℕ) : Quiet s (s.removed semid sma) := by
  have hset : ∀ a, ((s.removed semid sma).sets a).semNsems = (s.sets a).semNsems ∧
      ((s.removed semid sma).sets a).undo = (s.sets a).undo := by
    intro a
    unfold Sems.removed
    by_cases ha : a = sma
    · rw [ha]
      simp
    · simp [ha]
  constructor
  case semary =>
    intro id a hslot
    unfold Sems.removed at hslot
    dsimp only at hslot
    by_cases hid : id = semid % semmni
    · rw [hid, update_self] at hslot
      simp at hslot
    · rw [update_of_ne hid] at hslot
      exact hslot
  case semNsems =>
    intro a
    exact (hset a).1
  case undo =>
    intro a un hun
    rw [(hset a).2] at hun
    exact hun
  case semNum => exact (quiet_clearUndos s sma fun _ => true).semNum
  case asleep => exact asleep_refl s
  all_goals simp [Sems.removed, Sems.clearUndos]

theorem quiet_finish (semid : ℕ) (sops : List Sembuf) : Quiet s (s.finish t semid sma sops).1 := by
  have happly := (applyOps_sameFrame s t semid sma sops).quiet
    (applyOps_sleep s t semid sma sops)
  unfold Sems.finish
  dsimp only
  split <;> split
  · exact (happly.trans (quiet_wakeUp _ sma false)).trans (quiet_wakeUp _ sma true)
  · exact happly.trans (quiet_wakeUp _ sma true)
  · exact happly.trans (quiet_wakeUp _ sma false)
  · exact happly

theorem quiet_adjusted (un : ℕ) : Quiet s (s.adjusted sma un) := by
  have hvalue := quiet_setSemval s sma (s.undos un).semNum
    (toUshort (s.semval sma (s.undos un).semNum + (s.undos un).semadj))
  unfold Sems.adjusted
  dsimp only
  split <;> split
  · exact (hvalue.trans (quiet_wakeUp _ sma false)).trans (quiet_wakeUp _ sma true)
  · exact hvalue.trans (quiet_wakeUp _ sma false)
  · exact hvalue.trans (quiet_wakeUp _ sma true)
  · exact hvalue

theorem quiet_setval (semid semnum : ℕ) (val : ℤ) (permitted : Bool) :
    Quiet s (s.setval semid semnum val permitted).1 := by
  rcases setval_cases s semid semnum val permitted with ⟨e, heq⟩ | ⟨sma', _, _, _, heq⟩
  · rw [heq]
    exact Quiet.refl s
  · rw [heq]
    have hclear := quiet_clearUndos s sma' fun u => u.semNum = semnum
    have hset := hclear.trans (quiet_setSemval _ sma' semnum val)
    exact (hset.trans (quiet_wakeUp _ sma' false)).trans (quiet_wakeUp _ sma' true)

theorem quiet_setall (semid semnum : ℕ) (vals : ℕ → UInt16) (permitted : Bool) :
    Quiet s (s.setall semid semnum vals permitted).1 := by
  rcases setall_cases s semid semnum vals permitted with ⟨e, heq⟩ | ⟨sma', _, _, heq⟩
  · rw [heq]
    exact Quiet.refl s
  · rw [heq]
    have hset := quiet_setSemvals s sma' fun num => (vals num).toNat
    have hclear := hset.trans (quiet_clearUndos _ sma' fun _ => true)
    exact (hclear.trans (quiet_wakeUp _ sma' false)).trans (quiet_wakeUp _ sma' true)

theorem quiet_rmid (semid semnum : ℕ) (permitted : Bool) :
    Quiet s (s.rmid semid semnum permitted).1 := by
  rcases rmid_cases s semid semnum permitted with ⟨e, heq⟩ | ⟨sma', _, heq⟩
  · rw [heq]
    exact Quiet.refl s
  · rw [heq]
    have hremoved := quiet_removed s sma' semid
    exact (hremoved.trans (quiet_wakeUp _ sma' true)).trans (quiet_wakeUp _ sma' false)

end Pieces

/-! ## What is kept for later -/

theorem newUndo_semNsems (s : Sems) (t : Task) (semid sma num a : ℕ) :
    ((s.newUndo t semid sma num).sets a).semNsems = (s.sets a).semNsems := by
  unfold Sems.newUndo
  by_cases ha : a = sma
  · rw [ha]
    simp
  · simp [ha]

section
variable {s : Sems} (h : IndexOk s) (t : Task)
include h

theorem IndexOk.newUndo (semid : ℕ) {sma num : ℕ} (hnum : num < (s.sets sma).semNsems) :
    IndexOk (s.newUndo t semid sma num) := by
  have hnsems := newUndo_semNsems s t semid sma num
  have hold : ∀ un < s.nextUndo, ((s.newUndo t semid sma num).undos un).semNum =
      (s.undos un).semNum := by
    intro un hun
    unfold Sems.newUndo
    dsimp only
    rw [update_of_ne (by omega)]
  have hnew : ((s.newUndo t semid sma num).undos s.nextUndo).semNum = num := by
    unfold Sems.newUndo
    simp
  have hcount : (s.newUndo t semid sma num).nextUndo = s.nextUndo + 1 := rfl
  constructor
  · exact h.slot
  · intro a un hun
    rw [hnsems, hcount]
    by_cases hlast : a = sma ∧ un = s.nextUndo
    · rw [hlast.2, hlast.1, hnew]
      exact ⟨by omega, hnum⟩
    · have hmem : un ∈ (s.sets a).undo := by
        unfold Sems.newUndo at hun
        dsimp only at hun
        by_cases ha : a = sma
        · rw [ha, update_self] at hun
          rw [ha]
          rcases mem_cons.mp hun with heq | hmem
          · exact absurd ⟨ha, heq⟩ hlast
          · exact hmem
        · rw [update_of_ne ha] at hun
          exact hun
      obtain ⟨hlt, hn⟩ := h.undo a un hmem
      rw [hold un hlt]
      exact ⟨by omega, hn⟩
  · intro t' w hw
    exact (h.asleep t' w hw).of_eq le_rfl (Nat.le_succ _) (fun a _ => hnsems a) hold rfl rfl rfl

theorem IndexOk.ensureUndos (semid : ℕ) {sma : ℕ} (free : ℕ)
    (hnums : ∀ sop ∈ sops, sop.num < (s.sets sma).semNsems) :
    IndexOk (s.ensureUndos t semid sma free sops).1 ∧
      ((s.ensureUndos t semid sma free sops).1.sets sma).semNsems = (s.sets sma).semNsems ∧
      (s.ensureUndos t semid sma free sops).1.nextSet = s.nextSet := by
  induction sops generalizing s free with
  | nil => exact ⟨h, rfl, rfl⟩
  | cons sop rest ih =>
    have hrest : ∀ sop' ∈ rest, sop'.num < (s.sets sma).semNsems := by
      intro sop' hmem
      exact hnums sop' (mem_cons_of_mem _ hmem)
    unfold Sems.ensureUndos
    split
    · split
      · exact ih h free hrest
      · split
        · exact ⟨h, rfl, rfl⟩
        · have hnew := h.newUndo t semid (hnums sop mem_cons_self)
          have hsame := newUndo_semNsems s t semid sma sop.num sma
          obtain ⟨hok, hnsems, hnext⟩ := ih hnew _ (by rw [hsame]; exact hrest)
          exact ⟨hok, hnsems.trans hsame, hnext⟩
    · exact ih h free hrest

theorem IndexOk.sleepOn {w : Sleeper} (hw : SleeperOk s w) : IndexOk (s.sleepOn t w) := by
  have hq := quiet_addWaiting s w.sma w.num w.forZero 1
  have hadd := h.quiet hq
  constructor
  · exact hadd.slot
  · exact hadd.undo
  · intro t' w' hw'
    unfold Sems.sleepOn at hw'
    dsimp only at hw'
    have hbase : ∃ w0, SleeperOk s w0 ∧ w' = w0 := by
      by_cases ht : t' = t
      · rw [ht, update_self, Option.some.injEq] at hw'
        exact ⟨w, hw, hw'.symm⟩
      · rw [update_of_ne ht] at hw'
        exact ⟨w', h.asleep t' w' hw', rfl⟩
    obtain ⟨w0, hok, heq⟩ := hbase
    rw [heq]
    exact hok.of_eq hq.nextSet.ge hq.nextUndo.ge (fun a _ => hq.semNsems a)
      (fun un _ => hq.semNum un) rfl rfl rfl

omit h in
theorem IndexOk.newary {s : Sems} (h : IndexOk s) (id nsems : ℕ) (behind : Sem) :
    IndexOk (s.newary id nsems behind).1 := by
  rcases newary_cases s id nsems behind with heq | ⟨_, _, r, heq⟩
  · rw [heq]
    exact h
  · rw [heq]
    constructor
    · intro id' sma hslot
      dsimp only at hslot ⊢
      by_cases hid : id' = id
      · rw [hid, update_self, Slot.set.injEq] at hslot
        omega
      · rw [update_of_ne hid] at hslot
        have := h.slot id' sma hslot
        omega
    · intro sma un hun
      dsimp only at hun ⊢
      by_cases hsma : sma = s.nextSet
      · rw [hsma, update_self] at hun
        simp at hun
      · rw [update_of_ne hsma] at hun ⊢
        exact h.undo sma un hun
    · intro t w hw
      refine (h.asleep t w hw).of_eq (Nat.le_succ _) le_rfl ?_ (fun _ _ => rfl) rfl rfl rfl
      intro sma hlt
      dsimp only
      rw [update_of_ne (by omega)]

theorem IndexOk.slept (semid : ℕ) {sma : ℕ} (signal : Bool) (hset : sma < s.nextSet)
    (hnums : ∀ sop ∈ sops, sop.num < (s.sets sma).semNsems) :
    IndexOk (s.slept t semid sma sops signal).1 := by
  rcases slept_cases s t semid sma sops signal with
    ⟨e, _, heq⟩ | ⟨sop, forZero, _, hcheck, heq⟩ | ⟨_, _, heq⟩
  · rw [heq]
    exact h
  · rw [heq]
    apply h.sleepOn t
    constructor
    · exact hset
    · exact hnums sop (mem_of_check_sleep hcheck)
    · intro semid' sops' sop' hw
      rw [Waiting.semop.injEq] at hw
      rw [← hw.2.1]
      exact hnums
    · intro un hw
      simp at hw
  · rw [heq]
    exact h.quiet (quiet_finish s t sma semid sops)

theorem IndexOk.adjust {sma un : ℕ} (signal : Bool) (hset : sma < s.nextSet) (hun : un < s.nextUndo)
    (hnum : (s.undos un).semNum < (s.sets sma).semNsems) :
    IndexOk (s.adjust t sma un signal).1 := by
  rcases adjust_cases s t sma un signal with ⟨_, heq⟩ | ⟨_, _, heq⟩ | ⟨_, _, heq⟩
  · rw [heq]
    exact h.quiet (quiet_dropUndo s t)
  · rw [heq]
    exact h.quiet ((quiet_adjusted s sma un).trans (quiet_dropUndo _ t))
  · rw [heq]
    apply h.sleepOn t
    constructor
    · exact hset
    · exact hnum
    · intro semid sops sop hw
      simp at hw
    · intro un' hw
      rw [Waiting.exit.injEq] at hw
      rw [← hw]
      exact ⟨hun, hnum⟩

theorem IndexOk.exitRecord (signal : Bool) : IndexOk (s.exitRecord t signal).1 := by
  rcases exitRecord_cases s t signal with ⟨_, heq⟩ | ⟨un, rest, _, hcases⟩
  · rw [heq]
    exact h
  · rcases hcases with
      ⟨heq, _⟩ | ⟨sma, hslot, _, ⟨_, heq⟩ | ⟨_, _, heq⟩ | ⟨hmem, _, heq⟩⟩
    · rw [heq]
      exact h.quiet (quiet_dropUndo s t)
    · rw [heq]
      exact h.quiet (quiet_semun s t [])
    · rw [heq]
      exact h.quiet ((quiet_unlinkUndo s sma un).trans (quiet_dropUndo _ t))
    · rw [heq]
      obtain ⟨hun, hnum⟩ := h.undo sma un hmem
      apply (h.quiet (quiet_unlinkUndo s sma un)).adjust t signal (h.slot _ sma hslot) hun
      rw [(unlinkUndo_set s sma un sma).2.2]
      exact hnum

theorem IndexOk.resume (signal : Bool) : IndexOk (s.resume t signal).1 := by
  unfold Sems.resume
  split
  · exact h
  · rename_i w hw
    have hok := h.asleep t w hw
    have hq := quiet_awake s t w
    have hset : w.sma < (s.awake t w).nextSet := by
      rw [hq.nextSet]
      exact hok.set
    split
    · split
      · rename_i semid sops sop hwaiting
        apply (h.quiet hq).slept t semid signal hset
        rw [hq.semNsems]
        exact hok.semop semid sops sop hwaiting
      · rename_i un hwaiting
        obtain ⟨hun, hnum⟩ := hok.exit un hwaiting
        apply (h.quiet hq).adjust t signal hset
        · rw [hq.nextUndo]
          exact hun
        · rw [hq.semNum, hq.semNsems]
          exact hnum
    · exact h

end

/-! ## The comparison of `sys_semop` -/

variable {semid : ℕ}

section
variable {s : Sems} {sma : ℕ} (h : s.semopSet semid sops = some sma)
include h

theorem semopSet_eq : sops ≠ [] ∧ sops.length ≤ semopm ∧ s.semary (semid % semmni) = .set sma := by
  unfold Sems.semopSet at h
  split at h
  · simp at h
  · rename_i hnot
    push Not at hnot
    split at h
    · rename_i sma' hslot
      rw [Option.some.injEq] at h
      rw [← h]
      exact ⟨hnot.1, hnot.2, hslot⟩
    · simp at h

theorem semop_efbig (hbeyond : ∃ sop ∈ sops, (s.sets sma).semNsems < sop.num) (t : Task)
    (permitted : Bool) (free : ℕ) (signal : Bool) :
    s.semop t semid sops permitted free signal = (s, .returned (-efbig)) ∧
      s.semopIndices t semid sops permitted free = [] := by
  obtain ⟨hne, hlen, hslot⟩ := semopSet_eq h
  have hany : (sops.any fun sop => decide ((s.sets sma).semNsems < sop.num)) = true := by
    simpa using hbeyond
  constructor
  · unfold Sems.semop
    rw [if_neg hne, if_neg (by omega), hslot]
    dsimp only
    rw [if_pos hany]
  · unfold Sems.semopIndices
    rw [if_neg hne, if_neg (by omega), hslot]
    dsimp only
    rw [if_pos hany]

theorem semop_passed (hbound : ∀ sop ∈ sops, sop.num ≤ (s.sets sma).semNsems) (t : Task)
    (permitted : Bool) (free : ℕ) (signal : Bool) :
    (s.semop t semid sops permitted free signal = (s, .returned (-eacces)) ∧
        s.semopIndices t semid sops permitted free = []) ∨
      (s.semop t semid sops permitted free signal =
          ((s.ensureUndos t semid sma free sops).1, .returned (-enomem)) ∧
        s.semopIndices t semid sops permitted free = []) ∨
      (s.semop t semid sops permitted free signal =
          (s.ensureUndos t semid sma free sops).1.slept t semid sma sops signal ∧
        s.semopIndices t semid sops permitted free =
          (s.ensureUndos t semid sma free sops).1.sleptIndices semid sma sops) := by
  obtain ⟨hne, hlen, hslot⟩ := semopSet_eq h
  have hany : ¬(sops.any fun sop => decide ((s.sets sma).semNsems < sop.num)) = true := by
    simpa using hbound
  unfold Sems.semop Sems.semopIndices
  rw [if_neg hne, if_neg (by omega), if_neg hne, if_neg (by omega), hslot]
  dsimp only
  rw [if_neg hany, if_neg hany]
  by_cases hpermitted : permitted = true
  · rw [if_neg (not_not.mpr hpermitted), if_neg (not_not.mpr hpermitted)]
    by_cases henough : (s.ensureUndos t semid sma free sops).2 = true
    · rw [if_pos henough, if_pos henough]
      exact .inr (.inr ⟨rfl, rfl⟩)
    · rw [if_neg henough, if_neg henough]
      exact .inr (.inl ⟨rfl, rfl⟩)
  · rw [if_pos hpermitted, if_pos hpermitted]
    exact .inl ⟨rfl, rfl⟩

end

theorem semop_before {s : Sems}
    (h : s.semopSet semid sops = none) (t : Task) (permitted : Bool) (free : ℕ)
    (signal : Bool) :
    (s.semop t semid sops permitted free signal).1 = s ∧
      s.semopIndices t semid sops permitted free = [] := by
  unfold Sems.semopSet at h
  unfold Sems.semop Sems.semopIndices
  by_cases hne : sops = []
  · rw [if_pos hne, if_pos hne]
    exact ⟨rfl, rfl⟩
  · rw [if_neg hne, if_neg hne]
    by_cases hlen : semopm < sops.length
    · rw [if_pos hlen, if_pos hlen]
      exact ⟨rfl, rfl⟩
    · rw [if_neg hlen, if_neg hlen]
      rw [if_neg (by push Not; exact ⟨hne, by omega⟩)] at h
      cases hslot : s.semary (semid % semmni) with
      | unused => exact ⟨rfl, rfl⟩
      | noid => exact ⟨rfl, rfl⟩
      | set sma =>
        rw [hslot] at h
        simp at h

theorem check_error_ne {e : ℤ}
    (h : check value sops = .error e) : e = erange ∨ e = eagain := by
  induction sops with
  | nil => simp [check] at h
  | cons sop rest ih =>
    unfold check at h
    split at h
    · rw [Check.error.injEq] at h
      exact .inl h.symm
    · split at h
      · split at h
        · rw [Check.error.injEq] at h
          exact .inr h.symm
        · simp at h
      · split at h
        · split at h
          · rw [Check.error.injEq] at h
            exact .inr h.symm
          · simp at h
        · exact ih h

section
variable (s : Sems) (t : Task) (semid sma : ℕ)

theorem applyOps_last_nonneg {sop : Sembuf} (hlast : sops.getLast? = some sop) :
    0 ≤ (s.applyOps t semid sma sops).1.semval sma sop.num := by
  induction sops generalizing s with
  | nil => simp at hlast
  | cons first rest ih =>
    unfold Sems.applyOps
    cases rest with
    | nil =>
      rw [List.getLast?_singleton, Option.some.injEq] at hlast
      rw [hlast]
      change 0 ≤ (s.applyOp t semid sma sop).semval sma sop.num
      rw [applyOp_semval, if_pos ⟨rfl, rfl⟩]
      exact Int.emod_nonneg _ (by norm_num)
    | cons second rest =>
      exact ih _ hlast

theorem finish_nonneg (hne : sops ≠ []) :
    ∃ v, 0 ≤ v ∧ (s.finish t semid sma sops).2 = .returned v := by
  have hsop := List.getLast?_eq_some_getLast hne
  have hvalue := applyOps_last_nonneg s t semid sma hsop
  unfold Sems.finish
  rw [hsop]
  refine ⟨_, ?_, rfl⟩
  split <;> split <;> exact hvalue

theorem slept_ne_efbig (hne : sops ≠ []) (signal : Bool) :
    (s.slept t semid sma sops signal).2 ≠ .returned (-efbig) := by
  unfold Sems.slept
  split
  · simp [eidrm, efbig]
  · split
    · rename_i e hcheck
      rcases check_error_ne hcheck with he | he
      · simp [he, erange, efbig]
      · simp [he, eagain, efbig]
    · split
      · simp [eintr, efbig]
      · simp
    · obtain ⟨v, hv, heq⟩ := finish_nonneg s t semid sma hne
      rw [heq]
      intro hvalue
      rw [Outcome.returned.injEq] at hvalue
      unfold efbig at hvalue
      omega

end

/-! ## Steps -/

theorem mem_checked {num : ℕ}
    (h : num ∈ checked value sops) : ∃ sop ∈ sops, sop.num = num := by
  induction sops with
  | nil => simp [checked] at h
  | cons sop rest ih =>
    rcases mem_cons.mp h with heq | hrest
    · exact ⟨sop, mem_cons_self, heq.symm⟩
    · split at hrest
      · simp at hrest
      · split at hrest
        · simp at hrest
        · split at hrest
          · simp at hrest
          · obtain ⟨sop', hmem, heq⟩ := ih hrest
            exact ⟨sop', mem_cons_of_mem _ hmem, heq⟩

theorem sleptIndices_lt {s : Sems} {sma : ℕ}
    (hnums : ∀ sop ∈ sops, sop.num < (s.sets sma).semNsems) :
    ∀ i ∈ s.sleptIndices semid sma sops, i.1 = sma ∧ i.2 < (s.sets sma).semNsems := by
  intro i hi
  have hchecked : ∀ num ∈ checked (s.semval sma) sops, num < (s.sets sma).semNsems := by
    intro num hnum
    obtain ⟨sop, hsop, heq⟩ := mem_checked hnum
    rw [← heq]
    exact hnums sop hsop
  unfold Sems.sleptIndices at hi
  split at hi
  · simp at hi
  · split at hi
    · obtain ⟨num, hnum, heq⟩ := mem_map.mp hi
      rw [← heq]
      refine ⟨rfl, ?_⟩
      rcases mem_append.mp hnum with hnum | hnum
      · exact hchecked num hnum
      · obtain ⟨sop, hsop, heq⟩ := mem_map.mp hnum
        rw [← heq]
        exact hnums sop hsop
    · obtain ⟨num, hnum, heq⟩ := mem_map.mp hi
      rw [← heq]
      exact ⟨rfl, hchecked num hnum⟩

theorem adjustIndices_lt {s : Sems} {sma un : ℕ}
    (hnum : (s.undos un).semNum < (s.sets sma).semNsems) :
    ∀ i ∈ s.adjustIndices sma un, i.2 < (s.sets i.1).semNsems := by
  intro i hi
  unfold Sems.adjustIndices at hi
  split at hi
  · simp at hi
  · rw [mem_singleton] at hi
    rw [hi]
    exact hnum

section
variable {s : Sems} (h : IndexOk s) (t : Task)
include h

theorem exitIndices_lt : ∀ i ∈ s.exitIndices t, i.2 < (s.sets i.1).semNsems := by
  intro i hi
  unfold Sems.exitIndices at hi
  split at hi
  · simp at hi
  · rename_i un rest _
    dsimp only at hi
    split at hi
    · simp at hi
    · simp at hi
    · rename_i sma _
      split at hi
      · simp at hi
      · split at hi
        · rename_i hmem
          split at hi
          · simp at hi
          · exact adjustIndices_lt (h.undo sma un hmem).2 i hi
        · simp at hi

theorem resumeIndices_lt : ∀ i ∈ s.resumeIndices t, i.2 < (s.sets i.1).semNsems := by
  intro i hi
  unfold Sems.resumeIndices at hi
  split at hi
  · simp at hi
  · rename_i w hw
    have hok := h.asleep t w hw
    have hq := quiet_awake s t w
    split at hi
    · rcases mem_cons.mp hi with heq | hi
      · rw [heq]
        exact hok.num
      · split at hi
        · rename_i semid sops sop hwaiting
          have hnums := hok.semop semid sops sop hwaiting
          rw [← hq.semNsems] at hnums
          obtain ⟨hset, hlt⟩ := sleptIndices_lt hnums i hi
          rw [hset, ← hq.semNsems]
          exact hlt
        · rename_i un hwaiting
          have hnum := (hok.exit un hwaiting).2
          rw [← hq.semNsems, ← hq.semNum] at hnum
          rw [← hq.semNsems]
          exact adjustIndices_lt hnum i hi
    · simp at hi

omit h in
theorem lt_of_below {ds : SemidDs} (h : ¬AtBound ds sops)
    (hbound : ∀ sop ∈ sops, sop.num ≤ ds.semNsems) : ∀ sop ∈ sops, sop.num < ds.semNsems := by
  intro sop hsop
  apply lt_of_le_of_ne (hbound sop hsop)
  intro heq
  exact h ⟨⟨sop, hsop, heq⟩, hbound⟩

theorem IndexOk.semop (semid : ℕ) (sops : List Sembuf) (permitted : Bool) (free : ℕ) (signal : Bool)
    (hbelow : ∀ sma, s.semopSet semid sops = some sma → ¬AtBound (s.sets sma) sops) :
    IndexOk (s.semop t semid sops permitted free signal).1 ∧
      ∀ i ∈ s.semopIndices t semid sops permitted free, i.2 < (s.sets i.1).semNsems := by
  cases hset : s.semopSet semid sops with
  | none =>
    obtain ⟨hsame, hnone⟩ := semop_before hset t permitted free signal
    rw [hsame, hnone]
    exact ⟨h, by simp⟩
  | some sma =>
    by_cases hbound : ∀ sop ∈ sops, sop.num ≤ (s.sets sma).semNsems
    · have hnums := lt_of_below (hbelow sma hset) hbound
      obtain ⟨hok, hnsems, hnext⟩ := h.ensureUndos t semid free hnums
      rcases semop_passed hset hbound t permitted free signal with
        ⟨heq, hnone⟩ | ⟨heq, hnone⟩ | ⟨heq, hindices⟩
      · rw [heq, hnone]
        exact ⟨h, by simp⟩
      · rw [heq, hnone]
        exact ⟨hok, by simp⟩
      · rw [heq, hindices]
        have hslot := h.slot _ sma (semopSet_eq hset).2.2
        rw [← hnsems] at hnums
        refine ⟨hok.slept t semid signal (by rw [hnext]; exact hslot) hnums, ?_⟩
        intro i hi
        obtain ⟨hi1, hi2⟩ := sleptIndices_lt hnums i hi
        rw [hi1, ← hnsems]
        exact hi2
    · push Not at hbound
      obtain ⟨heq, hnone⟩ := semop_efbig hset hbound t permitted free signal
      rw [heq, hnone]
      exact ⟨h, by simp⟩

end

variable {e : Event}

theorem IndexOk.step {s : Sems} (h : IndexOk s) (hbelow : BelowBound s e) :
    IndexOk (s.step e).1 ∧ ∀ i ∈ s.indices e, i.2 < (s.sets i.1).semNsems := by
  cases e with
  | newary id nsems behind => exact ⟨h.newary id nsems behind, by simp [Sems.indices]⟩
  | semop t semid sops permitted free signal =>
    unfold Sems.step Sems.indices
    dsimp only
    cases hsleep : s.sleep t with
    | some w => exact ⟨h, by simp⟩
    | none => exact h.semop t semid sops permitted free signal (hbelow hsleep)
  | resume t signal => exact ⟨h.resume t signal, resumeIndices_lt h t⟩
  | interrupt t => exact ⟨h.quiet (quiet_interrupt s t), by simp [Sems.indices]⟩
  | exitRecord t signal =>
    unfold Sems.step Sems.indices
    dsimp only
    cases hsleep : s.sleep t with
    | some w => exact ⟨h, by simp⟩
    | none => exact ⟨h.exitRecord t signal, exitIndices_lt h t⟩
  | setval semid semnum val permitted =>
    exact ⟨h.quiet (quiet_setval s semid semnum val permitted), by simp [Sems.indices]⟩
  | setall semid semnum vals permitted =>
    exact ⟨h.quiet (quiet_setall s semid semnum vals permitted), by simp [Sems.indices]⟩
  | rmid semid semnum permitted =>
    exact ⟨h.quiet (quiet_rmid s semid semnum permitted), by simp [Sems.indices]⟩

theorem stepSafe_of_below {s : Sems} (h : IndexOk s) (hbelow : BelowBound s e) : StepSafe s e := by
  constructor
  · exact (h.step hbelow).2
  · intro t semid sops permitted free signal sma he hsleep hset hbeyond
    rw [he] at hbelow ⊢
    have hnot := hbelow hsleep sma hset
    have hlarger : ∃ sop ∈ sops, (s.sets sma).semNsems < sop.num := by
      by_contra hnone
      push Not at hnone
      obtain ⟨sop, hsop, hle⟩ := hbeyond
      exact hnot ⟨⟨sop, hsop, le_antisymm (hnone sop hsop) hle⟩, hnone⟩
    unfold Sems.step
    dsimp only
    rw [hsleep, if_neg (by simp)]
    exact (semop_efbig hset hlarger t permitted free signal).1

theorem below_of_stepSafe {s : Sems} (h : StepSafe s e) : BelowBound s e := by
  cases e with
  | semop t semid sops permitted free signal =>
    intro hsleep sma hset hat
    obtain ⟨⟨sop, hsop, hnum⟩, hbound⟩ := hat
    have hrefused := h.efbig t semid sops permitted free signal sma rfl hsleep hset
      ⟨sop, hsop, hnum.ge⟩
    unfold Sems.step at hrefused
    dsimp only at hrefused
    rw [hsleep, if_neg (by simp)] at hrefused
    have hne := (semopSet_eq hset).1
    have hresult : (s.semop t semid sops permitted free signal).2 ≠ .returned (-efbig) := by
      rcases semop_passed hset hbound t permitted free signal with
        ⟨heq, _⟩ | ⟨heq, _⟩ | ⟨heq, _⟩
      · simp [heq, eacces, efbig]
      · simp [heq, enomem, efbig]
      · rw [heq]
        exact slept_ne_efbig _ t semid sma hne signal
    exact hresult (by rw [hrefused])
  | _ => trivial

theorem indexOk_init : IndexOk Sems.init := by
  constructor <;> simp [Sems.init]

theorem runSafe_iff {s : Sems} (h : IndexOk s) (es : List Event) :
    RunSafe s es ↔ RunBelow s es := by
  induction es generalizing s with
  | nil => rfl
  | cons e es ih =>
    constructor
    · intro hsafe
      have hbelow := below_of_stepSafe hsafe.1
      exact ⟨hbelow, (ih (h.step hbelow).1).mp hsafe.2⟩
    · intro hbelow
      exact ⟨stepSafe_of_below h hbelow.1, (ih (h.step hbelow.1).1).mpr hbelow.2⟩

/-- From the start, every step of a run is safe if and only if no call names the
semaphore behind the last one of its set. -/
theorem run_indexSafe_iff (es : List Event) : RunSafe Sems.init es ↔ RunBelow Sems.init es :=
  runSafe_iff indexOk_init es

def behindRun : List Event :=
  [.newary 0 1 ⟨7, 0, 0⟩, .semop 0 0 [⟨1, 1, false, false⟩] true 0 false]

theorem behindRun_not_safe : ¬RunSafe Sems.init behindRun := by
  intro h
  have hindex := h.2.1.index (0, 1) (by decide +kernel)
  revert hindex
  decide +kernel

end LinuxKernel.Semaphore
