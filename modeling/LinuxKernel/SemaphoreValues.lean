import LinuxKernel.SemaphoreSteps
import Mathlib

/-!
# `semop` as a whole and the range of the values

The check loop of `sys_semop` looks at every operation with the values before the
call, the loop after it applies them one after the other.  Where an array names
a semaphore once, or where its operations also fit one after the other, a call
that succeeds does what the operations say and a call that fails changes
nothing.
-/

namespace LinuxKernel.Semaphore
open Function

/-! ## Operations one after the other -/

def SeqOk (value : ℕ → ℤ) : List Sembuf → Prop
  | [] => True
  | sop :: rest =>
    0 ≤ value sop.num + sop.op ∧ value sop.num + sop.op ≤ semvmx ∧
      (sop.op = 0 → value sop.num = 0) ∧
      SeqOk (update value sop.num (value sop.num + sop.op)) rest

def seqApply (value : ℕ → ℤ) : List Sembuf → ℕ → ℤ
  | [] => value
  | sop :: rest => seqApply (update value sop.num (value sop.num + sop.op)) rest

theorem toUshort_eq {x : ℤ} (h0 : 0 ≤ x) (h1 : x ≤ semvmx) : toUshort x = x := by
  apply Int.emod_eq_of_lt h0
  unfold semvmx at h1
  omega

variable {value : ℕ → ℤ}

theorem check_pass_cons {sop : Sembuf} {rest : List Sembuf} :
    check value (sop :: rest) = .pass ↔
      sop.op + value sop.num ≤ semvmx ∧ (sop.op = 0 → value sop.num = 0) ∧
        0 ≤ sop.op + value sop.num ∧ check value rest = .pass := by
  rw [check]
  by_cases h1 : sop.op + value sop.num > semvmx
  · rw [if_pos h1]
    simp only [reduceCtorEq, false_iff]
    intro h
    omega
  · rw [if_neg h1]
    by_cases h2 : sop.op = 0 ∧ value sop.num ≠ 0
    · rw [if_pos h2]
      constructor
      · intro h
        split at h <;> simp at h
      · intro h
        exact absurd (h.2.1 h2.1) h2.2
    · rw [if_neg h2]
      by_cases h3 : sop.op + value sop.num < 0
      · rw [if_pos h3]
        constructor
        · intro h
          split at h <;> simp at h
        · intro h
          omega
      · rw [if_neg h3]
        constructor
        · intro h
          refine ⟨not_lt.mp h1, ?_, not_lt.mp h3, h⟩
          intro hop
          by_contra hne
          exact h2 ⟨hop, hne⟩
        · intro h
          exact h.2.2.2

variable {sops : List Sembuf}

theorem seqOk_of_nodup
    (hnodup : (sops.map Sembuf.num).Nodup) (hcheck : check value sops = .pass) :
    SeqOk value sops := by
  induction sops generalizing value with
  | nil => trivial
  | cons sop rest ih =>
    obtain ⟨h1, h2, h3, hrest⟩ := check_pass_cons.mp hcheck
    obtain ⟨hnot, hnodup'⟩ := List.nodup_cons.mp hnodup
    refine ⟨by omega, by omega, h2, ih hnodup' ?_⟩
    clear ih hnodup hnodup' hcheck
    induction rest with
    | nil => rfl
    | cons sop' rest ih =>
      rw [List.map_cons, List.mem_cons, not_or] at hnot
      obtain ⟨g1, g2, g3, grest⟩ := check_pass_cons.mp hrest
      rw [check_pass_cons, update_of_ne (Ne.symm hnot.1)]
      exact ⟨g1, g2, g3, ih grest hnot.2⟩

theorem seqApply_range (h : SeqOk value sops) {n : ℕ}
    (hn : 0 ≤ value n ∧ value n ≤ semvmx) :
    0 ≤ seqApply value sops n ∧ seqApply value sops n ≤ semvmx := by
  induction sops generalizing value with
  | nil => exact hn
  | cons sop rest ih =>
    obtain ⟨h1, h2, _, hrest⟩ := h
    apply ih hrest
    by_cases heq : n = sop.num
    · rw [heq, update_self]
      exact ⟨h1, h2⟩
    · rw [update_of_ne heq]
      exact hn

variable {s : Sems} {sma : ℕ}

theorem applyOps_seq (t : Task) (semid : ℕ)
    (h : SeqOk (s.semval sma) sops) :
    (s.applyOps t semid sma sops).1.semval sma = seqApply (s.semval sma) sops := by
  induction sops generalizing s with
  | nil => rfl
  | cons sop rest ih =>
    obtain ⟨h1, h2, _, hrest⟩ := h
    have hstep : (s.applyOp t semid sma sop).semval sma =
        update (s.semval sma) sop.num (s.semval sma sop.num + sop.op) := by
      funext n
      rw [applyOp_semval]
      by_cases hn : n = sop.num
      · rw [hn, if_pos ⟨rfl, rfl⟩, update_self, toUshort_eq h1 h2]
      · rw [if_neg (fun h => hn h.2), update_of_ne hn]
    unfold Sems.applyOps seqApply
    rw [ih (by rw [hstep]; exact hrest), hstep]

/-- The set and the operations of the call of `sys_semop` that an event runs. -/
def callOf (s : Sems) : Event → Option (ℕ × List Sembuf)
  | .semop _ semid sops _ _ _ =>
    match s.semary (semid % semmni) with
    | .set sma => some (sma, sops)
    | _ => none
  | .resume t _ =>
    match s.sleep t with
    | some w =>
      match w.waiting with
      | .semop _ sops _ => some (w.sma, sops)
      | .exit _ => none
    | none => none
  | _ => none

/-- The set and the undo record that an event of `sem_exit` works on. -/
def adjustOf (s : Sems) : Event → Option (ℕ × ℕ)
  | .exitRecord t _ =>
    match s.semun t with
    | un :: _ =>
      match s.semary ((s.undos un).semid % semmni) with
      | .set sma => some (sma, un)
      | _ => none
    | [] => none
  | .resume t _ =>
    match s.sleep t with
    | some w =>
      match w.waiting with
      | .semop _ _ _ => none
      | .exit un => some (w.sma, un)
    | none => none
  | _ => none

/-- The operations of a call that all pass the check can also be applied one
after the other, and an adjustment at exit does not lift a value above
`SEMVMX`. -/
structure EventFits (s : Sems) (e : Event) : Prop where
  semop : ∀ sma sops, callOf s e = some (sma, sops) →
    check (s.semval sma) sops = .pass → SeqOk (s.semval sma) sops
  exit : ∀ sma un, adjustOf s e = some (sma, un) →
    s.semval sma (s.undos un).semNum + (s.undos un).semadj ≤ semvmx

def RunFits : Sems → List Event → Prop
  | _, [] => True
  | s, e :: es => EventFits s e ∧ RunFits (s.step e).1 es

/-! ## What a call does -/

structure Unchanged (s s' : Sems) : Prop where
  semval : ∀ sma n, s'.semval sma n = s.semval sma n
  adj : ∀ t semid n, s'.adj t semid n = s.adj t semid n

structure CallSpec (s : Sems) (sma : ℕ) (sops : List Sembuf) (r : Sems × Outcome) : Prop where
  success : ∀ v, r.2 = .returned v → 0 ≤ v →
    SeqOk (s.semval sma) sops ∧ r.1.semval sma = seqApply (s.semval sma) sops
  failure : ∀ v, r.2 = .returned v → v < 0 → Unchanged s r.1
  asleep : r.2 = .asleep → Unchanged s r.1

theorem Unchanged.trans {s1 s2 s3 : Sems} (h1 : Unchanged s1 s2) (h2 : Unchanged s2 s3) :
    Unchanged s1 s3 := by
  constructor
  · intro sma n
    rw [h2.semval, h1.semval]
  · intro t semid n
    rw [h2.adj, h1.adj]

variable {s' : Sems}

theorem UndosAdded.unchanged (h : UndosAdded s s' sma) : Unchanged s s' := ⟨h.semval, h.adj⟩

theorem unchanged_of_eq (hsemval : ∀ sma n, s'.semval sma n = s.semval sma n)
    (hundos : s'.undos = s.undos) (hsemun : s'.semun = s.semun) : Unchanged s s' := by
  refine ⟨hsemval, ?_⟩
  intro t semid n
  apply adj_congr
  · rw [hsemun]
  · intro un _
    rw [hundos]

theorem sleepOn_unchanged (s : Sems) (t : Task) (w : Sleeper) : Unchanged s (s.sleepOn t w) := by
  apply unchanged_of_eq
  · intro sma n
    exact addWaiting_semval s w.sma w.num w.forZero 1 sma n
  · exact addWaiting_undos s w.sma w.num w.forZero 1
  · exact addWaiting_semun s w.sma w.num w.forZero 1

theorem seqApply_last (h : SeqOk value sops) {last : Sembuf}
    (hlast : sops.getLast? = some last) : 0 ≤ seqApply value sops last.num := by
  induction sops generalizing value with
  | nil => simp at hlast
  | cons sop rest ih =>
    obtain ⟨h1, _, _, hrest⟩ := h
    cases rest with
    | nil =>
      simp only [List.getLast?_singleton, Option.some.injEq] at hlast
      rw [← hlast]
      simp only [seqApply, update_self]
      exact h1
    | cons sop' rest' =>
      exact ih hrest hlast

theorem finish_semval {t : Task} {semid : ℕ}
    (h : SeqOk (s.semval sma) sops) :
    (s.finish t semid sma sops).1.semval sma = seqApply (s.semval sma) sops := by
  rw [← applyOps_seq t semid h]
  unfold Sems.semval
  rw [(finish_fields s t semid sma sops).1]

theorem finish_returned {t : Task} {semid : ℕ}
    (h : SeqOk (s.semval sma) sops) {v : ℤ}
    (hv : (s.finish t semid sma sops).2 = .returned v) : 0 ≤ v := by
  have hvalue : (s.finish t semid sma sops).2 = .returned ((sops.getLast?.map fun sop =>
      (s.finish t semid sma sops).1.semval sma sop.num).getD 0) := rfl
  rw [hvalue, Outcome.returned.injEq] at hv
  rw [← hv]
  cases hlast : sops.getLast? with
  | none => simp
  | some last =>
    rw [Option.map_some, Option.getD_some, finish_semval h]
    exact seqApply_last h hlast

theorem slept_callSpec (t : Task) (semid : ℕ)
    (signal : Bool) (hfits : check (s.semval sma) sops = .pass → SeqOk (s.semval sma) sops) :
    CallSpec s sma sops (s.slept t semid sma sops signal) := by
  have hsame : Unchanged s s := ⟨fun _ _ => rfl, fun _ _ _ => rfl⟩
  rcases slept_cases s t semid sma sops signal with
    ⟨e, hpos, heq⟩ | ⟨sop, forZero, _, _, heq⟩ | ⟨_, hcheck, heq⟩
  · rw [heq]
    refine ⟨?_, fun _ _ _ => hsame, by simp⟩
    intro v hv h0
    simp only [Outcome.returned.injEq] at hv
    omega
  · rw [heq]
    exact ⟨by simp, by simp, fun _ => sleepOn_unchanged s t _⟩
  · rw [heq]
    have hseq := hfits hcheck
    refine ⟨fun _ _ _ => ⟨hseq, finish_semval hseq⟩, ?_, ?_⟩
    · intro v hv hneg
      have := finish_returned hseq hv
      omega
    · intro hasleep
      simp [Sems.finish] at hasleep

theorem CallSpec.of_unchanged {s1 : Sems} {r : Sems × Outcome}
    (h : CallSpec s1 sma sops r) (hsame : Unchanged s s1) : CallSpec s sma sops r := by
  have hvalue : s1.semval sma = s.semval sma := by
    funext n
    exact hsame.semval sma n
  refine ⟨?_, fun v hv hneg => hsame.trans (h.failure v hv hneg),
    fun hasleep => hsame.trans (h.asleep hasleep)⟩
  intro v hv h0
  have hsuccess := h.success v hv h0
  rw [hvalue] at hsuccess
  exact hsuccess

theorem awake_unchanged (s : Sems) (t : Task) (w : Sleeper) : Unchanged s (s.awake t w) := by
  apply unchanged_of_eq
  · intro sma n
    exact addWaiting_semval s w.sma w.num w.forZero (-1) sma n
  · exact addWaiting_undos s w.sma w.num w.forZero (-1)
  · exact addWaiting_semun s w.sma w.num w.forZero (-1)

theorem awake_semval (s : Sems) (t : Task) (w : Sleeper) (sma : ℕ) :
    (s.awake t w).semval sma = s.semval sma := by
  funext n
  exact (awake_unchanged s t w).semval sma n

def IsSemop (s : Sems) : Event → Prop
  | .semop _ _ _ _ _ _ => True
  | .resume t _ => ∃ w semid sops sop, s.sleep t = some w ∧ w.waiting = .semop semid sops sop
  | _ => False

/-- A call that returns a value has done its operations one after the other, a
call that fails or sleeps has changed nothing. -/
structure SemopSpec (s : Sems) (e : Event) : Prop where
  success : ∀ v, (s.step e).2 = .returned v → 0 ≤ v →
    ∃ sma sops, callOf s e = some (sma, sops) ∧ SeqOk (s.semval sma) sops ∧
      (s.step e).1.semval sma = seqApply (s.semval sma) sops
  failure : ∀ v, (s.step e).2 = .returned v → v < 0 → Unchanged s (s.step e).1
  asleep : (s.step e).2 = .asleep → Unchanged s (s.step e).1

variable {e : Event}

theorem CallSpec.semopSpec
    (h : CallSpec s sma sops (s.step e)) (hcall : callOf s e = some (sma, sops)) :
    SemopSpec s e := by
  refine ⟨?_, h.failure, h.asleep⟩
  intro v hv h0
  obtain ⟨hseq, hvalue⟩ := h.success v hv h0
  exact ⟨sma, sops, hcall, hseq, hvalue⟩

theorem semop_spec (hundos : UndosOk s) (hfits : EventFits s e)
    (hsemop : IsSemop s e) : SemopSpec s e := by
  cases e with
  | semop t semid sops permitted free signal =>
    by_cases hasleep : (s.sleep t).isSome = true
    · have hstep : s.step (.semop t semid sops permitted free signal) = (s, .none) := by
        simp only [Sems.step, hasleep, if_true]
      constructor <;> simp [hstep]
    · have hstep : s.step (.semop t semid sops permitted free signal) =
          s.semop t semid sops permitted free signal := by
        simp only [Sems.step, hasleep, if_false, Bool.false_eq_true]
      rcases semop_cases hundos t semid sops permitted free signal with
        ⟨e, s1, sma, hpos, hadded, heq⟩ | ⟨s1, sma, hslot, hadded, _, heq⟩
      · constructor
        · intro v hv h0
          rw [hstep, heq] at hv
          simp only [Outcome.returned.injEq] at hv
          omega
        · intro v hv hneg
          rw [hstep, heq]
          exact hadded.unchanged
        · intro h
          rw [hstep, heq] at h
          simp at h
      · have hcall : callOf s (.semop t semid sops permitted free signal) = some (sma, sops) := by
          simp only [callOf, hslot]
        have hvalue : s1.semval sma = s.semval sma := by
          funext n
          exact hadded.semval sma n
        apply CallSpec.semopSpec _ hcall
        rw [hstep, heq]
        apply (slept_callSpec t semid signal _).of_unchanged hadded.unchanged
        rw [hvalue]
        exact hfits.semop sma sops hcall
  | resume t signal =>
    obtain ⟨w, semid, sops, sop, hw, hwaiting⟩ := hsemop
    have hcall : callOf s (.resume t signal) = some (w.sma, sops) := by
      simp only [callOf, hw, hwaiting]
    apply CallSpec.semopSpec _ hcall
    cases hrun : w.runnable with
    | false =>
      have hstep : s.step (.resume t signal) = (s, .none) := by
        simp [Sems.step, Sems.resume, hw, hrun]
      rw [hstep]
      constructor <;> simp
    | true =>
      have hstep : s.step (.resume t signal) = (s.awake t w).slept t semid w.sma sops signal := by
        simp only [Sems.step, Sems.resume, hw, hrun, if_true, hwaiting]
      rw [hstep]
      apply (slept_callSpec t semid signal _).of_unchanged (awake_unchanged s t w)
      rw [awake_semval]
      exact hfits.semop w.sma sops hcall
  | newary id nsems behind => exact absurd hsemop (by simp [IsSemop])
  | interrupt t => exact absurd hsemop (by simp [IsSemop])
  | exitRecord t signal => exact absurd hsemop (by simp [IsSemop])
  | setval semid semnum val permitted => exact absurd hsemop (by simp [IsSemop])
  | setall semid semnum vals permitted => exact absurd hsemop (by simp [IsSemop])
  | rmid semid semnum permitted => exact absurd hsemop (by simp [IsSemop])

/-! ## The range of the values -/

def RangeOk (s : Sems) : Prop :=
  ∀ sma n, n < (s.sets sma).semNsems → 0 ≤ s.semval sma n ∧ s.semval sma n ≤ semvmx

section
variable (h : RangeOk s)
include h

theorem RangeOk.of_eq (hsemval : ∀ sma n, s'.semval sma n = s.semval sma n)
    (hnsems : ∀ sma, (s'.sets sma).semNsems = (s.sets sma).semNsems) : RangeOk s' := by
  intro sma n hn
  rw [hnsems] at hn
  rw [hsemval]
  exact h sma n hn

theorem RangeOk.store (sma num : ℕ) (value : ℤ) (hvalue : 0 ≤ value ∧ value ≤ semvmx) :
    RangeOk (s.setSemval sma num value) := by
  intro a n hn
  rw [(sameFrame_setSemval s sma num value).semNsems] at hn
  rw [setSemval_semval]
  split
  · exact hvalue
  · exact h a n hn

theorem RangeOk.finish (t : Task) (semid : ℕ) (hseq : SeqOk (s.semval sma) sops) :
    RangeOk (s.finish t semid sma sops).1 := by
  intro a n hn
  have hsets := (finish_fields s t semid sma sops).1
  rw [hsets, (applyOps_sameFrame s t semid sma sops).semNsems] at hn
  by_cases ha : a = sma
  · rw [ha] at hn ⊢
    rw [finish_semval hseq]
    exact seqApply_range hseq (h sma n hn)
  · have hother : (s.finish t semid sma sops).1.semval a n = s.semval a n := by
      rw [← applyOps_semval_of_ne s t semid sma sops ha n]
      unfold Sems.semval
      rw [hsets]
    rw [hother]
    exact h a n hn

theorem RangeOk.sleepOn (t : Task) (w : Sleeper) : RangeOk (s.sleepOn t w) :=
  h.of_eq (addWaiting_semval s w.sma w.num w.forZero 1)
    (addWaiting_semNsems s w.sma w.num w.forZero 1)

theorem RangeOk.awake (t : Task) (w : Sleeper) : RangeOk (s.awake t w) :=
  h.of_eq (addWaiting_semval s w.sma w.num w.forZero (-1))
    (addWaiting_semNsems s w.sma w.num w.forZero (-1))

theorem RangeOk.slept (t : Task) (semid : ℕ) (signal : Bool)
    (hfits : check (s.semval sma) sops = .pass → SeqOk (s.semval sma) sops) :
    RangeOk (s.slept t semid sma sops signal).1 := by
  rcases slept_cases s t semid sma sops signal with
    ⟨e, _, heq⟩ | ⟨sop, forZero, _, _, heq⟩ | ⟨_, hcheck, heq⟩
  · rw [heq]
    exact h
  · rw [heq]
    exact h.sleepOn t _
  · rw [heq]
    exact h.finish t semid (hfits hcheck)

theorem RangeOk.adjust (t : Task) {un : ℕ} (signal : Bool)
    (hfits : s.semval sma (s.undos un).semNum + (s.undos un).semadj ≤ semvmx) :
    RangeOk (s.adjust t sma un signal).1 := by
  rcases adjust_cases s t sma un signal with ⟨_, heq⟩ | ⟨_, hnonneg, heq⟩ | ⟨_, _, heq⟩
  · rw [heq]
    exact h.of_eq (fun _ _ => rfl) (fun _ => rfl)
  · rw [heq]
    have hstore := h.store sma (s.undos un).semNum
      (toUshort (s.semval sma (s.undos un).semNum + (s.undos un).semadj)) (by
        rw [toUshort_eq hnonneg hfits]
        exact ⟨hnonneg, hfits⟩)
    have hsets := (adjusted_fields s sma un).1
    apply hstore.of_eq
    · intro a n
      change (((s.adjusted sma un).sets a).base n).semval = _
      rw [hsets]
      rfl
    · intro a
      change ((s.adjusted sma un).sets a).semNsems = _
      rw [hsets]
  · rw [heq]
    exact h.sleepOn t _

theorem RangeOk.exitRecord (t : Task) (signal : Bool)
    (hfits : ∀ sma un, adjustOf s (.exitRecord t signal) = some (sma, un) →
      s.semval sma (s.undos un).semNum + (s.undos un).semadj ≤ semvmx) :
    RangeOk (s.exitRecord t signal).1 := by
  have hunlink : ∀ sma un, RangeOk (s.unlinkUndo sma un) := fun sma un =>
    h.of_eq (unlinkUndo_semval s sma un) (fun a => (unlinkUndo_set s sma un a).2.2)
  rcases exitRecord_cases s t signal with ⟨_, heq⟩ | ⟨un, rest, hsemun, hcases⟩
  · rw [heq]
    exact h
  · rcases hcases with ⟨heq, _⟩ | ⟨sma, hslot, _, ⟨_, heq⟩ | ⟨_, _, heq⟩ | ⟨_, _, heq⟩⟩
    · rw [heq]
      exact h.of_eq (fun _ _ => rfl) (fun _ => rfl)
    · rw [heq]
      exact h.of_eq (fun _ _ => rfl) (fun _ => rfl)
    · rw [heq]
      exact (hunlink sma un).of_eq (fun _ _ => rfl) (fun _ => rfl)
    · rw [heq]
      apply (hunlink sma un).adjust t signal
      rw [unlinkUndo_semval]
      apply hfits sma un
      simp only [adjustOf, hsemun, hslot]

theorem RangeOk.step (hundos : UndosOk s) (hfits : EventFits s e) : RangeOk (s.step e).1 := by
  cases e with
  | newary id nsems behind =>
    change RangeOk (s.newary id nsems behind).1
    rcases newary_cases s id nsems behind with heq | ⟨_, _, r, heq⟩
    · rw [heq]
      exact h
    · rw [heq]
      intro a n hn
      by_cases ha : a = s.nextSet
      · rw [ha] at hn ⊢
        simp only [update_self] at hn
        simp only [Sems.semval, update_self, if_pos hn]
        decide
      · simp only [update_of_ne ha] at hn
        simp only [Sems.semval, update_of_ne ha]
        exact h a n hn
  | semop t semid sops permitted free signal =>
    have hcall : ∀ sma, s.semary (semid % semmni) = .set sma →
        check (s.semval sma) sops = .pass → SeqOk (s.semval sma) sops := by
      intro sma hslot
      apply hfits.semop
      simp only [callOf, hslot]
    unfold Sems.step
    dsimp only
    split
    · exact h
    · rcases semop_cases hundos t semid sops permitted free signal with
        ⟨e, s1, sma, _, hadded, heq⟩ | ⟨s1, sma, hslot, hadded, _, heq⟩
      · rw [heq]
        exact h.of_eq hadded.semval hadded.semNsems
      · rw [heq]
        apply (h.of_eq hadded.semval hadded.semNsems).slept t semid signal
        have hvalue : s1.semval sma = s.semval sma := by
          funext n
          exact hadded.semval sma n
        rw [hvalue]
        exact hcall sma hslot
  | resume t signal =>
    change RangeOk (s.resume t signal).1
    unfold Sems.resume
    split
    · exact h
    · rename_i w hw
      split
      · split
        · rename_i semid sops sop hwaiting
          apply (h.awake t w).slept t semid signal
          rw [awake_semval]
          apply hfits.semop
          simp only [callOf, hw, hwaiting]
        · rename_i un hwaiting
          apply (h.awake t w).adjust t signal
          rw [awake_semval]
          have hundo : (s.awake t w).undos = s.undos := addWaiting_undos ..
          rw [hundo]
          apply hfits.exit
          simp only [adjustOf, hw, hwaiting]
      · exact h
  | interrupt t => exact h.of_eq (fun _ _ => rfl) (fun _ => rfl)
  | exitRecord t signal =>
    unfold Sems.step
    dsimp only
    split
    · exact h
    · exact h.exitRecord t signal hfits.exit
  | setval semid semnum val permitted =>
    change RangeOk (s.setval semid semnum val permitted).1
    rcases setval_cases s semid semnum val permitted with ⟨e, heq⟩ | ⟨sma, _, h0, h1, heq⟩
    · rw [heq]
      exact h
    · rw [heq]
      have hclear : RangeOk (s.clearUndos sma fun u => u.semNum = semnum) :=
        h.of_eq (fun _ _ => rfl) (fun _ => rfl)
      exact (hclear.store sma semnum val ⟨h0, h1⟩).of_eq (fun _ _ => rfl) (fun _ => rfl)
  | setall semid semnum vals permitted =>
    change RangeOk (s.setall semid semnum vals permitted).1
    rcases setall_cases s semid semnum vals permitted with ⟨e, heq⟩ | ⟨sma, _, hvals, heq⟩
    · rw [heq]
      exact h
    · rw [heq]
      intro a n hn
      change n < ((s.setSemvals sma fun num => ((vals num).toNat : ℤ)).sets a).semNsems at hn
      change 0 ≤ (s.setSemvals sma fun num => ((vals num).toNat : ℤ)).semval a n ∧
        (s.setSemvals sma fun num => ((vals num).toNat : ℤ)).semval a n ≤ semvmx
      unfold Sems.setSemvals at hn ⊢
      by_cases ha : a = sma
      · rw [ha] at hn ⊢
        simp only [update_self] at hn
        simp only [Sems.semval, update_self, if_pos hn]
        exact ⟨Int.natCast_nonneg _, hvals n hn⟩
      · simp only [update_of_ne ha] at hn
        simp only [Sems.semval, update_of_ne ha]
        exact h a n hn
  | rmid semid semnum permitted =>
    change RangeOk (s.rmid semid semnum permitted).1
    rcases rmid_cases s semid semnum permitted with ⟨e, heq⟩ | ⟨sma, _, heq⟩
    · rw [heq]
      exact h
    · rw [heq]
      intro a n hn
      change n < ((s.removed semid sma).sets a).semNsems at hn
      change 0 ≤ (s.removed semid sma).semval a n ∧ (s.removed semid sma).semval a n ≤ semvmx
      unfold Sems.removed at hn ⊢
      by_cases ha : a = sma
      · rw [ha] at hn ⊢
        simp only [update_self] at hn
        simp only [Sems.semval, update_self]
        exact h sma n hn
      · simp only [update_of_ne ha] at hn
        simp only [Sems.semval, update_of_ne ha]
        exact h a n hn

end

theorem run_ok (hrange : RangeOk s) (hundos : UndosOk s) {es : List Event}
    (hfits : RunFits s es) : RangeOk (s.run es) ∧ UndosOk (s.run es) := by
  induction es generalizing s with
  | nil => exact ⟨hrange, hundos⟩
  | cons e es ih => exact ih (hrange.step hundos hfits.1) (hundos.step e) hfits.2

def plainOp (op : Int16) : Sembuf := { semNum := 0, semOp := op, nowait := false, undo := false }

local instance valueTasks : NeZero 128 := ⟨by decide⟩

def oneSemaphore : List Event := [.newary 0 1 ⟨0, 0, 0⟩, .semop 0 0 [plainOp 1] true 0 false]

theorem oneSemaphore_fits : RunFits Sems.init oneSemaphore := by
  refine ⟨⟨by simp [callOf], by simp [adjustOf]⟩, ⟨?_, by simp [adjustOf]⟩, trivial⟩
  intro sma sops hcall
  simp only [callOf] at hcall
  split at hcall
  · simp only [Option.some.injEq, Prod.mk.injEq] at hcall
    rw [← hcall.2]
    exact seqOk_of_nodup (by decide)
  · simp at hcall

end LinuxKernel.Semaphore
