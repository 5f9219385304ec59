import Mathlib.Tactic

/-!
# The scheduler

`schedule`, `wake_up` and the accounting of `do_timer` in `kernel/sched.c`, `sys_nice`,
`sys_setpriority`, and what `sys_fork` and `release` do to the ring of tasks.  A task that stays
runnable is chosen within a bounded number of ticks; every fork can make it wait longer.
-/

namespace LinuxKernel.Scheduler
open Function

structure Task where
  running : Bool
  counter : ℤ
  priority : ℤ

/-- The tasks on the ring after `init_task`, in order, the counter of `task[0]`, and the task
that runs, none for `task[0]`. -/
structure Sched where
  ring : List ℕ
  task : ℕ → Task
  idle : ℤ
  current : Option ℕ
  needResched : Bool

def nrTasks : ℕ := 128

/-- The value of an `int` or a `long`. -/
def long (z : ℤ) : ℤ := z.bmod (2 ^ 32)

def pick (task : ℕ → Task) (ring : List ℕ) : ℤ × Option ℕ :=
  ring.foldl (fun r p => if (task p).running ∧ r.1 < (task p).counter then
    ((task p).counter, some p) else r) (-1, none)

/-- A task after the first loop of `schedule`, which makes those in `woken` runnable. -/
def Sched.wake (s : Sched) (woken : ℕ → Bool) (p : ℕ) : Task :=
  { s.task p with running := (s.task p).running || woken p }

def Sched.schedule (s : Sched) (woken : ℕ → Bool) : Sched :=
  let task := s.wake woken
  let (c, next) := pick task s.ring
  { s with
    task := fun p =>
      if c = 0 then { task p with counter := long ((task p).counter / 2 + (task p).priority) }
      else task p
    current := next
    needResched := false }

def Sched.put (s : Sched) (p : ℕ) (t : Task) (resched : Bool) : Sched :=
  { s with task := update s.task p t, needResched := s.needResched || resched }

def Sched.tick (s : Sched) : Sched :=
  match s.current with
  | none => { s with idle := 0, needResched := true }
  | some p =>
    let counter := (s.task p).counter - 1
    if counter ≤ 0 then s.put p { s.task p with counter := 0 } true
    else s.put p { s.task p with counter } false

/-- `wake_up` at a task of the queue. -/
def Sched.wakeUp (s : Sched) (p : ℕ) : Sched :=
  let counter := s.current.elim s.idle fun q => (s.task q).counter
  s.put p { s.task p with running := true }
    (!(s.task p).running && decide (counter < (s.task p).counter))

def sysNice (suser : Bool) (increment priority : ℤ) : ℤ :=
  if increment < 0 ∧ ¬suser then priority else min 35 (max 1 (long (priority - increment)))

def sysSetpriority (suser : Bool) (niceval priority : ℤ) : ℤ :=
  let new := max 1 (long (15 - niceval))
  if priority < new ∧ ¬suser then priority else new

def Sched.fork (s : Sched) (child : ℕ) : Sched :=
  match s.current with
  | none => s
  | some p =>
    if child ∈ s.ring ∨ nrTasks ≤ s.ring.length + 1 then s
    else { s with
      ring := s.ring ++ [child]
      task := update s.task child
        { s.task p with running := true, counter := (s.task p).counter / 2 } }

inductive Event where
  | schedule (woken : ℕ → Bool)
  | tick
  | wakeUp (p : ℕ)
  | block (p : ℕ)
  | nice (p : ℕ) (suser : Bool) (increment : ℤ)
  | setpriority (p : ℕ) (suser : Bool) (niceval : ℤ)
  | fork (child : ℕ)
  | release (p : ℕ)

def Sched.step (s : Sched) : Event → Sched
  | .schedule woken => s.schedule woken
  | .tick => s.tick
  | .wakeUp p => s.wakeUp p
  | .block p => s.put p { s.task p with running := false } false
  | .nice p suser increment =>
    s.put p { s.task p with priority := sysNice suser increment (s.task p).priority } false
  | .setpriority p suser niceval =>
    s.put p { s.task p with priority := sysSetpriority suser niceval (s.task p).priority } false
  | .fork child => s.fork child
  | .release p =>
    if (s.task p).running ∨ s.current = some p then s else { s with ring := s.ring.erase p }

def Sched.run (s : Sched) (es : List Event) : Sched := es.foldl Sched.step s

/-- A tick counts when it finds no `schedule` due yet. -/
def Sched.ticked (s : Sched) : Event → ℕ
  | .tick => if s.needResched then 0 else 1
  | _ => 0

def Sched.ticks : Sched → List Event → ℕ
  | _, [] => 0
  | s, e :: es => s.ticked e + (s.step e).ticks es

def forks : List Event → ℕ
  | [] => 0
  | .fork _ :: es => forks es + 1
  | _ :: es => forks es

structure Sched.Ok (s : Sched) (top : ℤ) : Prop where
  counter : ∀ q ∈ s.ring, 0 ≤ (s.task q).counter ∧ (s.task q).counter ≤ 2 * top
  priority : ∀ q ∈ s.ring, 1 ≤ (s.task q).priority
  current : ∀ q, s.current = some q →
    q ∈ s.ring ∧ (s.needResched = false → 0 < (s.task q).counter)
  length : s.ring.length < nrTasks
  top : top < 2 ^ 30

/-- No priority is above `top`. -/
def Sched.Within (s : Sched) (top : ℤ) : Prop := ∀ q ∈ s.ring, (s.task q).priority ≤ top

def Sched.Waits (s : Sched) (p : ℕ) : Prop :=
  p ∈ s.ring ∧ (s.task p).running ∧ s.current ≠ some p

variable {s : Sched} {top : ℤ} {p : ℕ}

theorem long_eq {z : ℤ} (h : 0 ≤ z) (hz : z < 2 ^ 31) : long z = z :=
  Int.bmod_eq_of_le (by omega) (by omega)

theorem pick_spec (task : ℕ → Task) (ring : List ℕ) :
    (∀ q ∈ ring, (task q).running → (task q).counter ≤ (pick task ring).1) ∧
    ((pick task ring).2 = none → (pick task ring).1 = -1) ∧
    ∀ q, (pick task ring).2 = some q → q ∈ ring ∧ (task q).counter = (pick task ring).1 := by
  induction ring using List.reverseRecOn with
  | nil => simp [pick]
  | append_singleton ring q ih =>
    have hlast : pick task (ring ++ [q]) =
        if (task q).running ∧ (pick task ring).1 < (task q).counter then
          ((task q).counter, some q) else pick task ring := by
      rw [pick, List.foldl_append]
      rfl
    rw [hlast]
    grind

theorem Sched.Ok.put (h : s.Ok top) (q : ℕ) (t : Task) (resched : Bool)
    (hcounter : q ∈ s.ring → 0 ≤ t.counter ∧ t.counter ≤ 2 * top)
    (hpriority : q ∈ s.ring → 1 ≤ t.priority)
    (hresched : resched = false → s.needResched = false → s.current = some q → 0 < t.counter) :
    (s.put q t resched).Ok top := by
  obtain ⟨hcounters, hpriorities, hcurrent, hlength, hsmall⟩ := h
  unfold Sched.put
  constructor <;> grind [update_apply]

theorem step_ok (h : s.Ok top) (htop : s.Within top) (e : Event) : (s.step e).Ok top := by
  obtain ⟨hcounter, hpriority, hcurrent, hlength, hsmall⟩ := id h
  cases e with
  | schedule woken =>
    obtain ⟨-, -, hnext⟩ := pick_spec (s.wake woken) s.ring
    have hsame : ∀ q, (s.wake woken q).counter = (s.task q).counter ∧
        (s.wake woken q).priority = (s.task q).priority := fun q => ⟨rfl, rfl⟩
    simp only [Sched.step, Sched.schedule]
    constructor <;> grind [Sched.Within, long_eq]
  | tick =>
    change s.tick.Ok top
    unfold Sched.tick
    split
    next hidle => exact ⟨hcounter, hpriority, fun q hq => by simp [hidle] at hq, hlength, hsmall⟩
    next q hq =>
      dsimp only
      split_ifs <;> refine h.put q _ _ ?_ ?_ ?_ <;> grind
  | wakeUp q => refine h.put q _ _ ?_ ?_ ?_ <;> grind
  | block q => refine h.put q _ _ ?_ ?_ ?_ <;> grind
  | nice q suser increment => refine h.put q _ _ ?_ ?_ ?_ <;> grind [sysNice]
  | setpriority q suser niceval => refine h.put q _ _ ?_ ?_ ?_ <;> grind [sysSetpriority]
  | fork child =>
    change (s.fork child).Ok top
    unfold Sched.fork
    split
    · exact h
    · split_ifs
      · exact h
      · constructor <;> grind [update_apply]
  | release q =>
    unfold Sched.step
    dsimp only
    split_ifs
    · exact h
    · constructor <;> grind

/-! ## Waiting -/

def total (task : ℕ → Task) (ring : List ℕ) : ℤ := ∑ q ∈ ring.toFinset, (task q).counter

/-- What the others may use up before `p` is chosen: `p` is waiting for the counters to be given
anew if its own is used up, and `task[0]` runs until the next `schedule`. -/
def Sched.ahead (s : Sched) (top : ℤ) (p : ℕ) : ℤ :=
  total s.task s.ring + (if (s.task p).counter = 0 then 254 * top else 0) +
    if s.current = none ∧ s.needResched = false then 1 else 0

theorem total_nonneg (h : s.Ok top) : 0 ≤ total s.task s.ring :=
  Finset.sum_nonneg fun q hq => (h.counter q (List.mem_toFinset.mp hq)).1

theorem total_le (h : s.Ok top) (htop : 0 ≤ top) : total s.task s.ring ≤ 254 * top := by
  have hcard : s.ring.toFinset.card ≤ 127 :=
    (List.toFinset_card_le _).trans (Nat.le_of_lt_succ h.length)
  have hle : total s.task s.ring ≤ s.ring.toFinset.card • (2 * top) :=
    Finset.sum_le_card_nsmul _ _ _ fun q hq => (h.counter q (List.mem_toFinset.mp hq)).2
  rw [nsmul_eq_mul] at hle
  nlinarith [(Nat.cast_le (α := ℤ)).mpr hcard]

theorem total_congr (task task' : ℕ → Task) (ring : List ℕ)
    (h : ∀ q ∈ ring, (task' q).counter = (task q).counter) : total task' ring = total task ring :=
  Finset.sum_congr rfl fun q hq => h q (List.mem_toFinset.mp hq)

theorem total_update (task : ℕ → Task) {ring : List ℕ} {q : ℕ} (hq : q ∈ ring) (t : Task) :
    total (update task q t) ring = total task ring - (task q).counter + t.counter := by
  have hmem := List.mem_toFinset.mpr hq
  have hrest : ∑ r ∈ ring.toFinset.erase q, (update task q t r).counter =
      ∑ r ∈ ring.toFinset.erase q, (task r).counter :=
    Finset.sum_congr rfl fun r hr => by rw [update_of_ne (Finset.ne_of_mem_erase hr)]
  unfold total
  rw [← Finset.add_sum_erase _ _ hmem, ← Finset.add_sum_erase _ (fun r => (task r).counter) hmem,
    update_self, hrest]
  ring

theorem ahead_put {q : ℕ} {t : Task} (hsame : t.counter = (s.task q).counter) (resched : Bool) :
    (s.put q t resched).ahead top p ≤ s.ahead top p := by
  have hcounter : ∀ r, (update s.task q t r).counter = (s.task r).counter := by
    grind [update_apply]
  have htotal := total_congr _ _ s.ring fun r _ => hcounter r
  simp only [Sched.ahead, Sched.put, htotal, hcounter]
  grind

section
variable (h : s.Ok top) (hp : s.Waits p)
include h hp

theorem schedule_ahead (htop : s.Within top) (woken : ℕ → Bool) :
    (s.schedule woken).ahead top p ≤ s.ahead top p := by
  obtain ⟨hring, hrunning, -⟩ := hp
  obtain ⟨hbest, hnone, -⟩ := pick_spec (s.wake woken) s.ring
  have hcounter := h.counter p hring
  have hpriority := h.priority p hring
  have hle := total_le (step_ok h htop (.schedule woken)) (by omega)
  have hnonneg := total_nonneg h
  have hsame : ∀ q, (s.wake woken q).counter = (s.task q).counter := fun q => rfl
  have hprio : (s.wake woken p).priority = (s.task p).priority := rfl
  have hfirst : (s.task p).counter ≤ _ := hbest p hring (by simp [Sched.wake, hrunning])
  simp only [Sched.step, Sched.schedule, Sched.ahead] at *
  have hsmall := h.top
  have hbelow := htop p hring
  have hnew := long_eq (z := (s.task p).counter / 2 + (s.task p).priority) (by omega) (by omega)
  by_cases hzero : (pick (s.wake woken) s.ring).1 = 0
  · simp only [hzero, if_true] at *
    grind
  · have htotal := total_congr _ _ s.ring fun r _ => hsame r
    simp only [hzero, if_false, hsame, htotal] at *
    grind

theorem tick_ahead : s.tick.ahead top p + (s.ticked .tick : ℕ) ≤ s.ahead top p := by
  obtain ⟨-, -, hother⟩ := hp
  unfold Sched.tick Sched.ticked
  cases hcurrent : s.current with
  | none =>
    simp only [Sched.ahead]
    grind
  | some q =>
    obtain ⟨hq, hdue⟩ := h.current q hcurrent
    have hne : q ≠ p := fun heq => hother (heq ▸ hcurrent)
    have hused := (h.counter q hq).1
    have hsum := total_update s.task hq
    have hkept := fun t => update_of_ne hne.symm t s.task
    dsimp only
    split_ifs <;> simp only [Sched.ahead, Sched.put, hsum, hkept] <;> grind

theorem fork_ahead (child : ℕ) : (s.fork child).ahead top p ≤ s.ahead top p + top := by
  obtain ⟨hring, -, -⟩ := hp
  have hcounter := h.counter p hring
  unfold Sched.fork
  cases hcurrent : s.current with
  | none => grind
  | some q =>
    dsimp only
    split_ifs with hfull
    · grind
    obtain ⟨hchild, -⟩ := not_or.mp hfull
    have hq := h.counter q (h.current q hcurrent).1
    have hne : p ≠ child := fun heq => hchild (heq ▸ hring)
    have hsum : ∀ t, total (update s.task child t) (s.ring ++ [child]) =
        t.counter + total s.task s.ring := by
      intro t
      have hold := total_congr s.task (update s.task child t) s.ring fun r hr => by
        rw [update_of_ne (ne_of_mem_of_not_mem hr hchild)]
      rw [← hold]
      unfold total
      rw [List.toFinset_append, Finset.union_comm, List.toFinset_cons, List.toFinset_nil,
        insert_empty_eq, Finset.singleton_union, Finset.sum_insert (by simpa using hchild),
        update_self]
    simp only [Sched.ahead, hsum, update_of_ne hne, hcurrent]
    grind

theorem step_ahead (htop : s.Within top) (e : Event) :
    (s.step e).ahead top p + s.ticked e ≤ s.ahead top p + forks [e] * top := by
  have hput : ∀ q t resched, t.counter = (s.task q).counter →
      (s.put q t resched).ahead top p + (0 : ℕ) ≤ s.ahead top p + (0 : ℕ) * top := by
    intro q t resched hsame
    simpa using ahead_put hsame resched
  cases e with
  | schedule woken =>
    simpa [Sched.step, forks, Sched.ticked] using schedule_ahead h hp htop woken
  | tick => simpa [Sched.step, forks] using tick_ahead h hp
  | fork child => simpa [Sched.step, forks, Sched.ticked] using fork_ahead h hp child
  | wakeUp q => exact hput q _ _ rfl
  | block q => exact hput q _ _ rfl
  | nice q suser increment => exact hput q _ _ rfl
  | setpriority q suser niceval => exact hput q _ _ rfl
  | release q =>
    have hfewer : total s.task (s.ring.erase q) ≤ total s.task s.ring :=
      Finset.sum_le_sum_of_subset_of_nonneg
        (fun r hr => List.mem_toFinset.mpr (List.mem_of_mem_erase (List.mem_toFinset.mp hr)))
        fun r hr _ => (h.counter r (List.mem_toFinset.mp hr)).1
    simp only [Sched.step, Sched.ahead, Sched.ticked, forks]
    grind

end

theorem run_ahead (es : List Event) (h : s.Ok top) (htop : ∀ k, (s.run (es.take k)).Within top) :
    (s.run es).Ok top ∧ ((∀ k, (s.run (es.take k)).Waits p) →
      (s.run es).ahead top p + s.ticks es ≤ s.ahead top p + forks es * top) := by
  induction es generalizing s with
  | nil => exact ⟨h, fun _ => by simp [Sched.run, Sched.ticks, forks]⟩
  | cons e es ih =>
    obtain ⟨hok, hrest⟩ := ih (step_ok h (htop 0) e) fun k => htop (k + 1)
    refine ⟨hok, fun hwaits => ?_⟩
    have hstep := step_ahead h (hwaits 0) (htop 0) e
    have hlater := hrest fun k => hwaits (k + 1)
    have hforks : forks (e :: es) = forks [e] + forks es := by
      cases e <;> simp [forks, Nat.add_comm]
    have hrun : s.run (e :: es) = (s.step e).run es := rfl
    rw [hforks, hrun, Sched.ticks]
    push_cast
    linarith

/-- While no priority is above `top`, no counter is negative or above `2 * top`, and a task that
stays runnable without being chosen waits for `508 * top + 1` ticks at most and for `top` more
after each fork. -/
theorem run_fair (s : Sched) (top : ℤ) (es : List Event) (h : s.Ok top)
    (htop : ∀ k, (s.run (es.take k)).Within top) :
    (s.run es).Ok top ∧ ∀ p, (∀ k, (s.run (es.take k)).Waits p) →
      (s.ticks es : ℤ) ≤ (508 + forks es) * top + 1 := by
  refine ⟨(run_ahead (p := 0) es h htop).1, fun p hwaits => ?_⟩
  obtain ⟨hok, hrun⟩ := run_ahead es h htop
  have hcounter := h.counter p (hwaits 0).1
  have hlast : 0 ≤ (s.run es).ahead top p := by
    have htotal := total_nonneg hok
    unfold Sched.ahead
    grind
  have hfirst : s.ahead top p ≤ 508 * top + 1 := by
    have htotal := total_le h (by omega)
    unfold Sched.ahead
    grind
  linarith [hrun hwaits]

/-- One of two tasks has used up its slice while the other runs. -/
theorem run_fair_two :
    let s : Sched := ⟨[1, 2], fun q => ⟨true, if q = 1 then 2 else 0, 15⟩, 0, some 1, false⟩
    (s.run [.tick]).Ok 15 ∧ ∀ p, (∀ k, (s.run (List.take k [.tick])).Waits p) →
      (s.ticks [.tick] : ℤ) ≤ (508 + forks [.tick]) * 15 + 1 := by
  refine run_fair _ 15 [.tick] ⟨?_, ?_, ?_, by decide, by decide⟩ fun k => ?_
  · simp
  · simp
  · simp
  · cases k <;> simp [Sched.Within, Sched.run, Sched.step, Sched.tick, Sched.put, update_apply]

end LinuxKernel.Scheduler
