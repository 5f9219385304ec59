import LinuxKernel.DeltaList

/-!
# The list of kernel timers

`add_timer`, `del_timer`, the part of `do_timer` that counts the first timer down, and
the loop of `timer_bh` in `kernel/sched.c`.  Timers are addresses; the list from
`next_timer` on is the list of them.  A timer keeps in `expires` its distance to the
one before.

The functions that `timer_bh` calls may add and delete timers, and the clock ticks
while they run, so a pass of its loop is a step of its own.
-/

namespace LinuxKernel.Timer
open Function

structure Timers where
  nextTimer : List ℕ
  expires : ℕ → UInt32
  lostTicks : ℕ

/-- The loop of `add_timer`, with the memory and the list it leaves. -/
def addWalk (timer : ℕ) : (ℕ → UInt32) → List ℕ → (ℕ → UInt32) × List ℕ
  | expires, [] => (expires, [timer])
  | expires, p :: rest =>
    if expires timer < expires p then
      (update expires p (expires p - expires timer), timer :: p :: rest)
    else
      let walked := addWalk timer (update expires timer (expires timer - expires p)) rest
      (walked.1, p :: walked.2)

def Timers.addTimer (s : Timers) (timer : ℕ) (n : UInt32) : Timers :=
  let walked := addWalk timer (update s.expires timer n) s.nextTimer
  { s with nextTimer := walked.2, expires := walked.1 }

/-- `del_timer` at the timer: the next one takes its difference over. -/
def unlink (expires : ℕ → UInt32) (timer : ℕ) (before : UInt32) : List ℕ → ℕ → UInt32
  | [] => update expires timer (expires timer + before)
  | q :: _ =>
    let expires := update expires q (expires q + expires timer)
    update expires timer (expires timer + before)

/-- The loop of `del_timer`; `before` is the sum of what it has passed. -/
def delWalk (timer : ℕ) (expires : ℕ → UInt32) : UInt32 → List ℕ → Option ((ℕ → UInt32) × List ℕ)
  | _, [] => none
  | before, p :: rest =>
    if p = timer then some (unlink expires timer before rest, rest)
    else
      (delWalk timer expires (before + expires p) rest).map fun walked =>
        (walked.1, p :: walked.2)

def Timers.delTimer (s : Timers) (timer : ℕ) : Timers × Option ℕ :=
  match delWalk timer s.expires 0 s.nextTimer with
  | none => (s, none)
  | some walked =>
    ({ s with nextTimer := walked.2, expires := walked.1 }, some (walked.1 timer).toNat)

def Timers.doTimer (s : Timers) : Timers :=
  match s.nextTimer with
  | [] => s
  | p :: _ =>
    if s.expires p ≠ 0 then { s with expires := update s.expires p (s.expires p - 1) }
    else { s with lostTicks := s.lostTicks + 1 }

def Timers.timerBh (s : Timers) : Timers × Option ℕ :=
  match s.nextTimer with
  | [] => (s, none)
  | p :: rest => if s.expires p = 0 then ({ s with nextTimer := rest }, some p) else (s, none)

inductive Event where
  | add (timer : ℕ) (n : UInt32)
  | del (timer : ℕ)
  | tick
  | bh
  deriving DecidableEq

/-- What a step shows: the time that `del_timer` gives back, or the timer that fires. -/
inductive Outcome where
  | none
  | deleted (timer : ℕ) (remaining : ℕ)
  | fired (timer : ℕ)
  deriving DecidableEq

def Timers.step (s : Timers) : Event → Timers × Outcome
  | .add timer n => (s.addTimer timer n, .none)
  | .del timer =>
    match (s.delTimer timer).2 with
    | none => ((s.delTimer timer).1, .none)
    | some n => ((s.delTimer timer).1, .deleted timer n)
  | .tick => (s.doTimer, .none)
  | .bh =>
    match s.timerBh.2 with
    | none => (s.timerBh.1, .none)
    | some timer => (s.timerBh.1, .fired timer)

def Timers.run (s : Timers) : List Event → Timers × List Outcome
  | [] => (s, [])
  | e :: es => (((s.step e).1.run es).1, (s.step e).2 :: ((s.step e).1.run es).2)

def Timers.init : Timers where
  nextTimer := []
  expires := fun _ => 0
  lostTicks := 0

def Timers.remaining (s : Timers) : List (ℕ × ℕ) :=
  DeltaList.decode 0 (s.nextTimer.map fun p => (p, (s.expires p).toNat))

/-- A timer that is to fire after `ticks` ticks, of which `elapsed` have gone by. -/
structure Countdown where
  timer : ℕ
  ticks : ℕ
  elapsed : ℕ

def Countdown.due (c : Countdown) : Bool := c.elapsed = c.ticks

def Countdown.tick (c : Countdown) : Countdown := { c with elapsed := c.elapsed + 1 }

/-- The countdowns in the order in which they were started.  Each one counts the ticks
for itself; a tick that finds one of them due, and not yet called, is lost.  Of those
that are due the one started first is called first. -/
def countdownStep (cs : List Countdown) : Event → List Countdown × Outcome
  | .add timer n => (cs ++ [⟨timer, n.toNat, 0⟩], .none)
  | .del timer =>
    match cs.find? (·.timer = timer) with
    | none => (cs, .none)
    | some c => (cs.filter (·.timer ≠ timer), .deleted timer (c.ticks - c.elapsed))
  | .tick => (if cs.any (·.due) then cs else cs.map (·.tick), .none)
  | .bh =>
    match cs.find? (·.due) with
    | none => (cs, .none)
    | some c => (cs.filter (·.timer ≠ c.timer), .fired c.timer)

def countdownRun (cs : List Countdown) : List Event → List Countdown × List Outcome
  | [] => (cs, [])
  | e :: es =>
    ((countdownRun (countdownStep cs e).1 es).1,
      (countdownStep cs e).2 :: (countdownRun (countdownStep cs e).1 es).2)

/-- What the callers of `add_timer` see to: the timer is not pending. -/
def StepAdds (s : Timers) : Event → Prop
  | .add timer _ => timer ∉ s.nextTimer
  | _ => True

def RunAdds (s : Timers) : List Event → Prop
  | [] => True
  | e :: es => StepAdds s e ∧ RunAdds (s.step e).1 es

end LinuxKernel.Timer
