import Mathlib.Data.Int.Notation
import Mathlib.Data.Nat.Notation
import Mathlib.Logic.Function.Basic

/-!
# `sync_buffers` among other processes

The loop of `sync_buffers` in `fs/buffer.c` over the ring of `free_list`, with what other
processes do to the buffers while it sleeps: they read and free memory, and they write
out what is dirty, but nothing becomes dirty.  The kernel is not preemptive, so they run
only while `sync_buffers` waits for a buffer or for a request; interrupts end requests at
any time.
-/

namespace LinuxKernel.BufferSync

inductive Rw where
  | read
  | write
  deriving DecidableEq

structure Buffer where
  dev : ℕ
  lock : Option Rw
  dirt : Bool
  uptodate : Bool
  req : Bool

/-- Where `sync_buffers` is: at the head of its loop, in `wait_on_buffer`, in
`ll_rw_block` waiting for a request, or it has returned. -/
inductive Phase where
  | scan
  | waiting
  | writing
  | returned
  deriving DecidableEq

/-- `ring` begins at `free_list` and has `nr_buffers` elements; `steps` is `i`, `cur` is
`bh`. -/
structure State where
  buf : ℕ → Buffer
  ring : List ℕ
  pass : ℕ
  steps : ℕ
  cur : ℕ
  retry : Bool
  err : Bool
  phase : Phase

/-! ## `sync_buffers` -/

def nextFree (ring : List ℕ) (h : ℕ) : ℕ :=
  match ring.dropWhile (· ≠ h) with
  | _ :: next :: _ => next
  | _ => ring.headD h

def State.next (s : State) : State :=
  { s with steps := s.steps - 1, cur := nextFree s.ring s.cur, phase := .scan }

def State.setBuf (s : State) (h : ℕ) (b : Buffer) : State :=
  { s with buf := Function.update s.buf h b }

def State.beginPass (s : State) (pass : ℕ) : State :=
  { s with
    pass := pass
    retry := false
    steps := s.ring.length * 2
    cur := s.ring.headD 0
    phase := .scan }

def State.endPass (s : State) (wait : Bool) : State :=
  if wait ∧ s.retry ∧ s.pass + 1 ≤ 2 then s.beginPass (s.pass + 1)
  else { s with phase := .returned }

/-- The loop body behind the test of `b_lock`; `refused` says that `ll_rw_block` makes no
request. -/
def State.unlocked (s : State) (wait refused : Bool) : State :=
  let b := s.buf s.cur
  if wait ∧ b.req ∧ b.lock = none ∧ ¬b.dirt ∧ ¬b.uptodate then { s with err := true }.next
  else if ¬b.dirt ∨ 2 ≤ s.pass then s.next
  else if refused then
    { s.setBuf s.cur { b with dirt := false, uptodate := false } with retry := true }.next
  else { s.setBuf s.cur { b with req := true, lock := some .write } with phase := .writing }

def State.sync (s : State) (wait : Bool) (dev : ℕ) (refused : Bool) : Option State :=
  match s.phase with
  | .scan =>
    if s.steps = 0 then some (s.endPass wait)
    else if dev ≠ 0 ∧ (s.buf s.cur).dev ≠ dev then some s.next
    else if (s.buf s.cur).lock.isSome then
      if ¬wait ∨ s.pass = 0 then some { s with retry := true }.next
      else some { s with phase := .waiting }
    else some (s.unlocked wait refused)
  | .waiting =>
    if (s.buf s.cur).lock.isSome then none else some (s.unlocked wait refused)
  | .writing =>
    -- the request has been made
    some { s.setBuf s.cur { s.buf s.cur with dirt := false } with retry := true }.next
  | .returned => none

def start (buf : ℕ → Buffer) (ring : List ℕ) : State :=
  State.beginPass
    { buf := buf
      ring := ring
      pass := 0
      steps := 0
      cur := 0
      retry := false
      err := false
      phase := .scan } 0

def State.result (s : State) : ℤ := if s.err then 1 else 0

inductive Event where
  | sync (refused : Bool)
  | ioEnd (h : ℕ) (ok : Bool)
  | start (h : ℕ) (rw : Rw)
  | queued (h : ℕ)
  | refused (h : ℕ)
  | putLast (h : ℕ)
  | take (h dev : ℕ)
  | grow (h dev : ℕ) (front : Bool)
  | free (h : ℕ)

def State.asleep (s : State) : Bool := s.phase = .waiting || s.phase = .writing

def State.holds (s : State) (h : ℕ) : Bool := s.asleep && s.cur = h

def State.idle (s : State) (h : ℕ) : Bool := (s.buf h).lock = none && !(s.buf h).dirt && !s.holds h

def State.step (s : State) (wait : Bool) (dev : ℕ) : Event → Option State
  | .sync refused => s.sync wait dev refused
  | .ioEnd h ok =>
    if (s.buf h).lock.isSome ∧ ¬(s.phase = .writing ∧ s.cur = h) then
      some (s.setBuf h { s.buf h with lock := none, uptodate := ok })
    else none
  | .start h rw =>
    if s.asleep ∧ (s.buf h).lock = none ∧
        (if rw = .write then (s.buf h).dirt else !(s.buf h).uptodate) then
      some (s.setBuf h { s.buf h with req := true, lock := some rw })
    else none
  | .queued h =>
    if s.asleep ∧ (s.buf h).lock.isSome then some (s.setBuf h { s.buf h with dirt := false })
    else none
  | .refused h =>
    if s.asleep ∧ (s.buf h).lock = none then
      some (s.setBuf h { s.buf h with dirt := false, uptodate := false })
    else none
  | .putLast h =>
    if s.asleep ∧ h ∈ s.ring then some { s with ring := s.ring.erase h ++ [h] } else none
  | .take h dev =>
    if s.asleep ∧ h ∈ s.ring ∧ s.idle h then
      some { s.setBuf h ⟨dev, none, false, false, false⟩ with ring := s.ring.erase h ++ [h] }
    else none
  | .grow h dev front =>
    if s.asleep ∧ h ∉ s.ring ∧ !s.holds h then
      some { s.setBuf h ⟨dev, none, false, false, false⟩ with
        ring := if front then h :: s.ring else s.ring ++ [h] }
    else none
  | .free h =>
    if s.asleep ∧ h ∈ s.ring ∧ s.idle h then some { s with ring := s.ring.erase h } else none

def State.run (s : State) (wait : Bool) (dev : ℕ) : List Event → Option State
  | [] => some s
  | e :: events => (s.step wait dev e).bind fun s' => s'.run wait dev events

end LinuxKernel.BufferSync
