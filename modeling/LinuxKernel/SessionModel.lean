import Mathlib.Tactic

/-!
# Process groups and sessions

`sys_setpgid` and `sys_setsid` of `kernel/sys.c`, `find_empty_process` of `kernel/fork.c`, and
what fork, exec, exit and wait do to the fields that they read.  A task is named by its slot in
`task[]`.  `for_each_task` visits every task but that in `task[0]`, in an order that does not
matter, since no two tasks have the same number.
-/

namespace LinuxKernel.Session

abbrev Slot := ℕ

def nrTasks : ℕ := 128

def maxTasksPerUser : ℕ := nrTasks / 2

def minTasksLeftForRoot : ℕ := 4

def eperm : ℤ := 1

def esrch : ℤ := 3

def eagain : ℤ := 11

def eacces : ℤ := 13

def einval : ℤ := 22

inductive Stage
  | making
  | running
  | zombie
deriving DecidableEq

structure Task where
  pid : ℕ
  pgrp : ℕ
  session : ℕ
  leader : Bool
  uid : ℕ
  didExec : Bool
  pptr : Slot
  opptr : Slot
  stage : Stage
deriving DecidableEq

structure State where
  task : Slot → Option Task
  lastPid : ℕ

def slots : List Slot := (List.range nrTasks).tail

def State.anyTask (s : State) (q : Task → Bool) : Bool := slots.any fun i => (s.task i).any q

def State.findTask (s : State) (q : Task → Bool) : Option Slot :=
  slots.find? fun i => (s.task i).any q

def State.taken (s : State) (pid : ℕ) : Bool :=
  s.anyTask fun t => decide (t.pid = pid) || decide (t.pgrp = pid) || decide (t.session = pid)

def nextPid (lastPid : ℕ) : ℕ := if 0x8000 ≤ lastPid + 1 then 1 else lastPid + 1

/-- The rounds of `find_empty_process`, from its label `repeat` on. -/
def State.findPid (s : State) : ℕ → ℕ → Option ℕ
  | 0, _ => none
  | n + 1, lastPid =>
    if s.taken (nextPid lastPid) then s.findPid n (nextPid lastPid) else some (nextPid lastPid)

/-- `find_empty_process`: the new `last_pid` and the slot.  The result is none only if no number
were found in 0x8000 rounds. -/
def State.findEmptyProcess (s : State) (uid : ℕ) : Option (ℕ × Except ℤ Slot) :=
  match s.findPid 0x8000 s.lastPid with
  | none => none
  | some pid =>
    let free := slots.filter fun i => (s.task i).isNone
    let user := slots.filter fun i => (s.task i).any fun t => decide (t.uid = uid)
    if (free.length ≤ minTasksLeftForRoot ∨ maxTasksPerUser < user.length) ∧ uid ≠ 0 then
      some (pid, .error (-eagain))
    else
      match free.head? with
      | some i => some (pid, .ok i)
      | none => some (pid, .error (-eagain))

def State.setTask (s : State) (i : Slot) (t : Option Task) : State :=
  { s with task := Function.update s.task i t }

def State.fork (s : State) (cur : Slot) (t : Task) : State :=
  match s.findEmptyProcess t.uid with
  | none => s
  | some (pid, .error _) => { s with lastPid := pid }
  | some (pid, .ok i) =>
    { s with lastPid := pid }.setTask i
      (some { t with
        pid := pid, leader := false, didExec := false, pptr := cur, opptr := cur, stage :=
          .making })

def State.setpgid (s : State) (cur : Slot) (t : Task) (pid pgid : ℤ) : State × ℤ :=
  let pid := if pid = 0 then (t.pid : ℤ) else pid
  let pgid := if pgid = 0 then pid else pgid
  if pgid < 0 then (s, -einval)
  else
    match s.findTask fun p => decide ((p.pid : ℤ) = pid) with
    | none => (s, -esrch)
    | some i =>
      match s.task i with
      | none => (s, -esrch)
      | some p =>
        if (p.pptr = cur ∨ p.opptr = cur) ∧ p.session ≠ t.session then (s, -eperm)
        else if (p.pptr = cur ∨ p.opptr = cur) ∧ p.didExec = true then (s, -eacces)
        else if ¬(p.pptr = cur ∨ p.opptr = cur) ∧ i ≠ cur then (s, -esrch)
        else if p.leader = true then (s, -eperm)
        else if pgid ≠ pid ∧ s.anyTask (fun tmp =>
            decide ((tmp.pgrp : ℤ) = pgid) && decide (tmp.session = t.session)) = false then
          (s, -eperm)
        else (s.setTask i (some { p with pgrp := pgid.toNat }), 0)

def State.setsid (s : State) (cur : Slot) (t : Task) : State × ℤ :=
  if t.leader = true then (s, -eperm)
  else (s.setTask cur (some { t with leader := true, session := t.pid, pgrp := t.pid }), t.pid)

def State.reparent (s : State) (f : Task → Slot × Slot) : State :=
  { s with
    task := fun i => (s.task i).map fun t => { t with pptr := (f t).1, opptr := (f t).2 } }

def State.heir (s : State) (cur : Slot) : Slot := if (s.task 1).isSome ∧ 1 ≠ cur then 1 else 0

/-- `do_exit`: the task becomes a zombie, and its children get other parents. -/
def State.exit (s : State) (cur : Slot) (t : Task) : State :=
  (s.setTask cur (some { t with stage := .zombie })).reparent fun p =>
    (if p.pptr = cur then s.heir cur else p.pptr, if p.opptr = cur then s.heir cur else p.opptr)

inductive Event
  | fork (cur : Slot)
  | forkEnd (i : Slot)
  | forkFail (i : Slot)
  | exec (cur : Slot)
  | exit (cur : Slot)
  | wait (cur i : Slot)
  | trace (i tracer : Slot)
  | setpgid (cur : Slot) (pid pgid : ℤ)
  | setsid (cur : Slot)
  | setuid (cur : Slot) (uid : ℕ)

/-- The task in the slot, when it makes system calls.  That in `task[0]` is idle. -/
def State.caller (s : State) (cur : Slot) : Option Task :=
  match s.task cur with
  | some t => if cur ∈ slots ∧ t.stage = .running then some t else none
  | none => none

def step (s : State) : Event → State
  | .fork cur =>
    match s.caller cur with
    | some t => s.fork cur t
    | none => s
  | .forkEnd i =>
    match s.task i with
    | some t => if t.stage = .making then s.setTask i (some { t with stage := .running }) else s
    | none => s
  | .forkFail i =>
    match s.task i with
    | some t => if t.stage = .making then s.setTask i none else s
    | none => s
  | .exec cur =>
    match s.caller cur with
    | some t => s.setTask cur (some { t with didExec := true })
    | none => s
  | .exit cur =>
    match s.caller cur with
    | some t => s.exit cur t
    | none => s
  | .wait cur i =>
    match s.task i with
    | some t =>
      if t.stage = .zombie ∧ t.pptr = cur ∧ i ∈ slots then
        if t.opptr ≠ t.pptr then s.setTask i (some { t with pptr := t.opptr }) else s.setTask i none
      else s
    | none => s
  | .trace i tracer =>
    match s.task i with
    | some t => s.setTask i (some { t with pptr := tracer })
    | none => s
  | .setpgid cur pid pgid =>
    match s.caller cur with
    | some t => (s.setpgid cur t pid pgid).1
    | none => s
  | .setsid cur =>
    match s.caller cur with
    | some t => (s.setsid cur t).1
    | none => s
  | .setuid cur uid =>
    match s.caller cur with
    | some t => s.setTask cur (some { t with uid := uid })
    | none => s

def run (s : State) (es : List Event) : State := es.foldl step s

def boot : State where
  task i :=
    if i = 0 then some ⟨0, 0, 0, false, 0, false, 0, 0, .running⟩
    else if i = 1 then some ⟨1, 0, 0, false, 0, false, 0, 0, .running⟩
    else none
  lastPid := 1

end LinuxKernel.Session
