import Mathlib.Tactic

/-!
# Processes and their links

The part of `struct task_struct` that `kernel/fork.c`, `kernel/exit.c` and `kernel/ptrace.c` use
to link tasks, and what they do to it.  A task is the address of its structure.  `pc` says where
a task sleeps in one of the calls; a step is what happens between two such places.

A wait is for any child that the arguments of `sys_wait4` may name, and the permissions of
`ptrace` and `kill` are those under which the step is made at all.
-/

namespace LinuxKernel.Process
open Function

abbrev Tid := ℕ

def initTask : Tid := 0

def initProcess : Tid := 1

def nrTasks : ℕ := 128

def sigkill : ℕ := 9

def sigchld : ℕ := 17

def sigcont : ℕ := 18

def sighup : ℕ := 1

inductive TState
  | running
  | interruptible
  | uninterruptible
  | zombie
  | stopped
deriving DecidableEq

/-- Where a task is: in its own program; in `sys_fork` with the child it makes and its slot; in
`do_exit` before and after `forget_original_parent`; in the last `schedule` of `do_exit`; in
`sys_wait4` where the status of a zombie or a stopped child is copied out. -/
inductive Pc
  | user
  | forking (child : Tid) (nr : ℕ)
  | exiting (forgot : Bool) (code : ℕ)
  | dead (code : ℕ)
  | reaping (child : Tid) (status : ℕ)
  | reporting (child : Tid)
deriving DecidableEq

structure State where
  task : ℕ → Option Tid
  nextTask : Tid → Tid
  prevTask : Tid → Tid
  opptr : Tid → Tid
  pptr : Tid → Tid
  cptr : Tid → Option Tid
  ysptr : Tid → Option Tid
  osptr : Tid → Option Tid
  state : Tid → TState
  exitCode : Tid → ℕ
  exitSignal : Tid → ℕ
  ptraced : Tid → Bool
  pgrp : Tid → ℕ
  session : Tid → ℕ
  pc : Tid → Pc
  /-- A NULL pointer was followed, or the kernel has called `panic`. -/
  oops : Bool

def State.Used (s : State) (t : Tid) : Prop := ∃ i < nrTasks, s.task i = some t

instance (s : State) (t : Tid) : Decidable (s.Used t) := inferInstanceAs (Decidable (∃ i < _, _))

def State.removeLinks (s : State) (p : Tid) : State :=
  { s with
    prevTask := update s.prevTask (s.nextTask p) (s.prevTask p)
    nextTask := update s.nextTask (s.prevTask p) (s.nextTask p)
    ysptr := match s.osptr p with
      | some o => update s.ysptr o (s.ysptr p)
      | none => s.ysptr
    osptr := match s.ysptr p with
      | some y => update s.osptr y (s.osptr p)
      | none => s.osptr
    cptr := match s.ysptr p with
      | some _ => s.cptr
      | none => update s.cptr (s.pptr p) (s.osptr p) }

def State.setLinks (s : State) (p : Tid) : State :=
  let older := s.cptr (s.pptr p)
  { s with
    nextTask := update (update s.nextTask p initTask) (s.prevTask initTask) p
    prevTask := update (update s.prevTask p (s.prevTask initTask)) initTask p
    osptr := update s.osptr p older
    ysptr := match older with
      | some o => update (update s.ysptr p none) o (some p)
      | none => update s.ysptr p none
    cptr := update s.cptr (s.pptr p) (some p) }

def State.moveTo (s : State) (p parent : Tid) : State :=
  let s := s.removeLinks p
  { s with pptr := update s.pptr p parent }.setLinks p

def State.tasks (s : State) : List Tid := go nrTasks (s.nextTask initTask)
where
  go : ℕ → Tid → List Tid
  | 0, _ => []
  | n + 1, p => if p = initTask then [] else p :: go n (s.nextTask p)

def State.children (s : State) (t : Tid) : List Tid := go nrTasks (s.cptr t)
where
  go : ℕ → Option Tid → List Tid
  | n + 1, some p => p :: go n (s.osptr p)
  | _, _ => []

def State.sendSig (s : State) (sig : ℕ) (p : Tid) : State :=
  if sig = sigkill ∨ sig = sigcont then
    { s with
      state := if s.state p = .stopped then update s.state p .running else s.state
      exitCode := update s.exitCode p 0 }
  else s

def State.killPg (s : State) (pgrp sig : ℕ) : State :=
  s.tasks.foldl (fun s p => if s.pgrp p = pgrp then s.sendSig sig p else s) s

def State.notifyParent (s : State) (p : Tid) : State :=
  let s := if s.task 1 = some (s.pptr p) then
      { s with exitSignal := update s.exitSignal p sigchld } else s
  s.sendSig (s.exitSignal p) (s.pptr p)

def State.isOrphanedPgrp (s : State) (pgrp : ℕ) : Bool :=
  s.tasks.all fun p => !(decide (s.pgrp p = pgrp) && decide (s.state p ≠ .zombie) &&
    decide (s.pptr p ≠ initProcess) && decide (s.pgrp (s.pptr p) ≠ pgrp) &&
    decide (s.session (s.pptr p) = s.session p))

def State.hasStoppedJobs (s : State) (pgrp : ℕ) : Bool :=
  s.tasks.any fun p => decide (s.pgrp p = pgrp) && decide (s.state p = .stopped)

def State.wakeOrphans (s : State) (pgrp : ℕ) : State :=
  if s.isOrphanedPgrp pgrp && s.hasStoppedJobs pgrp then
    (s.killPg pgrp sighup).killPg pgrp sigcont
  else s

def State.forgetOriginalParent (s : State) (father : Tid) : State :=
  let heir := match s.task 1 with
    | some p => p
    | none => initTask
  { s with opptr := fun p => if p ∈ s.tasks ∧ s.opptr p = father then heir else s.opptr p }

def State.heir (s : State) (t : Tid) : Tid :=
  match s.task 1 with
  | some p => if p ≠ t then p else initTask
  | none => initTask

/-- The child `p` of `t` goes to `heir`, in front of the child `o`. -/
def State.relink (s : State) (t p heir o : Tid) : State :=
  { s with
    cptr := update (update s.cptr t (s.osptr p)) heir (some p)
    ysptr := update (update s.ysptr p none) o (some p)
    osptr := update s.osptr p (some o)
    ptraced := update s.ptraced p false
    pptr := update s.pptr p heir }

def State.signalMoved (s : State) (t p : Tid) : State :=
  let s := if s.state p = .zombie then s.notifyParent p else s
  if s.pgrp p ≠ s.pgrp t ∧ s.session p = s.session t then s.wakeOrphans (s.pgrp p) else s

def State.adopt (s : State) (t p : Tid) : State :=
  match update s.cptr t (s.osptr p) (s.heir t) with
  | none =>
    { s with
      cptr := update s.cptr t (s.osptr p)
      ysptr := update s.ysptr p none
      osptr := update s.osptr p none
      ptraced := update s.ptraced p false
      pptr := update s.pptr p (s.heir t)
      oops := true }
  | some o => (s.relink t p (s.heir t) o).signalMoved t p

def State.adoptAll (t : Tid) : ℕ → State → State
  | 0, s => s
  | n + 1, s =>
    match s.cptr t with
    | none => s
    | some p =>
      let s := s.adopt t p
      if s.oops then s else State.adoptAll t n s

/-- The part of `do_exit` from `current->state = TASK_ZOMBIE` on.  `ctty` is the process group
of the terminal when a session leader with a terminal exits. -/
def State.exit (s : State) (t : Tid) (code : ℕ) (ctty : Option ℕ) : State :=
  let s := { s with
    state := update s.state t .zombie
    exitCode := update s.exitCode t code
    pc := update s.pc t (.dead code) }
  let s := if s.pgrp (s.pptr t) ≠ s.pgrp t ∧ s.session (s.pptr t) = s.session t then
      s.wakeOrphans (s.pgrp t) else s
  let s := s.notifyParent t
  let s := State.adoptAll t nrTasks s
  match ctty with
  | some pgrp => if s.oops then s else (s.killPg pgrp sighup).killPg pgrp sigcont
  | none => s

def State.slotOf (s : State) (p : Tid) : Option ℕ :=
  (List.range nrTasks).find? fun i => decide (1 ≤ i) && decide (s.task i = some p)

def State.release (s : State) (p : Tid) : State :=
  match s.slotOf p with
  | some i => { s with task := update s.task i none }.removeLinks p
  | none => { s with oops := true }

inductive Event
  /-- `sys_fork` has got a page and a slot and has linked the child. -/
  | fork (t p : Tid) (nr : ℕ)
  | forkEnd (t : Tid) (sig : ℕ)
  | forkFail (t : Tid)
  | exit (t : Tid) (code : ℕ)
  | forget (t : Tid)
  | die (t : Tid) (ctty : Option ℕ)
  /-- A task that is running again behind the last `schedule` of `do_exit`. -/
  | exitAgain (t : Tid)
  | wait (t p : Tid)
  | waitEnd (t : Tid)
  | waitStopped (t p : Tid)
  | waitStoppedEnd (t : Tid)
  | traceme (t : Tid)
  | attach (t p : Tid)
  | detach (t p : Tid) (data : ℕ)
  | cont (t p : Tid) (data : ℕ)
  | ptraceKill (t p : Tid)
  | kill (p : Tid) (sig : ℕ)
  | killPg (pgrp sig : ℕ)
  | stop (t : Tid) (sig : ℕ)
  | setGroup (t : Tid) (pgrp session : ℕ)

def State.Runs (s : State) (t : Tid) : Prop :=
  s.Used t ∧ t ≠ initTask ∧ s.state t = .running ∧ s.pc t = .user

instance (s : State) (t : Tid) : Decidable (s.Runs t) := inferInstanceAs (Decidable (_ ∧ _ ∧ _ ∧ _))

/-- `sys_fork` up to the place where it gets the page for the kernel stack. -/
def State.fork (s : State) (t p : Tid) (nr : ℕ) : State :=
  { s with
    task := update s.task nr (some p)
    state := update s.state p .uninterruptible
    exitCode := update s.exitCode p (s.exitCode t)
    exitSignal := update s.exitSignal p (s.exitSignal t)
    ptraced := update s.ptraced p false
    pgrp := update s.pgrp p (s.pgrp t)
    session := update s.session p (s.session t)
    pptr := update s.pptr p t
    opptr := update s.opptr p t
    cptr := update s.cptr p none
    pc := update (update s.pc p .user) t (.forking p nr) }.setLinks p

def State.reap (s : State) (p : Tid) : State :=
  if s.opptr p ≠ s.pptr p then (s.moveTo p (s.opptr p)).notifyParent p else s.release p

def State.setPc (s : State) (t : Tid) (pc : Pc) : State := { s with pc := update s.pc t pc }

def State.Traces (s : State) (t p : Tid) : Prop :=
  s.Runs t ∧ s.Used p ∧ p ≠ initTask ∧ p ≠ initProcess ∧ s.ptraced p = true ∧ s.pptr p = t

instance (s : State) (t p : Tid) : Decidable (s.Traces t p) :=
  inferInstanceAs (Decidable (_ ∧ _ ∧ _ ∧ _ ∧ _ ∧ _))

def step (s : State) : Event → State
  | .fork t p nr =>
    if s.Runs t ∧ ¬s.Used p ∧ p ≠ initTask ∧ 1 ≤ nr ∧ nr < nrTasks ∧ s.task nr = none then
      s.fork t p nr
    else s
  | .forkEnd t sig =>
    match s.pc t with
    | .forking p _ =>
      { s with
        exitSignal := update s.exitSignal p sig
        state := update s.state p .running
        pc := update s.pc t .user }
    | _ => s
  | .forkFail t =>
    match s.pc t with
    | .forking p nr =>
      ({ s with task := update s.task nr none }.removeLinks p).setPc t .user
    | _ => s
  | .exit t code => if s.Runs t then s.setPc t (.exiting false code) else s
  | .forget t =>
    match s.pc t with
    | .exiting false code => (s.forgetOriginalParent t).setPc t (.exiting true code)
    | _ => s
  | .die t ctty =>
    match s.pc t with
    | .exiting true code => s.exit t code ctty
    | _ => s
  | .exitAgain t =>
    match s.pc t with
    | .dead code =>
      if s.Used t ∧ s.state t = .running then s.setPc t (.exiting false code) else s
    | _ => s
  | .wait t p =>
    if s.Runs t ∧ p ∈ s.children t ∧ s.state p = .zombie then
      s.setPc t (.reaping p (s.exitCode p))
    else s
  | .waitEnd t =>
    match s.pc t with
    | .reaping p _ => (s.reap p).setPc t .user
    | _ => s
  | .waitStopped t p =>
    if s.Runs t ∧ p ∈ s.children t ∧ s.state p = .stopped ∧ s.exitCode p ≠ 0 then
      s.setPc t (.reporting p)
    else s
  | .waitStoppedEnd t =>
    match s.pc t with
    | .reporting p =>
      { s with exitCode := update s.exitCode p 0 }.setPc t .user
    | _ => s
  | .traceme t =>
    if s.Runs t then { s with ptraced := update s.ptraced t true } else s
  | .attach t p =>
    if s.Runs t ∧ s.Used p ∧ p ≠ initTask ∧ p ≠ initProcess ∧ p ≠ t ∧ s.ptraced p = false then
      let s := { s with ptraced := update s.ptraced p true }
      if s.pptr p ≠ t then s.moveTo p t else s
    else s
  | .detach t p data =>
    if s.Traces t p ∧ s.state p = .stopped then
      { s with
        ptraced := update s.ptraced p false
        state := update s.state p .running
        exitCode := update s.exitCode p data }.moveTo p (s.opptr p)
    else s
  | .cont t p data =>
    if s.Traces t p ∧ s.state p = .stopped then
      { s with
        state := update s.state p .running
        exitCode := update s.exitCode p data }
    else s
  | .ptraceKill t p =>
    if s.Traces t p then
      { s with
        state := update s.state p .running
        exitCode := update s.exitCode p sigkill }
    else s
  | .kill p sig => if p ∈ s.tasks then s.sendSig sig p else s
  | .killPg pgrp sig => s.killPg pgrp sig
  | .stop t sig =>
    if s.Runs t then
      { s with
        state := update s.state t .stopped
        exitCode := update s.exitCode t sig }
    else s
  | .setGroup t pgrp session =>
    if s.Runs t then
      { s with
        pgrp := update s.pgrp t pgrp
        session := update s.session t session }
    else s

def run (s : State) (es : List Event) : State := es.foldl step s

def boot : State where
  task i := if i = 0 then some initTask else if i = 1 then some initProcess else none
  nextTask t := if t = initTask then initProcess else initTask
  prevTask t := if t = initTask then initProcess else initTask
  opptr _ := initTask
  pptr _ := initTask
  cptr t := if t = initTask then some initProcess else none
  ysptr _ := none
  osptr _ := none
  state _ := .running
  exitCode _ := 0
  exitSignal _ := sigchld
  ptraced _ := false
  pgrp _ := 0
  session _ := 0
  pc _ := .user
  oops := false

end LinuxKernel.Process
