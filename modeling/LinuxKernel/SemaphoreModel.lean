import Mathlib.Data.Fintype.Basic

/-!
# System V semaphores

`sys_semop`, the `SETVAL`, `SETALL` and `IPC_RMID` commands of `sys_semctl`, and
`sem_exit` of `ipc/sem.c`.  Semaphore sets and undo records live at addresses; a
set is found through `semary`, an undo record is on the `semun` list of its task
and on the `undo` list of its set.

The kernel is left only in `interruptible_sleep_on`, so a step runs from an entry
or a wakeup to the next sleep or to the return.  A task that sleeps keeps what
its call has in local variables in a `Sleeper`; it stays on the wait queue until
it runs again.  `sem_exit` is stepped one undo record at a time.

Permissions, `kmalloc` and pending signals come with the events.
-/

namespace LinuxKernel.Semaphore
open Function

def semmni : ℕ := 128

def semopm : ℕ := 32

def semvmx : ℤ := 32767

abbrev Task := Fin 128

def toUshort (x : ℤ) : ℤ := x % 65536

def toShort (x : ℤ) : ℤ := Int.bmod x 65536

structure Sembuf where
  semNum : UInt16
  semOp : Int16
  nowait : Bool
  undo : Bool
  deriving DecidableEq

def Sembuf.num (sop : Sembuf) : ℕ := sop.semNum.toNat

def Sembuf.op (sop : Sembuf) : ℤ := sop.semOp.toInt

structure Sem where
  semval : ℤ
  semncnt : ℤ
  semzcnt : ℤ

/-- `struct semid_ds`.  `base` continues behind the last semaphore, where the
bound of `sys_semop` still lets an operation go. -/
structure SemidDs where
  seq : ℕ
  semNsems : ℕ
  base : ℕ → Sem
  undo : List ℕ

structure SemUndo where
  semid : ℕ
  semadj : ℤ
  semNum : ℕ

inductive Slot where
  | unused
  | noid
  | set (sma : ℕ)
  deriving DecidableEq

inductive Waiting where
  | semop (semid : ℕ) (sops : List Sembuf) (sop : Sembuf)
  | exit (un : ℕ)

structure Sleeper where
  sma : ℕ
  num : ℕ
  forZero : Bool
  waiting : Waiting
  runnable : Bool

structure Sems where
  semary : ℕ → Slot
  sets : ℕ → SemidDs
  undos : ℕ → SemUndo
  semun : Task → List ℕ
  sleep : Task → Option Sleeper
  semSeq : ℕ
  nextSet : ℕ
  nextUndo : ℕ

inductive Outcome where
  | returned (value : ℤ)
  | asleep
  | none
  deriving DecidableEq

def eintr : ℤ := 4
def e2big : ℤ := 7
def eagain : ℤ := 11
def enomem : ℤ := 12
def eacces : ℤ := 13
def einval : ℤ := 22
def efbig : ℤ := 27
def erange : ℤ := 34
def eidrm : ℤ := 43

def Sems.semval (s : Sems) (sma num : ℕ) : ℤ := ((s.sets sma).base num).semval

def Sems.setSem (s : Sems) (sma num : ℕ) (sem : Sem) : Sems :=
  let ds := s.sets sma
  { s with
    sets := update s.sets sma { ds with base := update ds.base num sem } }

def Sems.setSemval (s : Sems) (sma num : ℕ) (value : ℤ) : Sems :=
  s.setSem sma num { (s.sets sma).base num with semval := value }

def Sems.setSemadj (s : Sems) (un : ℕ) (value : ℤ) : Sems :=
  { s with undos := update s.undos un { s.undos un with semadj := value } }

/-- `semzcnt` or `semncnt` of a semaphore goes up or down by `d`. -/
def Sems.addWaiting (s : Sems) (sma num : ℕ) (forZero : Bool) (d : ℤ) : Sems :=
  let sem := (s.sets sma).base num
  if forZero then s.setSem sma num { sem with semzcnt := sem.semzcnt + d }
  else s.setSem sma num { sem with semncnt := sem.semncnt + d }

def Sems.wakeUp (s : Sems) (sma : ℕ) (forZero : Bool) : Sems :=
  { s with
    sleep := fun t => (s.sleep t).map fun w =>
      if w.sma = sma ∧ w.forZero = forZero then { w with runnable := true } else w }

def Sems.sleepOn (s : Sems) (t : Task) (w : Sleeper) : Sems :=
  { s.addWaiting w.sma w.num w.forZero 1 with sleep := update s.sleep t (some w) }

/-! ## `sys_semop` -/

def Sems.findUndo (s : Sems) (t : Task) (semid num : ℕ) : Option ℕ :=
  (s.semun t).find? fun un => (s.undos un).semid = semid ∧ (s.undos un).semNum = num

def Sems.newUndo (s : Sems) (t : Task) (semid sma num : ℕ) : Sems :=
  let ds := s.sets sma
  { s with
    undos := update s.undos s.nextUndo { semid := semid, semadj := 0, semNum := num }
    semun := update s.semun t (s.nextUndo :: s.semun t)
    sets := update s.sets sma { ds with undo := s.nextUndo :: ds.undo }
    nextUndo := s.nextUndo + 1 }

/-- The loop that gives every operation with `SEM_UNDO` an undo record, with
memory for `free` of them.  It says whether the memory was enough. -/
def Sems.ensureUndos (s : Sems) (t : Task) (semid sma : ℕ) : ℕ → List Sembuf → Sems × Bool
  | _, [] => (s, true)
  | free, sop :: rest =>
    if sop.undo then
      match s.findUndo t semid sop.num with
      | some _ => s.ensureUndos t semid sma free rest
      | none =>
        match free with
        | 0 => (s, false)
        | free + 1 => (s.newUndo t semid sma sop.num).ensureUndos t semid sma free rest
    else s.ensureUndos t semid sma free rest

inductive Check where
  | pass
  | error (e : ℤ)
  | sleep (sop : Sembuf) (forZero : Bool)

def check (value : ℕ → ℤ) : List Sembuf → Check
  | [] => .pass
  | sop :: rest =>
    if sop.op + value sop.num > semvmx then .error erange
    else if sop.op = 0 ∧ value sop.num ≠ 0 then
      if sop.nowait then .error eagain else .sleep sop true
    else if sop.op + value sop.num < 0 then
      if sop.nowait then .error eagain else .sleep sop false
    else check value rest

def Sems.applyOp (s : Sems) (t : Task) (semid sma : ℕ) (sop : Sembuf) : Sems :=
  let s1 := s.setSemval sma sop.num (toUshort (s.semval sma sop.num + sop.op))
  if sop.undo then
    match s1.findUndo t semid sop.num with
    | none => s1
    | some un => s1.setSemadj un (toShort ((s1.undos un).semadj - sop.op))
  else s1

def Sems.applyOps (s : Sems) (t : Task) (semid sma : ℕ) : List Sembuf → Sems × Bool
  | [] => (s, false)
  | sop :: rest =>
    let s1 := s.applyOp t semid sma sop
    let r := s1.applyOps t semid sma rest
    (r.1, decide (s1.semval sma sop.num = 0) || r.2)

def Sems.finish (s : Sems) (t : Task) (semid sma : ℕ) (sops : List Sembuf) : Sems × Outcome :=
  let (s1, zero) := s.applyOps t semid sma sops
  let s2 := if sops.any fun sop => 0 < sop.op then s1.wakeUp sma false else s1
  let s3 := if zero then s2.wakeUp sma true else s2
  (s3, .returned ((sops.getLast?.map fun sop => s3.semval sma sop.num).getD 0))

def Sems.slept (s : Sems) (t : Task) (semid sma : ℕ) (sops : List Sembuf) (signal : Bool) :
    Sems × Outcome :=
  if (s.sets sma).seq ≠ semid / semmni then (s, .returned (-eidrm))
  else
    match check (s.semval sma) sops with
    | .error e => (s, .returned (-e))
    | .sleep sop forZero =>
      if signal then (s, .returned (-eintr))
      else
        (s.sleepOn t
          { sma := sma
            num := sop.num
            forZero := forZero
            waiting := .semop semid sops sop
            runnable := false }, .asleep)
    | .pass => s.finish t semid sma sops

def Sems.semop (s : Sems) (t : Task) (semid : ℕ) (sops : List Sembuf) (permitted : Bool)
    (free : ℕ) (signal : Bool) : Sems × Outcome :=
  if sops = [] then (s, .returned (-einval))
  else if semopm < sops.length then (s, .returned (-e2big))
  else
    match s.semary (semid % semmni) with
    | .unused => (s, .returned (-einval))
    | .noid => (s, .returned (-einval))
    | .set sma =>
      if sops.any fun sop => (s.sets sma).semNsems < sop.num then (s, .returned (-efbig))
      else if ¬permitted then (s, .returned (-eacces))
      else
        let (s1, enough) := s.ensureUndos t semid sma free sops
        if enough then s1.slept t semid sma sops signal
        else (s1, .returned (-enomem))

def Sems.dropUndo (s : Sems) (t : Task) : Sems :=
  { s with semun := update s.semun t (s.semun t).tail }

/-- Add `semadj` to the semaphore and wake those who wait for what that makes
possible. -/
def Sems.adjusted (s : Sems) (sma un : ℕ) : Sems :=
  let u := s.undos un
  let s1 := s.setSemval sma u.semNum (toUshort (s.semval sma u.semNum + u.semadj))
  let s2 := if 0 < u.semadj then s1.wakeUp sma false else s1
  if s2.semval sma u.semNum = 0 then s2.wakeUp sma true else s2

def Sems.adjust (s : Sems) (t : Task) (sma un : ℕ) (signal : Bool) : Sems × Outcome :=
  let u := s.undos un
  if (s.sets sma).seq ≠ u.semid / semmni then (s.dropUndo t, .none)
  else if 0 ≤ s.semval sma u.semNum + u.semadj then ((s.adjusted sma un).dropUndo t, .none)
  else if signal then (s.dropUndo t, .none)
  else
    (s.sleepOn t
      { sma := sma, num := u.semNum, forZero := false, waiting := .exit un, runnable := false },
      .asleep)

def Sems.exitRecord (s : Sems) (t : Task) (signal : Bool) : Sems × Outcome :=
  match s.semun t with
  | [] => (s, .none)
  | un :: _ =>
    let u := s.undos un
    match s.semary (u.semid % semmni) with
    | .unused => (s.dropUndo t, .none)
    | .noid => (s.dropUndo t, .none)
    | .set sma =>
      let ds := s.sets sma
      if ds.seq ≠ u.semid / semmni then (s.dropUndo t, .none)
      else if un ∈ ds.undo then
        let s1 := { s with sets := update s.sets sma { ds with undo := ds.undo.erase un } }
        if u.semadj = 0 then (s1.dropUndo t, .none) else s1.adjust t sma un signal
      else ({ s with semun := update s.semun t [] }, .none)

/-! ## Wakeups and `sys_semctl` -/

def Sems.awake (s : Sems) (t : Task) (w : Sleeper) : Sems :=
  { s.addWaiting w.sma w.num w.forZero (-1) with sleep := update s.sleep t none }

def Sems.resume (s : Sems) (t : Task) (signal : Bool) : Sems × Outcome :=
  match s.sleep t with
  | none => (s, .none)
  | some w =>
    if w.runnable then
      match w.waiting with
      | .semop semid sops _ => (s.awake t w).slept t semid w.sma sops signal
      | .exit un => (s.awake t w).adjust t w.sma un signal
    else (s, .none)

def Sems.interrupt (s : Sems) (t : Task) : Sems :=
  { s with
    sleep := update s.sleep t ((s.sleep t).map fun w => { w with runnable := true }) }

/-- Clear the `semadj` of the records on the list of a set that satisfy `p`. -/
def Sems.clearUndos (s : Sems) (sma : ℕ) (p : SemUndo → Bool) : Sems :=
  { s with
    undos := fun un =>
      if un ∈ (s.sets sma).undo ∧ p (s.undos un) then { s.undos un with semadj := 0 }
      else s.undos un }

def Sems.ctlSet (s : Sems) (semid semnum : ℕ) : Except ℤ ℕ :=
  match s.semary (semid % semmni) with
  | .unused => .error einval
  | .noid => .error einval
  | .set sma =>
    if (s.sets sma).seq ≠ semid / semmni then .error eidrm
    else if (s.sets sma).semNsems ≤ semnum then .error einval
    else .ok sma

def Sems.setval (s : Sems) (semid semnum : ℕ) (val : ℤ) (permitted : Bool) : Sems × Outcome :=
  match s.ctlSet semid semnum with
  | .error e => (s, .returned (-e))
  | .ok sma =>
    if val > semvmx ∨ val < 0 then (s, .returned (-erange))
    else if ¬permitted then (s, .returned (-eacces))
    else
      let s1 := (s.clearUndos sma fun u => u.semNum = semnum).setSemval sma semnum val
      ((s1.wakeUp sma false).wakeUp sma true, .returned 0)

def Sems.setSemvals (s : Sems) (sma : ℕ) (vals : ℕ → ℤ) : Sems :=
  let ds := s.sets sma
  { s with
    sets := update s.sets sma
      { ds with
        base := fun num =>
          if num < ds.semNsems then { ds.base num with semval := vals num } else ds.base num } }

def Sems.setall (s : Sems) (semid semnum : ℕ) (vals : ℕ → UInt16) (permitted : Bool) :
    Sems × Outcome :=
  match s.ctlSet semid semnum with
  | .error e => (s, .returned (-e))
  | .ok sma =>
    if ∃ num < (s.sets sma).semNsems, semvmx < (vals num).toNat then (s, .returned (-erange))
    else if ¬permitted then (s, .returned (-eacces))
    else
      let s1 := (s.setSemvals sma fun num => (vals num).toNat).clearUndos sma fun _ => true
      ((s1.wakeUp sma false).wakeUp sma true, .returned 0)

/-- `IPC_RMID`.  The loop of `freeary` that wakes the sleepers again until they
are gone, and `kfree_s` after it, leave nothing of the set that anyone can reach. -/
def Sems.rmid (s : Sems) (semid semnum : ℕ) (permitted : Bool) : Sems × Outcome :=
  match s.ctlSet semid semnum with
  | .error e => (s, .returned (-e))
  | .ok sma =>
    if ¬permitted then (s, .returned (-1))
    else
      let ds := s.sets sma
      let s1 := s.clearUndos sma fun _ => true
      let s2 :=
        { s1 with
          sets := update s1.sets sma { ds with seq := (ds.seq + 1) % 65536 }
          semSeq := (s.semSeq + 1) % 65536
          semary := update s.semary (semid % semmni) .unused }
      ((s2.wakeUp sma true).wakeUp sma false, .returned 0)

/-- `newary` fills the slot `id` with a set of `nsems` semaphores; behind them
lies whatever memory was there. -/
def Sems.newary (s : Sems) (id nsems : ℕ) (behind : Sem) : Sems × Outcome :=
  if s.semary id = .unused ∧ id < semmni ∧ nsems ≠ 0 then
    let ds : SemidDs :=
      { seq := s.semSeq
        semNsems := nsems
        base := fun num =>
          if num < nsems then { semval := 0, semncnt := 0, semzcnt := 0 } else behind
        undo := [] }
    ({ s with
        sets := update s.sets s.nextSet ds
        semary := update s.semary id (.set s.nextSet)
        nextSet := s.nextSet + 1 }, .returned (s.semSeq * semmni + id : ℕ))
  else (s, .none)

inductive Event where
  | newary (id nsems : ℕ) (behind : Sem)
  | semop (t : Task) (semid : ℕ) (sops : List Sembuf) (permitted : Bool) (free : ℕ) (signal : Bool)
  | resume (t : Task) (signal : Bool)
  | interrupt (t : Task)
  | exitRecord (t : Task) (signal : Bool)
  | setval (semid semnum : ℕ) (val : ℤ) (permitted : Bool)
  | setall (semid semnum : ℕ) (vals : ℕ → UInt16) (permitted : Bool)
  | rmid (semid semnum : ℕ) (permitted : Bool)

def Sems.step (s : Sems) : Event → Sems × Outcome
  | .newary id nsems behind => s.newary id nsems behind
  | .semop t semid sops permitted free signal =>
    if (s.sleep t).isSome then (s, .none) else s.semop t semid sops permitted free signal
  | .resume t signal => s.resume t signal
  | .interrupt t => (s.interrupt t, .none)
  | .exitRecord t signal =>
    if (s.sleep t).isSome then (s, .none) else s.exitRecord t signal
  | .setval semid semnum val permitted => s.setval semid semnum val permitted
  | .setall semid semnum vals permitted => s.setall semid semnum vals permitted
  | .rmid semid semnum permitted => s.rmid semid semnum permitted

def Sems.run (s : Sems) : List Event → Sems
  | [] => s
  | e :: es => (s.step e).1.run es

def Sems.init : Sems where
  semary := fun _ => .unused
  sets := fun _ => { seq := 0, semNsems := 0, base := fun _ => ⟨0, 0, 0⟩, undo := [] }
  undos := fun _ => { semid := 0, semadj := 0, semNum := 0 }
  semun := fun _ => []
  sleep := fun _ => none
  semSeq := 0
  nextSet := 0
  nextUndo := 0

end LinuxKernel.Semaphore
