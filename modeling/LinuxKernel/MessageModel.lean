import LinuxKernel.LinkedCells
import Mathlib.Data.Fintype.Basic

/-!
# System V message queues

`sys_msgsnd`, `sys_msgrcv`, `newque`, `freeque` and the `IPC_SET` and `IPC_RMID`
commands of `sys_msgctl` in `ipc/msg.c`.  Queues and messages live at addresses,
0 is `NULL`; the messages of a queue are linked through `msg_next`.

A call sleeps in `kmalloc`, on the `wwait` or `rwait` queue of a message queue,
and in the loop of `freeque`; what it has in local variables then is a `Sleep`.
A sleeping task may run again at any time.  Permissions, pending signals and
what `kmalloc` returns come with the events.  Memory that is freed is not used
again.
-/

namespace LinuxKernel.Message
open Function

def msgmni : ℕ := 128

def msgmax : ℕ := 4056

def msgmnb : ℕ := 16384

structure Msg where
  msgNext : ℕ
  msgType : Int32
  msgTs : ℕ

structure MsqidDs where
  seq : ℕ
  msgFirst : ℕ
  msgLast : ℕ
  msgCbytes : ℕ
  msgQnum : ℕ
  msgQbytes : ℕ

inductive Slot where
  | unused
  | noid
  | queue (msq : ℕ)
  deriving DecidableEq

structure Send where
  msq : ℕ
  msqid : ℕ
  msgsz : ℕ
  mtype : Int32
  nowait : Bool

structure Receive where
  msq : ℕ
  msqid : ℕ
  msgsz : ℕ
  msgtyp : Int32
  nowait : Bool
  noerror : Bool
  except : Bool

inductive Sleep where
  | wwait (snd : Send)
  | kmalloc (snd : Send)
  | rwait (rcv : Receive)
  | newque (id : ℕ)
  | freeque (msq : ℕ)

structure Msgs (Task : Type) where
  msgque : ℕ → Slot
  queues : ℕ → MsqidDs
  msgs : ℕ → Msg
  msgbytes : ℤ
  msghdrs : ℤ
  msgSeq : ℕ
  nextQueue : ℕ
  nextMsg : ℕ
  sleep : Task → Option Sleep

inductive Outcome where
  | returned (value : ℤ)
  | asleep
  | none
  deriving DecidableEq

def eperm : ℤ := 1
def eintr : ℤ := 4
def e2big : ℤ := 7
def eagain : ℤ := 11
def enomem : ℤ := 12
def eacces : ℤ := 13
def einval : ℤ := 22
def enospc : ℤ := 28
def enomsg : ℤ := 42
def eidrm : ℤ := 43

variable {Task : Type}

/-! ## The list of a queue -/

def Msgs.next (s : Msgs Task) (a : ℕ) : ℕ := (s.msgs a).msgNext

def Msgs.setQueue (s : Msgs Task) (msq : ℕ) (q : MsqidDs) : Msgs Task :=
  { s with queues := update s.queues msq q }

def Msgs.setNext (s : Msgs Task) (a v : ℕ) : Msgs Task :=
  { s with msgs := update s.msgs a { s.msgs a with msgNext := v } }

/-- The first message from `a` on that satisfies `p`, 0 if there is none.  A list
is never longer than the number of messages that were allocated. -/
def Msgs.find (s : Msgs Task) (p : ℕ → Bool) (a : ℕ) : ℕ := walk 0 s.next p s.nextMsg a

def Msgs.least (s : Msgs Task) (first : ℕ) : ℕ :=
  foldLinks 0 s.next
    (fun leastp tmsg => if (s.msgs tmsg).msgType < (s.msgs leastp).msgType then tmsg else leastp)
    s.nextMsg first first

def Msgs.choose (s : Msgs Task) (rcv : Receive) : ℕ :=
  let first := (s.queues rcv.msq).msgFirst
  if rcv.msgtyp = 0 then first
  else if 0 < rcv.msgtyp then
    if rcv.except then s.find (fun a => (s.msgs a).msgType ≠ rcv.msgtyp) first
    else s.find (fun a => (s.msgs a).msgType = rcv.msgtyp) first
  else
    let leastp := s.least first
    if leastp ≠ 0 ∧ (s.msgs leastp).msgType ≤ -rcv.msgtyp then leastp else 0

def Msgs.unlink (s : Msgs Task) (msq nmsg : ℕ) : Msgs Task :=
  let q := s.queues msq
  if nmsg = q.msgFirst then s.setQueue msq { q with msgFirst := s.next nmsg }
  else
    let tmsg := s.find (fun a => s.next a = nmsg) q.msgFirst
    (s.setNext tmsg (s.next nmsg)).setQueue msq
      (if nmsg = q.msgLast then { q with msgLast := tmsg } else q)

def Msgs.take (s : Msgs Task) (msq nmsg : ℕ) : Msgs Task :=
  let s1 := s.unlink msq nmsg
  let q := s1.queues msq
  let ts := (s.msgs nmsg).msgTs
  let qnum := (q.msgQnum + 65535) % 65536
  let q1 := { q with msgQnum := qnum, msgCbytes := (q.msgCbytes + 65536 - ts) % 65536 }
  let q2 := if qnum = 0 then { q1 with msgFirst := 0, msgLast := 0 } else q1
  { s1.setQueue msq q2 with msgbytes := s.msgbytes - ts, msghdrs := s.msghdrs - 1 }

def Msgs.append (s : Msgs Task) (snd : Send) : Msgs Task :=
  let msgh := s.nextMsg
  let q := s.queues snd.msq
  let s1 :=
    { s with
      msgs := update s.msgs msgh { msgNext := 0, msgType := snd.mtype, msgTs := snd.msgsz }
      nextMsg := s.nextMsg + 1 }
  let q1 :=
    { q with
      msgCbytes := (q.msgCbytes + snd.msgsz) % 65536
      msgQnum := (q.msgQnum + 1) % 65536
      msgLast := msgh }
  let s2 :=
    if q.msgFirst = 0 then s1.setQueue snd.msq { q1 with msgFirst := msgh }
    else (s1.setNext q.msgLast msgh).setQueue snd.msq q1
  { s2 with msgbytes := s.msgbytes + snd.msgsz, msghdrs := s.msghdrs + 1 }

/-! ## The calls -/

section Calls

variable [DecidableEq Task]

def Msgs.setSleep (s : Msgs Task) (t : Task) (w : Option Sleep) : Msgs Task :=
  { s with sleep := update s.sleep t w }

def Msgs.sndSlept (s : Msgs Task) (t : Task) (snd : Send) (permitted signal : Bool) :
    Msgs Task × Outcome :=
  let q := s.queues snd.msq
  if q.seq ≠ snd.msqid / msgmni then (s.setSleep t none, .returned (-eidrm))
  else if ¬permitted then (s.setSleep t none, .returned (-eacces))
  else if q.msgQbytes < snd.msgsz + q.msgCbytes then
    if snd.nowait then (s.setSleep t none, .returned (-eagain))
    else if signal then (s.setSleep t none, .returned (-eintr))
    else (s.setSleep t (some (.wwait snd)), .asleep)
  else (s.setSleep t (some (.kmalloc snd)), .asleep)

def Msgs.msgsnd (s : Msgs Task) (t : Task) (msqid : ℕ) (msgsz : ℤ) (mtype : Int32)
    (nowait permitted signal : Bool) : Msgs Task × Outcome :=
  if msgsz > msgmax ∨ msgsz < 0 then (s, .returned (-einval))
  else if mtype < 1 then (s, .returned (-einval))
  else
    match s.msgque (msqid % msgmni) with
    | .unused => (s, .returned (-einval))
    | .noid => (s, .returned (-einval))
    | .queue msq => s.sndSlept t ⟨msq, msqid, msgsz.toNat, mtype, nowait⟩ permitted signal

def Msgs.sndAlloc (s : Msgs Task) (t : Task) (snd : Send) (memory : Bool) : Msgs Task × Outcome :=
  if ¬memory then (s.setSleep t none, .returned (-enomem))
  else
    match s.msgque (snd.msqid % msgmni) with
    | .unused => (s.setSleep t none, .returned (-eidrm))
    | .noid => (s.setSleep t none, .returned (-eidrm))
    | .queue _ =>
      if (s.queues snd.msq).seq ≠ snd.msqid / msgmni then (s.setSleep t none, .returned (-eidrm))
      else ((s.append snd).setSleep t none, .returned snd.msgsz)

def Msgs.rcvLoop (s : Msgs Task) (t : Task) (rcv : Receive) (permitted signal : Bool) :
    Msgs Task × Outcome :=
  if (s.queues rcv.msq).seq ≠ rcv.msqid / msgmni then (s.setSleep t none, .returned (-eidrm))
  else if ¬permitted then (s.setSleep t none, .returned (-eacces))
  else
    let nmsg := s.choose rcv
    if nmsg ≠ 0 then
      if rcv.msgsz < (s.msgs nmsg).msgTs ∧ ¬rcv.noerror then
        (s.setSleep t none, .returned (-e2big))
      else
        ((s.take rcv.msq nmsg).setSleep t none, .returned (min rcv.msgsz (s.msgs nmsg).msgTs : ℕ))
    else if rcv.nowait then (s.setSleep t none, .returned (-enomsg))
    else if signal then (s.setSleep t none, .returned (-eintr))
    else (s.setSleep t (some (.rwait rcv)), .asleep)

def Msgs.msgrcv (s : Msgs Task) (t : Task) (msqid : ℕ) (msgsz : ℤ) (msgtyp : Int32)
    (nowait noerror except permitted signal : Bool) : Msgs Task × Outcome :=
  if msgsz < 0 then (s, .returned (-einval))
  else
    match s.msgque (msqid % msgmni) with
    | .unused => (s, .returned (-einval))
    | .noid => (s, .returned (-einval))
    | .queue msq =>
      s.rcvLoop t ⟨msq, msqid, msgsz.toNat, msgtyp, nowait, noerror, except⟩ permitted signal

def Msgs.newque (s : Msgs Task) (t : Task) : Msgs Task × Outcome :=
  match (List.range msgmni).find? fun id => s.msgque id = .unused with
  | none => (s, .returned (-enospc))
  | some id =>
    ({ s with msgque := update s.msgque id .noid }.setSleep t (some (.newque id)), .asleep)

def Msgs.newqueAlloc (s : Msgs Task) (t : Task) (id : ℕ) (memory : Bool) : Msgs Task × Outcome :=
  if memory then
    let q : MsqidDs :=
      { seq := s.msgSeq
        msgFirst := 0
        msgLast := 0
        msgCbytes := 0
        msgQnum := 0
        msgQbytes := msgmnb }
    ({ s with
        queues := update s.queues s.nextQueue q
        msgque := update s.msgque id (.queue s.nextQueue)
        nextQueue := s.nextQueue + 1 }.setSleep t none, .returned (s.msgSeq * msgmni + id : ℕ))
  else
    ({ s with msgque := update s.msgque id .unused }.setSleep t none, .returned (-enomem))

/-- Whether a task is on the `wwait` or `rwait` queue of `msq`. -/
def waitsOn (msq : ℕ) : Option Sleep → Bool
  | some (.wwait snd) => snd.msq = msq
  | some (.rwait rcv) => rcv.msq = msq
  | _ => false

/-- `freeque` after its loop has found nobody waiting: the messages go.  The
loop over them counts `msghdrs` down once for each. -/
def Msgs.release (s : Msgs Task) (msq : ℕ) : Msgs Task :=
  { s with
    msghdrs := foldLinks 0 s.next (fun hdrs _ => hdrs - 1) s.nextMsg s.msghdrs
      (s.queues msq).msgFirst }

variable [Fintype Task]

def Msgs.reap (s : Msgs Task) (t : Task) (msq : ℕ) : Msgs Task × Outcome :=
  if ∃ t', waitsOn msq (s.sleep t') = true then (s.setSleep t (some (.freeque msq)), .asleep)
  else ((s.release msq).setSleep t none, .returned 0)

def Msgs.detach (s : Msgs Task) (id msq : ℕ) : Msgs Task :=
  let q := s.queues msq
  { s with
    queues := update s.queues msq { q with seq := (q.seq + 1) % 65536 }
    msgSeq := (s.msgSeq + 1) % 65536
    msgbytes := s.msgbytes - q.msgCbytes
    msgque := update s.msgque id .unused }

def Msgs.rmid (s : Msgs Task) (t : Task) (msqid : ℕ) (permitted : Bool) : Msgs Task × Outcome :=
  match s.msgque (msqid % msgmni) with
  | .unused => (s, .returned (-einval))
  | .noid => (s, .returned (-einval))
  | .queue msq =>
    if (s.queues msq).seq ≠ msqid / msgmni then (s, .returned (-eidrm))
    else if ¬permitted then (s, .returned (-eperm))
    else (s.detach (msqid % msgmni) msq).reap t msq

def Msgs.ipcSet (s : Msgs Task) (msqid : ℕ) (qbytes : UInt16) (permitted suser : Bool) :
    Msgs Task × Outcome :=
  match s.msgque (msqid % msgmni) with
  | .unused => (s, .returned (-einval))
  | .noid => (s, .returned (-einval))
  | .queue msq =>
    if (s.queues msq).seq ≠ msqid / msgmni then (s, .returned (-eidrm))
    else if ¬permitted then (s, .returned (-eperm))
    else if msgmnb < qbytes.toNat ∧ ¬suser then (s, .returned (-eperm))
    else (s.setQueue msq { s.queues msq with msgQbytes := qbytes.toNat }, .returned 0)

inductive Event (Task : Type) where
  | msgsnd (t : Task) (msqid : ℕ) (msgsz : ℤ) (mtype : Int32) (nowait permitted signal : Bool)
  | msgrcv (t : Task) (msqid : ℕ) (msgsz : ℤ) (msgtyp : Int32)
      (nowait noerror except permitted signal : Bool)
  | newque (t : Task)
  | rmid (t : Task) (msqid : ℕ) (permitted : Bool)
  | ipcSet (msqid : ℕ) (qbytes : UInt16) (permitted suser : Bool)
  | wake (t : Task) (memory permitted signal : Bool)

def Msgs.wake (s : Msgs Task) (t : Task) (memory permitted signal : Bool) : Msgs Task × Outcome :=
  match s.sleep t with
  | none => (s, .none)
  | some (.wwait snd) => s.sndSlept t snd permitted signal
  | some (.kmalloc snd) => s.sndAlloc t snd memory
  | some (.rwait rcv) => s.rcvLoop t rcv permitted signal
  | some (.newque id) => s.newqueAlloc t id memory
  | some (.freeque msq) => s.reap t msq

def Msgs.step (s : Msgs Task) : Event Task → Msgs Task × Outcome
  | .msgsnd t msqid msgsz mtype nowait permitted signal =>
    if (s.sleep t).isSome then (s, .none)
    else s.msgsnd t msqid msgsz mtype nowait permitted signal
  | .msgrcv t msqid msgsz msgtyp nowait noerror except permitted signal =>
    if (s.sleep t).isSome then (s, .none)
    else s.msgrcv t msqid msgsz msgtyp nowait noerror except permitted signal
  | .newque t => if (s.sleep t).isSome then (s, .none) else s.newque t
  | .rmid t msqid permitted =>
    if (s.sleep t).isSome then (s, .none) else s.rmid t msqid permitted
  | .ipcSet msqid qbytes permitted suser => s.ipcSet msqid qbytes permitted suser
  | .wake t memory permitted signal => s.wake t memory permitted signal

def Msgs.run (s : Msgs Task) : List (Event Task) → Msgs Task
  | [] => s
  | e :: es => (s.step e).1.run es

def Msgs.init : Msgs Task where
  msgque := fun _ => .unused
  queues := fun _ =>
    { seq := 0, msgFirst := 0, msgLast := 0, msgCbytes := 0, msgQnum := 0, msgQbytes := 0 }
  msgs := fun _ => { msgNext := 0, msgType := 0, msgTs := 0 }
  msgbytes := 0
  msghdrs := 0
  msgSeq := 0
  nextQueue := 1
  nextMsg := 1
  sleep := fun _ => none

end Calls

end LinuxKernel.Message
