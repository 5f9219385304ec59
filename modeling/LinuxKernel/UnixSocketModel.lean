import LinuxKernel.RingBuffer

/-!
# Streams between connected AF_UNIX sockets

`unix_proto_read` and `unix_proto_write` of `net/unix/sock.c` on the buffer of one socket: it is
read through that socket and written through its peer.  A process sleeps in
`interruptible_sleep_on`, in `unix_lock`, and inside the copies, where every byte may fault; a step
of the model takes a call from one such place to the next, and a copy is one byte a step.

A size below one is never copied, so the sizes are natural numbers.  A process is told at every
step whether it has a signal, whether its file is non-blocking and whether `verify_area` refuses
the next piece of its memory.
-/

namespace LinuxKernel.UnixSocket

def bufSize : ℕ := 4096

def EPIPE : ℤ := 32

def EAGAIN : ℤ := 11

def EINVAL : ℤ := 22

def EFAULT : ℤ := 14

def ERESTARTSYS : ℤ := 512

inductive SockState
  | connected
  | disconnecting
  | other
deriving DecidableEq

/-- Where a process is.  `lockRead` and `lockWrite` are in `unix_lock`, with `avail` or `space` as
they were computed before.  In a copy `done` of the `cando` bytes are copied, and `todo` and `rest`
are what was left before the copy. -/
inductive Phase where
  | idle
  | waitRead (size : ℕ)
  | lockRead (size avail : ℕ)
  | reading (size todo cando done : ℕ)
  | waitWrite (size : ℕ) (rest : List UInt8)
  | lockWrite (size : ℕ) (rest : List UInt8) (space : ℕ)
  | writing (size : ℕ) (rest : List UInt8) (cando done : ℕ)

/-- The buffer with its lock, the states of the two sockets and the processes.  `written` and
`read` are the bytes in the order in which they were copied in and out. -/
structure State (Task : Type) where
  buf : ℕ → UInt8
  bpHead : ℕ
  bpTail : ℕ
  lockFlag : Bool
  readState : SockState
  writeState : SockState
  phase : Task → Phase
  written : List UInt8
  read : List UInt8
  results : List (Task × ℤ)

section

variable {Task : Type} [DecidableEq Task]

def State.avail (s : State Task) : ℕ := (((s.bpHead : ℤ) - s.bpTail) % bufSize).toNat

def State.space (s : State Task) : ℕ := bufSize - 1 - s.avail

def State.setPhase (s : State Task) (t : Task) (phase : Phase) : State Task :=
  { s with phase := Function.update s.phase t phase }

def State.unixUnlock (s : State Task) : State Task := { s with lockFlag := false }

def State.finish (s : State Task) (t : Task) (value : ℤ) : State Task :=
  { s.setPhase t .idle with results := s.results ++ [(t, value)] }

def State.readLoop (s : State Task) (t : Task) (size todo avail : ℕ) (fault : Bool) : State Task :=
  if avail = 0 then s.finish t (-EPIPE)
  else
    let cando := min (min todo avail) (bufSize - s.bpTail)
    if fault then s.unixUnlock.finish t (-EFAULT) else s.setPhase t (.reading size todo cando 0)

def State.readLock (s : State Task) (t : Task) (size avail : ℕ) (fault : Bool) : State Task :=
  if s.lockFlag then s.setPhase t (.lockRead size avail)
  else { s with lockFlag := true }.readLoop t size size avail fault

def State.readWait (s : State Task) (t : Task) (size : ℕ) (nonblock fault : Bool) : State Task :=
  if s.avail = 0 then
    if s.readState ≠ .connected then
      s.finish t (if s.readState = .disconnecting then 0 else -EINVAL)
    else if nonblock then s.finish t (-EAGAIN)
    else s.setPhase t (.waitRead size)
  else s.readLock t size s.avail fault

def State.unixProtoRead (s : State Task) (t : Task) (size : ℕ) (nonblock fault : Bool) :
    State Task :=
  if size = 0 then s.finish t 0 else s.readWait t size nonblock fault

def State.readByte (s : State Task) (t : Task) (size todo cando done : ℕ) (fault : Bool) :
    State Task :=
  let s := { s with read := s.read ++ [s.buf (s.bpTail + done)] }
  if done + 1 < cando then s.setPhase t (.reading size todo cando (done + 1))
  else
    let s := { s with bpTail := (s.bpTail + cando) % bufSize }
    if todo - cando ≠ 0 ∧ s.avail ≠ 0 then s.readLoop t size (todo - cando) s.avail fault
    else s.unixUnlock.finish t (size - (todo - cando : ℕ))

def State.writeLoop (s : State Task) (t : Task) (size : ℕ) (rest : List UInt8) (space : ℕ)
    (fault : Bool) : State Task :=
  if space = 0 then s.finish t (-EPIPE)
  else if s.writeState = .disconnecting then s.unixUnlock.finish t (-EPIPE)
  else
    let cando := min (min rest.length space) (bufSize - s.bpHead)
    if fault then s.unixUnlock.finish t (-EFAULT) else s.setPhase t (.writing size rest cando 0)

def State.writeLock (s : State Task) (t : Task) (size : ℕ) (rest : List UInt8) (space : ℕ)
    (fault : Bool) : State Task :=
  if s.lockFlag then s.setPhase t (.lockWrite size rest space)
  else { s with lockFlag := true }.writeLoop t size rest space fault

def State.writeWait (s : State Task) (t : Task) (size : ℕ) (rest : List UInt8)
    (nonblock fault : Bool) : State Task :=
  if s.space = 0 then
    if nonblock then s.finish t (-EAGAIN) else s.setPhase t (.waitWrite size rest)
  else s.writeLock t size rest s.space fault

def State.unixProtoWrite (s : State Task) (t : Task) (data : List UInt8) (nonblock fault : Bool) :
    State Task :=
  if data.length = 0 then s.finish t 0
  else if s.writeState ≠ .connected then
    s.finish t (if s.writeState = .disconnecting then -EPIPE else -EINVAL)
  else s.writeWait t data.length data nonblock fault

def State.writeByte (s : State Task) (t : Task) (size : ℕ) (rest : List UInt8) (cando done : ℕ)
    (fault : Bool) : State Task :=
  match rest[done]? with
  | none => s
  | some b =>
    let s := { s with
      buf := Function.update s.buf (s.bpHead + done) b
      written := s.written ++ [b] }
    if done + 1 < cando then s.setPhase t (.writing size rest cando (done + 1))
    else
      let s := { s with bpHead := (s.bpHead + cando) % bufSize }
      if (rest.drop cando).length ≠ 0 ∧ s.space ≠ 0 then
        s.writeLoop t size (rest.drop cando) s.space fault
      else s.unixUnlock.finish t (size - (rest.drop cando).length)

end

inductive Event (Task : Type)
  | read (t : Task) (size : ℕ) (nonblock fault : Bool)
  | write (t : Task) (data : List UInt8) (nonblock fault : Bool)
  | wake (t : Task) (nonblock signal fault : Bool)
  | copy (t : Task) (fault : Bool)
  | setState (readState writeState : SockState)

section

variable {Task : Type} [DecidableEq Task]

def State.wake (s : State Task) (t : Task) (nonblock signal fault : Bool) : State Task :=
  match s.phase t with
  | .waitRead size =>
    if signal then s.finish t (-ERESTARTSYS) else s.readWait t size nonblock fault
  | .lockRead size avail => s.readLock t size avail fault
  | .waitWrite size rest =>
    if signal then s.finish t (-ERESTARTSYS)
    else if s.writeState = .disconnecting then s.finish t (-EPIPE)
    else s.writeWait t size rest nonblock fault
  | .lockWrite size rest space => s.writeLock t size rest space fault
  | _ => s

def step (s : State Task) : Event Task → State Task
  | .read t size nonblock fault =>
    match s.phase t with
    | .idle => s.unixProtoRead t size nonblock fault
    | _ => s
  | .write t data nonblock fault =>
    match s.phase t with
    | .idle => s.unixProtoWrite t data nonblock fault
    | _ => s
  | .wake t nonblock signal fault => s.wake t nonblock signal fault
  | .copy t fault =>
    match s.phase t with
    | .reading size todo cando done => s.readByte t size todo cando done fault
    | .writing size rest cando done => s.writeByte t size rest cando done fault
    | _ => s
  | .setState readState writeState => { s with readState := readState, writeState := writeState }

def run (s : State Task) (es : List (Event Task)) : State Task := es.foldl step s

end

def connected (Task : Type) (buf : ℕ → UInt8) : State Task where
  buf := buf
  bpHead := 0
  bpTail := 0
  lockFlag := false
  readState := .connected
  writeState := .connected
  phase := fun _ => .idle
  written := []
  read := []
  results := []

end LinuxKernel.UnixSocket
