import LinuxKernel.RingBuffer

/-!
# Pipes

`pipe_read` and `pipe_write` of `fs/pipe.c`.  A process sleeps in two kinds of places: in
`interruptible_sleep_on`, and inside `memcpy_tofs` and `memcpy_fromfs`, where every byte
may fault and let another process run.  A step of the model takes a call from one such
place to the next, and a copy is one byte a step.

A count below one is never copied and never waited for, so the counts are natural
numbers.  Openings and closings of the pipe may change the numbers of readers and writers
at any time, and a sleeping process may wake at any time.  A process is told at every
step whether it has a signal and whether its file is non-blocking.
-/

namespace LinuxKernel.Pipe

def pipeBuf : ℕ := 4096

def unsigned (z : ℤ) : ℕ := (z % 4294967296).toNat

def EPIPE : ℤ := 32
def EAGAIN : ℤ := 11
def ERESTARTSYS : ℤ := 512

/-- Where a process is.  In a copy `chars` counts the bytes still to be copied at
`pipebuf`, and `rest` is what the caller of `pipe_write` has not copied in yet. -/
inductive Phase where
  | idle
  | waitRead (count : ℕ)
  | reading (count pipebuf chars read : ℕ) (got : List UInt8)
  | waitWrite (call free : ℕ) (rest : List UInt8) (written : ℕ)
  | writing (call pipebuf chars : ℕ) (rest : List UInt8) (written : ℕ)

/-- What a call returns, with the bytes it has put into the caller's buffer. -/
structure Outcome where
  value : ℤ
  data : List UInt8
  sigpipe : Bool

/-- A pipe, its page and the processes that use it.  The last three fields are the
history: the data of every call of `pipe_write`, the bytes in the order in which they were
copied in, each with the number of its call, and what the calls have returned. -/
structure PipeInode (Task : Type) where
  base : ℕ
  page : ℕ → UInt8
  start : ℕ
  len : ℕ
  lock : ℕ
  readers : ℕ
  writers : ℕ
  phase : Task → Phase
  writes : List (List UInt8)
  stream : List (ℕ × UInt8)
  done : List Outcome

def PipeInode.returned {Task : Type} (p : PipeInode Task) : List UInt8 :=
  p.done.flatMap Outcome.data

def PipeInode.bytes {Task : Type} (p : PipeInode Task) : List UInt8 := p.stream.map Prod.snd

section

variable {Task : Type} [DecidableEq Task]

def PipeInode.free (p : PipeInode Task) : ℕ := unsigned ((pipeBuf : ℤ) - p.len)

def PipeInode.pipeEnd (p : PipeInode Task) : ℕ := unsigned ((p.start : ℤ) + p.len) % pipeBuf

def PipeInode.maxRchunk (p : PipeInode Task) : ℕ := unsigned ((pipeBuf : ℤ) - p.start)

def PipeInode.maxWchunk (p : PipeInode Task) : ℕ := unsigned ((pipeBuf : ℤ) - p.pipeEnd)

def PipeInode.setPhase (p : PipeInode Task) (t : Task) (phase : Phase) : PipeInode Task :=
  { p with phase := Function.update p.phase t phase }

def PipeInode.finish (p : PipeInode Task) (t : Task) (value : ℤ) (data : List UInt8)
    (sigpipe : Bool) : PipeInode Task :=
  { p.setPhase t .idle with done := p.done ++ [⟨value, data, sigpipe⟩] }

def PipeInode.take (p : PipeInode Task) : PipeInode Task :=
  { p with lock := unsigned ((p.lock : ℤ) + 1) }

def PipeInode.release (p : PipeInode Task) : PipeInode Task :=
  { p with lock := unsigned ((p.lock : ℤ) - 1) }

/-- The head of the copying loop of `pipe_read`: the next chunk, or the return. -/
def PipeInode.readLoop (p : PipeInode Task) (t : Task) (count read : ℕ) (got : List UInt8) :
    PipeInode Task :=
  if 0 < count ∧ p.len ≠ 0 then
    let chars := min (min p.maxRchunk count) p.len
    { p.setPhase t (.reading (count - chars) p.start chars (read + chars) got) with
      start := unsigned ((p.start : ℤ) + chars) % pipeBuf
      len := unsigned ((p.len : ℤ) - chars) }
  else
    p.release.finish t
      (if read ≠ 0 then (read : ℤ) else if p.writers ≠ 0 then -EAGAIN else 0) got false

def PipeInode.readWait (p : PipeInode Task) (t : Task) (count : ℕ) (signal : Bool) :
    PipeInode Task :=
  if p.len = 0 ∨ p.lock ≠ 0 then
    if p.len = 0 ∧ p.writers = 0 then p.finish t 0 [] false
    else if signal then p.finish t (-ERESTARTSYS) [] false
    else p.setPhase t (.waitRead count)
  else p.take.readLoop t count 0 []

def PipeInode.pipeRead (p : PipeInode Task) (t : Task) (count : ℕ) (nonblock signal : Bool) :
    PipeInode Task :=
  if nonblock then
    if p.lock ≠ 0 then p.finish t (-EAGAIN) [] false
    else if p.len = 0 then
      if p.writers ≠ 0 then p.finish t (-EAGAIN) [] false else p.finish t 0 [] false
    else p.take.readLoop t count 0 []
  else p.readWait t count signal

def writtenOr (written : ℕ) (error : ℤ) : ℤ := if written ≠ 0 then written else error

def PipeInode.writeBlocked (p : PipeInode Task) (t : Task) (call free : ℕ) (rest : List UInt8)
    (written : ℕ) (nonblock signal : Bool) : PipeInode Task :=
  if p.readers = 0 then p.finish t (writtenOr written (-EPIPE)) [] true
  else if signal then p.finish t (writtenOr written (-ERESTARTSYS)) [] false
  else if nonblock then p.finish t (writtenOr written (-EAGAIN)) [] false
  else p.setPhase t (.waitWrite call free rest written)

/-- The head of the copying loop of `pipe_write`.  When it ends with bytes left there is no
byte free, so that the next test of the waiting loop, with `free` 1, holds. -/
def PipeInode.writeLoop (p : PipeInode Task) (t : Task) (call : ℕ) (rest : List UInt8)
    (written : ℕ) (nonblock signal : Bool) : PipeInode Task :=
  if rest ≠ [] ∧ p.free ≠ 0 then
    let chars := min (min p.maxWchunk rest.length) p.free
    { p.setPhase t (.writing call p.pipeEnd chars rest (written + chars)) with
      len := unsigned ((p.len : ℤ) + chars) }
  else if rest = [] then p.release.finish t written [] false
  else p.release.writeBlocked t call 1 rest written nonblock signal

/-- The outer loop of `pipe_write`, from its test to the first chunk. -/
def PipeInode.writeWait (p : PipeInode Task) (t : Task) (call free : ℕ) (rest : List UInt8)
    (written : ℕ) (nonblock signal : Bool) : PipeInode Task :=
  if rest = [] then p.finish t written [] false
  else if p.free < free ∨ p.lock ≠ 0 then
    p.writeBlocked t call free rest written nonblock signal
  else p.take.writeLoop t call rest written nonblock signal

def PipeInode.pipeWrite (p : PipeInode Task) (t : Task) (data : List UInt8)
    (nonblock signal : Bool) : PipeInode Task :=
  let called := { p with writes := p.writes ++ [data] }
  if p.readers = 0 then called.finish t (-EPIPE) [] true
  else
    called.writeWait t p.writes.length (if data.length ≤ pipeBuf then data.length else 1) data 0
      nonblock signal

/-- One byte of `memcpy_tofs` or `memcpy_fromfs`, or the end of the chunk. -/
def PipeInode.copy (p : PipeInode Task) (t : Task) (nonblock signal : Bool) : PipeInode Task :=
  match p.phase t with
  | .reading count _ 0 read got => p.readLoop t count read got
  | .reading count pipebuf (chars + 1) read got =>
    p.setPhase t (.reading count (pipebuf + 1) chars read (got ++ [p.page pipebuf]))
  | .writing call _ 0 rest written => p.writeLoop t call rest written nonblock signal
  | .writing call pipebuf (chars + 1) (b :: rest) written =>
    { p.setPhase t (.writing call (pipebuf + 1) chars rest written) with
      page := Function.update p.page pipebuf b
      stream := p.stream ++ [(call, b)] }
  | _ => p

def PipeInode.wake (p : PipeInode Task) (t : Task) (nonblock signal : Bool) : PipeInode Task :=
  match p.phase t with
  | .waitRead count => p.readWait t count signal
  | .waitWrite call free rest written => p.writeWait t call free rest written nonblock signal
  | _ => p

inductive Event (Task : Type) where
  | read (t : Task) (count : ℕ) (nonblock signal : Bool)
  | write (t : Task) (data : List UInt8) (nonblock signal : Bool)
  | wake (t : Task) (nonblock signal : Bool)
  | copy (t : Task) (nonblock signal : Bool)
  | users (readers writers : ℕ)

def PipeInode.step (p : PipeInode Task) : Event Task → PipeInode Task
  | .read t count nonblock signal =>
    match p.phase t with
    | .idle => p.pipeRead t count nonblock signal
    | _ => p
  | .write t data nonblock signal =>
    match p.phase t with
    | .idle => p.pipeWrite t data nonblock signal
    | _ => p
  | .wake t nonblock signal => p.wake t nonblock signal
  | .copy t nonblock signal => p.copy t nonblock signal
  | .users readers writers => { p with readers := readers, writers := writers }

def PipeInode.run (p : PipeInode Task) (events : List (Event Task)) : PipeInode Task :=
  events.foldl PipeInode.step p

/-- A pipe as `get_pipe_inode` and `fifo_open` leave it, on the page at `base`. -/
def created (base : ℕ) (page : ℕ → UInt8) (readers writers : ℕ) : PipeInode Task where
  base := base
  page := page
  start := 0
  len := 0
  lock := 0
  readers := readers
  writers := writers
  phase := fun _ => .idle
  writes := []
  stream := []
  done := []

end

end LinuxKernel.Pipe
