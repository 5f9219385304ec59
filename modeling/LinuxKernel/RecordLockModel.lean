import Mathlib

/-!
# Record locks: the lock table and `lock_it`

The data model and the functions of `fs/locks.c`.  All `struct file_lock`
entries live in one static table; an entry is on the free list or on the
`i_flock` chain of one inode.  The `fl_next` links are kept as the list of
table entries they spell, every other field is mutated in place through the
entry, so that the pointers `caller`, `left` and `right` of `lock_it` alias
the chain as they do in the source.

An `off_t` is an integer; every sum the source forms passes through `toOffT`,
which wraps to 32 signed bits.
-/

namespace LinuxKernel.RecordLock
open Function

def nrFileLocks : ℕ := 64

def nrOpen : ℕ := 256

abbrev Entry := Fin nrFileLocks

instance : NeZero nrFileLocks := ⟨by decide⟩

abbrev Task := ℕ

def offsetMax : ℤ := 0x7fffffff

def toOffT (x : ℤ) : ℤ := Int.bmod x (2 ^ 32)

def eagain : ℤ := 11
def ebadf : ℤ := 9
def einval : ℤ := 22
def enolck : ℤ := 37
def erestartsys : ℤ := 512

inductive LockType where
  | rdlck
  | wrlck
  | unlck
  | exlck
  | shlck
  deriving DecidableEq, Repr

def LockType.ofShort (lType : ℤ) : Option LockType :=
  if lType = 0 then some .rdlck
  else if lType = 1 then some .wrlck
  else if lType = 2 then some .unlck
  else if lType = 4 then some .exlck
  else if lType = 8 then some .shlck
  else none

/-- `struct file_lock`; `flOwner` is `none` for the `NULL` of a free entry. -/
structure FileLock where
  flOwner : Option Task
  flFd : ℕ
  flType : LockType
  flWhence : ℤ
  flStart : ℤ
  flEnd : ℤ
  deriving DecidableEq

structure Flock where
  lType : ℤ
  lWhence : ℤ
  lStart : Int32
  lLen : Int32

structure Inode where
  ino : ℕ
  isReg : Bool
  iSize : Int32

structure File where
  fMode : ℕ
  fPos : Int32
  fInode : Option Inode

def FileLock.key (fl : FileLock) : Option Task × ℕ := (fl.flOwner, fl.flFd)

def FileLock.Covers (fl : FileLock) (b : ℤ) : Prop := fl.flStart ≤ b ∧ b ≤ fl.flEnd

instance (fl : FileLock) (b : ℤ) : Decidable (fl.Covers b) := inferInstanceAs (Decidable (_ ∧ _))

def copyFlock (current : Task) (filp : File) (l : Flock) (fd : ℕ) : Option FileLock :=
  match filp.fInode with
  | none => none
  | some inode =>
    if ¬ inode.isReg then none
    else
      match LockType.ofShort l.lType with
      | none => none
      | some type =>
        let base : Option ℤ :=
          if l.lWhence = 0 then some 0
          else if l.lWhence = 1 then some filp.fPos.toInt
          else if l.lWhence = 2 then some inode.iSize.toInt
          else none
        match base with
        | none => none
        | some base =>
          let start := toOffT (base + l.lStart.toInt)
          if start < 0 ∨ l.lLen.toInt < 0 then none
          else
            let flEnd := toOffT (toOffT (start + l.lLen.toInt) - 1)
            some {
              flOwner := some current
              flFd := fd
              flType := type
              flWhence := 0
              flStart := start
              flEnd :=
                if l.lLen.toInt = 0 ∨ flEnd < 0 then offsetMax
                else flEnd }

def overlap (fl1 fl2 : FileLock) : Bool :=
  decide (fl2.flStart ≤ fl1.flEnd) && decide (fl1.flStart ≤ fl2.flEnd)

def conflict (callerFl sysFl : FileLock) : Bool :=
  if callerFl.flOwner = sysFl.flOwner ∧ callerFl.flFd = sysFl.flFd then false
  else if ¬ overlap callerFl sysFl then false
  else
    match callerFl.flType with
    | .rdlck => sysFl.flType ≠ .rdlck
    | .wrlck => true
    | _ => false

/-- `file_lock_table`, `file_lock_free_list`, and whether one of the sanity
checks has called `panic`. -/
structure LockHeap where
  table : Entry → FileLock
  freeList : List Entry
  panicked : Bool

def LockHeap.set (h : LockHeap) (a : Entry) (fl : FileLock) : LockHeap :=
  { h with table := update h.table a fl }

/-- `alloc_lock`, up to the insertion of the returned entry into the chain,
which its caller performs at the `before` pointer. -/
def allocLock (current : Task) (h : LockHeap) (fl : FileLock) (fd : ℕ) :
    Option (Entry × LockHeap) :=
  match h.freeList with
  | [] => none
  | tmp :: free =>
    some (tmp, {
      table := update h.table tmp
        { fl with flOwner := some current, flFd := fd }
      freeList := free
      panicked := h.panicked || (h.table tmp).flOwner.isSome })

def freeLock (h : LockHeap) (a : Entry) : LockHeap :=
  { table := update h.table a
      { h.table a with flOwner := none }
    freeList := a :: h.freeList
    panicked := h.panicked || (h.table a).flOwner.isNone }

/-- The variables of `lock_it`.  `before` spells the chain up to the pointer
of that name; `fileLock` is the request on the stack of `fcntl_setlk`, which
`caller` points to while it is `none`. -/
structure Scan where
  heap : LockHeap
  before : List Entry
  fileLock : FileLock
  caller : Option Entry
  left : Option Entry
  right : Option Entry
  added : Bool

def Scan.callerLock (s : Scan) : FileLock :=
  match s.caller with
  | none => s.fileLock
  | some c => s.heap.table c

/-- Assignments through a pointer to a table entry, and through `caller`. -/
def Scan.setEntry (s : Scan) (a : Entry) (fl : FileLock) : Scan :=
  { s with heap := s.heap.set a fl }

def Scan.setCaller (s : Scan) (fl : FileLock) : Scan :=
  match s.caller with
  | none => { s with fileLock := fl }
  | some c => { s with heap := s.heap.set c fl }

def Scan.nextLock (s : Scan) (a : Entry) : Scan := { s with before := s.before ++ [a] }

def Scan.freeHead (s : Scan) (a : Entry) : Scan := { s with heap := freeLock s.heap a }

/-- Make one lock of the entry and the caller's: first the start addresses,
then the end addresses, each written into the one that has to move. -/
def Scan.mergeStart (s : Scan) (a : Entry) : Scan :=
  let fl := s.heap.table a
  let c := s.callerLock
  if c.flStart < fl.flStart then
    s.setEntry a { fl with flStart := c.flStart }
  else s.setCaller { c with flStart := fl.flStart }

def Scan.mergeEnd (s : Scan) (a : Entry) : Scan :=
  let fl := s.heap.table a
  let c := s.callerLock
  if fl.flEnd < c.flEnd then
    s.setEntry a { fl with flEnd := c.flEnd }
  else s.setCaller { c with flEnd := fl.flEnd }

/-- An overlap with an entry of another type: an unlock has found something
to do, and an entry that starts earlier is the `left` one. -/
def Scan.mark (s : Scan) (a : Entry) : Scan :=
  { s with
    added := s.added || decide (s.callerLock.flType = .unlck)
    left :=
      if (s.heap.table a).flStart < s.callerLock.flStart then some a
      else s.left }

def Scan.replaceEntry (s : Scan) (a : Entry) : Scan :=
  let c := s.callerLock
  { s.setEntry a { s.heap.table a with
      flStart := c.flStart, flEnd := c.flEnd, flType := c.flType } with
    caller := some a
    added := true }

/-- The second `while` loop of `lock_it`: the list is the chain from
`*before` on, the result holds what is left of it where the loop ends. -/
def Scan.run (s : Scan) : List Entry → Scan × List Entry
  | [] => (s, [])
  | a :: rest =>
    let fl := s.heap.table a
    let c := s.callerLock
    if ¬ (c.flOwner = fl.flOwner ∧ c.flFd = fl.flFd) then (s, a :: rest)
    else if c.flType = fl.flType then
      if fl.flEnd < toOffT (c.flStart - 1) then (s.nextLock a).run rest
      else if toOffT (c.flEnd + 1) < fl.flStart then (s, a :: rest)
      else
        let s := (s.mergeStart a).mergeEnd a
        if s.added then (s.freeHead a).run rest
        else
          ({ s with caller := some a, added := true }.nextLock a).run rest
    else if fl.flEnd < c.flStart then (s.nextLock a).run rest
    else if c.flEnd < fl.flStart then (s, a :: rest)
    else
      let s := s.mark a
      if c.flEnd < fl.flEnd then ({ s with right := some a }, a :: rest)
      else if c.flStart ≤ fl.flStart then
        if s.added then (s.freeHead a).run rest
        else ((s.replaceEntry a).nextLock a).run rest
      else (s.nextLock a).run rest

/-- The result of `lock_it`: the returned value, the table and the chain. -/
structure LockResult where
  ret : ℤ
  heap : LockHeap
  chain : List Entry

def Scan.trimLeft (s : Scan) : LockHeap :=
  match s.left with
  | none => s.heap
  | some l =>
    s.heap.set l { s.heap.table l with
      flEnd := toOffT (s.callerLock.flStart - 1) }

def Scan.trimRight (s : Scan) (r : Entry) : Scan :=
  s.setEntry r { s.heap.table r with
    flStart := toOffT (s.callerLock.flEnd + 1) }

/-- The end of `lock_it` once `caller` is on the chain (or an unlock): trim
the old locks on both sides.  `rest` starts at `*before`. -/
def Scan.trim (current : Task) (fd : ℕ) (s : Scan) (rest : List Entry) : LockResult :=
  match s.right with
  | none => ⟨0, s.trimLeft, s.before ++ rest⟩
  | some r =>
    if s.left = some r then
      match allocLock current s.heap (s.heap.table r) fd with
      | none =>
        if s.added then ⟨-enolck, s.heap, s.before ++ rest⟩
        else
          match rest with
          | [] => ⟨-enolck, s.heap, s.before⟩
          | a :: rest => ⟨-enolck, freeLock s.heap a, s.before ++ rest⟩
      | some (l, heap) =>
        let s := { s with heap := heap, left := some l }
        ⟨0, (s.trimRight r).trimLeft, s.before ++ l :: rest⟩
    else ⟨0, (s.trimRight r).trimLeft, s.before ++ rest⟩

def Scan.finish (current : Task) (fd : ℕ) (s : Scan) (rest : List Entry) : LockResult :=
  if s.added then s.trim current fd rest
  else if s.callerLock.flType = .unlck then
    ⟨-einval, s.heap, s.before ++ rest⟩
  else
    match allocLock current s.heap s.callerLock fd with
    | none => ⟨-enolck, s.heap, s.before ++ rest⟩
    | some (tmp, heap) =>
      Scan.trim current fd { s with heap := heap, caller := some tmp }
        (tmp :: rest)

def skipOthers (h : LockHeap) (caller : FileLock) (chain : List Entry) : List Entry × List Entry :=
  chain.span fun a =>
    ¬ (caller.flOwner = (h.table a).flOwner ∧ caller.flFd = (h.table a).flFd)

def lockIt (current : Task) (h : LockHeap) (chain : List Entry)
    (caller : FileLock) (fd : ℕ) : LockResult :=
  let (before, rest) := skipOthers h caller chain
  let (s, rest) := Scan.run {
    heap := h
    before := before
    fileLock := caller
    caller := none
    left := none
    right := none
    added := false } rest
  s.finish current fd rest

/-! ## The system calls -/

inductive SetlkCmd where
  | setlk
  | setlkw
  deriving DecidableEq

/-- A process asleep in `interruptible_sleep_on` inside `fcntl_setlk`. -/
structure Waiter where
  fd : ℕ
  ino : ℕ
  fileLock : FileLock

/-- The lock table, the `i_flock` chain of every inode and the sleepers. -/
structure LockSystem where
  heap : LockHeap
  iFlock : ℕ → List Entry
  waiting : Task → Option Waiter

def LockSystem.init : LockSystem where
  heap := {
    table := fun _ => ⟨none, 0, .rdlck, 0, 0, 0⟩
    freeList := List.finRange nrFileLocks
    panicked := false }
  iFlock := fun _ => []
  waiting := fun _ => none

def LockSystem.setWaiting (sys : LockSystem) (current : Task)
    (w : Option Waiter) : LockSystem :=
  { sys with waiting := update sys.waiting current w }

def LockSystem.setChain (sys : LockSystem) (ino : ℕ) (heap : LockHeap)
    (chain : List Entry) : LockSystem :=
  { sys with heap := heap, iFlock := update sys.iFlock ino chain }

/-- `fcntl_setlk` from its label `repeat` on.  The result is `none` when the
process goes to sleep; `signal` is `current->signal & ~current->blocked`. -/
def LockSystem.setlkRepeat (sys : LockSystem) (current : Task) (fd ino : ℕ)
    (cmd : SetlkCmd) (fileLock : FileLock) (signal : Bool) :
    LockSystem × Option ℤ :=
  if fileLock.flType ≠ .unlck ∧
      (sys.iFlock ino).any (fun a => conflict fileLock (sys.heap.table a)) then
    match cmd with
    | .setlk => (sys, some (-eagain))
    | .setlkw =>
      if signal then (sys, some (-erestartsys))
      else (sys.setWaiting current (some ⟨fd, ino, fileLock⟩), none)
  else
    let res := lockIt current sys.heap (sys.iFlock ino) fileLock fd
    (sys.setChain ino res.heap res.chain, some res.ret)

def checkMode (fMode : ℕ) (fl : FileLock) : Option FileLock :=
  match fl.flType with
  | .rdlck => if fMode &&& 1 = 0 then none else some fl
  | .wrlck => if fMode &&& 2 = 0 then none else some fl
  | .shlck => if fMode &&& 3 = 0 then none else some { fl with flType := .rdlck }
  | .exlck => if fMode &&& 3 = 0 then none else some { fl with flType := .wrlck }
  | .unlck => some fl

def LockSystem.fcntlSetlk (sys : LockSystem) (current : Task) (fd : ℕ)
    (filp : Option File) (cmd : SetlkCmd) (verify : ℤ) (flock : Flock)
    (signal : Bool) : LockSystem × Option ℤ :=
  match filp with
  | none => (sys, some (-ebadf))
  | some filp =>
    if nrOpen ≤ fd then (sys, some (-ebadf))
    else if verify ≠ 0 then (sys, some verify)
    else
      match filp.fInode, copyFlock current filp flock fd with
      | some inode, some fileLock =>
        match checkMode filp.fMode fileLock with
        | none => (sys, some (-ebadf))
        | some fileLock =>
          sys.setlkRepeat current fd inode.ino cmd fileLock signal
      | _, _ => (sys, some (-einval))

def LockSystem.wakeUp (sys : LockSystem) (current : Task)
    (signal signal' : Bool) : LockSystem × Option ℤ :=
  match sys.waiting current with
  | none => (sys, none)
  | some w =>
    let sys := sys.setWaiting current none
    if signal then (sys, some (-erestartsys))
    else sys.setlkRepeat current w.fd w.ino .setlkw w.fileLock signal'

def freeRun (task : Task) (fd : ℕ) (h : LockHeap) : List Entry → LockHeap × List Entry
  | [] => (h, [])
  | a :: rest =>
    if some task = (h.table a).flOwner ∧ fd = (h.table a).flFd then
      freeRun task fd (freeLock h a) rest
    else (h, a :: rest)

def LockSystem.fcntlRemoveLocks (sys : LockSystem) (task : Task)
    (ino fd : ℕ) : LockSystem :=
  let (before, rest) := (sys.iFlock ino).span fun a =>
    ¬ (some task = (sys.heap.table a).flOwner ∧ fd = (sys.heap.table a).flFd)
  let (heap, rest) := freeRun task fd sys.heap rest
  sys.setChain ino heap (before ++ rest)

inductive LockEvent where
  | setlk (current : Task) (fd : ℕ) (filp : Option File) (cmd : SetlkCmd)
      (verify : ℤ) (flock : Flock) (signal : Bool)
  | wakeUp (current : Task) (signal signal' : Bool)
  | removeLocks (task : Task) (ino fd : ℕ)

def LockSystem.step (sys : LockSystem) : LockEvent → LockSystem
  | .setlk current fd filp cmd verify flock signal =>
    (sys.fcntlSetlk current fd filp cmd verify flock signal).1
  | .wakeUp current signal signal' => (sys.wakeUp current signal signal').1
  | .removeLocks task ino fd => sys.fcntlRemoveLocks task ino fd

def LockSystem.run (sys : LockSystem) (events : List LockEvent) : LockSystem :=
  events.foldl LockSystem.step sys

end LinuxKernel.RecordLock
