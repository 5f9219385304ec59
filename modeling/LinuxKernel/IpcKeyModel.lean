import Mathlib.Data.Fintype.Basic

/-!
# Finding and creating System V objects by key

`findkey`, the creation of an object and its removal, which `ipc/sem.c`,
`ipc/msg.c` and `ipc/shm.c` share up to names.  A `Family` holds what differs.

A call sleeps in `findkey` on a slot that is reserved, and in `kmalloc` after it
has reserved a slot itself; `newseg` calls `kmalloc` twice.  Permissions, the
system-wide limits, whether a segment is attached and what `kmalloc` returns
come with the events.  A task that sleeps in `findkey` may run again at any time.
-/

namespace LinuxKernel.IpcKey
open Function

def ipcPrivate : ℤ := 0

inductive Kind where
  | sem
  | msg
  | shm
  deriving DecidableEq

structure Family where
  mni : ℕ
  /-- The largest size the call accepts; `sys_msgget` has no size. -/
  maxSize : ℕ
  minSize : ℕ
  allocs : ℕ

/-- `SEMMNI` and `SEMMSL`; `newary` refuses a set without semaphores. -/
def semFamily : Family := { mni := 128, maxSize := 32, minSize := 1, allocs := 1 }

def msgFamily : Family := { mni := 128, maxSize := 0, minSize := 0, allocs := 1 }

def shmFamily : Family := { mni := 128, maxSize := 0x3fa000, minSize := 1, allocs := 2 }

def family : Kind → Family
  | .sem => semFamily
  | .msg => msgFamily
  | .shm => shmFamily

/-- What the calls read of `semid_ds`, `msqid_ds` and `shmid_ds`.  `size` is
`sem_nsems` or `shm_segsz`, `dest` the bit `SHM_DEST`. -/
structure Object where
  key : ℤ
  seq : ℕ
  size : ℕ
  dest : Bool
  deriving DecidableEq

inductive Slot where
  | unused
  | noid
  | object (o : Object)
  deriving DecidableEq

structure Table where
  slots : ℕ → Slot
  maxId : ℕ
  seq : ℕ

inductive Call where
  | finding (key : ℤ) (size : ℕ) (creat excl : Bool) (id : ℕ)
  | creating (key : ℤ) (size : ℕ) (id : ℕ) (left : ℕ)
  deriving DecidableEq

structure Ipc (Task : Type) where
  table : Kind → Table
  calls : Task → Option (Kind × Call)

inductive Outcome where
  | returned (value : ℤ)
  | asleep
  | none
  deriving DecidableEq

def enoent : ℤ := 2
def eperm : ℤ := 1
def enomem : ℤ := 12
def eacces : ℤ := 13
def eexist : ℤ := 17
def einval : ℤ := 22
def enospc : ℤ := 28
def eidrm : ℤ := 43

inductive Find where
  | absent
  | found (id : ℕ)
  | asleep (id : ℕ)
  deriving DecidableEq

def findkey (slots : ℕ → Slot) (key : ℤ) : ℕ → ℕ → Find
  | _, 0 => .absent
  | id, left + 1 =>
    match slots id with
    | .noid => .asleep id
    | .unused => findkey slots key (id + 1) left
    | .object o => if key = o.key then .found id else findkey slots key (id + 1) left

def Table.findkey (tb : Table) (key : ℤ) (id : ℕ) : Find :=
  IpcKey.findkey tb.slots key id (tb.maxId + 1 - id)

/-- The loop of `freeary`, `freeque` and `killseg` that lowers the maximum. -/
def lowerMax (slots : ℕ → Slot) : ℕ → ℕ
  | 0 => 0
  | m + 1 => if slots m = .unused then lowerMax slots m else m

def Table.free (tb : Table) (id : ℕ) : Table where
  slots := update tb.slots id .unused
  maxId := if id = tb.maxId then lowerMax tb.slots tb.maxId else tb.maxId
  seq := (tb.seq + 1) % 65536

variable {Task : Type} [DecidableEq Task]

def Ipc.setTable (s : Ipc Task) (k : Kind) (tb : Table) : Ipc Task :=
  { s with table := update s.table k tb }

def Ipc.setSlot (s : Ipc Task) (k : Kind) (id : ℕ) (slot : Slot) : Ipc Task :=
  s.setTable k { s.table k with slots := update (s.table k).slots id slot }

def Ipc.setCall (s : Ipc Task) (t : Task) (call : Option (Kind × Call)) : Ipc Task :=
  { s with calls := update s.calls t call }

def Table.firstUnused (tb : Table) (mni : ℕ) : Option ℕ :=
  (List.range mni).find? fun id => tb.slots id = .unused

def Ipc.newObject (s : Ipc Task) (k : Kind) (t : Task) (key : ℤ) (size : ℕ) (noSpace : Bool) :
    Ipc Task × Outcome :=
  if size < (family k).minSize then (s.setCall t none, .returned (-einval))
  else if noSpace then (s.setCall t none, .returned (-enospc))
  else
    match (s.table k).firstUnused (family k).mni with
    | none => (s.setCall t none, .returned (-enospc))
    | some id =>
      ((s.setSlot k id .noid).setCall t (some (k, .creating key size id (family k).allocs)),
        .asleep)

/-- The part of `sys_semget`, `sys_msgget` and `sys_shmget` from `findkey` on. -/
def Ipc.lookup (s : Ipc Task) (k : Kind) (t : Task) (key : ℤ) (size : ℕ) (creat excl : Bool)
    (id : ℕ) (permitted noSpace : Bool) : Ipc Task × Outcome :=
  match (s.table k).findkey key id with
  | .asleep id' => (s.setCall t (some (k, .finding key size creat excl id')), .asleep)
  | .absent =>
    if creat then s.newObject k t key size noSpace
    else (s.setCall t none, .returned (-enoent))
  | .found id' =>
    match (s.table k).slots id' with
    | .object o =>
      if creat ∧ excl then (s.setCall t none, .returned (-eexist))
      else if o.dest then (s.setCall t none, .returned (-eidrm))
      else if o.size < size then (s.setCall t none, .returned (-einval))
      else if ¬permitted then (s.setCall t none, .returned (-eacces))
      else (s.setCall t none, .returned (o.seq * (family k).mni + id' : ℕ))
    | _ => (s.setCall t none, .returned (-eidrm))

/-- The object is in place: the end of `newary`, `newque` and `newseg`. -/
def Ipc.fill (s : Ipc Task) (k : Kind) (t : Task) (key : ℤ) (size id : ℕ) : Ipc Task × Outcome :=
  let tb := s.table k
  ((s.setTable k
    { tb with
      slots := update tb.slots id
        (.object { key := key, seq := tb.seq, size := size, dest := false })
      maxId := max tb.maxId id }).setCall t none,
    .returned (tb.seq * (family k).mni + id : ℕ))

inductive Event (Task : Type) where
  | get (k : Kind) (t : Task) (key : ℤ) (size : ℕ) (creat excl permitted noSpace : Bool)
  | look (t : Task) (permitted noSpace : Bool)
  | alloc (t : Task) (memory : Bool)
  | rmid (k : Kind) (ident : ℕ) (permitted attached : Bool)
  | lastDetach (id : ℕ)

def Ipc.get (s : Ipc Task) (k : Kind) (t : Task) (key : ℤ) (size : ℕ)
    (creat excl permitted noSpace : Bool) : Ipc Task × Outcome :=
  if (family k).maxSize < size then (s, .returned (-einval))
  else if key = ipcPrivate then s.newObject k t key size noSpace
  else s.lookup k t key size creat excl 0 permitted noSpace

def Ipc.alloc (s : Ipc Task) (t : Task) (memory : Bool) : Ipc Task × Outcome :=
  match s.calls t with
  | some (k, .creating key size id left) =>
    if memory then
      if 1 < left then
        (s.setCall t (some (k, .creating key size id (left - 1))), .asleep)
      else s.fill k t key size id
    else ((s.setSlot k id .unused).setCall t none, .returned (-enomem))
  | _ => (s, .none)

def Ipc.rmid (s : Ipc Task) (k : Kind) (ident : ℕ) (permitted attached : Bool) :
    Ipc Task × Outcome :=
  let id := ident % (family k).mni
  match (s.table k).slots id with
  | .object o =>
    if o.seq ≠ ident / (family k).mni then (s, .returned (-eidrm))
    else if ¬permitted then (s, .returned (-eperm))
    else if k = .shm ∧ attached then
      (s.setSlot k id (.object { o with dest := true }), .returned 0)
    else (s.setTable k ((s.table k).free id), .returned 0)
  | _ => (s, .returned (-einval))

/-- The last attachment of a segment goes; `killseg` if it is marked. -/
def Ipc.lastDetach (s : Ipc Task) (id : ℕ) : Ipc Task × Outcome :=
  match (s.table .shm).slots id with
  | .object o => if o.dest then (s.setTable .shm ((s.table .shm).free id), .none) else (s, .none)
  | _ => (s, .none)

def Ipc.step (s : Ipc Task) : Event Task → Ipc Task × Outcome
  | .get k t key size creat excl permitted noSpace =>
    if (s.calls t).isSome then (s, .none)
    else s.get k t key size creat excl permitted noSpace
  | .look t permitted noSpace =>
    match s.calls t with
    | some (k, .finding key size creat excl id) =>
      s.lookup k t key size creat excl id permitted noSpace
    | _ => (s, .none)
  | .alloc t memory => s.alloc t memory
  | .rmid k ident permitted attached => s.rmid k ident permitted attached
  | .lastDetach id => s.lastDetach id

def Ipc.run (s : Ipc Task) : List (Event Task) → Ipc Task
  | [] => s
  | e :: es => (s.step e).1.run es

def Ipc.init : Ipc Task where
  table := fun _ => { slots := fun _ => .unused, maxId := 0, seq := 0 }
  calls := fun _ => none

end LinuxKernel.IpcKey
