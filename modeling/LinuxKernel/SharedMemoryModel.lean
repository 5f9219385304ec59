import Mathlib.Data.Fintype.Basic

/-!
# Attaching System V shared memory

`newseg`, `killseg`, `sys_shmat`, `detach`, `sys_shmdt`, `shm_exit`, `shm_fork` and
the `IPC_RMID` command of `sys_shmctl` in `ipc/shm.c`.  Segments and attach
descriptors live at addresses; the list of a task and the list of a segment are
lists of descriptors.  What happens to the page tables comes with the events, as
far as it decides whether `shm_map` fails.

A call sleeps in `kmalloc`, in `shm_map`, in `unmap_page_range` and in `killseg`,
and what it has in local variables then is a `Sleep`.  A sleeping task may run
again at any time.  Memory that is freed is not used again.
-/

namespace LinuxKernel.SharedMemory
open Function

def shmmni : ℕ := 128

def shmmin : ℤ := 1

def shmall : ℤ := 4194304

def pageSize : ℕ := 4096

def shmRangeStart : UInt32 := 0x40000000

def shmRangeEnd : UInt32 := 0x60000000

def shmlba : UInt32 := 0x1000

/-- `struct shmid_ds`; `dest` is the flag `SHM_DEST` of the mode. -/
structure ShmidDs where
  seq : ℕ
  dest : Bool
  shmSegsz : ℕ
  shmNpages : ℕ
  shmNattch : ℤ
  attaches : List ℕ

/-- `struct shm_desc`; `id` and `readOnly` are what `shm_sgn` says. -/
structure ShmDesc (Task : Type) where
  task : Task
  id : ℕ
  readOnly : Bool
  start : UInt32
  stop : UInt32

inductive Slot where
  | unused
  | noid
  | seg (shp : ℕ)
  deriving DecidableEq

/-- What follows when `detach` or `killseg` is over: a call returns, `shm_exit`
goes on. -/
inductive After where
  | returns (value : ℤ)
  | exec
  | exit

inductive Sleep (Task : Type) where
  | newseg (id size : ℕ) (second : Bool)
  | shmat (shp id shmid : ℕ) (addr : UInt32) (readOnly : Bool)
  | shmMap (shmd shp id : ℕ)
  | detach (shmd shp id : ℕ) (after : After)
  | killseg (shp : ℕ) (after : After)
  | shmFork (child : Task) (shmd newDesc : List ℕ)

inductive TaskState where
  | free
  | embryo
  | running
  deriving DecidableEq

structure Shm (Task : Type) where
  shmSegs : ℕ → Slot
  segs : ℕ → ShmidDs
  descs : ℕ → ShmDesc Task
  shm : Task → List ℕ
  shmTot : ℤ
  shmSeq : ℕ
  nextSeg : ℕ
  nextDesc : ℕ
  tasks : Task → TaskState
  sleep : Task → Option (Sleep Task)

inductive Outcome where
  | returned (value : ℤ)
  | asleep
  | none
  deriving DecidableEq

def eperm : ℤ := 1
def enomem : ℤ := 12
def eacces : ℤ := 13
def einval : ℤ := 22
def enospc : ℤ := 28
def eidrm : ℤ := 43

def short (n : ℤ) : ℤ := n.bmod 65536

variable {Task : Type}

def Shm.setSeg (s : Shm Task) (shp : ℕ) (ds : ShmidDs) : Shm Task :=
  { s with segs := update s.segs shp ds }

def Shm.newDesc (s : Shm Task) (d : ShmDesc Task) : Shm Task :=
  { s with
    descs := update s.descs s.nextDesc d
    nextDesc := s.nextDesc + 1 }

section Calls

variable [DecidableEq Task]

def Shm.setSleep (s : Shm Task) (t : Task) (w : Option (Sleep Task)) : Shm Task :=
  { s with sleep := update s.sleep t w }

def Shm.setList (s : Shm Task) (t : Task) (l : List ℕ) : Shm Task :=
  { s with shm := update s.shm t l }

def Shm.setTask (s : Shm Task) (t : Task) (w : TaskState) : Shm Task :=
  { s with tasks := update s.tasks t w }

def Shm.newseg (s : Shm Task) (t : Task) (size : ℤ) : Shm Task × Outcome :=
  let numpages := (size + pageSize - 1) / pageSize
  if size < shmmin then (s, .returned (-einval))
  else if shmall ≤ s.shmTot + numpages then (s, .returned (-enospc))
  else
    match (List.range shmmni).find? fun id => s.shmSegs id = .unused with
    | none => (s, .returned (-enospc))
    | some id =>
      ({ s with shmSegs := update s.shmSegs id .noid }.setSleep t
        (some (.newseg id size.toNat false)), .asleep)

def Shm.newsegAlloc (s : Shm Task) (t : Task) (id size : ℕ) (second memory : Bool) :
    Shm Task × Outcome :=
  if ¬memory then
    ({ s with shmSegs := update s.shmSegs id .unused }.setSleep t none, .returned (-enomem))
  else if ¬second then (s.setSleep t (some (.newseg id size true)), .asleep)
  else
    let numpages := (size + pageSize - 1) / pageSize
    let ds : ShmidDs :=
      { seq := s.shmSeq
        dest := false
        shmSegsz := size
        shmNpages := numpages
        shmNattch := 0
        attaches := [] }
    ({ s with
        segs := update s.segs s.nextSeg ds
        shmSegs := update s.shmSegs id (.seg s.nextSeg)
        shmTot := s.shmTot + numpages
        nextSeg := s.nextSeg + 1 }.setSleep t none, .returned (id + s.shmSeq * shmmni : ℕ))

def Shm.killseg (s : Shm Task) (id shp : ℕ) : Shm Task :=
  { s.setSeg shp { s.segs shp with seq := ((s.segs shp).seq + 1) % 65536 } with
    shmSegs := update s.shmSegs id .unused
    shmSeq := (s.shmSeq + 1) % 65536 }

def Shm.decNattch (s : Shm Task) (shp : ℕ) : Shm Task :=
  s.setSeg shp { s.segs shp with shmNattch := short ((s.segs shp).shmNattch - 1) }

def Shm.incNattch (s : Shm Task) (shp : ℕ) : Shm Task :=
  s.setSeg shp { s.segs shp with shmNattch := short ((s.segs shp).shmNattch + 1) }

def Shm.lowest (s : Shm Task) : List ℕ → UInt32 → UInt32
  | [], addr => addr
  | shmd :: l, addr =>
    let start := (s.descs shmd).start
    if start < shmRangeStart then s.lowest l addr
    else if start ≤ addr then s.lowest l start
    else s.lowest l addr

/-- The address `sys_shmat` takes; `none` if it returns `EINVAL`. -/
def Shm.shmatAddr (s : Shm Task) (t : Task) (ds : ShmidDs) (shmaddr : UInt32)
    (rnd remap : Bool) : Option UInt32 :=
  if shmaddr = 0 then
    if remap then none
    else some ((s.lowest (s.shm t) shmRangeEnd - UInt32.ofNat ds.shmSegsz) &&& 0xfffff000)
  else if shmaddr &&& (shmlba - 1) ≠ 0 then
    if rnd then some (shmaddr &&& 0xfffff000) else none
  else some shmaddr

def remapMeets {Task : Type} (addr : UInt32) (segsz : ℕ) (d : ShmDesc Task) : Bool :=
  (d.start ≤ addr && addr < d.stop) ||
    (d.start ≤ addr + UInt32.ofNat segsz && addr + UInt32.ofNat segsz < d.stop)

def Shm.shmat (s : Shm Task) (t : Task) (shmid : ℕ) (shmaddr : UInt32)
    (readOnly rnd remap permitted : Bool) (startStack : UInt32) : Shm Task × Outcome :=
  match s.shmSegs (shmid % shmmni) with
  | .unused => (s, .returned (-einval))
  | .noid => (s, .returned (-einval))
  | .seg shp =>
    let ds := s.segs shp
    match s.shmatAddr t ds shmaddr rnd remap with
    | none => (s, .returned (-einval))
    | some addr =>
      if startStack - 16384 - UInt32.ofNat (pageSize * ds.shmNpages) < addr then
        (s, .returned (-einval))
      else if remap ∧ (s.shm t).any (fun d => remapMeets addr ds.shmSegsz (s.descs d)) then
        (s, .returned (-einval))
      else if ¬permitted then (s, .returned (-eacces))
      else if ds.seq ≠ shmid / shmmni then (s, .returned (-eidrm))
      else
        (s.setSleep t (some (.shmat shp (shmid % shmmni) shmid addr readOnly)), .asleep)

def Shm.shmatAlloc (s : Shm Task) (t : Task) (shp id shmid : ℕ) (addr : UInt32)
    (readOnly memory : Bool) : Shm Task × Outcome :=
  if ¬memory then (s.setSleep t none, .returned (-enomem))
  else if s.shmSegs id ≠ .seg shp ∨ (s.segs shp).seq ≠ shmid / shmmni then
    (s.setSleep t none, .returned (-eidrm))
  else
    let d : ShmDesc Task :=
      { task := t
        id := id
        readOnly := readOnly
        start := addr
        stop := addr + UInt32.ofNat ((s.segs shp).shmNpages * pageSize) }
    (((s.newDesc d).incNattch shp).setSleep t (some (.shmMap s.nextDesc shp id)), .asleep)

def Shm.dies (s : Shm Task) (shp : ℕ) : Bool := (s.segs shp).shmNattch ≤ 0 ∧ (s.segs shp).dest

def Shm.shmatMapped (s : Shm Task) (t : Task) (shmd shp id : ℕ) (ok : Bool) (err : ℤ) :
    Shm Task × Outcome :=
  if ok then
    ((s.setList t (shmd :: s.shm t)).setSeg shp
        { s.segs shp with attaches := shmd :: (s.segs shp).attaches } |>.setSleep t none,
      .returned (s.descs shmd).start.toNat)
  else
    let s1 := s.decNattch shp
    if s1.dies shp then
      ((s1.killseg id shp).setSleep t (some (.killseg shp (.returns err))), .asleep)
    else (s1.setSleep t none, .returned err)

/-! ## Detaching -/

/-- `detach` until `unmap_page_range`.  A slot without a segment would be a wild
pointer here. -/
def Shm.detach (s : Shm Task) (t : Task) (shmd : ℕ) (rest : List ℕ) (after : After) :
    Shm Task × Outcome :=
  let id := (s.descs shmd).id
  match s.shmSegs id with
  | .seg shp =>
    ((s.setList t rest).setSeg shp
        { s.segs shp with attaches := (s.segs shp).attaches.erase shmd } |>.setSleep t
          (some (.detach shmd shp id after)), .asleep)
  | _ => (s, .none)

def Shm.shmExit (s : Shm Task) (t : Task) (after : After) : Shm Task × Outcome :=
  match after with
  | .returns value => (s.setSleep t none, .returned value)
  | .exec =>
    match s.shm t with
    | [] => (s.setSleep t none, .returned 0)
    | shmd :: rest => s.detach t shmd rest .exec
  | .exit =>
    match s.shm t with
    | [] => ((s.setTask t .free).setSleep t none, .none)
    | shmd :: rest => s.detach t shmd rest .exit

def Shm.detached (s : Shm Task) (t : Task) (shp id : ℕ) (after : After) : Shm Task × Outcome :=
  let s1 := s.decNattch shp
  if s1.dies shp then ((s1.killseg id shp).setSleep t (some (.killseg shp after)), .asleep)
  else s1.shmExit t after

def Shm.killed (s : Shm Task) (t : Task) (shp : ℕ) (after : After) : Shm Task × Outcome :=
  { s with shmTot := s.shmTot - (s.segs shp).shmNpages }.shmExit t after

def Shm.shmdt (s : Shm Task) (t : Task) (shmaddr : UInt32) : Shm Task × Outcome :=
  match (s.shm t).find? fun d => (s.descs d).start = shmaddr with
  | none => (s, .returned (-einval))
  | some shmd =>
    s.detach t shmd ((s.shm t).eraseP fun d => (s.descs d).start = shmaddr) (.returns 0)

def Shm.rmid (s : Shm Task) (t : Task) (shmid : ℕ) (permitted : Bool) : Shm Task × Outcome :=
  match s.shmSegs (shmid % shmmni) with
  | .unused => (s, .returned (-einval))
  | .noid => (s, .returned (-einval))
  | .seg shp =>
    if (s.segs shp).seq ≠ shmid / shmmni then (s, .returned (-eidrm))
    else if ¬permitted then (s, .returned (-eperm))
    else
      let s1 := s.setSeg shp { s.segs shp with dest := true }
      if (s1.segs shp).shmNattch ≤ 0 then
        ((s1.killseg (shmid % shmmni) shp).setSleep t (some (.killseg shp (.returns 0))), .asleep)
      else (s1, .returned 0)

def Shm.forkAttach (s : Shm Task) : List ℕ → Shm Task × Bool
  | [] => (s, true)
  | shmd :: l =>
    match s.shmSegs (s.descs shmd).id with
    | .seg shp =>
      (s.setSeg shp
        { s.segs shp with
          attaches := shmd :: (s.segs shp).attaches
          shmNattch := short ((s.segs shp).shmNattch + 1) }).forkAttach l
    | _ => (s, false)

def Shm.forkEnd (s : Shm Task) (t child : Task) (newDesc : List ℕ) : Shm Task × Outcome :=
  let r := (s.setList child newDesc).forkAttach newDesc
  if r.2 then ((r.1.setTask child .running).setSleep t none, .returned 0)
  else (((r.1.setList child []).setTask child .free).setSleep t none, .returned (-enomem))

def Shm.fork (s : Shm Task) (t child : Task) : Shm Task × Outcome :=
  if s.tasks child ≠ .free then (s, .none)
  else if s.shm t = [] then ((s.setList child []).setTask child .running, .returned 0)
  else
    (((s.setList child []).setTask child .embryo).setSleep t (some (.shmFork child (s.shm t) [])),
      .asleep)

def Shm.forkAlloc (s : Shm Task) (t child : Task) (shmd newDesc : List ℕ) (memory : Bool) :
    Shm Task × Outcome :=
  if ¬memory then ((s.setTask child .free).setSleep t none, .returned (-enomem))
  else
    match shmd with
    | [] => s.forkEnd t child newDesc
    | d :: rest =>
      let s1 := s.newDesc { s.descs d with task := child }
      if rest = [] then s1.forkEnd t child (s.nextDesc :: newDesc)
      else (s1.setSleep t (some (.shmFork child rest (s.nextDesc :: newDesc))), .asleep)

inductive Event (Task : Type) where
  | newseg (t : Task) (size : ℤ)
  | shmat (t : Task) (shmid : ℕ) (shmaddr : UInt32) (readOnly rnd remap permitted : Bool)
      (startStack : UInt32)
  | shmdt (t : Task) (shmaddr : UInt32)
  | exec (t : Task)
  | exit (t : Task)
  | fork (t child : Task)
  | rmid (t : Task) (shmid : ℕ) (permitted : Bool)
  /-- A sleeping task runs again; `ok` says whether `kmalloc` or `shm_map` succeeds,
  and `err` is what `shm_map` returns if it fails. -/
  | wake (t : Task) (ok : Bool) (err : ℤ)

def Shm.wake (s : Shm Task) (t : Task) (ok : Bool) (err : ℤ) : Shm Task × Outcome :=
  match s.sleep t with
  | none => (s, .none)
  | some (.newseg id size second) => s.newsegAlloc t id size second ok
  | some (.shmat shp id shmid addr readOnly) => s.shmatAlloc t shp id shmid addr readOnly ok
  | some (.shmMap shmd shp id) => s.shmatMapped t shmd shp id ok err
  | some (.detach _ shp id after) => s.detached t shp id after
  | some (.killseg shp after) => s.killed t shp after
  | some (.shmFork child shmd newDesc) => s.forkAlloc t child shmd newDesc ok

def Shm.idle (s : Shm Task) (t : Task) : Bool := s.tasks t = .running ∧ (s.sleep t).isNone

def Shm.step (s : Shm Task) : Event Task → Shm Task × Outcome
  | .newseg t size => if s.idle t then s.newseg t size else (s, .none)
  | .shmat t shmid shmaddr readOnly rnd remap permitted startStack =>
    if s.idle t then s.shmat t shmid shmaddr readOnly rnd remap permitted startStack
    else (s, .none)
  | .shmdt t shmaddr => if s.idle t then s.shmdt t shmaddr else (s, .none)
  | .exec t => if s.idle t then s.shmExit t .exec else (s, .none)
  | .exit t => if s.idle t then s.shmExit t .exit else (s, .none)
  | .fork t child => if s.idle t then s.fork t child else (s, .none)
  | .rmid t shmid permitted => if s.idle t then s.rmid t shmid permitted else (s, .none)
  | .wake t ok err => s.wake t ok err

def Shm.run (s : Shm Task) : List (Event Task) → Shm Task
  | [] => s
  | e :: es => (s.step e).1.run es

def Shm.init (root : Task) : Shm Task where
  shmSegs := fun _ => .unused
  segs := fun _ =>
    { seq := 0, dest := false, shmSegsz := 0, shmNpages := 0, shmNattch := 0, attaches := [] }
  descs := fun _ => { task := root, id := 0, readOnly := false, start := 0, stop := 0 }
  shm := fun _ => []
  shmTot := 0
  shmSeq := 0
  nextSeg := 0
  nextDesc := 0
  tasks := update (fun _ => .free) root .running
  sleep := fun _ => none

end Calls

end LinuxKernel.SharedMemory
