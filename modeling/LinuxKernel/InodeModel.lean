import Mathlib.Tactic

/-!
# The inode cache

`__iget`, `iput`, `get_empty_inode`, `clear_inode` and what they call in `fs/inode.c`.
Inodes are numbers, in the order in which `grow_inodes` has made them.  A process that is
inside one of the calls stands at a label or at a place where it may sleep; one step takes it
to the next.

The functions of the file system are not part of the cache: what `put_inode` and
`write_inode` leave in the inode comes with the step that returns from them.  The file
systems call `clear_inode` at the end of `put_inode`; other callers do so only for an inode
that is neither used nor dirty nor locked.
-/

namespace LinuxKernel.InodeCache
open Function

structure SuperBlock where
  dev : ℕ
  putInode : Bool
  writeInode : Bool
  readInode : Bool
  deriving DecidableEq

structure Inode where
  dev : ℕ
  ino : ℕ
  count : ℕ
  nlink : ℕ
  dirt : Bool
  lock : Bool
  sb : Option SuperBlock
  mount : Option ℕ

def Inode.blank : Inode where
  dev := 0
  ino := 0
  count := 0
  nlink := 0
  dirt := false
  lock := false
  sb := none
  mount := none

structure GetArgs where
  sb : SuperBlock
  nr : ℕ
  crossmntp : Bool

/-- Where `iput` returns to: its caller, or one of the places in `__iget`. -/
inductive PutReturn where
  | user
  | again (g : GetArgs) (empty : Option ℕ)
  | crossed (g : GetArgs) (tmp : ℕ) (empty : Option ℕ)
  | done (g : GetArgs) (inode : ℕ) (crossed : Bool)

inductive EmptyReturn where
  | user
  | get (g : GetArgs)

/-- Where a process is: outside, in `iput`, in `get_empty_inode` or in `__iget`. -/
inductive Phase where
  | idle
  | put (i : ℕ) (k : PutReturn)
  | putRepeat (i : ℕ) (k : PutReturn)
  | putFs (i : ℕ) (k : PutReturn)
  | putWrite (i : ℕ) (k : PutReturn)
  | putWriting (i : ℕ) (k : PutReturn)
  | putWritten (i : ℕ) (k : PutReturn)
  | empty (k : EmptyReturn)
  | emptyGrow (k : EmptyReturn)
  | emptyRepeat (k : EmptyReturn)
  | emptySleep (k : EmptyReturn)
  | emptyWait (i : ℕ) (k : EmptyReturn)
  | emptyWrite (i : ℕ) (k : EmptyReturn)
  | emptyWriting (i : ℕ) (k : EmptyReturn)
  | getRepeat (g : GetArgs) (empty : Option ℕ)
  | getFound (i : ℕ) (g : GetArgs) (empty : Option ℕ)
  | getCross (i : ℕ) (g : GetArgs) (empty : Option ℕ)
  | getRead (i : ℕ) (g : GetArgs)
  | getReading (i : ℕ) (g : GetArgs)
  | getReturn (i : ℕ) (g : GetArgs) (crossed : Bool)

/-- The cache and the processes.  `ring` is the list from `first_inode` on, `bucket` are the
chains of `hash_table`.  The last two fields are the books: how many references to an inode
are held outside of the calls, and how many `iput` has left counted. -/
structure Cache (Task : Type) where
  inodes : ℕ → Inode
  nrInodes : ℕ
  nrFree : ℤ
  ring : List ℕ
  bucket : ℕ → List ℕ
  updating : ℕ → ℕ
  phase : Task → Phase
  held : ℕ → ℕ
  lost : ℕ → ℕ

def nrInodeMax : ℕ := 2048

def hashfn (dev ino : ℕ) : ℕ := (dev ^^^ ino) % 131

def GetArgs.hash (g : GetArgs) : ℕ := hashfn g.sb.dev g.nr

/-- What comes from outside with a step: whether the file system leaves the inode dirty,
whether `put_inode` clears it, and how many inodes fit into the page that `grow_inodes`
gets, if it gets one. -/
structure Choice where
  dirt : Bool
  cleared : Bool
  page : Option ℕ

section

variable {Task : Type} [DecidableEq Task]

def Cache.setPhase (s : Cache Task) (t : Task) (phase : Phase) : Cache Task :=
  { s with phase := update s.phase t phase }

def Cache.setInode (s : Cache Task) (i : ℕ) (inode : Inode) : Cache Task :=
  { s with inodes := update s.inodes i inode }

def Cache.hold (s : Cache Task) (i : ℕ) : Cache Task :=
  { s with held := update s.held i (s.held i + 1) }

/-- `remove_inode_hash`, `remove_inode_free`, `memset` and `insert_inode_free` of
`clear_inode`, which waits until the inode is not locked. -/
def Cache.clearInode (s : Cache Task) (i : ℕ) : Cache Task :=
  let inode := s.inodes i
  let h := hashfn inode.dev inode.ino
  { s with
    inodes := update s.inodes i Inode.blank
    nrFree := if inode.count ≠ 0 then s.nrFree + 1 else s.nrFree
    bucket := update s.bucket h ((s.bucket h).erase i)
    ring := i :: s.ring.erase i
    lost := update s.lost i 0 }

def Cache.growInodes (s : Cache Task) (n : ℕ) : Cache Task :=
  { s with
    nrInodes := s.nrInodes + n
    nrFree := s.nrFree + n
    ring := ((List.range n).map (s.nrInodes + ·)).reverse ++ s.ring }

def Cache.putReturn (s : Cache Task) (t : Task) : PutReturn → Cache Task
  | .user => s.setPhase t .idle
  | .again g empty => s.setPhase t (.getRepeat g empty)
  | .crossed g tmp empty => s.setPhase t (.getCross tmp g empty)
  | .done g inode crossed => s.setPhase t (.getReturn inode g crossed)

def Cache.putRest (s : Cache Task) (t : Task) (i : ℕ) (k : PutReturn) : Cache Task :=
  let inode := s.inodes i
  if inode.dirt then s.setPhase t (.putWrite i k)
  else
    { s.setInode i { inode with count := inode.count - 1 } with
      nrFree := s.nrFree + 1 }.putReturn t k

def Cache.putRepeat (s : Cache Task) (t : Task) (i : ℕ) (k : PutReturn) : Cache Task :=
  let inode := s.inodes i
  if 1 < inode.count then
    (s.setInode i { inode with count := inode.count - 1 }).putReturn t k
  else if inode.sb.any SuperBlock.putInode then s.setPhase t (.putFs i k)
  else s.putRest t i k

/-- `put_inode` returns: it has cleared the inode, or left it dirty or clean. -/
def Cache.putFs (s : Cache Task) (t : Task) (i : ℕ) (k : PutReturn) (c : Choice) : Cache Task :=
  let inode := s.inodes i
  if c.cleared then
    if inode.lock then s else (s.clearInode i).putReturn t k
  else
    let left := s.setInode i { inode with dirt := c.dirt }
    if inode.nlink = 0 then
      { left with lost := update s.lost i (s.lost i + 1) }.putReturn t k
    else left.putRest t i k

def Cache.writeInode (s : Cache Task) (t : Task) (i : ℕ) (writing k : Phase) : Cache Task :=
  let inode := s.inodes i
  if inode.dirt then
    if inode.lock then s
    else if inode.sb.any SuperBlock.writeInode then
      (s.setInode i { inode with lock := true }).setPhase t writing
    else (s.setInode i { inode with dirt := false }).setPhase t k
  else s.setPhase t k

/-- The file system has written the inode, and `write_inode` unlocks it. -/
def Cache.written (s : Cache Task) (t : Task) (i : ℕ) (k : Phase) (c : Choice) : Cache Task :=
  (s.setInode i { s.inodes i with lock := false, dirt := c.dirt }).setPhase t k

def Cache.findBest (s : Cache Task) : Option ℕ :=
  match s.ring.find? fun i =>
    (s.inodes i).count = 0 ∧ (s.inodes i).dirt = false ∧ (s.inodes i).lock = false with
  | some i => some i
  | none => s.ring.find? fun i => (s.inodes i).count = 0

/-- The end of `get_empty_inode`, with the return to its caller. -/
def Cache.takeEmpty (s : Cache Task) (t : Task) (i : ℕ) (k : EmptyReturn) : Cache Task :=
  let cleared := s.clearInode i
  let taken := { cleared.setInode i { cleared.inodes i with count := 1, nlink := 1 } with
    nrFree := if cleared.nrFree - 1 < 0 then 0 else cleared.nrFree - 1 }
  match k with
  | .user => (taken.hold i).setPhase t .idle
  | .get g =>
    { taken with
      updating := update s.updating g.hash (s.updating g.hash - 1) }.setPhase t
        (.getRepeat g (some i))

def Cache.emptyRepeat (s : Cache Task) (t : Task) (k : EmptyReturn) : Cache Task :=
  match s.findBest with
  | none => if s.nrInodes < nrInodeMax then s.setPhase t (.emptyGrow k)
    else s.setPhase t (.emptySleep k)
  | some i =>
    let inode := s.inodes i
    if (inode.dirt ∨ inode.lock) ∧ s.nrInodes < nrInodeMax then s.setPhase t (.emptyGrow k)
    else if inode.lock then s.setPhase t (.emptyWait i k)
    else if inode.dirt then s.setPhase t (.emptyWrite i k)
    else s.takeEmpty t i k

def Cache.getFoundIt (s : Cache Task) (t : Task) (i : ℕ) (g : GetArgs) (empty : Option ℕ) :
    Cache Task :=
  let inode := s.inodes i
  { s.setInode i { inode with count := inode.count + 1 } with
    nrFree := if inode.count = 0 then s.nrFree - 1 else s.nrFree }.setPhase t
      (.getFound i g empty)

def Cache.getInsert (s : Cache Task) (t : Task) (e : ℕ) (g : GetArgs) : Cache Task :=
  { s.setInode e { s.inodes e with sb := some g.sb, dev := g.sb.dev, ino := g.nr } with
    ring := s.ring.erase e ++ [e]
    bucket := update s.bucket g.hash (e :: s.bucket g.hash) }.setPhase t (.getRead e g)

def Cache.getRepeat (s : Cache Task) (t : Task) (g : GetArgs) (empty : Option ℕ) : Cache Task :=
  match (s.bucket g.hash).find? fun i =>
    (s.inodes i).dev = g.sb.dev ∧ (s.inodes i).ino = g.nr with
  | some i => s.getFoundIt t i g empty
  | none =>
    match empty with
    | none =>
      { s with
        updating := update s.updating g.hash (s.updating g.hash + 1) }.setPhase t
          (.empty (.get g))
    | some e => s.getInsert t e g

/-- `__iget` has its inode: it gives back the empty one, if it has one. -/
def Cache.getDone (s : Cache Task) (t : Task) (i : ℕ) (g : GetArgs) (empty : Option ℕ)
    (crossed : Bool) : Cache Task :=
  match empty with
  | some e => s.setPhase t (.put e (.done g i crossed))
  | none => s.setPhase t (.getReturn i g crossed)

def Cache.getFound (s : Cache Task) (t : Task) (i : ℕ) (g : GetArgs) (empty : Option ℕ) :
    Cache Task :=
  let inode := s.inodes i
  if inode.lock then s
  else if inode.dev ≠ g.sb.dev ∨ inode.ino ≠ g.nr then s.setPhase t (.put i (.again g empty))
  else
    match if g.crossmntp then inode.mount else none with
    | some tmp =>
      (s.setInode tmp { s.inodes tmp with count := (s.inodes tmp).count + 1 }).setPhase t
        (.put i (.crossed g tmp empty))
    | none => s.getDone t i g empty false

def Cache.run (s : Cache Task) (t : Task) (c : Choice) : Cache Task :=
  match s.phase t with
  | .idle => s
  | .put i k =>
    if (s.inodes i).lock then s
    else if (s.inodes i).count = 0 then s.putReturn t k
    else s.setPhase t (.putRepeat i k)
  | .putRepeat i k => s.putRepeat t i k
  | .putFs i k => s.putFs t i k c
  | .putWrite i k => s.writeInode t i (.putWriting i k) (.putWritten i k)
  | .putWriting i k => s.written t i (.putWritten i k) c
  | .putWritten i k => if (s.inodes i).lock then s else s.setPhase t (.putRepeat i k)
  | .empty k =>
    if s.nrInodes < nrInodeMax ∧ s.nrFree < (s.nrInodes >>> 2 : ℕ) then
      s.setPhase t (.emptyGrow k)
    else s.setPhase t (.emptyRepeat k)
  | .emptyGrow k =>
    match c.page with
    | some n => (s.growInodes n).setPhase t (.emptyRepeat k)
    | none => s.setPhase t (.emptyRepeat k)
  | .emptyRepeat k => s.emptyRepeat t k
  | .emptySleep k => s.setPhase t (.emptyRepeat k)
  | .emptyWait i k => if (s.inodes i).lock then s else s.setPhase t (.emptyRepeat k)
  | .emptyWrite i k => s.writeInode t i (.emptyWriting i k) (.emptyRepeat k)
  | .emptyWriting i k => s.written t i (.emptyRepeat k) c
  | .getRepeat g empty => s.getRepeat t g empty
  | .getFound i g empty => s.getFound t i g empty
  | .getCross i g empty => if (s.inodes i).lock then s else s.getDone t i g empty true
  | .getRead i g =>
    if (s.inodes i).lock then s
    else if (s.inodes i).sb.any SuperBlock.readInode then
      (s.setInode i { s.inodes i with lock := true }).setPhase t (.getReading i g)
    else s.setPhase t (.getReturn i g false)
  | .getReading i g =>
    (s.setInode i { s.inodes i with lock := false }).setPhase t (.getReturn i g false)
  | .getReturn i g _ =>
    if s.updating g.hash ≠ 0 then s else (s.hold i).setPhase t .idle

/-- What happens: a process that is outside calls one of the functions or one that is inside
goes on, and the rest of the kernel uses the inodes it holds. -/
inductive Event (Task : Type) where
  | iget (t : Task) (g : GetArgs)
  | iput (t : Task) (i : ℕ)
  | getEmptyInode (t : Task)
  | run (t : Task) (c : Choice)
  | clearInode (t : Task) (i : ℕ)
  | duplicate (i : ℕ)
  | mount (i root : ℕ)
  | umount (i : ℕ)
  | change (i nlink : ℕ) (dirt lock : Bool)

def Cache.MayPut (s : Cache Task) (i : ℕ) : Prop :=
  0 < s.held i ∧ ((∃ j < s.nrInodes, (s.inodes j).mount = some i) → 1 < s.held i)

instance (s : Cache Task) (i : ℕ) : Decidable (s.MayPut i) :=
  inferInstanceAs (Decidable (_ ∧ (_ → _)))

def Cache.step (s : Cache Task) : Event Task → Cache Task
  | .iget t g =>
    match s.phase t with
    | .idle => s.setPhase t (.getRepeat g none)
    | _ => s
  | .iput t i =>
    match s.phase t with
    | .idle =>
      if s.MayPut i then
        { s with held := update s.held i (s.held i - 1) }.setPhase t (.put i .user)
      else s
    | _ => s
  | .getEmptyInode t =>
    match s.phase t with
    | .idle => s.setPhase t (.empty .user)
    | _ => s
  | .run t c => s.run t c
  | .clearInode t i =>
    let inode := s.inodes i
    match s.phase t with
    | .idle =>
      if i < s.nrInodes ∧ inode.count = 0 ∧ inode.dirt = false ∧ inode.lock = false then
        (s.clearInode i).setPhase t .idle
      else s
    | _ => s
  | .duplicate i =>
    if 0 < s.held i then
      (s.setInode i { s.inodes i with count := (s.inodes i).count + 1 }).hold i
    else s
  | .mount i root =>
    if i < s.nrInodes ∧ 0 < s.held root then
      s.setInode i { s.inodes i with mount := some root }
    else s
  | .umount i => if i < s.nrInodes then s.setInode i { s.inodes i with mount := none } else s
  | .change i nlink dirt lock =>
    if i < s.nrInodes then
      s.setInode i { s.inodes i with nlink := nlink, dirt := dirt, lock := lock }
    else s

/-- While a call of `put_inode` slept, nobody else has come to use the inode: where the
file system clears it or `iput` goes on to free it, its count is still 1. -/
def Event.Ok (s : Cache Task) : Event Task → Prop
  | .run t c => ∀ i k, s.phase t = .putFs i k →
      (c.cleared = true ∨ (s.inodes i).nlink ≠ 0 ∧ c.dirt = false) → (s.inodes i).count = 1
  | _ => True

def RunOk : Cache Task → List (Event Task) → Prop
  | _, [] => True
  | s, e :: events => e.Ok s ∧ RunOk (s.step e) events

def Cache.runAll (s : Cache Task) (events : List (Event Task)) : Cache Task :=
  events.foldl Cache.step s

def Cache.init : Cache Task where
  inodes := fun _ => Inode.blank
  nrInodes := 0
  nrFree := 0
  ring := []
  bucket := fun _ => []
  updating := fun _ => 0
  phase := fun _ => .idle
  held := fun _ => 0
  lost := fun _ => 0

end

end LinuxKernel.InodeCache
