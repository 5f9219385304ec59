import LinuxKernel.Ext2DirModel

/-!
# The directory cache of ext2

`fs/ext2/dcache.c` and the places of `fs/ext2/namei.c` and `fs/ext2/dir.c` that use it.  The
cache is the list of its entries, the one used last in front; the hash queues are the parts of
this list with the same hash.

A step is what an operation does between two places where it sleeps.  A directory that is
removed while it is in use gets the size 0, but its blocks stay until it is freed.
-/

namespace LinuxKernel.Ext2Cache
open Function

open Ext2Dir

structure Dir where
  dev : ℕ
  ino : ℕ
deriving DecidableEq

structure Cached where
  dir : Dir
  name : Name
  ino : ℕ
deriving DecidableEq

abbrev Cache := List Cached

def dcacheNameLen : ℕ := 32

def cacheSize : ℕ := 128

def isFor (dir : Dir) (name : Name) (e : Cached) : Bool :=
  decide (e.dir = dir) && decide (e.name = name)

def findName (c : Cache) (dir : Dir) (name : Name) : Option Cached := c.find? (isFor dir name)

def dcacheLookup (c : Cache) (dir : Dir) (name : Name) : Cache × ℕ :=
  if dcacheNameLen < name.length then (c, 0)
  else
    match findName c dir name with
    | some e => (e :: c.eraseP (isFor dir name), e.ino)
    | none => (c, 0)

def dcacheAdd (c : Cache) (dir : Dir) (name : Name) (ino : ℕ) : Cache :=
  if dcacheNameLen < name.length then c
  else
    match findName c dir name with
    | some e => { e with dir := dir, ino := ino } :: c.eraseP (isFor dir name)
    | none => ⟨dir, name, ino⟩ :: if c.length < cacheSize then c else c.dropLast

def dcacheRemove (c : Cache) (dir : Dir) (name : Name) : Cache :=
  if dcacheNameLen < name.length then c else c.eraseP (isFor dir name)

def dcacheInvalidate (c : Cache) (dev : ℕ) : Cache := c.filter fun e => e.dir.dev ≠ dev

/-- The blocks of the directories, which of them have a size, which are without a link, and the
cache. -/
structure State where
  blocks : Dir → List (Name × ℕ)
  sized : Dir → Bool
  orphan : Dir → Bool
  cache : Cache

def State.content (s : State) (dir : Dir) : List (Name × ℕ) :=
  if s.sized dir then s.blocks dir else []

inductive Event
  | lookup (dir : Dir) (name : Name)
  /-- `ext2_lookup` or `ext2_readdir` comes upon an entry in a block. -/
  | load (dir : Dir) (name : Name) (ino : ℕ)
  /-- `ext2_create`, `ext2_mknod`, `ext2_symlink` and `ext2_link` enter an inode. -/
  | enter (dir : Dir) (name : Name) (ino : ℕ)
  | mkdir (dir : Dir) (name : Name) (ino : ℕ)
  | unlink (dir : Dir) (name : Name) (ino : ℕ)
  | rmdir (dir : Dir) (name : Name) (ino : ℕ) (busy : Bool)
  /-- `ext2_unlink` and `ext2_rmdir` tell the cache after a synchronous write. -/
  | forget (dir : Dir) (name : Name)
  /-- Rename is carried out, for a target that is there or is not. -/
  | rename (oldDir : Dir) (oldName : Name) (oldIno : ℕ) (newDir : Dir) (newName : Name)
    (newIno : Option ℕ) (isDir : Bool)
  | restart (newDir : Dir) (newName : Name) (newIno : ℕ)
  /-- `try_again` of rename after the cache has been told: the old entry was not in the chain. -/
  | backOut (newDir : Dir) (newName : Name) (newIno oldIno : ℕ)
  | free (dir : Dir)
  /-- The device is unmounted and another file system may be mounted from it. -/
  | umount (dev : ℕ) (blocks : Dir → List (Name × ℕ))

def State.setBlocks (s : State) (dir : Dir) (l : List (Name × ℕ)) : State :=
  { s with blocks := update s.blocks dir l }

def State.mkdir (s : State) (dir : Dir) (name : Name) (ino : ℕ) : State :=
  let d : Dir := ⟨dir.dev, ino⟩
  if s.sized dir = true ∧ s.blocks d = [] ∧ d ≠ dir then
    { blocks := update (update s.blocks d [(dot, ino), (dotdot, dir.ino)]) dir
        (s.blocks dir ++ [(name, ino)])
      sized := update s.sized d true
      orphan := update s.orphan d false
      cache := dcacheAdd s.cache dir name ino }
  else s

/-- `ext2_rmdir` of an empty directory.  In a synchronous directory the cache is told later. -/
def State.rmdir (sync : Dir → Bool) (s : State) (dir : Dir) (name : Name) (ino : ℕ) (busy : Bool) :
    State :=
  let d : Dir := ⟨dir.dev, ino⟩
  if (name, ino) ∈ s.blocks dir ∧ d ≠ dir ∧ ∀ x ∈ s.blocks d, x.1 = dot ∨ x.1 = dotdot then
    let blocks := update s.blocks dir ((s.blocks dir).erase (name, ino))
    { blocks := if busy ∨ sync dir then blocks else update blocks d []
      sized := if busy then update s.sized d false else s.sized
      orphan := update s.orphan d true
      cache := if sync dir then s.cache
        else dcacheRemove (dcacheRemove (dcacheRemove s.cache d dot) d dotdot) dir name }
  else s

def setParent (l : List (Name × ℕ)) (old new : ℕ) : List (Name × ℕ) :=
  (dotdot, new) :: l.erase (dotdot, old)

def State.rename (s : State) (oldDir : Dir) (oldName : Name) (oldIno : ℕ) (newDir : Dir)
    (newName : Name) (newIno : Option ℕ) (isDir : Bool) : State :=
  let d : Dir := ⟨oldDir.dev, oldIno⟩
  if (oldName, oldIno) ∈ s.blocks oldDir ∧ s.sized newDir = true ∧
      (∀ n ∈ newIno, (newName, n) ∈ s.blocks newDir ∧ n ≠ oldIno) ∧
      (isDir = true → d ≠ oldDir ∧ d ≠ newDir) then
    let target := match newIno with
      | some n => (newName, oldIno) :: (s.blocks newDir).erase (newName, n)
      | none => (newName, oldIno) :: s.blocks newDir
    let blocks := update s.blocks newDir target
    let blocks := update blocks oldDir ((blocks oldDir).erase (oldName, oldIno))
    { s with
      blocks := if isDir then
          update blocks d (setParent (blocks d) oldDir.ino newDir.ino)
        else blocks
      orphan := match isDir, newIno with
        | true, some n => update s.orphan ⟨newDir.dev, n⟩ true
        | _, _ => s.orphan
      cache := dcacheAdd (dcacheRemove s.cache oldDir oldName) newDir newName oldIno }
  else s

def step (sync : Dir → Bool) (s : State) : Event → State
  | .lookup dir name => { s with cache := (dcacheLookup s.cache dir name).1 }
  | .load dir name ino =>
    if (name, ino) ∈ s.blocks dir then { s with cache := dcacheAdd s.cache dir name ino } else s
  | .enter dir name ino =>
    if s.sized dir then
      { s.setBlocks dir (s.blocks dir ++ [(name, ino)]) with
        cache := dcacheAdd s.cache dir name ino }
    else s
  | .mkdir dir name ino => s.mkdir dir name ino
  | .unlink dir name ino =>
    if (name, ino) ∈ s.blocks dir then
      { s.setBlocks dir ((s.blocks dir).erase (name, ino)) with
        cache := if sync dir then s.cache else dcacheRemove s.cache dir name }
    else s
  | .rmdir dir name ino busy => s.rmdir sync dir name ino busy
  | .forget dir name => { s with cache := dcacheRemove s.cache dir name }
  | .rename oldDir oldName oldIno newDir newName newIno isDir =>
    s.rename oldDir oldName oldIno newDir newName newIno isDir
  | .restart newDir newName newIno =>
    s.setBlocks newDir ((s.blocks newDir).erase (newName, newIno))
  | .backOut newDir newName newIno oldIno =>
    { s.setBlocks newDir ((s.blocks newDir).erase (newName, newIno)) with
      cache := dcacheAdd s.cache newDir newName oldIno }
  | .free dir =>
    if s.orphan dir then
      { s.setBlocks dir [] with sized := update s.sized dir true }
    else s
  | .umount dev blocks =>
    { blocks := fun dir => if dir.dev = dev then blocks dir else s.blocks dir
      sized := fun dir => if dir.dev = dev then true else s.sized dir
      orphan := fun dir => if dir.dev = dev then false else s.orphan dir
      cache := dcacheInvalidate s.cache dev }

def run (sync : Dir → Bool) (s : State) (es : List Event) : State := es.foldl (step sync) s

end LinuxKernel.Ext2Cache
