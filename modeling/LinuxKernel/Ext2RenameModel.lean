import LinuxKernel.Ext2DirModel

/-!
# `ext2_rename` among other operations

`do_ext2_rename` of `fs/ext2/namei.c`, cut at the places where it sleeps.  The lock on renames
keeps other renames out, but `ext2_unlink`, `ext2_create` and `ext2_link` of other processes
come in between; each of them changes the directories in one piece, after its last sleep.

The pointers `old_de` and `new_de` stay while rename sleeps.  When the record they point to
leaves the chain, they point into the bytes of another record: reading the inode number there
gives some number, and writing it there makes the block something else.
-/

namespace LinuxKernel.Ext2Dir

structure Ptr where
  dir : ℕ
  block : ℕ
  offset : ℕ
deriving DecidableEq

/-- Where rename sleeps, with its variables.  `new` is missing in `checks` when there is no
target, or its inode could not be read. -/
inductive Phase
  | findOld
  | igetOld (old : Ptr) (oldIno : ℕ)
  | findNew (old : Ptr) (oldIno : ℕ)
  | igetNew (old : Ptr) (oldIno : ℕ) (new : Ptr) (newIno : ℕ)
  | checks (old : Ptr) (oldIno : ℕ) (new : Option (Ptr × ℕ))
  | done (retval : Option Err)
deriving DecidableEq

structure Rename where
  logBlockSize : ℕ
  oldDir : ℕ
  oldName : Name
  newDir : ℕ
  newName : Name

def Rename.blocksize (a : Rename) : ℕ := 1024 * 2 ^ a.logBlockSize

structure Sys where
  dirs : ℕ → List Block
  phase : Phase

def Sys.block (s : Sys) (dir i : ℕ) : Block := (s.dirs dir).getD i []

def Sys.setBlock (s : Sys) (dir i : ℕ) (b : Block) : Sys :=
  { s with dirs := Function.update s.dirs dir ((s.dirs dir).set i b) }

def Sys.record (s : Sys) (p : Ptr) : Option DirEntry := recordAt p.offset 0 (s.block p.dir p.block)

def Sys.inodeAt (s : Sys) (stale : Ptr → ℕ) (p : Ptr) : ℕ :=
  match s.record p with
  | some de => de.inode
  | none => stale p

def Sys.storeInode (s : Sys) (scribble : Block) (p : Ptr) (ino : ℕ) : Sys :=
  match s.record p with
  | some _ => s.setBlock p.dir p.block (setInode p.offset ino 0 (s.block p.dir p.block))
  | none => s.setBlock p.dir p.block scribble

def Sys.delete (s : Sys) (p : Ptr) : Sys × Option Err :=
  match deleteEntry p.offset (s.block p.dir p.block) with
  | .ok b => (s.setBlock p.dir p.block b, none)
  | .error e => (s, some e)

inductive Event
  | unlink (p : Ptr)
  | insert (dir block : ℕ) (name : Name) (ino : ℕ)
  | extend (dir : ℕ)
  | find (block : ℕ)
  | notFound
  | iget (ok : Bool)
  | fail (e : Err)
  | add (block : ℕ) (stale : Ptr → ℕ)
  | commit (stale : Ptr → ℕ) (scribble : Block)

def Event.ofRename : Event → Bool
  | .unlink _ | .insert .. | .extend _ => false
  | _ => true

def Sys.tryAgain (s : Sys) (new : Ptr) : Sys := { (s.delete new).1 with phase := .findOld }

def Sys.finish (s : Sys) (old : Ptr) (oldIno : ℕ) (new : Ptr) (newIno : Option ℕ)
    (stale : Ptr → ℕ) (scribble : Block) : Sys :=
  if newIno ≠ none ∧ newIno ≠ some (s.inodeAt stale new) then s.tryAgain new
  else if s.inodeAt stale new ≠ 0 ∧ newIno = none then s.tryAgain new
  else if s.inodeAt stale old ≠ oldIno then s.tryAgain new
  else
    let s := s.storeInode scribble new oldIno
    match s.delete old with
    | (s, none) => { s with phase := .done none }
    | (s, some .enoent) => s.tryAgain new
    | (s, some e) => { s with phase := .done (some e) }

def Sys.insert (s : Sys) (blocksize dir block : ℕ) (name : Name) (ino : ℕ) : Sys :=
  if name = [] ∨ ino = 0 then s
  else
    match addEntry blocksize (truncate name) 0 (s.block dir block) with
    | .ok (some (b, o)) => s.setBlock dir block (setInode o ino 0 b)
    | _ => s

def Sys.extend (s : Sys) (blocksize dir : ℕ) : Sys :=
  let free : DirEntry := { inode := 0, recLen := blocksize, name := [] }
  { s with dirs := Function.update s.dirs dir (s.dirs dir ++ [[free]]) }

/-- `ext2_add_entry` of rename in a block, and the rest when it finds room there. -/
def Sys.addTarget (s : Sys) (a : Rename) (old : Ptr) (oldIno block : ℕ) (stale : Ptr → ℕ) : Sys :=
  if a.newName = [] then { s with phase := .done (some .einval) }
  else
    match addEntry a.blocksize (truncate a.newName) 0 (s.block a.newDir block) with
    | .error e => { s with phase := .done (some e) }
    | .ok none => s
    | .ok (some (b, o)) =>
      (s.setBlock a.newDir block b).finish old oldIno ⟨a.newDir, block, o⟩ none stale []

def step (a : Rename) (s : Sys) : Event → Sys
  | .unlink p => (s.delete p).1
  | .insert dir block name ino => s.insert a.blocksize dir block name ino
  | .extend dir => s.extend a.blocksize dir
  | .find block =>
    match s.phase with
    | .findOld =>
      match findEntry a.blocksize (truncate a.oldName) 0 (s.block a.oldDir block) with
      | some (o, ino) => { s with phase := .igetOld ⟨a.oldDir, block, o⟩ ino }
      | none => s
    | .findNew old oldIno =>
      match findEntry a.blocksize (truncate a.newName) 0 (s.block a.newDir block) with
      | some (o, ino) => { s with phase := .igetNew old oldIno ⟨a.newDir, block, o⟩ ino }
      | none => s
    | _ => s
  | .notFound =>
    match s.phase with
    | .findOld => { s with phase := .done (some .enoent) }
    | .findNew old oldIno => { s with phase := .checks old oldIno none }
    | _ => s
  | .iget ok =>
    match s.phase with
    | .igetOld old oldIno =>
      { s with phase := if ok then .findNew old oldIno else .done (some .enoent) }
    | .igetNew old oldIno new newIno =>
      { s with phase := if ok then
          if newIno = oldIno then .done none else .checks old oldIno (some (new, newIno))
        else .checks old oldIno none }
    | _ => s
  | .fail e =>
    match s.phase with
    | .findNew .. | .checks .. => { s with phase := .done (some e) }
    | _ => s
  | .add block stale =>
    match s.phase with
    | .checks old oldIno none => s.addTarget a old oldIno block stale
    | _ => s
  | .commit stale scribble =>
    match s.phase with
    | .checks old oldIno (some (new, newIno)) =>
      s.finish old oldIno new (some newIno) stale scribble
    | _ => s

def run (a : Rename) (s : Sys) (es : List Event) : Sys := es.foldl (step a) s

def Sys.live (s : Sys) (dir : ℕ) : List (Name × ℕ) := (s.dirs dir).flatMap entries

end LinuxKernel.Ext2Dir
