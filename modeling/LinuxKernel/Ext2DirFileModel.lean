import LinuxKernel.Ext2DirModel

/-!
# Directories of ext2 with all their blocks

`ext2_find_entry`, `ext2_add_entry` and `ext2_delete_entry` of `fs/ext2/namei.c`.  A directory is
the list of its blocks, without holes.  The search reads ahead: its ring of buffers has the next
eight blocks.
-/

namespace LinuxKernel.Ext2Dir

structure Directory where
  blocks : List Block
  size : ℕ
deriving DecidableEq

/-- What the functions find outside: `s_blocksize`, the blocks of the directory that can be read,
those whose buffers are up to date before that, and whether the disk has a free block. -/
structure Device where
  blocksize : ℕ
  readable : ℕ → Bool
  cached : ℕ → Bool
  space : Bool

/-! ## `ext2_find_entry` -/

def raBlocks : ℕ := 4

def raSize : ℕ := 8

structure ReadAhead where
  use : ℕ → Option ℕ
  read : List ℕ
  uptodate : ℕ → Bool

namespace ReadAhead

def put (ra : ReadAhead) (slot : ℕ) (bh : Option ℕ) : ReadAhead where
  use := Function.update ra.use slot bh
  read := ra.read ++ bh.toList.filter fun k => ¬ ra.uptodate k
  uptodate := ra.uptodate

def submit (ra : ReadAhead) (v : Device) : ReadAhead :=
  { ra with
    read := []
    uptodate := fun k => ra.uptodate k || (decide (k ∈ ra.read) && v.readable k) }

end ReadAhead

def Directory.getblk (dir : Directory) (k : ℕ) : Option ℕ :=
  if k < dir.blocks.length then some k else none

/-- The first loop of `ext2_find_entry`, for `n` blocks from `block` on. -/
def Directory.fill (v : Device) (dir : Directory) : ℕ → ℕ → ReadAhead → ReadAhead
  | 0, _, ra => ra
  | n + 1, block, ra =>
    if dir.size ≤ block * v.blocksize then ra
    else dir.fill v n (block + 1) (ra.put block (dir.getblk block))

/-- How the search in a block ends: at an entry, behind the last record, or at a bad one. -/
inductive Scan
  | found (offset ino : ℕ)
  | past (offset : ℕ)
  | bad

def scanBlock (blocksize : ℕ) (name : Name) : ℕ → Block → Scan
  | i, [] => .past i
  | i, de :: rest =>
    if de.checkAt blocksize i = false then .bad
    else if de.matches name then .found i de.inode
    else scanBlock blocksize name (i + de.recLen) rest

/-- What `ext2_find_entry` returns: an entry by the number of its block, its place there and its
inode number; or it has not returned yet. -/
inductive Found
  | entry (block offset ino : ℕ)
  | absent
  | panic
  | running
deriving DecidableEq

def Directory.findLoop (v : Device) (dir : Directory) (name : Name) : ℕ → ℕ → ℕ → ReadAhead → Found
  | 0, _, _, _ => .running
  | n + 1, block, offset, ra =>
    if dir.size ≤ offset then .absent
    else
      let ra := if block % raBlocks = 0 ∧ ra.read ≠ [] then ra.submit v else ra
      match ra.use (block % raSize) with
      | none => .panic
      | some bh =>
        if ra.uptodate bh = false then .absent
        else
          match scanBlock v.blocksize name 0 (dir.blocks.getD bh []) with
          | .found o ino => .entry bh o ino
          | .bad => .absent
          | .past o =>
            let next :=
              if dir.size ≤ (block + raSize) * v.blocksize then none
              else dir.getblk (block + raSize)
            dir.findLoop v name n (block + 1) (offset + o) (ra.put (block % raSize) next)

def Directory.find (v : Device) (dir : Directory) (name : Name) : Found :=
  dir.findLoop v (truncate name) (dir.size + 1) 0 0
    (dir.fill v raSize 0 ⟨fun _ => none, [], v.cached⟩)

def Directory.bread (v : Device) (dir : Directory) (k : ℕ) : Except Err Directory :=
  if k < dir.blocks.length then
    if v.readable k then .ok dir else .error .eio
  else if v.space then .ok { dir with blocks := dir.blocks ++ [[⟨0, 0, []⟩]] }
  else .error .enospc

/-- `de->inode = 0` and `de->rec_len = s_blocksize` in a new block. -/
def wholeRecord (blocksize : ℕ) : Block → Block
  | [] => []
  | de :: _ => [{ de with inode := 0, recLen := blocksize }]

/-- The loop of `ext2_add_entry` with block `bh` in hand, `offset` bytes from the start of the
directory; nothing when it has not ended.  The record that has been added is named by its block and
its place there. -/
def Directory.addLoop (v : Device) (name : Name) :
    ℕ → ℕ → ℕ → Directory → Option (Except Err (Directory × ℕ × ℕ))
  | 0, _, _, _ => none
  | n + 1, bh, offset, dir =>
    match addEntry v.blocksize name 0 (dir.blocks.getD bh []) with
    | .error e => some (.error e)
    | .ok (some (b, o)) => some (.ok ({ dir with blocks := dir.blocks.set bh b }, bh, o))
    | .ok none =>
      let offset := offset + Ext2Dir.size (dir.blocks.getD bh [])
      let bh := offset / v.blocksize
      match dir.bread v bh with
      | .error e => some (.error e)
      | .ok dir =>
        if dir.size ≤ offset then
          if dir.size = 0 then some (.error .enoent)
          else
            addLoop v name n bh offset
              { blocks := dir.blocks.modify bh (wholeRecord v.blocksize)
                size := offset + v.blocksize }
        else addLoop v name n bh offset dir

def Directory.add (v : Device) (dir : Directory) (name : Name) :
    Option (Except Err (Directory × ℕ × ℕ)) :=
  let name := truncate name
  if name = [] then some (.error .einval)
  else if dir.size = 0 then some (.error .enoent)
  else if dir.blocks = [] ∨ v.readable 0 = false then some (.error .eio)
  else Directory.addLoop v name (dir.size + 1) 0 0 dir

def Directory.store (dir : Directory) (bh o ino : ℕ) : Directory :=
  { dir with blocks := dir.blocks.modify bh (setInode o ino 0) }

def Directory.delete (dir : Directory) (bh o : ℕ) : Except Err Directory :=
  match deleteEntry o (dir.blocks.getD bh []) with
  | .error e => .error e
  | .ok b => .ok { dir with blocks := dir.blocks.set bh b }

end LinuxKernel.Ext2Dir
