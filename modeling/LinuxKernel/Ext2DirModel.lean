import Mathlib.Tactic

/-!
# Directory blocks of ext2

A block of a directory is the list of its records, in the order of the chain that `rec_len`
makes of them.  A record with the inode number 0 is free.  The functions of `fs/ext2/namei.c`
work on one block at a time: they sleep only when they get the next one.
-/

namespace LinuxKernel.Ext2Dir

abbrev Name := List (BitVec 8)

structure DirEntry where
  inode : ℕ
  recLen : ℕ
  name : Name
deriving DecidableEq

abbrev Block := List DirEntry

inductive Err
  | enoent
  | eio
  | eexist
  | einval
  | eperm
  | eisdir
  | enotdir
  | enotempty
  | ebusy
  | emlink
  | enospc
deriving DecidableEq

def dot : Name := [0x2e]

def dotdot : Name := [0x2e, 0x2e]

def dirRecLen (nameLen : ℕ) : ℕ := (nameLen + 8 + 3) / 4 * 4

def DirEntry.check (de : DirEntry) : Bool :=
  decide (dirRecLen 1 ≤ de.recLen) && decide (de.recLen % 4 = 0) &&
    decide (dirRecLen de.name.length ≤ de.recLen)

/-- `ext2_check_dir_entry` with a directory: the entry may not cross the end of the block. -/
def DirEntry.checkAt (blocksize offset : ℕ) (de : DirEntry) : Bool :=
  de.check && decide (offset + de.recLen ≤ blocksize)

def truncate (name : Name) : Name := name.take 255

theorem truncate_ne_nil {name : Name} (h : name ≠ []) : truncate name ≠ [] := by
  unfold truncate
  simpa using h

def DirEntry.matches (name : Name) (de : DirEntry) : Bool :=
  decide (de.inode ≠ 0) && (decide (name = [] ∧ de.name = dot) || decide (name = de.name))

def findEntry (blocksize : ℕ) (name : Name) : ℕ → Block → Option (ℕ × ℕ)
  | _, [] => none
  | offset, de :: rest =>
    if de.checkAt blocksize offset = false then none
    else if de.matches name then some (offset, de.inode)
    else findEntry blocksize name (offset + de.recLen) rest

/-- The part of `ext2_add_entry` within a block: nothing when there is no room, else the block
with a free record of that name and the place of the record. -/
def addEntry (blocksize : ℕ) (name : Name) : ℕ → Block → Except Err (Option (Block × ℕ))
  | _, [] => .ok none
  | offset, de :: rest =>
    if de.checkAt blocksize offset = false then .error .enoent
    else if de.matches name then .error .eexist
    else if (de.inode = 0 ∧ dirRecLen name.length ≤ de.recLen) ∨
        dirRecLen de.name.length + dirRecLen name.length ≤ de.recLen then
      if de.inode = 0 then .ok (some ({ de with name := name } :: rest, offset))
      else
        let len := dirRecLen de.name.length
        let de1 := { inode := 0, recLen := de.recLen - len, name := name }
        .ok (some ({ de with recLen := len } :: de1 :: rest, offset + len))
    else
      match addEntry blocksize name (offset + de.recLen) rest with
      | .ok (some (b, o)) => .ok (some (de :: b, o))
      | r => r

def deleteAfter (o : ℕ) (pde : DirEntry) : ℕ → Block → Except Err Block
  | _, [] => .error .enoent
  | i, de :: rest =>
    if de.check = false then .error .eio
    else if i = o then .ok ({ pde with recLen := pde.recLen + de.recLen } :: rest)
    else
      match deleteAfter o de (i + de.recLen) rest with
      | .ok b => .ok (pde :: b)
      | .error e => .error e

def deleteEntry (o : ℕ) : Block → Except Err Block
  | [] => .error .enoent
  | de :: rest =>
    if de.check = false then .error .eio
    else if 0 = o then .ok ({ de with inode := 0 } :: rest)
    else deleteAfter o de de.recLen rest

def recordAt (o : ℕ) : ℕ → Block → Option DirEntry
  | _, [] => none
  | i, de :: rest => if i = o then some de else recordAt o (i + de.recLen) rest

def setInode (o ino : ℕ) : ℕ → Block → Block
  | _, [] => []
  | i, de :: rest =>
    if i = o then { de with inode := ino } :: rest else de :: setInode o ino (i + de.recLen) rest

def entries (b : Block) : List (Name × ℕ) :=
  (b.filter fun de => de.inode ≠ 0).map fun de => (de.name, de.inode)

def size (b : Block) : ℕ := (b.map DirEntry.recLen).sum

end LinuxKernel.Ext2Dir
