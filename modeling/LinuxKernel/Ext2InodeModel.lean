import LinuxKernel.Ext2Bitmap

/-!
# The inode allocator of ext2

`ext2_new_inode` and `ext2_free_inode` of `fs/ext2/ialloc.c`.  The super block is locked
during both.  Of the inode in memory only its number is kept, and which buffer holds a bitmap
is left out.  A call that does not return is `none`.
-/

namespace LinuxKernel.Ext2

open BitWords

structure InodeGroup where
  bitmap : Words
  freeInodes : ℕ
  freeBlocks : ℕ
  usedDirs : ℕ

structure Inodes where
  groupsCount : ℕ
  inodesPerGroup : ℕ
  inodesCount : ℕ
  group : ℕ → InodeGroup
  freeInodes : ℕ

def firstIno : ℕ := 11

def Inodes.better (fs : Inodes) (j : ℕ) : Option ℕ → Bool
  | none => true
  | some i => decide ((fs.group i).freeBlocks < (fs.group j).freeBlocks)

/-- The group for a directory: of those with at least the average of free inodes the first
with the most free blocks, among groups `j` to `j + n - 1`. -/
def Inodes.dirGroup (fs : Inodes) (avefreei : ℕ) : ℕ → ℕ → Option ℕ → Option ℕ
  | 0, _, gdp => gdp
  | n + 1, j, gdp =>
    let tmp := fs.group j
    fs.dirGroup avefreei n (j + 1)
      (if tmp.freeInodes ≠ 0 ∧ avefreei ≤ tmp.freeInodes ∧ fs.better j gdp = true then some j
        else gdp)

/-- The quadratic hash, at most `n` turns with the step `j` from group `i`. -/
def Inodes.hashGroup (fs : Inodes) : ℕ → ℕ → ℕ → Option ℕ
  | 0, _, _ => none
  | n + 1, j, i =>
    if j < fs.groupsCount then
      let i := if fs.groupsCount ≤ i + j then i + j - fs.groupsCount else i + j
      if (fs.group i).freeInodes ≠ 0 then some i else fs.hashGroup n (2 * j) i
    else none

def Inodes.linearGroup (fs : Inodes) : ℕ → ℕ → Option ℕ
  | 0, _ => none
  | n + 1, i =>
    let i := if fs.groupsCount ≤ i + 1 then 0 else i + 1
    if (fs.group i).freeInodes ≠ 0 then some i else fs.linearGroup n i

/-- The group for a file: the one of its directory, else one that the hash finds, else one
that the linear search finds.  The steps of the hash double, so that it takes fewer turns
than there are groups. -/
def Inodes.fileGroup (fs : Inodes) (parent : ℕ) : Option ℕ :=
  if (fs.group parent).freeInodes ≠ 0 then some parent
  else
    match fs.hashGroup fs.groupsCount 1 parent with
    | some i => some i
    | none => fs.linearGroup (fs.groupsCount - 2) (parent + 1)

def Inodes.chooseGroup (fs : Inodes) (parent : ℕ) (isDir : Bool) : Option ℕ :=
  if isDir then fs.dirGroup (fs.freeInodes / fs.groupsCount) fs.groupsCount 0 none
  else fs.fileGroup parent

def Inodes.setGroup (fs : Inodes) (i : ℕ) (g : InodeGroup) : Inodes :=
  { fs with group := Function.update fs.group i g }

/-- `ext2_new_inode` from `repeat` on, with `fuel` turns, for a directory in group `parent`.
The number is 0 when it returns NULL. -/
def Inodes.newInode (fs : Inodes) (parent : ℕ) (isDir : Bool) : ℕ → Option (Inodes × ℕ)
  | 0 => none
  | fuel + 1 =>
    match fs.chooseGroup parent isDir with
    | none => some (fs, 0)
    | some i =>
      let gdp := fs.group i
      let j := findFirstZeroBit gdp.bitmap fs.inodesPerGroup
      if j < fs.inodesPerGroup then
        if test gdp.bitmap j then fs.newInode parent isDir fuel
        else
          let marked := { gdp with bitmap := set gdp.bitmap j }
          let ino := j + i * fs.inodesPerGroup + 1
          if ino < firstIno ∨ fs.inodesCount < ino then some (fs.setGroup i marked, 0)
          else
            some ({ fs.setGroup i { marked with
                freeInodes := gdp.freeInodes - 1
                usedDirs := if isDir then gdp.usedDirs + 1 else gdp.usedDirs } with
              freeInodes := fs.freeInodes - 1 }, ino)
      else if gdp.freeInodes ≠ 0 then some (fs, 0)
      else fs.newInode parent isDir fuel

def Inodes.freeInode (fs : Inodes) (ino : ℕ) (isDir : Bool) : Inodes :=
  if ino < firstIno ∨ fs.inodesCount < ino then fs
  else
    let i := (ino - 1) / fs.inodesPerGroup
    let bit := (ino - 1) % fs.inodesPerGroup
    let gdp := fs.group i
    if test gdp.bitmap bit then
      { fs.setGroup i { gdp with
          bitmap := clear gdp.bitmap bit
          freeInodes := gdp.freeInodes + 1
          usedDirs := if isDir then gdp.usedDirs - 1 else gdp.usedDirs } with
        freeInodes := fs.freeInodes + 1 }
    else fs

end LinuxKernel.Ext2
