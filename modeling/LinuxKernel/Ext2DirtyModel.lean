import LinuxKernel.Ext2BlockModel
import LinuxKernel.Ext2InodeModel

/-!
# Which buffers the allocators of ext2 mark

The four calls of `fs/ext2/ialloc.c` and `fs/ext2/balloc.c` with the buffers that they change and
those that they mark dirty.  `bh2` is the buffer of the descriptor that `get_group_desc` has looked
at last, the counts are changed through `gdp`.
-/

namespace LinuxKernel.Ext2
open Function

open BitWords

/-- The buffers: the bitmaps of a group, a block of descriptors, the super block, a block of the
inode table of a group, and any other block. -/
inductive Buffer where
  | blockBitmap (i : ℕ)
  | inodeBitmap (i : ℕ)
  | groupDesc (k : ℕ)
  | superBlock
  | inodeTable (i k : ℕ)
  | block (n : ℕ)
deriving DecidableEq

structure RawInode where
  links : ℕ
  dtime : ℕ
  version : ℕ

/-- A mounted file system; `sync` is `MS_SYNC`, and `wrote` has the buffers that a call has written
at once. -/
structure Fs where
  blocks : Blocks
  inodesPerGroup : ℕ
  inodesPerBlock : ℕ
  inodesCount : ℕ
  descPerBlock : ℕ
  inodeBitmap : ℕ → Words
  groupFreeInodes : ℕ → ℕ
  usedDirs : ℕ → ℕ
  freeInodes : ℕ
  raw : ℕ → RawInode
  data : ℕ → ℕ → BitVec 8
  dirt : Buffer → Bool
  wrote : List Buffer
  sync : Bool

namespace Fs

def inodes (fs : Fs) : Inodes where
  groupsCount := fs.blocks.sb.groupsCount
  inodesPerGroup := fs.inodesPerGroup
  inodesCount := fs.inodesCount
  group := fun i =>
    ⟨fs.inodeBitmap i, fs.groupFreeInodes i, fs.blocks.groupFree i, fs.usedDirs i⟩
  freeInodes := fs.freeInodes

def descOf (fs : Fs) (i : ℕ) : Buffer := .groupDesc (i / fs.descPerBlock)

def tableOf (fs : Fs) (ino : ℕ) : Buffer :=
  .inodeTable ((ino - 1) / fs.inodesPerGroup) ((ino - 1) % fs.inodesPerGroup / fs.inodesPerBlock)

def mark (fs : Fs) (b : Buffer) : Fs := { fs with dirt := update fs.dirt b true }

/-- With `MS_SYNC` the buffer is written at once, and then it is clean. -/
def writeSync (fs : Fs) (sync : Bool) (b : Buffer) : Fs :=
  { fs with
    dirt := if sync then update fs.dirt b false else fs.dirt
    wrote := if sync then b :: fs.wrote else fs.wrote }

def Same (fs fs' : Fs) : Buffer → Prop
  | .blockBitmap i => fs'.blocks.bitmap i = fs.blocks.bitmap i
  | .inodeBitmap i => fs'.inodeBitmap i = fs.inodeBitmap i
  | .groupDesc k => ∀ i, i / fs.descPerBlock = k →
      fs'.blocks.groupFree i = fs.blocks.groupFree i ∧
        fs'.groupFreeInodes i = fs.groupFreeInodes i ∧ fs'.usedDirs i = fs.usedDirs i
  | .superBlock => fs'.blocks.free = fs.blocks.free ∧ fs'.freeInodes = fs.freeInodes
  | .inodeTable i k => ∀ ino, fs.tableOf ino = .inodeTable i k → fs'.raw ino = fs.raw ino
  | .block n => fs'.data n = fs.data n

end Fs

def Inodes.dirLooked (fs : Inodes) (avefreei : ℕ) : ℕ → ℕ → Option ℕ → ℕ → Option ℕ × ℕ
  | 0, _, gdp, bh2 => (gdp, bh2)
  | n + 1, j, gdp, _ =>
    let tmp := fs.group j
    fs.dirLooked avefreei n (j + 1)
      (if tmp.freeInodes ≠ 0 ∧ avefreei ≤ tmp.freeInodes ∧ fs.better j gdp = true then some j
        else gdp) j

def Inodes.hashLooked (fs : Inodes) : ℕ → ℕ → ℕ → ℕ → Option ℕ × ℕ
  | 0, _, _, bh2 => (none, bh2)
  | n + 1, j, i, bh2 =>
    if j < fs.groupsCount then
      let i := if fs.groupsCount ≤ i + j then i + j - fs.groupsCount else i + j
      if (fs.group i).freeInodes ≠ 0 then (some i, i) else fs.hashLooked n (2 * j) i i
    else (none, bh2)

def Inodes.linearLooked (fs : Inodes) : ℕ → ℕ → ℕ → Option ℕ × ℕ
  | 0, _, bh2 => (none, bh2)
  | n + 1, i, _ =>
    let i := if fs.groupsCount ≤ i + 1 then 0 else i + 1
    if (fs.group i).freeInodes ≠ 0 then (some i, i) else fs.linearLooked n i i

def Inodes.fileLooked (fs : Inodes) (parent : ℕ) : Option ℕ × ℕ :=
  if (fs.group parent).freeInodes ≠ 0 then (some parent, parent)
  else
    match fs.hashLooked fs.groupsCount 1 parent parent with
    | (some i, bh2) => (some i, bh2)
    | (none, bh2) => fs.linearLooked (fs.groupsCount - 2) (parent + 1) bh2

def Inodes.chooseLooked (fs : Inodes) (parent : ℕ) (isDir : Bool) : Option ℕ × ℕ :=
  if isDir then fs.dirLooked (fs.freeInodes / fs.groupsCount) fs.groupsCount 0 none 0
  else fs.fileLooked parent

def Blocks.nextLooked (fs : Blocks) : ℕ → ℕ → ℕ → Option ℕ × ℕ
  | 0, _, bh2 => (none, bh2)
  | k + 1, i, _ =>
    let i := if fs.sb.groupsCount ≤ i + 1 then 0 else i + 1
    if 0 < fs.groupFree i then (some i, i) else fs.nextLooked k i i

/-- `Blocks.search` with `bh2`: the group, the bit and the group looked at last. -/
def Blocks.searchLooked (fs : Blocks) (goal : ℕ) : Option (ℕ × ℕ × ℕ) :=
  let i := (goal - fs.sb.firstDataBlock) / fs.sb.blocksPerGroup
  let j := (goal - fs.sb.firstDataBlock) % fs.sb.blocksPerGroup
  let here := if 0 < fs.groupFree i then searchGoal (fs.bitmap i) fs.sb.blocksPerGroup j else none
  match here with
  | some j => some (i, j, i)
  | none =>
    match fs.nextLooked fs.sb.groupsCount i i with
    | (none, _) => none
    | (some i, bh2) => (searchGroup (fs.bitmap i) fs.sb.blocksPerGroup).map fun j => (i, j, bh2)

/-! ## The calls -/

namespace Fs

def incInodeVersion (fs : Fs) (ino : ℕ) : Fs :=
  { fs with
    raw := update fs.raw ino { fs.raw ino with version := (fs.raw ino).version + 1 } }.mark
      (fs.tableOf ino)

def setInodeDtime (fs : Fs) (ino now : ℕ) (isSync : Bool) : Fs :=
  ({ fs with
    raw := update fs.raw ino { fs.raw ino with links := 0, dtime := now } }.mark
      (fs.tableOf ino)).writeSync isSync (fs.tableOf ino)

def setInodeBit (fs : Fs) (i j : ℕ) : Fs :=
  ({ fs with
    inodeBitmap := update fs.inodeBitmap i (set (fs.inodeBitmap i) j) }.mark
      (.inodeBitmap i)).writeSync fs.sync (.inodeBitmap i)

def countInode (fs : Fs) (i bh2 ino : ℕ) (isDir : Bool) : Fs :=
  let fs :=
    { fs with
      groupFreeInodes := update fs.groupFreeInodes i (fs.groupFreeInodes i - 1)
      usedDirs := if isDir then update fs.usedDirs i (fs.usedDirs i + 1) else fs.usedDirs }.mark
      (fs.descOf bh2)
  let fs := { fs with freeInodes := fs.freeInodes - 1 }.mark .superBlock
  fs.incInodeVersion ino

def newInode (fs : Fs) (parent : ℕ) (isDir : Bool) : ℕ → Option (Fs × ℕ)
  | 0 => none
  | fuel + 1 =>
    match fs.inodes.chooseLooked parent isDir with
    | (none, _) => some (fs, 0)
    | (some i, bh2) =>
      let j := findFirstZeroBit (fs.inodeBitmap i) fs.inodesPerGroup
      if j < fs.inodesPerGroup then
        if test (fs.inodeBitmap i) j then fs.newInode parent isDir fuel
        else
          let ino := j + i * fs.inodesPerGroup + 1
          if ino < firstIno ∨ fs.inodesCount < ino then some (fs.setInodeBit i j, 0)
          else some ((fs.setInodeBit i j).countInode i bh2 ino isDir, ino)
      else if fs.groupFreeInodes i ≠ 0 then some (fs, 0)
      else fs.newInode parent isDir fuel

def uncountInode (fs : Fs) (i ino : ℕ) (isDir isSync : Bool) (now : ℕ) : Fs :=
  let fs :=
    { fs with
      inodeBitmap := update fs.inodeBitmap i
        (clear (fs.inodeBitmap i) ((ino - 1) % fs.inodesPerGroup))
      groupFreeInodes := update fs.groupFreeInodes i (fs.groupFreeInodes i + 1)
      usedDirs := if isDir then update fs.usedDirs i (fs.usedDirs i - 1) else fs.usedDirs }.mark
      (fs.descOf i)
  let fs := { fs with freeInodes := fs.freeInodes + 1 }.mark .superBlock
  fs.setInodeDtime ino now isSync

/-- `ext2_free_inode` for an inode without links that nobody else uses; it fails for a reserved
number. -/
def freeInode (fs : Fs) (ino : ℕ) (isDir isSync : Bool) (now : ℕ) : Option Fs :=
  if ino < firstIno ∨ fs.inodesCount < ino then none
  else
    let i := (ino - 1) / fs.inodesPerGroup
    let freed :=
      if test (fs.inodeBitmap i) ((ino - 1) % fs.inodesPerGroup) then
        fs.uncountInode i ino isDir isSync now
      else fs
    some ((freed.mark (.inodeBitmap i)).writeSync fs.sync (.inodeBitmap i))

def setBlockBits (fs : Fs) (r : NewBlock) (i : ℕ) : Fs :=
  ({ fs with blocks := r.fs }.mark (.blockBitmap i)).writeSync fs.sync (.blockBitmap i)

/-- `ext2_new_block` behind the check of the number; `setBlockBits` has counted the block. -/
def countBlock (fs : Fs) (bh2 block : ℕ) : Fs :=
  let fs := { fs with data := update fs.data block fun _ => 0 }.mark (.block block)
  (fs.mark (fs.descOf bh2)).mark .superBlock

def newBlockRepeat (fs : Fs) (prealloc : Bool) : ℕ → ℕ → Option (Fs × ℕ)
  | 0, _ => none
  | fuel + 1, goal =>
    let sb := fs.blocks.sb
    let goal := if goal < sb.firstDataBlock ∨ sb.blocksCount ≤ goal then sb.firstDataBlock
      else goal
    match fs.blocks.searchLooked goal with
    | none => some (fs, 0)
    | some (i, j, bh2) =>
      if sb.checkStrict ∧ fs.blocks.inSystemZone i (fs.blocks.number i j) then none
      else if test (fs.blocks.bitmap i) j then fs.newBlockRepeat prealloc fuel goal
      else
        let r := fs.blocks.gotBlock i j prealloc
        if r.block = 0 then some (fs.setBlockBits r i, 0)
        else some ((fs.setBlockBits r i).countBlock bh2 r.block, r.block)

def newBlock (fs : Fs) (fuel goal : ℕ) (prealloc suser : Bool) : Option (Fs × ℕ) :=
  if fs.blocks.free ≤ fs.blocks.sb.rBlocksCount ∧ suser = false then some (fs, 0)
  else fs.newBlockRepeat prealloc fuel goal

/-- `ext2_free_blocks`; it fails for blocks that are not in the data zone, and when it panics. -/
def freeBlocks (fs : Fs) (block count : ℕ) : Option Fs :=
  let sb := fs.blocks.sb
  if block < sb.firstDataBlock ∨ sb.blocksCount < block + count then none
  else
    let i := (block - sb.firstDataBlock) / sb.blocksPerGroup
    (fs.blocks.freeBlocks block count).map fun blocks =>
      ((({ fs with blocks := blocks }.mark (fs.descOf i)).mark .superBlock).mark
        (.blockBitmap i)).writeSync fs.sync (.blockBitmap i)

end Fs

inductive MetadataCall where
  | newInode (parent : ℕ) (isDir : Bool)
  | freeInode (ino : ℕ) (isDir isSync : Bool) (now : ℕ)
  | newBlock (goal : ℕ) (prealloc suser : Bool)
  | freeBlocks (block count : ℕ)

def Fs.call (fs : Fs) (fuel : ℕ) (c : MetadataCall) : Option Fs :=
  let fs := { fs with wrote := [] }
  match c with
  | .newInode parent isDir =>
    (fs.newInode parent isDir fuel).bind fun r => if r.2 = 0 then none else some r.1
  | .freeInode ino isDir isSync now => fs.freeInode ino isDir isSync now
  | .newBlock goal prealloc suser =>
    (fs.newBlock fuel goal prealloc suser).bind fun r => if r.2 = 0 then none else some r.1
  | .freeBlocks block count => fs.freeBlocks block count

end LinuxKernel.Ext2
