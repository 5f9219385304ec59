import LinuxKernel.Ext2Bitmap

/-!
# The block allocator of ext2

`ext2_new_block` and `ext2_free_blocks` of `fs/ext2/balloc.c` with `ext2_alloc_block` and
`ext2_discard_prealloc` of `fs/ext2/inode.c`.  The super block is locked during the first two,
so that each is one step.  Which buffer holds a bitmap is left out: `load_block_bitmap`
stands for the bitmap of the group.  A call that panics or does not return is `none`.
-/

namespace LinuxKernel.Ext2
open Function

open BitWords

/-- The fields of the super block that the allocator reads and never writes.  The bitmap of a
group fills `wordsPerGroup` words. -/
structure BlockSuper where
  firstDataBlock : ℕ
  blocksCount : ℕ
  rBlocksCount : ℕ
  wordsPerGroup : ℕ
  itbPerGroup : ℕ
  checkStrict : Bool

def BlockSuper.blocksPerGroup (sb : BlockSuper) : ℕ := 32 * sb.wordsPerGroup

def BlockSuper.groupsCount (sb : BlockSuper) : ℕ :=
  (sb.blocksCount - sb.firstDataBlock + sb.blocksPerGroup - 1) / sb.blocksPerGroup

structure GroupBlocks where
  blockBitmap : ℕ
  inodeBitmap : ℕ
  inodeTable : ℕ

structure Prealloc where
  count : ℕ
  block : ℕ

structure Blocks where
  sb : BlockSuper
  group : ℕ → GroupBlocks
  bitmap : ℕ → Words
  groupFree : ℕ → ℕ
  free : ℕ
  inode : ℕ → Prealloc

def inRange (b first len : ℕ) : Bool := decide (first ≤ b) && decide (b ≤ first + len - 1)

def Blocks.number (fs : Blocks) (i j : ℕ) : ℕ := j + i * fs.sb.blocksPerGroup + fs.sb.firstDataBlock

def searchGoal (w : Words) (blocksPerGroup j : ℕ) : Option ℕ :=
  if test w j = false then some j
  else
    match if j ≠ 0 then findNear w blocksPerGroup j else none with
    | some k => some k
    | none =>
      let k := 8 * findFirstZeroByte w (j / 8) ((blocksPerGroup - j + 7) / 8)
      if k < blocksPerGroup then some (searchBack w 7 k)
      else
        let k := findNextZeroBit w blocksPerGroup j
        if k < blocksPerGroup then some k else none

def searchGroup (w : Words) (blocksPerGroup : ℕ) : Option ℕ :=
  let j := 8 * findFirstZeroByte w 0 (blocksPerGroup / 8)
  if j < blocksPerGroup then some (searchBack w 7 j)
  else
    let j := findFirstZeroBit w blocksPerGroup
    if j < blocksPerGroup then some (searchBack w 7 j) else none

/-- The next group with free blocks, of the `k` groups behind group `i`. -/
def Blocks.nextGroup (fs : Blocks) : ℕ → ℕ → Option ℕ
  | 0, _ => none
  | k + 1, i =>
    let i := if fs.sb.groupsCount ≤ i + 1 then 0 else i + 1
    if 0 < fs.groupFree i then some i else fs.nextGroup k i

def Blocks.searchRest (fs : Blocks) (i : ℕ) : Option (ℕ × ℕ) :=
  match fs.nextGroup fs.sb.groupsCount i with
  | none => none
  | some i => (searchGroup (fs.bitmap i) fs.sb.blocksPerGroup).map fun j => (i, j)

/-- The group and the bit that `ext2_new_block` comes to at `got_block`. -/
def Blocks.search (fs : Blocks) (goal : ℕ) : Option (ℕ × ℕ) :=
  let i := (goal - fs.sb.firstDataBlock) / fs.sb.blocksPerGroup
  if 0 < fs.groupFree i then
    let j := (goal - fs.sb.firstDataBlock) % fs.sb.blocksPerGroup
    match searchGoal (fs.bitmap i) fs.sb.blocksPerGroup j with
    | some j => some (i, j)
    | none => fs.searchRest i
  else fs.searchRest i

/-- The loop of the preallocation, for the bits from `j + k` on. -/
def preallocate (blocksPerGroup j : ℕ) : ℕ → ℕ → Words → ℕ → Words × ℕ
  | 0, _, w, count => (w, count)
  | n + 1, k, w, count =>
    if j + k < blocksPerGroup then
      if test w (j + k) then (w, count)
      else preallocate blocksPerGroup j n (k + 1) (set w (j + k)) (count + 1)
    else (w, count)

structure NewBlock where
  fs : Blocks
  block : ℕ
  prealloc : Option Prealloc

/-- Whether `CHECK_STRICT` finds the block among the bitmaps and the inode table. -/
def Blocks.inSystemZone (fs : Blocks) (i block : ℕ) : Bool :=
  decide (block = (fs.group i).blockBitmap) || decide (block = (fs.group i).inodeBitmap) ||
    inRange block (fs.group i).inodeTable fs.sb.itbPerGroup

/-- `ext2_new_block` behind `set_bit`, which has found the bit clear. -/
def Blocks.gotBlock (fs : Blocks) (i j : ℕ) (prealloc : Bool) : NewBlock :=
  let tmp := fs.number i j
  let w := set (fs.bitmap i) j
  let (w, count) := if prealloc then preallocate fs.sb.blocksPerGroup j 7 1 w 0 else (w, 0)
  let kept := { fs with
    bitmap := update fs.bitmap i w
    groupFree := update fs.groupFree i (fs.groupFree i - count)
    free := fs.free - count }
  let left := if prealloc then some ⟨count, tmp + 1⟩ else none
  if fs.sb.blocksCount ≤ tmp then ⟨kept, 0, left⟩
  else
    ⟨{ kept with
        groupFree := update kept.groupFree i (kept.groupFree i - 1)
        free := kept.free - 1 }, tmp, left⟩

def Blocks.newBlockRepeat (fs : Blocks) (prealloc : Bool) : ℕ → ℕ → Option NewBlock
  | 0, _ => none
  | fuel + 1, goal =>
    let goal := if goal < fs.sb.firstDataBlock ∨ fs.sb.blocksCount ≤ goal then
      fs.sb.firstDataBlock else goal
    match fs.search goal with
    | none => some ⟨fs, 0, none⟩
    | some (i, j) =>
      if fs.sb.checkStrict ∧ fs.inSystemZone i (fs.number i j) then none
      else if test (fs.bitmap i) j then fs.newBlockRepeat prealloc fuel goal
      else some (fs.gotBlock i j prealloc)

def Blocks.newBlock (fs : Blocks) (fuel goal : ℕ) (prealloc suser : Bool) : Option NewBlock :=
  if fs.free ≤ fs.sb.rBlocksCount ∧ suser = false then some ⟨fs, 0, none⟩
  else fs.newBlockRepeat prealloc fuel goal

def Blocks.clearBits (fs : Blocks) (i : ℕ) : ℕ → ℕ → Blocks
  | 0, _ => fs
  | count + 1, bit =>
    if test (fs.bitmap i) bit then
      { fs with
        bitmap := update fs.bitmap i (clear (fs.bitmap i) bit)
        groupFree := update fs.groupFree i (fs.groupFree i + 1)
        free := fs.free + 1 }.clearBits i count (bit + 1)
    else fs.clearBits i count (bit + 1)

def Blocks.freesSystemZone (fs : Blocks) (i block count : ℕ) : Bool :=
  inRange (fs.group i).blockBitmap block count || inRange (fs.group i).inodeBitmap block count ||
    inRange block (fs.group i).inodeTable fs.sb.itbPerGroup ||
    inRange (block + count - 1) (fs.group i).inodeTable fs.sb.itbPerGroup

def Blocks.freeBlocks (fs : Blocks) (block count : ℕ) : Option Blocks :=
  if block < fs.sb.firstDataBlock ∨ fs.sb.blocksCount < block + count then some fs
  else
    let i := (block - fs.sb.firstDataBlock) / fs.sb.blocksPerGroup
    let bit := (block - fs.sb.firstDataBlock) % fs.sb.blocksPerGroup
    if fs.sb.blocksPerGroup < bit + count then none
    else if fs.sb.checkStrict ∧ fs.freesSystemZone i block count then none
    else some (fs.clearBits i count bit)

def Blocks.setInode (fs : Blocks) (ino : ℕ) (p : Prealloc) : Blocks :=
  { fs with inode := update fs.inode ino p }

def Blocks.discardPrealloc (fs : Blocks) (ino : ℕ) : Option Blocks :=
  let p := fs.inode ino
  if p.count ≠ 0 then (fs.setInode ino { p with count := 0 }).freeBlocks p.block p.count
  else some fs

def Blocks.allocBlock (fs : Blocks) (fuel ino goal : ℕ) (isReg suser : Bool) :
    Option (Blocks × ℕ) :=
  let p := fs.inode ino
  if p.count ≠ 0 ∧ (goal = p.block ∨ goal + 1 = p.block) then
    some (fs.setInode ino ⟨p.count - 1, p.block + 1⟩, p.block)
  else
    match fs.discardPrealloc ino with
    | none => none
    | some fs =>
      match fs.newBlock fuel goal isReg suser with
      | none => none
      | some r =>
        match r.prealloc with
        | some p => some (r.fs.setInode ino p, r.block)
        | none => some (r.fs, r.block)

inductive BlockCall where
  | newBlock (goal : ℕ) (prealloc suser : Bool)
  | freeBlocks (block count : ℕ)
  | allocBlock (ino goal : ℕ) (isReg suser : Bool)
  | discardPrealloc (ino : ℕ)

def Blocks.step (fs : Blocks) (fuel : ℕ) : BlockCall → Option Blocks
  | .newBlock goal prealloc suser => (fs.newBlock fuel goal prealloc suser).map NewBlock.fs
  | .freeBlocks block count => fs.freeBlocks block count
  | .allocBlock ino goal isReg suser => (fs.allocBlock fuel ino goal isReg suser).map Prod.fst
  | .discardPrealloc ino => fs.discardPrealloc ino

def Blocks.run (fs : Blocks) (fuel : ℕ) : List BlockCall → Option Blocks
  | [] => some fs
  | call :: calls =>
    match fs.step fuel call with
    | none => none
    | some fs => fs.run fuel calls

end LinuxKernel.Ext2
