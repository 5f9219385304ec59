import LinuxKernel.Ext2TreeModel

/-!
# `ext2_truncate`

The routines of `fs/ext2/truncate.c` for an inode that nobody else uses: no buffer is held by
another, nothing changes while a routine sleeps, and `retry` stays 0.  What is passed to
`ext2_free_blocks` is kept in a list.
-/

namespace LinuxKernel.Ext2Tree

/-- The inode, `i_blocks`, and the calls of `ext2_free_blocks` with block and count. -/
structure Truncation where
  tree : Tree
  iBlocks : ℤ
  frees : List (ℕ × ℕ)

namespace Truncation

def freeBlocks (s : Truncation) (block count : ℕ) : Truncation :=
  { s with frees := s.frees ++ [(block, count)] }

def clear (s : Truncation) (p : Slot) (blocks : ℕ) : Truncation :=
  { s with tree := s.tree.write p 0, iBlocks := s.iBlocks - blocks }

/-- Block `tmp` goes to `block_to_free` and `free_count`, which are passed on when it does not
follow. -/
def take (s : Truncation) (run : ℕ × ℕ) (tmp : ℕ) : Truncation × (ℕ × ℕ) :=
  if run.2 = 0 then (s, (tmp, 1))
  else if run.1 + run.2 = tmp then (s, (run.1, run.2 + 1))
  else (s.freeBlocks run.1 run.2, (tmp, 1))

def flush (s : Truncation) (run : ℕ × ℕ) : Truncation :=
  if 0 < run.2 then s.freeBlocks run.1 run.2 else s

/-- The loop of `trunc_direct` and of `trunc_indirect`, for `n` slots from `slot i` on. -/
def dataLoop (slot : ℕ → Slot) (blocks : ℕ) : ℕ → ℕ → Truncation × (ℕ × ℕ) → Truncation × (ℕ × ℕ)
  | 0, _, s => s
  | n + 1, i, s =>
    let tmp := s.1.tree.read (slot i)
    if tmp = 0 then dataLoop slot blocks n (i + 1) s
    else dataLoop slot blocks n (i + 1) ((s.1.clear (slot i) blocks).take s.2 tmp)

/-- The end of a routine for the index block `bh` of slot `p`: without an entry it is freed. -/
def finish (s : Truncation) (a blocks : ℕ) (p : Slot) (bh : ℕ) : Truncation :=
  if ∀ i < a, s.tree.read (.entry bh i) = 0 then
    let tmp := s.tree.read p
    (s.clear p blocks).freeBlocks tmp 1
  else s

end Truncation

/-- What the routines read and do not change: which index blocks `bread` can read,
`addr_per_block`, the sectors in a block, and `DIRECT_BLOCK`. -/
structure Job where
  ok : ℕ → Bool
  a : ℕ
  blocks : ℕ
  size : ℕ

namespace Job

open Truncation

def truncDirect (v : Job) (s : Truncation) : Truncation :=
  let r := dataLoop .data v.blocks (ndirBlocks - v.size) v.size (s, (0, 0))
  r.1.flush r.2

def truncIndirect (v : Job) (offset : ℕ) (p : Slot) (s : Truncation) : Truncation :=
  let tmp := s.tree.read p
  if tmp = 0 then s
  else if v.ok tmp = false then { s with tree := s.tree.write p 0 }
  else
    let indirectBlock := ((v.size : ℤ) - offset).toNat
    let r := dataLoop (.entry tmp) v.blocks (v.a - indirectBlock) indirectBlock (s, (0, 0))
    (r.1.flush r.2).finish v.a v.blocks p tmp

def dindirectLoop (v : Job) (offset bh : ℕ) : ℕ → ℕ → Truncation → Truncation
  | 0, _, s => s
  | n + 1, i, s =>
    if s.tree.read (.entry bh i) = 0 then v.dindirectLoop offset bh n (i + 1) s
    else v.dindirectLoop offset bh n (i + 1) (v.truncIndirect (offset + i * v.a) (.entry bh i) s)

def truncDindirect (v : Job) (offset : ℕ) (p : Slot) (s : Truncation) : Truncation :=
  let tmp := s.tree.read p
  if tmp = 0 then s
  else if v.ok tmp = false then { s with tree := s.tree.write p 0 }
  else
    let dindirectBlock := (((v.size : ℤ) - offset).tdiv v.a).toNat
    (v.dindirectLoop offset tmp (v.a - dindirectBlock) dindirectBlock s).finish v.a v.blocks p tmp

def tindirectLoop (v : Job) (bh : ℕ) : ℕ → ℕ → Truncation → Truncation
  | 0, _, s => s
  | n + 1, i, s =>
    v.tindirectLoop bh n (i + 1)
      (v.truncDindirect (ndirBlocks + v.a + (i + 1) * v.a * v.a) (.entry bh i) s)

def truncTindirect (v : Job) (s : Truncation) : Truncation :=
  let p := Slot.data tindBlock
  let tmp := s.tree.read p
  if tmp = 0 then s
  else if v.ok tmp = false then { s with tree := s.tree.write p 0 }
  else
    let tindirectBlock :=
      (((v.size : ℤ) - (v.a * v.a + v.a + ndirBlocks : ℕ)).tdiv (v.a * v.a : ℕ)).toNat
    (v.tindirectLoop tmp (v.a - tindirectBlock) tindirectBlock s).finish v.a v.blocks p tmp

end Job

/-- The inode of `ext2_truncate`: the tree, `i_blocks`, `i_size`, and the blocks that have been
preallocated. -/
structure Inode where
  tree : Tree
  iBlocks : ℤ
  size : ℕ
  preallocBlock : ℕ
  preallocCount : ℕ

def Inode.discardPrealloc (ino : Inode) : Truncation :=
  if ino.preallocCount ≠ 0 then ⟨ino.tree, ino.iBlocks, [(ino.preallocBlock, ino.preallocCount)]⟩
  else ⟨ino.tree, ino.iBlocks, []⟩

/-- `ext2_truncate` of a file, a directory or a symbolic link; `blocksize` is `s_blocksize`. -/
def truncate (ok : ℕ → Bool) (blocksize : ℕ) (ino : Inode) : Truncation :=
  let a := blocksize / 4
  let v : Job := ⟨ok, a, blocksize / 512, (ino.size + blocksize - 1) / blocksize⟩
  let s := v.truncDirect ino.discardPrealloc
  let s := v.truncIndirect indBlock (.data indBlock) s
  let s := v.truncDindirect (indBlock + a) (.data dindBlock) s
  v.truncTindirect s

end LinuxKernel.Ext2Tree
