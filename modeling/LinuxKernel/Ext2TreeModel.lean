import Mathlib.Data.Nat.Bitwise
import Mathlib.Tactic

/-!
# The blocks of a file in ext2

`ext2_bmap` and `ext2_getblk` of `fs/ext2/inode.c`.  A block of the disk has an array of words;
those of the blocks that are not index blocks do not matter here.  `ext2_bmap` is a function of the
tree whose index blocks can be read.  `ext2_getblk` sleeps in `getblk`, in `ext2_alloc_block` and
while an index block is read, so it is a machine whose steps are what happens between two such
places.  The goal of an allocation is left out: the block that `ext2_alloc_block` returns is an
answer from outside.
-/

namespace LinuxKernel.Ext2Tree

def ndirBlocks : ℕ := 12

def indBlock : ℕ := 12

def dindBlock : ℕ := 13

def tindBlock : ℕ := 14

/-- An inode with the index blocks: `i_data`, `i_blocks`, and the words of the blocks. -/
structure Tree where
  data : ℕ → ℕ
  store : ℕ → ℕ → ℕ
  blocks : ℕ

/-- A place for the number of a block: one of `i_data`, or a word of an index block. -/
inductive Slot where
  | data (nr : ℕ)
  | entry (bh nr : ℕ)
deriving DecidableEq

namespace Tree

def read (t : Tree) : Slot → ℕ
  | .data nr => t.data nr
  | .entry bh nr => t.store bh nr

def write (t : Tree) (s : Slot) (x : ℕ) : Tree :=
  match s with
  | .data nr => { t with data := Function.update t.data nr x }
  | .entry bh nr =>
    { t with store := Function.update t.store bh (Function.update (t.store bh) nr x) }

def inodeBmap (t : Tree) (nr : ℕ) : ℕ := t.data nr

def blockBmap (t : Tree) (bh nr : ℕ) : ℕ := t.store bh nr

def maxBlock (a : ℕ) : ℕ := ndirBlocks + a + a * a + a * a * a

def BmapAccepts (a : ℕ) (block : ℤ) : Prop := ¬ block < 0 ∧ ¬ maxBlock a ≤ block

instance (a : ℕ) (block : ℤ) : Decidable (BmapAccepts a block) := instDecidableAnd

def bmap (a : ℕ) (t : Tree) (block : ℤ) : ℕ :=
  if ¬ BmapAccepts a block then 0
  else
    let block := block.toNat
    if block < ndirBlocks then t.inodeBmap block
    else
      let block := block - ndirBlocks
      if block < a then
        let i := t.inodeBmap indBlock
        if i = 0 then 0 else t.blockBmap i block
      else
        let block := block - a
        if block < a * a then
          let i := t.inodeBmap dindBlock
          if i = 0 then 0
          else
            let i := t.blockBmap i (block / a)
            if i = 0 then 0 else t.blockBmap i (block &&& (a - 1))
        else
          let block := block - a * a
          let i := t.inodeBmap tindBlock
          if i = 0 then 0
          else
            let i := t.blockBmap i (block / (a * a))
            if i = 0 then 0
            else
              let i := t.blockBmap i (block / a &&& (a - 1))
              if i = 0 then 0 else t.blockBmap i (block &&& (a - 1))

end Tree

/-! ## `ext2_getblk` -/

def GetblkAccepts (a : ℕ) (block : ℤ) : Prop := ¬ block < 0 ∧ ¬ Tree.maxBlock a < block

instance (a : ℕ) (block : ℤ) : Decidable (GetblkAccepts a block) := instDecidableAnd

/-- The number `nr` of each `inode_getblk` and `block_getblk` that `ext2_getblk` calls. -/
def getblkPath (a : ℕ) (block : ℤ) : List ℕ :=
  let block := block.toNat
  if block < ndirBlocks then [block]
  else
    let block := block - ndirBlocks
    if block < a then [indBlock, block]
    else
      let block := block - a
      if block < a * a then [dindBlock, block / a, block &&& (a - 1)]
      else
        let block := block - a * a
        [tindBlock, block / (a * a), block / a &&& (a - 1), block &&& (a - 1)]

/-- Where `inode_getblk` or `block_getblk` is: at the read of an index block that is not up to date,
at `repeat`, behind `getblk` for the block of the slot, behind the test of `create`, behind `getblk`
for a new block; or the call has returned. -/
inductive Pc where
  | wait
  | look
  | got (tmp : ℕ)
  | alloc
  | filled (tmp : ℕ)
  | done (result : Option ℕ)
deriving DecidableEq

/-- A call: the index block that it holds, the number of the slot in it, and the numbers of the
calls to come. -/
structure Call where
  cur : Option ℕ
  nr : ℕ
  rest : List ℕ
  pc : Pc

namespace Call

def slot (c : Call) : Slot :=
  match c.cur with
  | none => .data c.nr
  | some bh => .entry bh c.nr

def start : List ℕ → Call
  | [] => ⟨none, 0, [], .done none⟩
  | nr :: rest => ⟨none, nr, rest, .look⟩

/-- `inode_getblk` or `block_getblk` returns the buffer of block `n`. -/
def advance (c : Call) (n : ℕ) : Call :=
  match c.rest with
  | [] => { c with pc := .done (some n) }
  | nr :: rest => ⟨some n, nr, rest, .wait⟩

def held (c : Call) : Option ℕ :=
  match c.pc with
  | .done r => r
  | _ => c.cur

def mine (c : Call) : Option ℕ :=
  match c.pc with
  | .filled tmp => some tmp
  | _ => none

end Call

/-- What a step gets from outside: whether a read has succeeded, and the block that
`ext2_alloc_block` has found. -/
structure Answer where
  uptodate : Bool
  block : ℕ

/-- A step; `mayCreate` is `create` with a block below the limit of the file size, `blocks` the
number of sectors in a block. -/
def step (mayCreate : Bool) (blocks : ℕ) (t : Tree) (c : Call) (ans : Answer) : Tree × Call :=
  match c.pc with
  | .wait => (t, { c with pc := if ans.uptodate then .look else .done none })
  | .look =>
    let tmp := t.read c.slot
    if tmp ≠ 0 then (t, { c with pc := .got tmp })
    else if mayCreate then (t, { c with pc := .alloc })
    else (t, { c with pc := .done none })
  | .got tmp =>
    if t.read c.slot = tmp then (t, c.advance tmp) else (t, { c with pc := .look })
  | .alloc =>
    if ans.block = 0 then (t, { c with pc := .done none })
    else (t, { c with pc := .filled ans.block })
  | .filled tmp =>
    if t.read c.slot ≠ 0 then (t, { c with pc := .look })
    else ({ t.write c.slot tmp with blocks := t.blocks + blocks }, c.advance tmp)
  | .done _ => (t, c)

end LinuxKernel.Ext2Tree
