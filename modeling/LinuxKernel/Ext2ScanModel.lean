import LinuxKernel.TurnRun
import Mathlib.Tactic

/-!
# Scans of directory blocks of ext2 with any contents

`ext2_find_entry`, `ext2_delete_entry` and `empty_dir` of `fs/ext2/namei.c` and `ext2_readdir` of
`fs/ext2/dir.c`, on the bytes.  A block is the memory from its start on; what is behind its end is
there too, and belongs to others.  Every loop keeps a list of what it reads.  Reading ahead is left
out: a block is read when its turn comes.
-/

namespace LinuxKernel.Ext2Scan

abbrev Bytes := ℕ → BitVec 8

/-- What is read: `n` bytes from `p` on in the block, or something through a null pointer. -/
inductive Look
  | bytes (p n : ℕ)
  | null
deriving DecidableEq

def Look.Inside (blocksize : ℕ) : Look → Prop
  | .bytes p n => p + n ≤ blocksize
  | .null => False

/-! ## Records -/

def le16 (m : Bytes) (p : ℕ) : ℕ := (m p).toNat + 256 * (m (p + 1)).toNat

def inode (m : Bytes) (de : ℕ) : ℕ := le16 m de + 65536 * le16 m (de + 2)

def recLen (m : Bytes) (de : ℕ) : ℕ := le16 m (de + 4)

def nameLen (m : Bytes) (de : ℕ) : ℕ := le16 m (de + 6)

def nameAt (de : ℕ) : ℕ := de + 8

def header (de : ℕ) : Look := .bytes de 8

def dirRecLen (nameLen : ℕ) : ℕ := (nameLen + 8 + 3) / 4 * 4

def checkDirEntry (dir : Option ℕ) (m : Bytes) (de : ℕ) : Bool :=
  decide (dirRecLen 1 ≤ recLen m de) && decide (recLen m de % 4 = 0) &&
    decide (dirRecLen (nameLen m de) ≤ recLen m de) &&
      match dir with
      | some blocksize => decide (de + recLen m de ≤ blocksize)
      | none => true

def matchName (name : List (BitVec 8)) (m : Bytes) (de : ℕ) : Bool :=
  decide (inode m de ≠ 0) &&
    (decide (name.length = 0 ∧ nameLen m de = 1 ∧ m (nameAt de) = 0x2e ∧ m (nameAt de + 1) = 0) ||
      decide (name.length = nameLen m de ∧ ∀ i < name.length, name.getD i 0 = m (nameAt de + i)))

def matchLooks (name : List (BitVec 8)) (m : Bytes) (de : ℕ) : List Look :=
  if inode m de = 0 then []
  else if name.length = 0 ∧ nameLen m de = 1 then [.bytes (nameAt de) 2]
  else if name.length = nameLen m de then [.bytes (nameAt de) (nameLen m de)]
  else []

/-- At the head of the loop for the blocks, or of that for the records of a block. -/
inductive FindState
  | outer (block offset : ℕ)
  | inner (block offset : ℕ) (m : Bytes) (de : ℕ)

/-- A turn of `ext2_find_entry`; it returns the block and the place of the entry. -/
def findTurn (bread : ℕ → Option Bytes) (blocksize size : ℕ) (name : List (BitVec 8)) :
    FindState → List Look × (FindState ⊕ Option (ℕ × ℕ))
  | .outer block offset =>
    if size ≤ offset then ([], .inr none)
    else
      match bread block with
      | none => ([], .inr none)
      | some m => ([], .inl (.inner block offset m 0))
  | .inner block offset m de =>
    if blocksize ≤ de then ([], .inl (.outer (block + 1) offset))
    else if checkDirEntry (some blocksize) m de = false then ([header de], .inr none)
    else if matchName name m de then (header de :: matchLooks name m de, .inr (some (block, de)))
    else
      (header de :: matchLooks name m de,
        .inl (.inner block (offset + recLen m de) m (de + recLen m de)))

def findEntry (bread : ℕ → Option Bytes) (blocksize size : ℕ) (name : List (BitVec 8)) :
    List Look × Option (Option (ℕ × ℕ)) :=
  TurnRun.run (findTurn bread blocksize size (name.take 255)) (2 * (size + blocksize + 2))
    (.outer 0 0)

inductive ReadState
  | outer (pos : ℕ)
  | inner (pos offset : ℕ) (m : Bytes)

/-- A turn of `ext2_readdir`; `pos` is `f_pos`.  It returns the new `f_pos` and the length of the
name. -/
def readTurn (bread : ℕ → Option Bytes) (blocksize size : ℕ) :
    ReadState → List Look × (ReadState ⊕ ℕ × ℕ)
  | .outer pos =>
    if size ≤ pos then ([], .inr (pos, 0))
    else
      match bread (pos / blocksize) with
      | none => ([], .inl (.outer (pos + (blocksize - pos % blocksize))))
      | some m => ([], .inl (.inner pos (pos % blocksize) m))
  | .inner pos offset m =>
    if ¬ (offset < blocksize ∧ pos < size) then ([], .inl (.outer pos))
    else if checkDirEntry (some blocksize) m offset = false then ([header offset], .inr (pos, 0))
    else if inode m offset ≠ 0 then
      ([header offset, .bytes (nameAt offset) (nameLen m offset)],
        .inr (pos + recLen m offset, nameLen m offset))
    else ([header offset], .inl (.inner (pos + recLen m offset) (offset + recLen m offset) m))

def readdir (bread : ℕ → Option Bytes) (blocksize size pos : ℕ) : List Look × Option (ℕ × ℕ) :=
  TurnRun.run (readTurn bread blocksize size) (2 * (size + blocksize + 2)) (.outer pos)

inductive Deleted
  | ok
  | eio
  | enoent
deriving DecidableEq

/-- A turn of `ext2_delete_entry` for the record at `dir`.  The check gets no directory, and takes
the super block of it for its report. -/
def deleteTurn (blocksize : ℕ) (m : Bytes) (dir i : ℕ) : List Look × (ℕ ⊕ Deleted) :=
  if blocksize ≤ i then ([], .inr .enoent)
  else if checkDirEntry none m i = false then ([header i, .null], .inr .eio)
  else if i = dir then ([header i], .inr .ok)
  else ([header i], .inl (i + recLen m i))

def deleteEntry (blocksize : ℕ) (m : Bytes) (dir : ℕ) : List Look × Option Deleted :=
  TurnRun.run (deleteTurn blocksize m dir) (blocksize + 2) 0

/-- `strcmp` of a string and the bytes at `p`: how many bytes it reads, and whether they are equal.
-/
def strcmp : List (BitVec 8) → Bytes → ℕ → ℕ × Bool
  | [], m, p => (1, decide (m p = 0))
  | c :: s, m, p =>
    if m p = c then ((strcmp s m (p + 1)).1 + 1, (strcmp s m (p + 1)).2) else (1, false)

def dot : List (BitVec 8) := [0x2e]

def dotdot : List (BitVec 8) := [0x2e, 0x2e]

/-- The loop of `empty_dir`: the block in hand, and the record in it. -/
structure EmptyState where
  offset : ℕ
  bh : Option Bytes
  de : ℕ

def emptyTurn (bread : ℕ → Option Bytes) (blocksize size : ℕ) (s : EmptyState) :
    List Look × (EmptyState ⊕ Bool) :=
  if size ≤ s.offset then ([], .inr true)
  else
    match s.bh with
    | none => ([.null], .inr true)
    | some m =>
      if blocksize ≤ s.de then
        match bread (s.offset / blocksize) with
        | none => ([], .inl ⟨s.offset + blocksize, none, s.de⟩)
        | some m' => ([], .inl ⟨s.offset, some m', 0⟩)
      else if checkDirEntry (some blocksize) m s.de = false then ([header s.de], .inr true)
      else if inode m s.de ≠ 0 then ([header s.de], .inr false)
      else ([header s.de], .inl ⟨s.offset + recLen m s.de, some m, s.de + recLen m s.de⟩)

def firstRecords (m : Bytes) (ino : ℕ) : List Look × Bool :=
  let de1 := recLen m 0
  if inode m 0 ≠ ino then ([header 0], false)
  else if inode m de1 = 0 then ([header 0, header de1], false)
  else if (strcmp dot m (nameAt 0)).2 = false then
    ([header 0, header de1, .bytes (nameAt 0) (strcmp dot m (nameAt 0)).1], false)
  else
    ([header 0, header de1, .bytes (nameAt 0) (strcmp dot m (nameAt 0)).1,
      .bytes (nameAt de1) (strcmp dotdot m (nameAt de1)).1], (strcmp dotdot m (nameAt de1)).2)

def emptyDir (bread : ℕ → Option Bytes) (blocksize size ino : ℕ) : List Look × Option Bool :=
  if size < dirRecLen 1 + dirRecLen 2 then ([], some true)
  else
    match bread 0 with
    | none => ([], some true)
    | some m =>
      let first := firstRecords m ino
      if first.2 = false then (first.1, some true)
      else
        let offset := recLen m 0 + recLen m (recLen m 0)
        let rest := TurnRun.run (emptyTurn bread blocksize size) (2 * (size + blocksize + 2))
          ⟨offset, some m, offset⟩
        (first.1 ++ rest.1, rest.2)

end LinuxKernel.Ext2Scan
