import Mathlib.Tactic

/-!
# Text files of MS-DOS

`msdos_file_read` and `msdos_file_write` of `fs/msdos/file.c` for a file whose contents are
converted.  The clusters that the file system still has are a list, in the order in which
`msdos_add_cluster` finds them; the file has the first ones of that list.
-/

namespace LinuxKernel.MsdosText

abbrev Byte := BitVec 8

def cr : Byte := 13

def lf : Byte := 10

def eof : Byte := 26

def sectorSize : ℕ := 512

/-- A file system with an empty file; `bad` says which sectors cannot be read. -/
structure Volume where
  clusterSize : ℕ
  dataStart : ℕ
  free : List ℕ
  bad : ℕ → Bool
  clusterSize_pos : 0 < clusterSize
  nodup : free.Nodup
  two_le : ∀ c ∈ free, 2 ≤ c

/-- The file: how many of the clusters it has, the bytes of all sectors, and `i_size`. -/
structure File where
  clusters : ℕ
  data : ℕ → ℕ → Byte
  size : ℕ

inductive Err where
  | enospc
  | eio
deriving DecidableEq

namespace Volume

variable (v : Volume)

def sectorOf (cluster offset : ℕ) : ℕ := (cluster - 2) * v.clusterSize + v.dataStart + offset

def smap (f : File) (sector : ℕ) : Option ℕ :=
  ((v.free.take f.clusters)[sector / v.clusterSize]?).map fun cluster =>
    v.sectorOf cluster (sector % v.clusterSize)

def addCluster (f : File) : Option File :=
  (v.free[f.clusters]?).map fun cluster =>
    { f with
      clusters := f.clusters + 1
      data := fun s i =>
        if v.sectorOf cluster 0 ≤ s ∧ s < v.sectorOf cluster v.clusterSize then 0 else f.data s i }

def truncate (f : File) : File :=
  let cluster := sectorSize * v.clusterSize
  { f with clusters := min f.clusters ((f.size + (cluster - 1)) / cluster) }

/-- The loop that adds clusters until there is the sector; at most `n` clusters are added. -/
def place (sector : ℕ) : ℕ → File → File × Option ℕ
  | 0, f => (f, v.smap f sector)
  | n + 1, f =>
    match v.smap f sector with
    | some s => (f, some s)
    | none =>
      match v.addCluster f with
      | none => (f, none)
      | some f => place sector n f

end Volume

/-- The loop of `msdos_file_write` over the bytes, with `left` bytes of room: what is put into the
sector, the bytes that are left, and `carry`. -/
def fill : ℕ → List Byte → List Byte × List Byte × Bool
  | _, [] => ([], [], false)
  | 0, bs => ([], bs, false)
  | left + 1, ch :: bs =>
    if ch = lf then
      if left = 0 then ([cr], bs, true)
      else
        let r := fill (left - 1) bs
        (cr :: lf :: r.1, r.2)
    else
      let r := fill left bs
      (ch :: r.1, r.2)

def File.put (f : File) (sector pos : ℕ) (bytes : List Byte) : File where
  clusters := f.clusters
  data := fun s i =>
    if s = sector ∧ pos % sectorSize ≤ i ∧ i < pos % sectorSize + bytes.length then
      bytes.getD (i - pos % sectorSize) 0
    else f.data s i
  size := max f.size (pos + bytes.length)

def pending (carry : Bool) : List Byte := if carry then [lf] else []

@[simp]
theorem length_pending (carry : Bool) : (pending carry).length = carry.toNat := by
  cases carry <;> rfl

theorem fill_lt (left : ℕ) (bs : List Byte) :
    2 * (fill left bs).2.1.length + (fill left bs).2.2.toNat ≤ 2 * bs.length ∧
      (left ≠ 0 → bs ≠ [] →
        2 * (fill left bs).2.1.length + (fill left bs).2.2.toNat < 2 * bs.length) := by
  induction bs generalizing left with
  | nil => simp [fill]
  | cons ch bs ih =>
    cases left with
    | zero => simp [fill]
    | succ left =>
      rw [fill]
      split_ifs
      · simp
        omega
      · have := (ih (left - 1)).1
        simp
        omega
      · have := (ih left).1
        simp
        omega

/-- The loop of `msdos_file_write` for a text file: the file, `f_pos`, the bytes that have not been
taken, and the error. -/
def writeLoop (v : Volume) (f : File) (pos : ℕ) (bs : List Byte) (carry : Bool) :
    File × ℕ × List Byte × Option Err :=
  if bs = [] ∧ carry = false then (f, pos, bs, none)
  else
    match v.place (pos / sectorSize) (v.free.length + 1) f with
    | (f, none) => (v.truncate f, pos, bs, some .enospc)
    | (f, some sector) =>
      if v.bad sector then (f, pos, bs, some .eio)
      else
        let r := fill (sectorSize - pos % sectorSize - (pending carry).length) bs
        let out := pending carry ++ r.1
        writeLoop v (f.put sector pos out) (pos + out.length) r.2.1 r.2.2
termination_by 2 * bs.length + carry.toNat
decreasing_by
  have hfill := fill_lt (sectorSize - pos % sectorSize - (pending carry).length) bs
  have hhead := length_pending carry
  have hroom : 0 < sectorSize - pos % sectorSize := by
    simp only [sectorSize]
    omega
  cases hcarry : carry with
  | true =>
    rw [hcarry] at hfill
    have := hfill.1
    simp only [Bool.toNat_true]
    omega
  | false =>
    rw [hcarry, Bool.toNat_false] at hhead
    rw [hcarry] at hfill
    have := hfill.2 (by omega) (by simp_all)
    simp only [Bool.toNat_false]
    omega

structure Open where
  file : File
  pos : ℕ

def fileWrite (v : Volume) (o : Open) (buf : List Byte) : Open × Except Err ℕ :=
  if buf = [] then (o, .ok 0)
  else
    let r := writeLoop v o.file o.pos buf false
    let o := { file := r.1, pos := r.2.1 }
    match r.2.2.2 with
    | some e => if r.2.2.1.length = buf.length then (o, .error e)
      else (o, .ok (buf.length - r.2.2.1.length))
    | none => (o, .ok (buf.length - r.2.2.1.length))

/-- The loop of `msdos_file_read` over the bytes of a sector: what is put into the buffer, and
whether the byte 26 was met. -/
def scan : List Byte → List Byte × Bool
  | [] => ([], false)
  | ch :: rest =>
    if ch = cr then scan rest
    else if ch ≠ eof then
      let r := scan rest
      (ch :: r.1, r.2)
    else ([], true)

/-- The loop of `msdos_file_read` for a text file: what is in the buffer, and `f_pos`. -/
def readLoop (v : Volume) (f : File) (count pos : ℕ) (buf : List Byte) : List Byte × ℕ :=
  let left := min (f.size - pos) (count - buf.length)
  if _h : left = 0 then (buf, pos)
  else
    match v.smap f (pos / sectorSize) with
    | none => (buf, pos)
    | some sector =>
      if v.bad sector then (buf, pos)
      else
        let size := min (sectorSize - pos % sectorSize) left
        let r := scan ((List.range size).map fun i => f.data sector (pos % sectorSize + i))
        if r.2 then (buf ++ r.1, f.size)
        else readLoop v f count (pos + size) (buf ++ r.1)
termination_by f.size - pos
decreasing_by
  have hroom : 0 < sectorSize - pos % sectorSize := by
    simp only [sectorSize]
    omega
  have hsize : 0 < min (sectorSize - pos % sectorSize) left := by
    have : 0 < left := Nat.pos_of_ne_zero _h
    omega
  have hmore : left ≤ f.size - pos := min_le_left _ _
  omega

def fileRead (v : Volume) (o : Open) (count : ℕ) : Open × Except Err (List Byte) :=
  if o.file.size ≤ o.pos ∨ count = 0 then (o, .ok [])
  else
    let r := readLoop v o.file count o.pos []
    ({ o with pos := r.2 }, if r.1 = [] then .error .eio else .ok r.1)

end LinuxKernel.MsdosText
