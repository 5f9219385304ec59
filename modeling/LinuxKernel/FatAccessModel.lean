import Mathlib.Data.Nat.Bitwise
import Mathlib.Tactic

/-!
# Entries of the FAT in the sectors

`fat_access` of `fs/msdos/fat.c` down to the bytes.  The contents of the buffers are given by
sectors of 512 bytes; a buffer is a block of two sectors, and `dirty` says which blocks are
marked.  A sector that cannot be read makes `msdos_sread` return NULL.
-/

namespace LinuxKernel.Fat
open Function

/-- The layout: `fat_start`, `fat_length`, `fats`, `clusters`, and whether `fat_bits` is 16
or 12. -/
structure Layout where
  fatStart : ℕ
  fatLength : ℕ
  fats : ℕ
  clusters : ℕ
  wide : Bool

structure Disk where
  data : ℕ → ℕ → BitVec 8
  dirty : ℕ → Bool
  readable : ℕ → Bool

def sectorSize : ℕ := 512

def Disk.mark (d : Disk) (sector : ℕ) : Disk := { d with dirty := update d.dirty (sector / 2) true }

def Disk.store (d : Disk) (sector offset : ℕ) (b : BitVec 8) : Disk :=
  { d with data := update d.data sector (update (d.data sector) offset b) }

def Disk.copy (d : Disk) (dst src : ℕ) : Disk := { d with data := update d.data dst (d.data src) }

def Layout.first (l : Layout) (nr : ℕ) : ℕ := if l.wide then nr * 2 else nr * 3 / 2

/-- The byte in whose sector the entry ends.  A wide entry lies in the sector of its first
byte. -/
def Layout.last (l : Layout) (nr : ℕ) : ℕ := if l.wide then nr * 2 else l.first nr + 1

def Layout.sector (l : Layout) (pos : ℕ) : ℕ := l.fatStart + pos / sectorSize

def Layout.byte (l : Layout) (d : Disk) (pos : ℕ) : BitVec 8 :=
  d.data (l.sector pos) (pos % sectorSize)

def wideValue (lo hi : BitVec 8) : BitVec 32 := lo.setWidth 32 ||| hi.setWidth 32 <<< 8

def narrowValue (odd : Bool) (pFirst pLast : BitVec 8) : BitVec 32 :=
  if odd then (pFirst.setWidth 32 >>> 4 ||| pLast.setWidth 32 <<< 4) &&& 0xfff
  else (pFirst.setWidth 32 + pLast.setWidth 32 <<< 8) &&& 0xfff

def Layout.entry (l : Layout) (d : Disk) (nr : ℕ) : BitVec 32 :=
  if l.wide then wideValue (l.byte d (l.first nr)) (l.byte d (l.first nr + 1))
  else narrowValue (nr % 2 = 1) (l.byte d (l.first nr)) (l.byte d (l.first nr + 1))

def Layout.next (l : Layout) (entry : BitVec 32) : ℤ :=
  if (if l.wide then 0xfff7 else 0xff7) ≤ entry.toNat then -1 else entry.toNat

def Layout.put (l : Layout) (d : Disk) (nr : ℕ) (newValue : BitVec 32) : Disk :=
  let first := l.first nr
  let pFirst := l.byte d first
  let pLast := l.byte d (first + 1)
  let low := if l.wide then newValue.setWidth 8
    else if nr % 2 = 1 then pFirst &&& 0xf ||| (newValue <<< 4).setWidth 8
    else (newValue &&& 0xff).setWidth 8
  let high := if l.wide then (newValue >>> 8).setWidth 8
    else if nr % 2 = 1 then (newValue >>> 4).setWidth 8
    else pLast &&& 0xf0 ||| (newValue >>> 8).setWidth 8
  (d.store (l.sector first) (first % sectorSize) low).store (l.sector (first + 1))
    ((first + 1) % sectorSize) high

/-- The loop over the other copies, for `n` copies from `copy` on. -/
def Layout.mirror (l : Layout) (nr : ℕ) : ℕ → ℕ → Disk → Disk
  | 0, _, d => d
  | n + 1, copy, d =>
    let s := l.sector (l.first nr)
    let s2 := l.sector (l.last nr)
    let c := s + l.fatLength * copy
    if d.readable c then
      let d := (d.copy c s).mark c
      if s ≠ s2 then
        if d.readable (c + 1) then l.mirror nr n (copy + 1) (d.copy (c + 1) s2) else d
      else l.mirror nr n (copy + 1) d
    else d

def Layout.fatAccess (l : Layout) (d : Disk) (nr : ℕ) (newValue : Option (BitVec 32)) : Disk × ℤ :=
  if nr < 2 ∨ l.clusters ≤ nr - 2 then (d, 0)
  else if d.readable (l.sector (l.first nr)) = false then (d, 0)
  else if l.sector (l.first nr) ≠ l.sector (l.last nr) ∧
      d.readable (l.sector (l.last nr)) = false then (d, 0)
  else
    let next := l.next (l.entry d nr)
    match newValue with
    | none => (d, next)
    | some v =>
      let d := l.put d nr v
      let d := if l.wide then d else d.mark (l.sector (l.last nr))
      (l.mirror nr (l.fats - 1) 1 (d.mark (l.sector (l.first nr))), next)

end LinuxKernel.Fat
