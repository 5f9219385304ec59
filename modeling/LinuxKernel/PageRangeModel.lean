import LinuxKernel.PageTables

/-!
# Unmapping and mapping ranges of pages

`unmap_page_range`, `zeromap_page_range` and `remap_page_range` of `mm/memory.c` for
the current process.  The loops over page tables take the fuel that their `size`
gives them: every turn takes at least one page off it.  A loop that follows its
pointer out of a page table has no result.
-/

namespace LinuxKernel.Paging
open Function

/-- What `unmap_page_range` lets go of: the page or the slot of an entry, or a page
table. -/
inductive Release where
  | entry (page : UInt32)
  | table (frame : ℕ)

def Mm.release (mm : Mm) : Release → Mm
  | .entry page => mm.dropEntry page
  | .table frame => mm.freePage frame

def Mm.releases (mm : Mm) (rs : List Release) : Mm := rs.foldl Mm.release mm

/-- The inner loop of `unmap_page_range`, from the entry `k` on; what it lets go of
comes with the page table. -/
def clearEntries (ptes : ℕ → UInt32) : ℕ → ℕ → Option ((ℕ → UInt32) × List Release)
  | _, 0 => some (ptes, [])
  | k, pc + 1 =>
    if ptrsPerPage ≤ k then none
    else if ptes k ≠ 0 then
      (clearEntries (update ptes k 0) (k + 1) pc).map fun r =>
        (r.1, .entry (ptes k) :: r.2)
    else clearEntries ptes (k + 1) pc

def Mm.unmapTables : ℕ → Mm → ℕ → ℕ → ℕ → ℕ → Option Mm
  | 0, mm, _, _, _, _ => some mm
  | fuel + 1, mm, i, poff, pcnt, size =>
    if size = 0 then some mm
    else
      let pcnt' := if ptrsPerPage < size - pcnt then ptrsPerPage else size - pcnt
      match mm.dir i with
      | .absent value =>
        mm.unmapTables fuel (i + 1) (if value = 0 then 0 else poff) pcnt' (size - pcnt)
      | .table frame ptes =>
        (clearEntries ptes poff pcnt).bind fun r =>
          let mm1 := mm.releases r.2
          let mm2 :=
            if pcnt = ptrsPerPage then
              { mm1 with dir := update mm1.dir i (.absent 0) }.freePage frame
            else { mm1 with dir := update mm1.dir i (.table frame r.1) }
          mm2.unmapTables fuel (i + 1) 0 pcnt' (size - pcnt)

def pagesOf (size : UInt32) : ℕ := ((size + ~~~pageMask) >>> 12).toNat

def firstCount (from_ : UInt32) (size : ℕ) : ℕ :=
  if size < ptrsPerPage - tableIndex from_ then size else ptrsPerPage - tableIndex from_

def Mm.unmapPageRange (mm : Mm) (from_ size : UInt32) : Option (Mm × ℤ) :=
  if from_ &&& ~~~pageMask ≠ 0 then some (mm, -einval)
  else
    (mm.unmapTables (pagesOf size) (dirIndex from_) (tableIndex from_)
      (firstCount from_ (pagesOf size)) (pagesOf size)).map fun mm => (mm, 0)

/-- The inner loop of `zeromap_page_range` and `remap_page_range`: the old entries go,
and `put` gives the new ones. -/
def Mm.putEntries (put : Mm → UInt32 → Mm × UInt32) :
    ℕ → Mm → (ℕ → UInt32) → ℕ → UInt32 → Mm × (ℕ → UInt32)
  | 0, mm, ptes, _, _ => (mm, ptes)
  | pcnt + 1, mm, ptes, k, to_ =>
    let mm1 := if ptes k ≠ 0 then mm.dropEntry (ptes k) else mm
    let r := put mm1 to_
    r.1.putEntries put pcnt (update ptes k r.2) (k + 1) (to_ + 4096)

/-- Their loop over the directory.  `get_free_page` has not slept when it returns, so
the directory entry is still without a page table then. -/
def Mm.putTables (put : Mm → UInt32 → Mm × UInt32) (err : ℤ) :
    ℕ → Mm → ℕ → ℕ → ℕ → ℕ → UInt32 → Mm × ℤ
  | 0, mm, _, _, _, _, _ => (mm, 0)
  | fuel + 1, mm, i, poff, pcnt, size, to_ =>
    if size = 0 then (mm, 0)
    else
      let next := fun (mm : Mm) (frame : ℕ) (ptes : ℕ → UInt32) =>
        let r := mm.putEntries put pcnt ptes poff to_
        { r.1 with dir := update r.1.dir i (.table frame r.2) }.putTables put err fuel
          (i + 1) 0 (if ptrsPerPage < size - pcnt then ptrsPerPage else size - pcnt)
          (size - pcnt) (to_ + 4096 * UInt32.ofNat pcnt)
      match mm.dir i with
      | .table frame ptes => next mm frame ptes
      | .absent _ =>
        match mm.getFreePage with
        | none => (mm, err)
        | some (mm1, frame) => next mm1 frame fun _ => 0

def maskOk (mask : UInt32) : Bool := mask = 0 || mask &&& (pageMask ||| pagePresent) = pagePresent

/-- What `zeromap_page_range` writes; `ZERO_PAGE` is at the address `zeroPage`. -/
def zeroEntry (zeroPage mask : UInt32) : UInt32 := if mask = 0 then 0 else mask ||| zeroPage

def Mm.zeromapPageRange (mm : Mm) (zeroPage from_ size mask : UInt32) : Mm × ℤ :=
  if ¬maskOk mask then (mm, -einval)
  else if from_ &&& ~~~pageMask ≠ 0 then (mm, -einval)
  else
    mm.putTables (fun mm _ => (mm, zeroEntry zeroPage mask)) (-enomem) (pagesOf size)
      (dirIndex from_) (tableIndex from_) (firstCount from_ (pagesOf size)) (pagesOf size) 0

/-- What `remap_page_range` does for the physical page at `to`. -/
def Mm.remapEntry (mask : UInt32) (mm : Mm) (to_ : UInt32) : Mm × UInt32 :=
  if mask = 0 then (mm, 0)
  else if mm.highMemory ≤ to_.toNat then (mm, to_ ||| mask)
  else if mm.memMap (mapNr to_) = 0 then (mm, 0)
  else if ¬reserved (mm.memMap (mapNr to_)) then
    ({ mm with
        rss := mm.rss + 1
        memMap := update mm.memMap (mapNr to_) (mm.memMap (mapNr to_) + 1) }, to_ ||| mask)
  else (mm, to_ ||| mask)

def Mm.remapPageRange (mm : Mm) (from_ to_ size mask : UInt32) : Mm × ℤ :=
  if ¬maskOk mask then (mm, -einval)
  else if from_ &&& ~~~pageMask ≠ 0 ∨ to_ &&& ~~~pageMask ≠ 0 then (mm, -einval)
  else
    mm.putTables (Mm.remapEntry mask) (-1) (pagesOf size) (dirIndex from_) (tableIndex from_)
      (firstCount from_ (pagesOf size)) (pagesOf size) to_

end LinuxKernel.Paging
