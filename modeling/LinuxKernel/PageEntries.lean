import Mathlib.Tactic.Common

/-!
# Page directories and page tables

Entries of page tables are words with the bits of `include/linux/mm.h`.  An entry
of a page directory has the table it points to with it, so that two entries never
share a table.
-/

namespace LinuxKernel.Paging

def pageSize : ℕ := 4096

def ptrsPerPage : ℕ := 1024

def pagePresent : UInt32 := 0x001
def pageRw : UInt32 := 0x002
def pageAccessed : UInt32 := 0x020
def pageCow : UInt32 := 0x200

def pageMask : UInt32 := 0xfffff000

def present (entry : UInt32) : Bool := entry &&& pagePresent ≠ 0

def mapNr (addr : UInt32) : ℕ := (addr >>> 12).toNat

/-- An entry of a page directory: a word without `PAGE_PRESENT`, or a page table in
the frame `frame` with its entries. -/
inductive DirEntry where
  | absent (value : UInt32)
  | table (frame : ℕ) (ptes : ℕ → UInt32)

def dirIndex (addr : UInt32) : ℕ := (addr >>> 22).toNat

def tableIndex (addr : UInt32) : ℕ := ((addr >>> 12) &&& 1023).toNat

end LinuxKernel.Paging
