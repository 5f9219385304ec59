import LinuxKernel.PageTables

/-!
# Copying the page tables of a process

`copy_page_tables` of `mm/memory.c`, and `free_page_tables` with `free_one_table`,
which it calls when it runs out of memory.  The `Mm` is that of the parent, and the
page directory of the child is on its own.  `high_memory` is on a page boundary.
-/

namespace LinuxKernel.Paging
open Function

/-- `tss.cr3` of the child: as `copy_process` has copied it from the parent,
`swapper_pg_dir`, or a page directory in a frame. -/
inductive Cr3 where
  | inherited
  | swapper
  | directory (frame : ℕ) (dir : ℕ → DirEntry)

def Mm.dropPage (mm : Mm) (pg : UInt32) : Mm :=
  if present pg then mm.freePage (mapNr pg) else mm.swapFree pg

/-- The loop of `free_one_table`.  The entries that it clears go with their page. -/
def Mm.freeEntries : ℕ → Mm → ℕ → (ℕ → UInt32) → Mm
  | 0, mm, _, _ => mm
  | n + 1, mm, j, ptes =>
    if ptes j = 0 then mm.freeEntries n (j + 1) ptes
    else (mm.dropPage (ptes j)).freeEntries n (j + 1) ptes

def Mm.freeOneTable (mm : Mm) : DirEntry → Mm
  | .absent _ => mm
  | .table frame ptes =>
    if mm.highMemory ≤ frame * pageSize then mm
    else if reserved (mm.memMap frame) then mm
    else (mm.freeEntries ptrsPerPage 0 ptes).freePage frame

def Mm.freeTables : ℕ → Mm → ℕ → (ℕ → DirEntry) → Mm
  | 0, mm, _, _ => mm
  | n + 1, mm, i, dir => (mm.freeOneTable (dir i)).freeTables n (i + 1) dir

/-- `free_page_tables` for a process other than `task[0]` whose page directory is in
`frame`. -/
def Mm.freePageTables (mm : Mm) (frame : ℕ) (dir : ℕ → DirEntry) : Mm :=
  if 1 < mm.memMap frame then mm.freePage frame
  else (mm.freeTables ptrsPerPage 0 dir).freePage frame

def protect (pg : UInt32) : UInt32 :=
  if pg &&& (pageRw ||| pageCow) = pageRw ||| pageCow then pg &&& ~~~pageRw else pg

def Mm.copyEntries : ℕ → Mm → ℕ → (ℕ → UInt32) → (ℕ → UInt32) → Mm × (ℕ → UInt32) × (ℕ → UInt32)
  | 0, mm, _, old, new => (mm, old, new)
  | n + 1, mm, j, old, new =>
    if old j = 0 then mm.copyEntries n (j + 1) old new
    else if ¬present (old j) then
      let r := mm.swapDuplicate (old j)
      r.1.copyEntries n (j + 1) old (update new j r.2)
    else
      let pg := protect (old j)
      if reserved (mm.memMap (mapNr pg)) then
        mm.copyEntries n (j + 1) old (update new j pg)
      else
        { mm with
          memMap := update mm.memMap (mapNr pg) (mm.memMap (mapNr pg) + 1) }.copyEntries
            n (j + 1) (update old j pg) (update new j pg)

/-- The loop over the page directories.  It ends with `false` where `get_free_page`
has failed. -/
def Mm.copyTables : ℕ → Mm → ℕ → (ℕ → DirEntry) → Mm × (ℕ → DirEntry) × Bool
  | 0, mm, _, new => (mm, new, true)
  | n + 1, mm, i, new =>
    match mm.dir i with
    | .absent value =>
      if value = 0 then mm.copyTables n (i + 1) new
      else
        { mm with dir := update mm.dir i (.absent 0) }.copyTables n (i + 1) new
    | .table frame ptes =>
      if mm.highMemory ≤ frame * pageSize then
        { mm with dir := update mm.dir i (.absent 0) }.copyTables n (i + 1) new
      else if reserved (mm.memMap frame) then
        mm.copyTables n (i + 1) (update new i (.table frame ptes))
      else
        match mm.getFreePage with
        | none => (mm, new, false)
        | some (mm1, frame') =>
          let r := mm1.copyEntries ptrsPerPage 0 ptes fun _ => 0
          { r.1 with
            dir := update r.1.dir i (.table frame r.2.1) }.copyTables n (i + 1)
              (update new i (.table frame' r.2.2))

def Mm.copyPageTables (mm : Mm) : Mm × Cr3 × ℤ :=
  match mm.getFreePage with
  | none => (mm, .inherited, -enomem)
  | some (mm1, frame) =>
    let r := mm1.copyTables ptrsPerPage 0 fun _ => .absent 0
    if r.2.2 then (r.1, .directory frame r.2.1, 0)
    else (r.1.freePageTables frame r.2.1, .swapper, -enomem)

end LinuxKernel.Paging
