import LinuxKernel.PageEntries
import LinuxKernel.SwapModel

/-!
# Pages, swap slots and the page directory of a process

`free_page`, `get_free_page`, `swap_free` and `swap_duplicate` as the routines of
`mm/memory.c` use them: what they do to `mem_map` and to the counts of the swap
slots.  `memory` holds the frames that `get_free_page` is still going to return;
when there are none left it fails.  Slots are not locked, so that `swap_free` does
not sleep.
-/

namespace LinuxKernel.Paging
open Function

def mapPageReserved : UInt16 := 0x8000

/-- The memory and the page directory of the current process.  `swapMap` gives the
count of a slot of a device, if the device is in use and has that slot. -/
structure Mm where
  dir : ℕ → DirEntry
  memMap : ℕ → UInt16
  highMemory : ℕ
  swapMap : ℕ → ℕ → Option UInt8
  rss : ℤ
  memory : List ℕ

def einval : ℤ := 22
def enomem : ℤ := 12

def reserved (count : UInt16) : Bool := count &&& mapPageReserved ≠ 0

def Mm.freePage (mm : Mm) (frame : ℕ) : Mm :=
  if frame * pageSize < mm.highMemory then
    if mm.memMap frame ≠ 0 then
      if ¬reserved (mm.memMap frame) then
        { mm with memMap := update mm.memMap frame (mm.memMap frame - 1) }
      else mm
    else mm
  else mm

def Mm.getFreePage (mm : Mm) : Option (Mm × ℕ) :=
  match mm.memory with
  | [] => none
  | frame :: rest =>
    some ({ mm with memory := rest, memMap := update mm.memMap frame 1 }, frame)

def slotOf (entry : UInt32) : ℕ × ℕ := (Swap.swpType entry.toNat, Swap.swpOffset entry.toNat)

def Mm.setSlot (mm : Mm) (slot : ℕ × ℕ) (count : UInt8) : Mm :=
  { mm with
    swapMap := update mm.swapMap slot.1
      (update (mm.swapMap slot.1) slot.2 (some count)) }

def Mm.swapFree (mm : Mm) (entry : UInt32) : Mm :=
  if entry = 0 then mm
  else if (slotOf entry).1 = Swap.shmSwpType then mm
  else
    match mm.swapMap (slotOf entry).1 (slotOf entry).2 with
    | none => mm
    | some count => if count = 0 then mm else mm.setSlot (slotOf entry) (count - 1)

def Mm.swapDuplicate (mm : Mm) (entry : UInt32) : Mm × UInt32 :=
  if entry = 0 then (mm, 0)
  else if (slotOf entry).1 = Swap.shmSwpType then (mm, entry)
  else
    match mm.swapMap (slotOf entry).1 (slotOf entry).2 with
    | none => (mm, 0)
    | some count => if count = 0 then (mm, 0) else (mm.setSlot (slotOf entry) (count + 1), entry)

def entryOf (dir : ℕ → DirEntry) (page : ℕ) : UInt32 :=
  match dir (page / ptrsPerPage) with
  | .absent _ => 0
  | .table _ ptes => ptes (page % ptrsPerPage)

def Mm.entry (mm : Mm) (page : ℕ) : UInt32 := entryOf mm.dir page

/-- The loops of `mm/memory.c` let go of what an entry that they have cleared
mapped. -/
def Mm.dropEntry (mm : Mm) (page : UInt32) : Mm :=
  if present page then
    let mm1 :=
      if ¬reserved (mm.memMap (mapNr page)) then
        if 0 < mm.rss then { mm with rss := mm.rss - 1 } else mm
      else mm
    mm1.freePage (mapNr page)
  else mm.swapFree page

/-! ## The directory is left alone -/

@[simp] theorem freePage_dir (mm : Mm) (frame : ℕ) : (mm.freePage frame).dir = mm.dir := by
  unfold Mm.freePage
  split
  · split
    · split <;> rfl
    · rfl
  · rfl

@[simp] theorem swapFree_dir (mm : Mm) (entry : UInt32) : (mm.swapFree entry).dir = mm.dir := by
  unfold Mm.swapFree
  split
  · rfl
  · split
    · rfl
    · split
      · rfl
      · split <;> rfl

@[simp] theorem dropEntry_dir (mm : Mm) (page : UInt32) : (mm.dropEntry page).dir = mm.dir := by
  unfold Mm.dropEntry
  split
  · rw [freePage_dir]
    split
    · split <;> rfl
    · rfl
  · exact swapFree_dir mm page

variable {dir : ℕ → DirEntry} {page : ℕ}

theorem entryOf_update_of_ne {i : ℕ} (h : page / ptrsPerPage ≠ i)
    (e : DirEntry) : entryOf (update dir i e) page = entryOf dir page := by
  unfold entryOf
  rw [update_of_ne h]

theorem entryOf_update_table {i : ℕ} (h : page / ptrsPerPage = i)
    (frame : ℕ) (ptes : ℕ → UInt32) :
    entryOf (update dir i (.table frame ptes)) page = ptes (page % ptrsPerPage) := by
  unfold entryOf
  rw [h, update_self]

theorem entryOf_table {frame : ℕ} {ptes : ℕ → UInt32}
    (h : dir (page / ptrsPerPage) = .table frame ptes) :
    entryOf dir page = ptes (page % ptrsPerPage) := by
  unfold entryOf
  rw [h]

theorem entryOf_absent {value : UInt32}
    (h : dir (page / ptrsPerPage) = .absent value) : entryOf dir page = 0 := by
  unfold entryOf
  rw [h]

theorem dirIndex_eq (addr : UInt32) : dirIndex addr = addr.toNat / pageSize / ptrsPerPage := by
  unfold dirIndex pageSize ptrsPerPage
  rw [UInt32.toNat_shiftRight, Nat.div_div_eq_div_mul]
  exact Nat.shiftRight_eq_div_pow addr.toNat 22

theorem tableIndex_eq (addr : UInt32) : tableIndex addr = addr.toNat / pageSize % ptrsPerPage := by
  unfold tableIndex pageSize ptrsPerPage
  change (addr.toNat >>> 12) &&& (2 ^ 10 - 1) = _
  rw [Nat.and_two_pow_sub_one_eq_mod, Nat.shiftRight_eq_div_pow]

end LinuxKernel.Paging
