import LinuxKernel.PageTables

/-!
# Mapping an attached segment

`shm_map` of `ipc/shm.c`.  Both loops go through the addresses of the attach range
with the fuel of its pages.  `get_free_page` gives a free page or fails: it swaps
nothing out, and a page that `shm_map` frees is not allocated again before it returns.
-/

namespace LinuxKernel.Paging

def shmIdxStep : UInt32 := 0x8000

/-- What `shm_map` does about an entry that it is going to overwrite. -/
def Mm.shmDrop (mm : Mm) (page : UInt32) : Mm :=
  if present page then { mm with rss := mm.rss - 1 }.freePage (mapNr page)
  else mm.swapFree page

def Mm.setTable (mm : Mm) (i frame : ℕ) (ptes : ℕ → UInt32) : Mm :=
  { mm with dir := Function.update mm.dir i (.table frame ptes) }

def Mm.shmCheck (remap : Bool) (stop : UInt32) : ℕ → Mm → UInt32 → Mm × ℤ
  | 0, mm, _ => (mm, 0)
  | fuel + 1, mm, tmp =>
    if tmp < stop then
      match mm.dir (dirIndex tmp) with
      | .table _ ptes =>
        if ptes (tableIndex tmp) ≠ 0 then
          if ¬remap then (mm, -einval)
          else (mm.shmDrop (ptes (tableIndex tmp))).shmCheck remap stop fuel (tmp + 4096)
        else mm.shmCheck remap stop fuel (tmp + 4096)
      | .absent _ =>
        match mm.getFreePage with
        | none => (mm, -enomem)
        | some (mm1, frame) =>
          -- to the last page of the new table
          (mm1.setTable (dirIndex tmp) frame fun _ => 0).shmCheck remap stop fuel
            ((tmp ||| 0x3ff000) + 4096)
    else (mm, 0)

/-- The second loop of `shm_map`; without a page table it would write anywhere. -/
def Mm.shmSign (stop : UInt32) : ℕ → Mm → UInt32 → UInt32 → Option Mm
  | 0, mm, _, _ => some mm
  | fuel + 1, mm, tmp, shmSgn =>
    if tmp < stop then
      match mm.dir (dirIndex tmp) with
      | .absent _ => none
      | .table frame ptes =>
        (mm.setTable (dirIndex tmp) frame
          (Function.update ptes (tableIndex tmp) shmSgn)).shmSign stop fuel (tmp + 4096)
          (shmSgn + shmIdxStep)
    else some mm

def rangePages (start stop : UInt32) : ℕ := (stop.toNat - start.toNat) / pageSize

def Mm.shmMap (mm : Mm) (start stop shmSgn : UInt32) (remap : Bool) : Option (Mm × ℤ) :=
  let r := mm.shmCheck remap stop (rangePages start stop) start
  if r.2 ≠ 0 then some r
  else (r.1.shmSign stop (rangePages start stop) start shmSgn).map fun mm => (mm, 0)

@[simp] theorem shmDrop_dir (mm : Mm) (page : UInt32) : (mm.shmDrop page).dir = mm.dir := by
  unfold Mm.shmDrop
  split
  · rw [freePage_dir]
  · rw [swapFree_dir]

theorem freePage_memory (mm : Mm) (frame : ℕ) : (mm.freePage frame).memory = mm.memory := by
  unfold Mm.freePage
  split
  · split
    · split <;> rfl
    · rfl
  · rfl

theorem swapFree_memory (mm : Mm) (entry : UInt32) : (mm.swapFree entry).memory = mm.memory := by
  unfold Mm.swapFree
  split
  · rfl
  · split
    · rfl
    · split
      · rfl
      · split <;> rfl

@[simp] theorem shmDrop_memory (mm : Mm) (page : UInt32) :
    (mm.shmDrop page).memory = mm.memory := by
  unfold Mm.shmDrop
  split
  · rw [freePage_memory]
  · rw [swapFree_memory]

theorem getFreePage_cases (mm : Mm) :
    (mm.memory = [] ∧ mm.getFreePage = none) ∨
      ∃ frame rest, mm.memory = frame :: rest ∧
        mm.getFreePage = some ({ mm with
          memory := rest, memMap := Function.update mm.memMap frame 1 }, frame) := by
  unfold Mm.getFreePage
  cases mm.memory with
  | nil => exact Or.inl ⟨rfl, rfl⟩
  | cons frame rest => exact Or.inr ⟨frame, rest, rfl, rfl⟩

end LinuxKernel.Paging
