import LinuxKernel.LoopMachine
import LinuxKernel.PageEntries
import Mathlib.Data.Int.Notation

/-!
# Swapping out shared memory

`shm_swap` of `ipc/shm.c`.  One turn of the loop is a jump to `check_id` or to
`check_table`; nothing in it sleeps before the page is written.  Segments are known
by their slot in `shm_segs`, an attach has the page directory of its task in
`cr3`.  What `get_swap_page` returns comes with the call, 0 for none.
-/

namespace LinuxKernel.ShmSwap
open Function

open Paging

structure ShmDesc where
  task : ℕ
  shmSgn : UInt32
  start : UInt32
  stop : UInt32

/-- `struct shmid_ds`; `locked` is the flag `SHM_LOCKED` of its mode. -/
structure ShmidDs where
  locked : Bool
  shmNpages : ℕ
  attaches : List ShmDesc

inductive Slot where
  | unused
  | noid
  | seg (shp : ShmidDs)

structure Segments where
  slot : ℕ → Slot
  maxShmid : ℕ
  used : ∀ id shp, slot id = .seg shp → id ≤ maxShmid

/-- `pages id` is the array `shm_pages` of the segment in the slot `id`. -/
structure Shm where
  segments : Segments
  pages : ℕ → ℕ → UInt32
  swapId : ℕ
  swapIdx : ℕ
  shmRss : ℤ
  shmSwp : ℤ
  swapAttempts : ℕ
  swapSuccesses : ℕ
  cr3 : ℕ → ℕ
  dirs : ℕ → ℕ → DirEntry
  taskRss : ℕ → ℤ
  memMap : ℕ → UInt16

/-- `shm_swap` has returned.  It has given back the swap page `swapFreed`, or written
the frame at the address `frame` to the swap page `written` and freed the frame. -/
structure Result where
  shm : Shm
  value : ℤ
  swapFreed : Option UInt32
  written : Option (UInt32 × UInt32)

def shmIdShift : UInt32 := 8
def shmIdMask : UInt32 := 127
def shmIdxShift : UInt32 := 15

/-- `shm_swap` stores the entry of a page directory or of a table in it. -/
def Shm.setDir (s : Shm) (dir index : ℕ) (entry : DirEntry) : Shm :=
  { s with dirs := update s.dirs dir (update (s.dirs dir) index entry) }

/-- One turn of the loop of `shm_swap` over the attaches, and whether the entry was
taken from the task. -/
def Shm.unmapAttach (s : Shm) (id idx : ℕ) (page : UInt32) (shmd : ShmDesc) : Shm × Bool :=
  if (shmd.shmSgn >>> shmIdShift &&& shmIdMask).toNat ≠ id then (s, false)
  else
    let tmp := shmd.start + (UInt32.ofNat idx <<< 12)
    if shmd.stop ≤ tmp then (s, false)
    else
      let dir := s.cr3 shmd.task
      match s.dirs dir (dirIndex tmp) with
      | .absent _ => (s.setDir dir (dirIndex tmp) (.absent 0), false)
      | .table frame ptes =>
        let pte := ptes (tableIndex tmp)
        if ¬present pte then (s, false)
        else if pte &&& pageAccessed ≠ 0 then
          (s.setDir dir (dirIndex tmp)
            (.table frame (update ptes (tableIndex tmp) (pte &&& ~~~pageAccessed))), false)
        else
          let s1 := s.setDir dir (dirIndex tmp) (.table frame (update ptes (tableIndex tmp)
            (shmd.shmSgn ||| (UInt32.ofNat idx <<< shmIdxShift))))
          ({ s1 with
              memMap := update s1.memMap (mapNr page) (s1.memMap (mapNr page) - 1)
              taskRss := update s1.taskRss shmd.task (s1.taskRss shmd.task - 1) }, true)

def Shm.unmapAttaches (s : Shm) (id idx : ℕ) (page : UInt32) : List ShmDesc → Shm
  | [] => s
  | shmd :: rest => (s.unmapAttach id idx page shmd).1.unmapAttaches id idx page rest

inductive Label where
  | checkId
  | checkTable (shp : ShmidDs)

structure Scan where
  shm : Shm
  counter : ℤ
  label : Label

def Shm.nextId (s : Shm) : Shm :=
  { s with
    swapIdx := 0
    swapId := if s.segments.maxShmid < s.swapId + 1 then 0 else s.swapId + 1 }

/-- The end of `shm_swap` for the page `idx` of a segment that nobody has mapped. -/
def Shm.swapOut (s : Shm) (id idx : ℕ) (page swapNr : UInt32) : Result where
  shm :=
    { s with
      pages := update s.pages id (update (s.pages id) idx swapNr)
      memMap := update s.memMap (mapNr page) (s.memMap (mapNr page) - 1)
      swapSuccesses := s.swapSuccesses + 1
      shmSwp := s.shmSwp + 1
      shmRss := s.shmRss - 1 }
  value := 1
  swapFreed := none
  written := some (swapNr, page &&& pageMask)

/-- `shm_swap` from one of its labels to the next jump or the return. -/
def Scan.step (swapNr : UInt32) (x : Scan) : Scan ⊕ Result :=
  match x.label with
  | .checkId =>
    match x.shm.segments.slot x.shm.swapId with
    | .unused => .inl { x with shm := x.shm.nextId }
    | .noid => .inl { x with shm := x.shm.nextId }
    | .seg shp =>
      if shp.locked then .inl { x with shm := x.shm.nextId }
      else .inl { x with label := .checkTable shp }
  | .checkTable shp =>
    let id := x.shm.swapId
    let idx := x.shm.swapIdx
    let s := { x.shm with swapIdx := idx + 1 }
    if shp.shmNpages ≤ idx then .inl { x with shm := s.nextId, label := .checkId }
    else
      let page := s.pages id idx
      if ¬present page then .inl { x with shm := s }
      else
        let s := { s with swapAttempts := s.swapAttempts + 1 }
        let counter := x.counter - 1
        if counter < 0 then
          .inr { shm := s, value := 0, swapFreed := some swapNr, written := none }
        else
          let s := s.unmapAttaches id idx page shp.attaches
          if s.memMap (mapNr page) ≠ 1 then .inl { x with shm := s, counter := counter }
          else .inr (s.swapOut id idx page swapNr)

def Shm.counter (s : Shm) (prio : ℕ) : ℤ := s.shmRss >>> prio

def Shm.ShmSwapReturns (s : Shm) (prio : ℕ) (swapNr : UInt32) (r : Result) : Prop :=
  if s.counter prio = 0 ∨ swapNr = 0 then r = ⟨s, 0, none, none⟩
  else
    LoopMachine.Returns (Scan.step swapNr)
      { shm := s, counter := s.counter prio, label := .checkId } r

end LinuxKernel.ShmSwap
