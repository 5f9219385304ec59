import Mathlib.Tactic

/-!
# Reading a page through the buffer cache

`bread_page` of `fs/buffer.c` with the routines that it calls.  A request of
`ll_rw_block` is over when it returns; `io` says which of the requests succeed, so
that no buffer is seen locked.  `hash` has the buffers of all hash queues, and `free`
is the ring of `free_list` from its first buffer on.  The block size of a device divides
the size of a page.
-/

namespace LinuxKernel.BreadPage
open Function

def pageSize : ℕ := 4096

def headsPerPage : ℕ := 85

def minFreePages : ℕ := 20

def mapPageReserved : UInt16 := 0x8000

structure Head where
  data : ℕ
  size : ℕ
  dev : ℕ
  blocknr : ℕ
  uptodate : Bool
  dirt : Bool
  count : ℕ
  deriving DecidableEq

def blank : Head where
  data := 0
  size := 0
  dev := 0
  blocknr := 0
  uptodate := false
  dirt := false
  count := 0

/-- The buffer cache, `mem_map` and the two lists of free pages.  `heads` buffer heads
have been made so far. -/
structure Cache where
  head : ℕ → Head
  hash : List ℕ
  free : List ℕ
  unused : List ℕ
  heads : ℕ
  memMap : ℕ → UInt16
  highMemory : ℕ
  pages : List ℕ
  secondary : List ℕ
  byte : ℕ → UInt8
  disk : ℕ → ℕ → UInt8
  io : ℕ → Bool
  tick : ℕ
  growSize : ℤ

def Cache.setHead (s : Cache) (x : ℕ) (h : Head) : Cache := { s with head := update s.head x h }

/-- `__get_free_page(GFP_ATOMIC)` or `__get_free_page(GFP_BUFFER)`, with the number of
the page. -/
def Cache.getFreePage (s : Cache) (atomic : Bool) : Option (Cache × ℕ) :=
  match s.pages with
  | page :: rest =>
    some ({ s with pages := rest, memMap := update s.memMap page 1 }, page)
  | [] =>
    match s.secondary with
    | page :: rest =>
      if atomic then
        some ({ s with secondary := rest, memMap := update s.memMap page 1 }, page)
      else none
    | [] => none

def Cache.freePage (s : Cache) (addr : ℕ) : Cache :=
  if addr < s.highMemory then
    if s.memMap (addr / pageSize) ≠ 0 then
      if s.memMap (addr / pageSize) &&& mapPageReserved = 0 then
        { s with
          memMap := update s.memMap (addr / pageSize) (s.memMap (addr / pageSize) - 1) }
      else s
    else s
  else s

def Cache.mapPage (s : Cache) (addr : ℕ) : Cache :=
  { s with memMap := update s.memMap (addr / pageSize) (s.memMap (addr / pageSize) + 1) }

/-! ## Buffer heads -/

def Cache.getMoreBufferHeads (s : Cache) : Cache :=
  if s.unused ≠ [] then s
  else
    match s.getFreePage false with
    | none => s
    | some (s, _) =>
      { s with
        head := fun x => if s.heads ≤ x ∧ x < s.heads + headsPerPage then blank else s.head x
        unused := ((List.range headsPerPage).map (s.heads + ·)).reverse
        heads := s.heads + headsPerPage }

def Cache.getUnusedBufferHead (s : Cache) : Cache × Option ℕ :=
  let s := s.getMoreBufferHeads
  match s.unused with
  | [] => (s, none)
  | x :: rest =>
    ({ s with unused := rest }.setHead x { s.head x with data := 0, size := 0 }, some x)

def Cache.putUnusedBufferHead (s : Cache) (x : ℕ) : Cache :=
  { s.setHead x blank with unused := x :: s.unused }

def Cache.putUnusedBufferHeads (s : Cache) (bh : List ℕ) : Cache :=
  bh.foldl Cache.putUnusedBufferHead s

/-- The loop of `create_buffers` over the last `n` buffers of a page that are still to
be made; `bh` are those after them. -/
def Cache.createFrom (page size : ℕ) : ℕ → Cache → List ℕ → Cache × Option (List ℕ)
  | 0, s, bh => (s, some bh)
  | n + 1, s, bh =>
    match s.getUnusedBufferHead with
    | (s, none) => (s.putUnusedBufferHeads bh, none)
    | (s, some x) =>
      (s.setHead x { s.head x with data := page + n * size, size := size }).createFrom
        page size n (x :: bh)

def Cache.createBuffers (s : Cache) (page size : ℕ) : Cache × Option (List ℕ) :=
  s.createFrom page size (pageSize / size) []

def Cache.growBuffers (s : Cache) (atomic : Bool) (size : ℕ) : Cache × Bool :=
  if size % 512 ≠ 0 ∨ pageSize < size then (s, false)
  else
    match s.getFreePage atomic with
    | none => (s, false)
    | some (s, page) =>
      match s.createBuffers (page * pageSize) size with
      | (s, none) => (s.freePage (page * pageSize), false)
      | (s, some bh) => ({ s with free := bh.reverse ++ s.free }, true)

def Cache.readBlock (s : Cache) (x : ℕ) : Cache :=
  let h := s.head x
  if h.uptodate then s
  else if s.io s.tick then
    { s.setHead x { h with uptodate := true, dirt := false } with
      tick := s.tick + 1
      byte := fun a =>
        if h.data ≤ a ∧ a < h.data + h.size then
          s.disk h.dev (h.blocknr * h.size + (a - h.data))
        else s.byte a }
  else { s.setHead x { h with uptodate := false, dirt := false } with tick := s.tick + 1 }

def Cache.writeBlock (s : Cache) (x : ℕ) : Cache :=
  let h := s.head x
  if ¬h.dirt then s
  else if s.io s.tick then
    { s.setHead x { h with uptodate := true, dirt := false } with
      tick := s.tick + 1
      disk := fun dev k =>
        if dev = h.dev ∧ h.blocknr * h.size ≤ k ∧ k < h.blocknr * h.size + h.size then
          s.byte (h.data + (k - h.blocknr * h.size))
        else s.disk dev k }
  else { s.setHead x { h with uptodate := false, dirt := false } with tick := s.tick + 1 }

def Cache.readBuffers (s : Cache) (bh : List ℕ) : Cache :=
  (bh.filter fun x => !(s.head x).uptodate).foldl Cache.readBlock s

def Cache.syncBuffers (s : Cache) : Cache := s.free.foldl Cache.writeBlock s

/-! ## The cache -/

def Cache.findBuffer (s : Cache) (dev block size : ℕ) : Option ℕ :=
  match s.hash.find? fun x => (s.head x).dev = dev ∧ (s.head x).blocknr = block with
  | none => none
  | some x => if (s.head x).size = size then some x else none

def Cache.hold (s : Cache) (x : ℕ) : Cache :=
  s.setHead x { s.head x with count := (s.head x).count + 1 }

def Cache.getHashTable (s : Cache) (dev block size : ℕ) : Option (Cache × ℕ) :=
  match s.findBuffer dev block size with
  | none => none
  | some x => some (s.hold x, x)

def Cache.brelse (s : Cache) (x : ℕ) : Cache :=
  if (s.head x).count ≠ 0 then s.setHead x { s.head x with count := (s.head x).count - 1 } else s

def Cache.brelseAll (s : Cache) (bh : List ℕ) : Cache := bh.foldl Cache.brelse s

def Cache.putLastFree (s : Cache) (x : ℕ) : Cache := { s with free := s.free.erase x ++ [x] }

def Cache.insertIntoQueues (s : Cache) (x : ℕ) : Cache :=
  { s with
    free := s.free ++ [x]
    hash := if (s.head x).dev = 0 then s.hash else x :: s.hash }

def Cache.removeFromQueues (s : Cache) (x : ℕ) : Cache :=
  { s with free := s.free.erase x, hash := s.hash.erase x }

def Cache.candidate (s : Cache) (size : ℕ) : Option ℕ :=
  let able := s.free.filter fun x =>
    (s.head x).count = 0 ∧ (s.head x).size = size ∧ s.memMap ((s.head x).data / pageSize) = 1
  match able.find? fun x => !(s.head x).dirt with
  | some x => some x
  | none => able.head?

def Cache.claim (s : Cache) (x dev block : ℕ) : Cache :=
  let s := s.setHead x { s.head x with count := 1, dirt := false, uptodate := false }
  let s := s.removeFromQueues x
  let s := s.setHead x { s.head x with dev := dev, blocknr := block }
  s.insertIntoQueues x

def Cache.growEarly (s : Cache) (size : ℕ) : Cache :=
  let s := { s with growSize := s.growSize - size }
  if minFreePages < s.pages.length ∧ s.growSize ≤ 0 then
    match s.growBuffers false size with
    | (s, true) => { s with growSize := pageSize }
    | (s, false) => s
  else s

/-- The calls of `grow_buffers` in `getblk` when no buffer was found.  Nobody else
frees a buffer while it sleeps. -/
def Cache.growLate (s : Cache) (size : ℕ) : Cache :=
  if 5 < s.pages.length then
    match s.growBuffers false size with
    | (s, true) => s
    | (s, false) => (s.growBuffers true size).1
  else (s.growBuffers true size).1

def Cache.getblk : ℕ → Cache → ℕ → ℕ → ℕ → Option (Cache × ℕ)
  | 0, _, _, _, _ => none
  | fuel + 1, s, dev, block, size =>
    match s.getHashTable dev block size with
    | some (s, x) =>
      if (s.head x).uptodate ∧ ¬(s.head x).dirt then some (s.putLastFree x, x) else some (s, x)
    | none =>
      let s := s.growEarly size
      match s.candidate size with
      | none => (s.growLate size).getblk fuel dev block size
      | some x =>
        if (s.head x).dirt then s.syncBuffers.getblk fuel dev block size
        else
          match s.findBuffer dev block size with
          | some _ => s.getblk fuel dev block size
          | none => some (s.claim x dev block, x)

/-! ## `bread_page` -/

/-- The loop of `check_aligned`, from the block `i` on, with the buffers that it has
got. -/
def Cache.alignedFrom (page dev : ℕ) (b : ℕ → ℕ) (size : ℕ) :
    ℕ → Cache → ℕ → List ℕ → Cache × List ℕ × Bool
  | 0, s, _, bh => (s, bh, true)
  | n + 1, s, i, bh =>
    if b i = 0 then (s, bh, false)
    else
      match s.getHashTable dev (b i) size with
      | none => (s, bh, false)
      | some (s, x) =>
        if page + i * size ≠ (s.head x).data then (s, bh ++ [x], false)
        else s.alignedFrom page dev b size n (i + 1) (bh ++ [x])

def Cache.checkAligned (s : Cache) (first address dev : ℕ) (b : ℕ → ℕ) (size : ℕ) : Cache × ℕ :=
  let page := (s.head first).data
  if page % pageSize ≠ 0 then (s.brelse first, 0)
  else
    match (s.mapPage page).alignedFrom page dev b size (pageSize / size - 1) 1 [first] with
    | (s, bh, true) => (((s.readBuffers bh).brelseAll bh.reverse).freePage address, page)
    | (s, bh, false) => ((s.brelseAll bh.reverse).freePage page, 0)

/-- The loop of `try_to_load_aligned` that puts the new buffers into the cache. -/
def Cache.loadInto (dev : ℕ) (b : ℕ → ℕ) : Cache → ℕ → List ℕ → Cache
  | s, _, [] => s
  | s, i, x :: bh =>
    ((s.setHead x
      { s.head x with
        count := 1
        dirt := false
        uptodate := false
        dev := dev
        blocknr := b i }).insertIntoQueues x).loadInto dev b (i + 1) bh

def Cache.tryToLoadAligned (s : Cache) (address dev : ℕ) (b : ℕ → ℕ) (size : ℕ) : Cache × ℕ :=
  match s.createBuffers address size with
  | (s, none) => (s, 0)
  | (s, some bh) =>
    if ∀ i < pageSize / size, b i ≠ 0 ∧ s.findBuffer dev (b i) size = none then
      ((((s.loadInto dev b 0 bh).mapPage address).readBuffers bh).brelseAll bh.reverse, address)
    else (s.putUnusedBufferHeads bh, 0)

def Cache.tryToShareBuffers (s : Cache) (address dev : ℕ) (b : ℕ → ℕ) (size : ℕ) : Cache × ℕ :=
  if b 0 = 0 then (s, 0)
  else
    match s.getHashTable dev (b 0) size with
    | some (s, x) => s.checkAligned x address dev b size
    | none => s.tryToLoadAligned address dev b size

/-- The loop of `bread_page` that gets the buffers of the blocks from `i` on. -/
def Cache.getBlocks (fuel dev : ℕ) (b : ℕ → ℕ) (size : ℕ) :
    ℕ → Cache → ℕ → Option (Cache × List (Option ℕ))
  | 0, s, _ => some (s, [])
  | n + 1, s, i =>
    if b i = 0 then (s.getBlocks fuel dev b size n (i + 1)).map fun r => (r.1, none :: r.2)
    else
      match s.getblk fuel dev (b i) size with
      | none => none
      | some (s, x) =>
        (s.getBlocks fuel dev b size n (i + 1)).map fun r => (r.1, some x :: r.2)

def Cache.copyblk (s : Cache) (size from_ to_ : ℕ) : Cache :=
  { s with
    byte := fun a => if to_ ≤ a ∧ a < to_ + size then s.byte (from_ + (a - to_)) else s.byte a }

def Cache.copyBlocks (size : ℕ) : Cache → ℕ → List (Option ℕ) → Cache
  | s, _, [] => s
  | s, address, none :: bh => s.copyBlocks size (address + size) bh
  | s, address, some x :: bh =>
    let s := if (s.head x).uptodate then s.copyblk size (s.head x).data address else s
    (s.brelse x).copyBlocks size (address + size) bh

def Cache.copyPage (s : Cache) (fuel address dev : ℕ) (b : ℕ → ℕ) (size : ℕ) : Option (Cache × ℕ) :=
  match s.getBlocks fuel dev b size (pageSize / size) 0 with
  | none => none
  | some (s, bh) => some ((s.readBuffers (bh.filterMap id)).copyBlocks size address bh, address)

def Cache.breadPage (s : Cache) (fuel address dev : ℕ) (b : ℕ → ℕ) (size : ℕ) (rw : Bool) :
    Option (Cache × ℕ) :=
  if rw then s.copyPage fuel address dev b size
  else
    match s.tryToShareBuffers address dev b size with
    | (s, 0) => s.copyPage fuel address dev b size
    | (s, page) => some (s, page)

end LinuxKernel.BreadPage
