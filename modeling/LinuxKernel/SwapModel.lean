import Mathlib.Data.List.GetD
import Mathlib.Tactic

/-!
# Swap slots

`get_swap_page`, `swap_duplicate`, `swap_free` and `sys_swapon` of `mm/swap.c`.  The first
`nr_swapfiles` records of `swap_info` are a list.

`sys_swapon` sleeps while it looks up its file, reads the first page of the device and
allocates the map, so it is several steps; `swap_free` sleeps while the slot is locked.
Following the null pointers of
a device that is not set up is not a step.  The errors of `sys_swapon` before it reads the
first page are one step, `bad_swap`.
-/

namespace LinuxKernel.Swap

inductive Flags where
  | unused
  | used
  | writeok
  deriving DecidableEq

/-- `struct swap_info_struct`.  `lockmap` is the page that `sys_swapon` has read, without
the signature, `count` its variable `j` once it has, and `bad` keeps which slots it has
marked with 0x80. -/
structure SwapInfo where
  flags : Flags
  swapMap : Option (ℕ → UInt8)
  lockmap : ℕ → Bool
  bad : ℕ → Bool
  count : Option ℕ
  pages : ℕ
  lowestBit : ℤ
  highestBit : ℤ
  max : ℕ

/-- The calls of `swap_free` that wait for a slot are kept with the device and the slot. -/
structure SwapTable where
  info : List SwapInfo
  nrSwapPages : ℤ
  waiting : List (ℕ × ℕ)

def maxSwapfiles : ℕ := 8

def shmSwpType : ℕ := 0x41

def unsigned (z : ℤ) : ℕ := (z % 4294967296).toNat

def swpType (entry : ℕ) : ℕ := (entry &&& 0xfe) >>> 1

def swpOffset (entry : ℕ) : ℕ := entry >>> 12

def swpEntry (type offset : ℕ) : ℕ := (type <<< 1) ||| (offset <<< 12)

/-- The loop of `get_swap_page` over the slots of a device, from `offset` on. -/
def findFree (map : ℕ → UInt8) : ℕ → ℕ → Option ℕ
  | _, 0 => none
  | offset, n + 1 => if map offset ≠ 0 then findFree map (offset + 1) n else some offset

/-- The slot that `get_swap_page` finds on a device, if it looks there. -/
def SwapInfo.findFree (p : SwapInfo) : Option ℕ :=
  if p.flags = .writeok then
    p.swapMap.bind fun map =>
      Swap.findFree map (unsigned p.lowestBit) (unsigned p.highestBit + 1 - unsigned p.lowestBit)
  else none

/-- What `get_swap_page` does to the device of the slot it takes. -/
def SwapInfo.take (p : SwapInfo) (offset : ℕ) : SwapInfo :=
  { p with
    swapMap := p.swapMap.map fun map => Function.update map offset 1
    highestBit := if offset = unsigned p.highestBit then p.highestBit - 1 else p.highestBit
    lowestBit := offset }

def getFrom : ℕ → List SwapInfo → Option (ℕ × ℕ)
  | _, [] => none
  | type, p :: rest =>
    match p.findFree with
    | some offset => some (type, offset)
    | none => getFrom (type + 1) rest

def SwapTable.getSwapPage (s : SwapTable) : SwapTable × ℕ :=
  match getFrom 0 s.info with
  | none => (s, 0)
  | some (type, offset) =>
    ({ s with
       info := s.info.modify type fun p => p.take offset
       nrSwapPages := s.nrSwapPages - 1 }, swpEntry type offset)

def SwapTable.swapDuplicate (s : SwapTable) (entry : ℕ) : Option (SwapTable × ℕ) :=
  if entry = 0 then some (s, 0)
  else if swpType entry = shmSwpType then some (s, entry)
  else
    match s.info[swpType entry]? with
    | none => some (s, 0)
    | some p =>
      if p.max ≤ swpOffset entry then some (s, 0)
      else
        p.swapMap.map fun map =>
          if map (swpOffset entry) = 0 then (s, 0)
          else
            ({ s with
               info := s.info.set (swpType entry)
                 { p with
                   swapMap := some (Function.update map (swpOffset entry)
                     (map (swpOffset entry) + 1)) } }, entry)

def SwapTable.freeSlot (s : SwapTable) (type offset : ℕ) : Option SwapTable :=
  match s.info[type]? with
  | none => none
  | some p =>
    p.swapMap.map fun map =>
      let wider := { p with
        lowestBit := if offset < unsigned p.lowestBit then (offset : ℤ) else p.lowestBit
        highestBit := if unsigned p.highestBit < offset then (offset : ℤ) else p.highestBit }
      if map offset = 0 then { s with info := s.info.set type wider }
      else
        { s with
          info := s.info.set type
            { wider with swapMap := some (Function.update map offset (map offset - 1)) }
          nrSwapPages := if map offset - 1 = 0 then s.nrSwapPages + 1 else s.nrSwapPages }

def SwapTable.swapFree (s : SwapTable) (entry : ℕ) (locked : Bool) : Option SwapTable :=
  if entry = 0 then some s
  else if swpType entry = shmSwpType then some s
  else
    match s.info[swpType entry]? with
    | none => some s
    | some p =>
      if p.max ≤ swpOffset entry then some s
      else if p.flags = .unused then some s
      else if p.swapMap.isNone then none
      else if locked then
        some { s with waiting := s.waiting ++ [(swpType entry, swpOffset entry)] }
      else s.freeSlot (swpType entry) (swpOffset entry)

def SwapTable.resume (s : SwapTable) (n : ℕ) : Option SwapTable :=
  match s.waiting[n]? with
  | none => some s
  | some (type, offset) => { s with waiting := s.waiting.eraseIdx n }.freeSlot type offset

def fresh (p : SwapInfo) : SwapInfo :=
  { p with
    flags := .used
    swapMap := none
    count := none
    lowestBit := 0
    highestBit := 0
    max := 1 }

def blank : SwapInfo where
  flags := .unused
  swapMap := none
  lockmap := fun _ => false
  bad := fun _ => false
  count := none
  pages := 0
  lowestBit := 0
  highestBit := 0
  max := 0

def SwapTable.swaponStart (s : SwapTable) : SwapTable :=
  let type := s.info.findIdx fun p => p.flags = .unused
  if maxSwapfiles ≤ type then s
  else if s.info.length ≤ type then { s with info := s.info ++ [fresh blank] }
  else { s with info := s.info.modify type fresh }

def badSwap (p : SwapInfo) : SwapInfo := { p with flags := .unused, swapMap := none }

structure Found where
  lowestBit : ℤ
  highestBit : ℤ
  max : ℕ
  count : ℕ

/-- The scan of the first page in `sys_swapon`, from bit `i` on. -/
def scan (bits : ℕ → Bool) : Found → ℕ → ℕ → Found
  | found, _, 0 => found
  | found, i, n + 1 =>
    if bits i then
      scan bits
        { lowestBit := if found.lowestBit = 0 then (i : ℤ) else found.lowestBit
          highestBit := i
          max := i + 1
          count := found.count + 1 } (i + 1) n
    else scan bits found (i + 1) n

/-- `sys_swapon` has read the first page: the signature is cut off and the bits are
scanned. -/
def scanned (p : SwapInfo) (page : ℕ → Bool) : SwapInfo :=
  let bits := fun i => page i && decide (i < 32688)
  let found := scan bits ⟨0, 0, p.max, 0⟩ 1 32767
  let p := { p with
    lockmap := bits
    lowestBit := found.lowestBit
    highestBit := found.highestBit
    max := found.max }
  if found.count = 0 then badSwap p else { p with count := some found.count }

def mapped (p : SwapInfo) (count : ℕ) : SwapInfo :=
  { p with
    flags := .writeok
    pages := count
    swapMap := some fun i => if i = 0 then 0x80 else if p.lockmap i then 0 else 0x80
    bad := fun i => decide (i = 0) || !p.lockmap i }

def SwapTable.swapping (s : SwapTable) (type : ℕ) : Option SwapInfo :=
  s.info[type]?.filter fun p => p.flags = .used

inductive Event where
  | get
  | duplicate (entry : ℕ)
  | free (entry : ℕ) (locked : Bool)
  | resume (n : ℕ)
  | swaponStart
  | swaponFail (type : ℕ)
  | swaponRead (type : ℕ) (page : ℕ → Bool)
  | swaponMap (type : ℕ)

def SwapTable.step (s : SwapTable) : Event → Option SwapTable
  | .get => some s.getSwapPage.1
  | .duplicate entry => (s.swapDuplicate entry).map Prod.fst
  | .free entry locked => s.swapFree entry locked
  | .resume n => s.resume n
  | .swaponStart => some s.swaponStart
  | .swaponFail type =>
    (s.swapping type).map fun p => { s with info := s.info.set type (badSwap p) }
  | .swaponRead type page =>
    (s.swapping type).bind fun p =>
      match p.count with
      | none => some { s with info := s.info.set type (scanned p page) }
      | some _ => none
  | .swaponMap type =>
    (s.swapping type).bind fun p =>
      p.count.map fun count =>
        { s with
          info := s.info.set type (mapped p count)
          nrSwapPages := s.nrSwapPages + count }

/-- `swap_duplicate` is not called for a slot that has as many references as its byte can
count, and `swap_free` not for one that `sys_swapon` has marked bad. -/
def Event.Ok (s : SwapTable) : Event → Prop
  | .duplicate entry => entry ≠ 0 → ∀ p map, s.info[swpType entry]? = some p →
      p.swapMap = some map → swpOffset entry < p.max → map (swpOffset entry) ≠ 255
  | .free entry _ => entry ≠ 0 → ∀ p, s.info[swpType entry]? = some p →
      p.flags = .writeok → swpOffset entry < p.max → p.bad (swpOffset entry) = false
  | _ => True

def SwapTable.run : SwapTable → List Event → Option SwapTable
  | s, [] => some s
  | s, e :: events => (s.step e).bind fun s' => s'.run events

def RunOk : SwapTable → List Event → Prop
  | _, [] => True
  | s, e :: events => e.Ok s ∧ ∀ s', s.step e = some s' → RunOk s' events

def boot : SwapTable where
  info := []
  nrSwapPages := 0
  waiting := []

end LinuxKernel.Swap
