import LinuxKernel.SwapModel

/-!
# `sys_swapon`

The whole call, with everything that it takes and gives back: the record in `swap_info`,
the inode that `namei` finds, the page for the lock map.  What it reads from outside is a
`Request`.  Nothing else runs while it sleeps.  A `vmalloc` that fails has given back what
it took.
-/

namespace LinuxKernel.Swapon

/-- `struct swap_info_struct`; inodes and page frames are numbers. -/
structure SwapInfoStruct where
  flags : Swap.Flags
  swapDevice : ℕ
  swapFile : Option ℕ
  swapMap : Option (ℕ → UInt8)
  swapLockmap : Option ℕ
  pages : ℕ
  lowestBit : ℤ
  highestBit : ℤ
  max : ℕ

structure System where
  swapInfo : ℕ → SwapInfoStruct
  nrSwapfiles : ℕ
  nrSwapPages : ℤ
  iCount : ℕ → ℕ
  memory : List ℕ

inductive Mode where
  | blk
  | reg
  | other
  deriving DecidableEq

/-- Who calls, what `namei` finds (an inode with its mode and `i_rdev`, or an error), the
first page of the area, and whether `vmalloc` finds memory. -/
structure Request where
  suser : Bool
  namei : Except {error : ℤ // error ≠ 0} ℕ
  mode : Mode
  rdev : ℕ
  page : ℕ → UInt8
  vmalloc : Bool

def eperm : ℤ := 1
def enomem : ℤ := 12
def ebusy : ℤ := 16
def enodev : ℤ := 19
def einval : ℤ := 22

def System.setInfo (s : System) (type : ℕ) (p : SwapInfoStruct) : System :=
  { s with swapInfo := Function.update s.swapInfo type p }

def System.iput (s : System) (inode : Option ℕ) : System :=
  match inode with
  | none => s
  | some i =>
    if s.iCount i = 0 then s
    else { s with iCount := Function.update s.iCount i (s.iCount i - 1) }

def System.freePage (s : System) (frame : Option ℕ) : System :=
  match frame with
  | none => s
  | some frame => { s with memory := frame :: s.memory }

def System.freeType (s : System) : ℕ :=
  ((List.range s.nrSwapfiles).find? fun type => (s.swapInfo type).flags = .unused).getD
    s.nrSwapfiles

def fresh (p : SwapInfoStruct) : SwapInfoStruct :=
  { p with
    flags := .used
    swapFile := none
    swapDevice := 0
    swapMap := none
    swapLockmap := none
    lowestBit := 0
    highestBit := 0
    max := 1 }

def cleared (p : SwapInfoStruct) : SwapInfoStruct :=
  { p with
    flags := .unused
    swapFile := none
    swapDevice := 0
    swapMap := none
    swapLockmap := none }

def System.badSwap (s : System) (type : ℕ) (error : ℤ) : System × ℤ :=
  let p := s.swapInfo type
  (((s.freePage p.swapLockmap).iput p.swapFile).setInfo type (cleared p), error)

def signature : List UInt8 := [83, 87, 65, 80, 45, 83, 80, 65, 67, 69]

def signed (page : ℕ → UInt8) : Bool := (List.range 10).map (fun k => page (4086 + k)) = signature

def testBit (page : ℕ → UInt8) (i : ℕ) : Bool := (page (i / 8)).toNat.testBit (i % 8)

def cut (page : ℕ → UInt8) (k : ℕ) : UInt8 := if k < 4086 then page k else 0

def System.readSwap (s : System) (type : ℕ) (req : Request) : System × ℤ :=
  if ¬signed req.page then s.badSwap type (-einval)
  else
    let bits := testBit (cut req.page)
    let found := Swap.scan bits ⟨0, 0, (s.swapInfo type).max, 0⟩ 1 32767
    let p :=
      { s.swapInfo type with
        lowestBit := found.lowestBit
        highestBit := found.highestBit
        max := found.max }
    if found.count = 0 then (s.setInfo type p).badSwap type (-einval)
    else if ¬req.vmalloc then (s.setInfo type p).badSwap type (-enomem)
    else
      ({ s.setInfo type { p with
            swapMap := some fun i => if i = 0 then 0x80 else if bits i then 0 else 0x80
            flags := .writeok
            pages := found.count } with
          nrSwapPages := s.nrSwapPages + found.count }, 0)

def System.getLockmap (s : System) (type : ℕ) (req : Request) : System × ℤ :=
  match s.memory with
  | [] => s.badSwap type (-enomem)
  | frame :: rest =>
    ({ s with memory := rest }.setInfo type
      { s.swapInfo type with swapLockmap := some frame }).readSwap type req

def System.sameDevice (s : System) (type : ℕ) : Bool :=
  (List.range s.nrSwapfiles).any fun i =>
    i ≠ type && (s.swapInfo type).swapDevice = (s.swapInfo i).swapDevice

def System.openSwap (s : System) (type inode : ℕ) (req : Request) : System × ℤ :=
  if s.iCount inode ≠ 1 then s.badSwap type (-ebusy)
  else
    match req.mode with
    | .blk =>
      let s := (s.setInfo type { s.swapInfo type with swapDevice := req.rdev }).iput (some inode)
      if req.rdev = 0 then s.badSwap type (-enodev)
      else if s.sameDevice type then s.badSwap type (-ebusy)
      else s.getLockmap type req
    | .reg =>
      (s.setInfo type { s.swapInfo type with swapFile := some inode }).getLockmap type req
    | .other => s.badSwap type (-einval)

def System.swapon (s : System) (req : Request) : System × ℤ :=
  if ¬req.suser then (s, -eperm)
  else
    let type := s.freeType
    if Swap.maxSwapfiles ≤ type then (s, -eperm)
    else
      let s :=
        { s.setInfo type (fresh (s.swapInfo type)) with
          nrSwapfiles := if s.nrSwapfiles ≤ type then type + 1 else s.nrSwapfiles }
      match req.namei with
      | .error error => s.badSwap type error.val
      | .ok inode =>
        { s with iCount := Function.update s.iCount inode (s.iCount inode + 1) }.openSwap type
          inode req

end LinuxKernel.Swapon
