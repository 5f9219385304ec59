import LinuxKernel.LinkChain

/-!
# The request queues of the block devices

`make_request`, `add_request`, `get_request` and `ll_rw_block` of `drivers/block/ll_rw_blk.c`,
`end_request` of `blk.h` for the drivers that leave a request on the queue while they work on
it, and the SCSI drivers, which copy a request into a command and free its entry.

A process runs until it sleeps in `lock_buffer` or `wait_for_request`; interrupts, in which the
drivers complete buffers, may also come between `get_request` and `add_request`.  The `next`
links of a queue are a list.  Entries from `NR_REQUEST` on are not in `all_requests`: they are
the copies in SCSI commands.

`cmd` of a buffer is no field of the kernel: it records the direction it was accepted with.
Paging requests, which have a waiting process and no buffers, are left out.
-/

namespace LinuxKernel.BlockRequest
open Function

def NR_REQUEST : ℕ := 64
def MAX_BLKDEV : ℕ := 32
def BLOCK_SIZE : ℕ := 1024
def HD_MAJOR : ℕ := 3
def SCSI_DISK_MAJOR : ℕ := 8
def SCSI_TAPE_MAJOR : ℕ := 9
def SCSI_CDROM_MAJOR : ℕ := 11
def SCSI_GENERIC_MAJOR : ℕ := 21

inductive Rw where
  | read
  | write
  deriving DecidableEq

inductive Cmd where
  | read
  | write
  | reada
  | writea
  deriving DecidableEq

def Cmd.rwAhead : Cmd → Bool
  | .reada | .writea => true
  | .read | .write => false

def Cmd.rw : Cmd → Rw
  | .read | .reada => .read
  | .write | .writea => .write

/-- The part of a `struct buffer_head` that says which block it is for. -/
structure BufferHead where
  bDev : ℕ
  bBlocknr : BitVec 32
  bSize : ℕ

def BufferHead.count (bh : BufferHead) : ℕ := bh.bSize / 512

def BufferHead.sector (bh : BufferHead) : BitVec 32 := bh.bBlocknr * BitVec.ofNat 32 bh.count

def major (dev : ℕ) : ℕ := dev / 256

/-- What does not change: the blocks that the buffers are for, and the tables of the
drivers. -/
structure Setup where
  head : ℕ → BufferHead
  requestFn : ℕ → Bool
  blkSize : ℕ → Option (ℕ → BitVec 32)
  blksizeSize : ℕ → Option (ℕ → ℕ)
  isReadOnly : ℕ → Bool

def Setup.correctSize (k : Setup) (dev : ℕ) : ℕ :=
  match k.blksizeSize (major dev) with
  | none => BLOCK_SIZE
  | some sizes => if sizes dev = 0 then BLOCK_SIZE else sizes dev

def Setup.sectorMask (k : Setup) (dev : ℕ) : BitVec 32 :=
  BitVec.ofNat 32 (k.correctSize dev / 512) - 1

def Setup.pastEnd (k : Setup) (major b : ℕ) : Bool :=
  match k.blkSize major with
  | none => false
  | some sizes =>
    sizes (k.head b).bDev < ((k.head b).sector + BitVec.ofNat 32 (k.head b).count) >>> 1

structure Buf where
  lock : Bool
  dirt : Bool
  uptodate : Bool
  reqnext : Option ℕ
  cmd : Rw
  deriving DecidableEq

/-- `struct request`; `dev` is none where the kernel has `-1`, and `buffer` names the buffer
whose data it points to. -/
structure Request where
  dev : Option ℕ
  cmd : Rw
  sector : BitVec 32
  nrSectors : ℕ
  currentNrSectors : ℕ
  buffer : ℕ
  waiting : Bool
  bh : Option ℕ
  bhtail : ℕ
  deriving DecidableEq

/-- An element of a queue: an entry, or the plug of a process.  `cmd` and `sector` of a plug are
never set and hold anything. -/
inductive Node where
  | plug (owner : ℕ) (cmd : ℤ) (sector : BitVec 32)
  | req (i : ℕ)
  deriving DecidableEq

/-- Where a process stands in `make_request` for the first of its buffers. -/
inductive Pc where
  | ready
  | waitLock
  | waitRequest
  | adding (i : ℕ)
  deriving DecidableEq

structure Call where
  rw : Cmd
  major : ℕ
  bhs : List (Option ℕ)
  plugged : Bool
  deriving DecidableEq

inductive Proc where
  | idle
  | call (c : Call) (pc : Pc)
  deriving DecidableEq

structure Queues where
  bufs : ℕ → Buf
  reqs : ℕ → Request
  queue : ℕ → List Node
  prevFound : ℕ
  prevLimit : ℕ
  procs : ℕ → Proc

def Queues.setBuf (s : Queues) (b : ℕ) (f : Buf → Buf) : Queues :=
  { s with bufs := update s.bufs b (f (s.bufs b)) }

def Queues.setReq (s : Queues) (i : ℕ) (f : Request → Request) : Queues :=
  { s with reqs := update s.reqs i (f (s.reqs i)) }

def Queues.setQueue (s : Queues) (m : ℕ) (q : List Node) : Queues :=
  { s with queue := update s.queue m q }

def Queues.setProc (s : Queues) (p : ℕ) (proc : Proc) : Queues :=
  { s with procs := update s.procs p proc }

/-- `get_request`: the entry, and the two static variables.  The search goes down from the
entry found last and around. -/
def Queues.getRequest (s : Queues) (n : ℕ) : Option ℕ × ℕ × ℕ :=
  let prevFound := if s.prevLimit = n then s.prevFound else 0
  match ((List.range n).map fun j => (prevFound + n - 1 - j) % n).find?
      fun i => (s.reqs i).dev.isNone with
  | none => (none, prevFound, n)
  | some i => (some i, i, n)

structure Key where
  cmd : ℤ
  dev : ℤ
  sector : BitVec 32

def Queues.key (s : Queues) : Node → Key
  | .plug _ cmd sector => ⟨cmd, -1, sector⟩
  | .req i =>
    let req := s.reqs i
    ⟨match req.cmd with | .read => 0 | .write => 1,
      match req.dev with | none => -1 | some dev => dev, req.sector⟩

def inOrder (s1 s2 : Key) : Bool :=
  s1.cmd < s2.cmd || (s1.cmd = s2.cmd &&
    (s1.dev < s2.dev || (s1.dev = s2.dev && s1.sector < s2.sector)))

def Queues.insertWalk (s : Queues) (req : Node) : List Node → List Node
  | [] => [req]
  | [tmp] => [tmp, req]
  | tmp :: after :: rest =>
    if (inOrder (s.key tmp) (s.key req) || !inOrder (s.key tmp) (s.key after)) &&
        inOrder (s.key req) (s.key after) then
      tmp :: req :: after :: rest
    else tmp :: s.insertWalk req (after :: rest)

def Queues.addRequest (s : Queues) (m i : ℕ) : Queues :=
  let s :=
    match (s.reqs i).bh with
    | none => s
    | some b => s.setBuf b fun buf => { buf with dirt := false }
  s.setQueue m (s.insertWalk (.req i) (s.queue m))

/-! ## `make_request` -/

section

variable (k : Setup)

def Request.appends (req : Request) (rw : Rw) (b : ℕ) : Bool :=
  req.dev = some (k.head b).bDev && !req.waiting && req.cmd = rw &&
    req.sector + BitVec.ofNat 32 req.nrSectors = (k.head b).sector && req.nrSectors < 254

def Request.prepends (req : Request) (rw : Rw) (b : ℕ) : Bool :=
  req.dev = some (k.head b).bDev && !req.waiting && req.cmd = rw &&
    req.sector - BitVec.ofNat 32 (k.head b).count = (k.head b).sector && req.nrSectors < 254

inductive Merge where
  | append (i : ℕ)
  | prepend (i : ℕ)

def Queues.mergeWalk (s : Queues) (rw : Rw) (b : ℕ) : List Node → Option Merge
  | [] => none
  | .plug _ _ _ :: rest => s.mergeWalk rw b rest
  | .req i :: rest =>
    if (s.reqs i).appends k rw b then some (.append i)
    else if (s.reqs i).prepends k rw b then some (.prepend i)
    else s.mergeWalk rw b rest

def Queues.mergeList (s : Queues) (m : ℕ) : List Node :=
  if m = HD_MAJOR then (s.queue m).tail
  else if m = SCSI_DISK_MAJOR ∨ m = SCSI_CDROM_MAJOR then s.queue m
  else []

def Queues.append (s : Queues) (rw : Rw) (b i : ℕ) : Queues :=
  let tail := (s.reqs i).bhtail
  let s := s.setBuf tail fun buf => { buf with reqnext := some b }
  let s := s.setReq i fun req =>
    { req with bhtail := b, nrSectors := req.nrSectors + (k.head b).count }
  s.setBuf b fun buf => { buf with dirt := false, cmd := rw }

def Queues.prepend (s : Queues) (rw : Rw) (b i : ℕ) : Queues :=
  let first := (s.reqs i).bh
  let s := s.setBuf b fun buf => { buf with reqnext := first, dirt := false, cmd := rw }
  s.setReq i fun req =>
    { req with
      nrSectors := req.nrSectors + (k.head b).count, buffer := b,
      currentNrSectors := (k.head b).count, sector := (k.head b).sector, bh := some b }

def Setup.fresh (rw : Rw) (b : ℕ) : Request where
  dev := some (k.head b).bDev
  cmd := rw
  sector := (k.head b).sector
  nrSectors := (k.head b).count
  currentNrSectors := (k.head b).count
  buffer := b
  waiting := false
  bh := some b
  bhtail := b

def unlockBuffer (s : Queues) (b : ℕ) : Queues := s.setBuf b fun buf => { buf with lock := false }

def Queues.nextBuffer (s : Queues) (p : ℕ) (c : Call) : Queues :=
  s.setProc p (.call { c with bhs := c.bhs.tail } .ready)

def maxReq : Rw → ℕ
  | .read => NR_REQUEST
  | .write => NR_REQUEST * 2 / 3

def Queues.findRequest (s : Queues) (p : ℕ) (c : Call) (b : ℕ) : Queues :=
  match s.mergeWalk k c.rw.rw b (s.mergeList c.major) with
  | some (.append i) => (s.append k c.rw.rw b i).nextBuffer p c
  | some (.prepend i) => (s.prepend k c.rw.rw b i).nextBuffer p c
  | none =>
    match s.getRequest (maxReq c.rw.rw) with
    | (none, prevFound, prevLimit) =>
      let s := { s with prevFound := prevFound, prevLimit := prevLimit }
      if c.rw.rwAhead then (unlockBuffer s b).nextBuffer p c
      else s.setProc p (.call c .waitRequest)
    | (some i, prevFound, prevLimit) =>
      let s := { s with prevFound := prevFound, prevLimit := prevLimit }
      let s := s.setReq i fun _ => k.fresh c.rw.rw b
      let s := s.setBuf b fun buf => { buf with cmd := c.rw.rw }
      s.setProc p (.call c (.adding i))

def Queues.lockBuffer (s : Queues) (p : ℕ) (c : Call) (b : ℕ) : Queues :=
  let buf := s.bufs b
  if (c.rw.rw = .write ∧ buf.dirt = false) ∨ (c.rw.rw = .read ∧ buf.uptodate) then
    (unlockBuffer s b).nextBuffer p c
  else (s.setBuf b fun buf => { buf with lock := true }).findRequest k p c b

def Queues.makeRequest (s : Queues) (p : ℕ) (c : Call) (b : ℕ) : Queues :=
  if c.rw.rwAhead && (s.bufs b).lock then s.nextBuffer p c
  else if k.pastEnd c.major b then
    (s.setBuf b fun buf => { buf with dirt := false, uptodate := false }).nextBuffer p c
  else if (s.bufs b).lock then s.setProc p (.call c .waitLock)
  else s.lockBuffer k p c b

def plugNext (p : ℕ) : List Node → List Node
  | [] => []
  | .plug owner _ _ :: rest => if owner = p then rest else plugNext p rest
  | .req _ :: rest => plugNext p rest

/-- `sorry`, the end of `ll_rw_block` for buffers that it cannot do. -/
def Queues.giveUp (s : Queues) : List (Option ℕ) → Queues
  | [] => s
  | none :: bhs => s.giveUp bhs
  | some b :: bhs =>
    (s.setBuf b fun buf => { buf with dirt := false, uptodate := false }).giveUp bhs

/-- `ll_rw_block` up to its loop.  `cmd` and `sector` are what the stack holds where the plug
is. -/
def Queues.llRwBlock (s : Queues) (p : ℕ) (rw : Cmd) (bhs : List (Option ℕ)) (cmd : ℤ)
    (sector : BitVec 32) : Queues :=
  let bhs := bhs.dropWhile Option.isNone
  match bhs.head? with
  | some (some first) =>
    let dev := (k.head first).bDev
    let m := major dev
    if MAX_BLKDEV ≤ m ∨ k.requestFn m = false then s.giveUp bhs
    else if ∃ b ∈ bhs.reduceOption, (k.head b).bSize ≠ k.correctSize dev then s.giveUp bhs
    else if rw.rw = .write ∧ k.isReadOnly dev then s.giveUp bhs
    else
      let plugged := (s.queue m).isEmpty && 1 < bhs.length
      let s := if plugged then s.setQueue m [.plug p cmd sector] else s
      s.setProc p (.call ⟨rw, m, bhs, plugged⟩ .ready)
  | _ => s

def Queues.resume (s : Queues) (p : ℕ) : Queues :=
  match s.procs p with
  | .idle => s
  | .call c pc =>
    match c.bhs with
    | [] =>
      let s := if c.plugged then s.setQueue c.major (plugNext p (s.queue c.major)) else s
      s.setProc p .idle
    | none :: _ => s.nextBuffer p c
    | some b :: _ =>
      match pc with
      | .ready => s.makeRequest k p c b
      | .waitLock => if (s.bufs b).lock then s else s.lockBuffer k p c b
      | .waitRequest => s.findRequest k p c b
      | .adding i => (s.addRequest c.major i).nextBuffer p c

/-! ## The drivers -/

/-- The first buffer of a request is done: the part of `end_request` after the sectors are
set. -/
def Queues.endBuffer (s : Queues) (i : ℕ) (uptodate : Bool) : Queues :=
  match (s.reqs i).bh with
  | none => s
  | some b =>
    let after := (s.bufs b).reqnext
    let s := s.setReq i fun req => { req with bh := after }
    let s := s.setBuf b fun buf =>
      { buf with reqnext := none, uptodate := uptodate, lock := false }
    match after with
    | none => s
    | some b' =>
      s.setReq i fun req =>
        { req with
          currentNrSectors := (k.head b').count,
          nrSectors := max req.nrSectors (k.head b').count, buffer := b' }

/-- The sectors after a buffer: a driver has stepped over the buffer, or it gives up after
`done` sectors of it. -/
def Request.advance (req : Request) (uptodate : Bool) (done : ℕ) : Request :=
  if uptodate then
    { req with
      sector := req.sector + BitVec.ofNat 32 req.currentNrSectors,
      nrSectors := req.nrSectors - req.currentNrSectors }
  else
    let mask := k.sectorMask (req.dev.getD 0)
    let sector := req.sector + BitVec.ofNat 32 done
    let nrSectors := req.nrSectors - done
    { req with
      nrSectors := (BitVec.ofNat 32 (nrSectors - 1) &&& ~~~mask).toNat,
      sector := (sector + BitVec.ofNat 32 (BLOCK_SIZE / 512)) &&& ~~~mask }

def scsiMajor (m : ℕ) : Bool :=
  m = SCSI_DISK_MAJOR ∨ m = SCSI_TAPE_MAJOR ∨ m = SCSI_CDROM_MAJOR ∨ m = SCSI_GENERIC_MAJOR

def Queues.endRequest (s : Queues) (m : ℕ) (uptodate : Bool) (done : ℕ) : Queues :=
  match s.queue m with
  | .req i :: rest =>
    let s := s.setReq i fun req => req.advance k uptodate done
    let s := s.endBuffer k i uptodate
    match (s.reqs i).bh with
    | some _ => s
    | none => (s.setQueue m rest).setReq i fun req => { req with dev := none }
  | _ => s

def Queues.scsiTake (s : Queues) (m command : ℕ) : Queues :=
  match s.queue m with
  | .req i :: rest =>
    let req := s.reqs i
    ((s.setQueue m rest).setReq i fun req => { req with dev := none }).setReq command
      fun _ => req
  | _ => s

/-- The first buffer of a SCSI command is done, as `end_scsi_request` has it. -/
def Queues.scsiEnd (s : Queues) (command : ℕ) (uptodate : Bool) : Queues :=
  let s := s.setReq command fun req => req.advance k true 0
  let s := s.endBuffer k command uptodate
  match (s.reqs command).bh with
  | some _ => s
  | none => s.setReq command fun req => { req with dev := none }

inductive Event where
  | llRwBlock (p : ℕ) (rw : Cmd) (bhs : List (Option ℕ)) (cmd : ℤ) (sector : BitVec 32)
  | resume (p : ℕ)
  | endRequest (m : ℕ) (uptodate : Bool) (done : ℕ)
  | scsiTake (m command : ℕ)
  | scsiEnd (command : ℕ) (uptodate : Bool)
  | touch (b : ℕ) (dirt uptodate : Bool)

/-- A process calls `ll_rw_block` when it is not in it; the drivers take and complete what is
theirs. -/
def step (s : Queues) : Event → Queues
  | .llRwBlock p rw bhs cmd sector =>
    match s.procs p with
    | .idle => s.llRwBlock k p rw bhs cmd sector
    | .call _ _ => s
  | .resume p => s.resume k p
  | .endRequest m uptodate done => if scsiMajor m then s else s.endRequest k m uptodate done
  | .scsiTake m command =>
    if scsiMajor m ∧ NR_REQUEST ≤ command ∧ (s.reqs command).dev = none then
      s.scsiTake m command
    else s
  | .scsiEnd command uptodate =>
    if NR_REQUEST ≤ command ∧ (s.reqs command).dev ≠ none then s.scsiEnd k command uptodate
    else s
  | .touch b dirt uptodate =>
    s.setBuf b fun buf => { buf with dirt := dirt, uptodate := uptodate }

def run (s : Queues) (es : List Event) : Queues := es.foldl (step k) s

end

/-- All entries are free, no buffer is locked, no process is in `ll_rw_block`. -/
def boot : Queues where
  bufs := fun _ => ⟨false, false, false, none, .read⟩
  reqs := fun _ => ⟨none, .read, 0, 0, 0, 0, false, none, 0⟩
  queue := fun _ => []
  prevFound := 0
  prevLimit := 0
  procs := fun _ => .idle

end LinuxKernel.BlockRequest
