import LinuxKernel.BitMask

/-!
# The routing table

`rt_add`, `rt_del`, `rt_flush` and `rt_route` of `net/inet/route.c` with the functions they
use.  Addresses and masks are words in network byte order.  An entry carries the number of
its allocation, so that two entries with the same contents are still two entries.

The devices are the kernel's: `dev_ioctl` may change them at any time, but it never gives a
device a mask that `bad_mask` refuses.
-/

namespace LinuxKernel.Route

def ntohl (x : BitVec 32) : BitVec 32 :=
  ((x &&& 0x000000ff) <<< 24) ||| ((x &&& 0x0000ff00) <<< 8) |||
    ((x &&& 0x00ff0000) >>> 8) ||| ((x &&& 0xff000000) >>> 24)

def badMask (mask addr : BitVec 32) : Bool :=
  let mask := ~~~mask
  if addr &&& mask ≠ 0 then true
  else
    let mask := ntohl mask
    if mask &&& (mask + 1) ≠ 0 then true else false

/-- What a `struct device` says about its network; `broadcast` and `loopback` are bits of
its flags. -/
structure DeviceInfo where
  paAddr : BitVec 32
  paMask : BitVec 32
  paBrdaddr : BitVec 32
  broadcast : Bool
  loopback : Bool
  mtu : BitVec 16
  mask_ok : badMask paMask 0 = false

structure Rtable (Device : Type) where
  number : ℕ
  rtDst : BitVec 32
  rtMask : BitVec 32
  rtGateway : BitVec 32
  rtFlags : BitVec 8
  rtMtu : BitVec 16
  rtDev : Device
  deriving DecidableEq

structure Routes (Device : Type) where
  info : Device → DeviceInfo
  rtBase : List (Rtable Device)
  rtLoopback : Option (Rtable Device)
  allocated : ℕ

def RTF_UP : BitVec 16 := 0x0001
def RTF_GATEWAY : BitVec 16 := 0x0002
def RTF_HOST : BitVec 16 := 0x0004
def RTF_DYNAMIC : BitVec 16 := 0x0010

def Rtable.Covers {Device : Type} (r : Rtable Device) (daddr : BitVec 32) : Prop :=
  (r.rtDst ^^^ daddr) &&& r.rtMask = 0

instance {Device : Type} (r : Rtable Device) (daddr : BitVec 32) : Decidable (r.Covers daddr) :=
  inferInstanceAs (Decidable (_ = _))

def defaultMask (dst : BitVec 32) : BitVec 32 :=
  let dst := ntohl dst
  if dst &&& 0x80000000 = 0 then ntohl 0xff000000
  else if dst &&& 0xc0000000 = 0x80000000 then ntohl 0xffff0000
  else ntohl 0xffffff00

def guessMask (dst : BitVec 32) (dev : DeviceInfo) : BitVec 32 :=
  if dst = 0 then 0
  else
    let mask := defaultMask dst
    if (dst ^^^ dev.paAddr) &&& mask ≠ 0 then mask else dev.paMask

section

variable {Device : Type} [DecidableEq Device]

/-- The loop that takes entries out, in `rt_del`, `rt_flush` and `rt_add`. -/
def removeWalk (hit : Rtable Device → Bool) :
    Option (Rtable Device) → List (Rtable Device) → List (Rtable Device) × Option (Rtable Device)
  | loopback, [] => ([], loopback)
  | loopback, r :: rest =>
    if hit r then removeWalk hit (if loopback = some r then none else loopback) rest
    else
      let walked := removeWalk hit loopback rest
      (r :: walked.1, walked.2)

def Routes.remove (s : Routes Device) (hit : Rtable Device → Bool) : Routes Device :=
  let walked := removeWalk hit s.rtLoopback s.rtBase
  { s with rtBase := walked.1, rtLoopback := walked.2 }

def Routes.rtDel (s : Routes Device) (dst : BitVec 32) : Routes Device :=
  s.remove fun r => r.rtDst = dst

def Routes.rtFlush (s : Routes Device) (dev : Device) : Routes Device :=
  s.remove fun r => r.rtDev = dev

def getGwDev (gw : BitVec 32) : List (Rtable Device) → Option Device
  | [] => none
  | rt :: rest =>
    if (gw ^^^ rt.rtDst) &&& rt.rtMask ≠ 0 then getGwDev gw rest
    else if rt.rtFlags &&& RTF_GATEWAY.setWidth 8 ≠ 0 then none
    else some rt.rtDev

/-- The flags, the destination and the mask that `rt_add` goes on with, unless it rejects
the route. -/
def resolve (dev : DeviceInfo) (flags : BitVec 16) (dst mask : BitVec 32) :
    Option (BitVec 16 × BitVec 32 × BitVec 32) :=
  if flags &&& RTF_HOST ≠ 0 then some (flags, dst, 0xffffffff)
  else if mask = 0 then
    if (dst ^^^ dev.paAddr) &&& dev.paMask = 0 then
      let flags := flags &&& ~~~RTF_GATEWAY
      if flags &&& RTF_DYNAMIC ≠ 0 then none else some (flags, dst &&& dev.paMask, dev.paMask)
    else
      let mask := guessMask dst dev
      some (flags, dst &&& mask, mask)
  else some (flags, dst, mask)

/-- The loop of `rt_add` that finds the place of the new entry. -/
def insertWalk (rt : Rtable Device) : List (Rtable Device) → List (Rtable Device)
  | [] => [rt]
  | r :: rest =>
    if r.rtMask &&& rt.rtMask ≠ rt.rtMask then rt :: r :: rest else r :: insertWalk rt rest

/-- The end of `rt_add`, from the removal of the duplicates on. -/
def Routes.insert (s : Routes Device) (rt : Rtable Device) : Routes Device :=
  let old := s.remove fun r => r.rtDst = rt.rtDst
  { old with
    rtBase := insertWalk rt old.rtBase
    rtLoopback := if (s.info rt.rtDev).loopback then some rt else old.rtLoopback
    allocated := s.allocated + 1 }

def Routes.rtAdd (s : Routes Device) (flags : BitVec 16) (dst mask gw : BitVec 32)
    (dev : Device) (memory : Bool) : Routes Device :=
  match resolve (s.info dev) flags dst mask with
  | none => s
  | some (flags, dst, mask) =>
    let flags := if gw = (s.info dev).paAddr then flags &&& ~~~RTF_GATEWAY else flags
    if flags &&& RTF_GATEWAY ≠ 0 ∧ getGwDev gw s.rtBase ≠ some dev then s
    else if memory then
      s.insert
        { number := s.allocated
          rtDst := dst
          rtMask := mask
          rtGateway := if flags &&& RTF_GATEWAY ≠ 0 then gw else 0
          rtFlags := (flags ||| RTF_UP).setWidth 8
          rtMtu := (s.info dev).mtu
          rtDev := dev }
    else s

def routeWalk (info : Device → DeviceInfo) (daddr : BitVec 32) :
    List (Rtable Device) → Option (Rtable Device)
  | [] => none
  | rt :: rest =>
    if rt.Covers daddr then some rt
    else if (info rt.rtDev).broadcast ∧ (info rt.rtDev).paBrdaddr = daddr then some rt
    else routeWalk info daddr rest

def Routes.rtRoute (s : Routes Device) (daddr : BitVec 32) : Option (Rtable Device) :=
  match routeWalk s.info daddr s.rtBase with
  | none => none
  | some rt => if daddr = (s.info rt.rtDev).paAddr then s.rtLoopback else some rt

inductive Event (Device : Type) where
  | add (flags : BitVec 16) (dst mask gw : BitVec 32) (dev : Device) (memory : Bool)
  | del (dst : BitVec 32)
  | flush (dev : Device)
  | device (dev : Device) (info : DeviceInfo)

/-- `rt_add` is called for a host, without a mask or with one that `bad_mask` lets pass. -/
def Event.MaskOk : Event Device → Prop
  | .add flags dst mask _ _ _ => flags &&& RTF_HOST ≠ 0 ∨ mask = 0 ∨ badMask mask dst = false
  | _ => True

def Routes.step (s : Routes Device) : Event Device → Routes Device
  | .add flags dst mask gw dev memory => s.rtAdd flags dst mask gw dev memory
  | .del dst => s.rtDel dst
  | .flush dev => s.rtFlush dev
  | .device dev info => { s with info := Function.update s.info dev info }

def Routes.run (s : Routes Device) (events : List (Event Device)) : Routes Device :=
  events.foldl Routes.step s

def Routes.empty (info : Device → DeviceInfo) : Routes Device where
  info := info
  rtBase := []
  rtLoopback := none
  allocated := 0

end

end LinuxKernel.Route
