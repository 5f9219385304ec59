import LinuxKernel.HashChain
import LinuxKernel.RouteModel

/-!
# The ARP cache

`net/inet/arp.c` with `chk_addr` of `dev.c` and the header functions of `eth.c`, which ask
the cache.  Addresses are words in network byte order.  The pointer that a search returns is
the first entry of its chain with the address, and so is a new entry, which goes to the
front.

`handed` is no variable of the kernel: it records every entry that `arp_find` took a
hardware address from, as it was then, with the time.
-/

namespace LinuxKernel.Arp

abbrev Byte := BitVec 8

def ARP_TABLE_SIZE : ℕ := 16
def ARP_TIMEOUT : ℕ := 30000
def ARP_MAX_TRIES : ℕ := 3
def MAX_ADDR_LEN : ℕ := 7
def ETH_ALEN : ℕ := 6

def ATF_INUSE : BitVec 32 := 0x01
def ATF_COM : BitVec 32 := 0x02
def ATF_PERM : BitVec 32 := 0x04
def ATF_PUBL : BitVec 32 := 0x08

def ETH_P_IP : BitVec 16 := 0x0800
def ARPOP_REQUEST : BitVec 16 := 1
def ARPHRD_ETHER : BitVec 16 := 1
def ARPHRD_AX25 : BitVec 16 := 3

def memcpy (dst src : List Byte) (n : ℕ) : List Byte := src.take n ++ dst.drop n

def net16 (x : BitVec 16) : BitVec 16 := (x <<< 8) ||| (x >>> 8)

/-- Which `hard_header` and `rebuild_header` a device has: those of `eth.c`, or those of
`slip.c`, which do nothing. -/
inductive Header where
  | eth
  | slip
  deriving DecidableEq

/-- `struct device`; `up`, `bcast` and `loopback` are bits of its flags. -/
structure Device where
  up : Bool
  bcast : Bool
  loopback : Bool
  paAddr : BitVec 32
  paMask : BitVec 32
  paBrdaddr : BitVec 32
  type : BitVec 16
  addrLen : ℕ
  devAddr : List Byte
  broadcast : List Byte
  header : Header
  devAddr_length : devAddr.length = MAX_ADDR_LEN
  broadcast_length : broadcast.length = MAX_ADDR_LEN
  addrLen_le : addrLen ≤ MAX_ADDR_LEN
  deriving DecidableEq

/-- `struct arp_table`.  `lastUsed` is the tick; the kernel keeps it modulo `2 ^ 32`. -/
structure ArpTable where
  lastUsed : ℕ
  flags : BitVec 32
  ip : BitVec 32
  ha : List Byte
  hlen : ℕ
  htype : BitVec 8
  deriving DecidableEq

def ArpTable.perm (apt : ArpTable) : Bool := apt.flags &&& ATF_PERM ≠ 0

def ArpTable.publ (apt : ArpTable) : Bool := apt.flags &&& ATF_PUBL ≠ 0

def ArpTable.hardware (apt : ArpTable) : List Byte := apt.ha.take apt.hlen

/-- A received packet.  `sha`, `spa` and `tpa` are the parts of the variable-sized rest that
`arp_rcv` reads. -/
structure ArpPacket where
  arHrd : BitVec 16
  arPro : BitVec 16
  arHln : ℕ
  arPln : ℕ
  arOp : BitVec 16
  sha : List Byte
  spa : BitVec 32
  tpa : BitVec 32
  sha_length : sha.length = arHln

/-- A packet on `arp_q`.  `dst` is the address that stands where the hardware address is to
go, `arpProto` says that the packet is itself one of ARP. -/
structure Queued where
  id : ℕ
  dev : Device
  dst : BitVec 32
  arpProto : Bool
  arp : Bool
  tries : ℕ
  deriving DecidableEq

structure ArpReq where
  paInet : Bool
  pa : BitVec 32
  haFamily : BitVec 16
  haData : List Byte
  flags : BitVec 32
  haData_length : haData.length = 14

structure Handed where
  entry : ArpTable
  time : ℕ
  deriving DecidableEq

structure Cache where
  tables : Fin ARP_TABLE_SIZE → List ArpTable
  arpProxies : ℤ
  arpQ : List Queued
  devBase : List Device
  interrupts : Bool
  jiffies : ℕ
  handed : List Handed

def Cache.cli (s : Cache) : Cache := { s with interrupts := false }

def Cache.sti (s : Cache) : Cache := { s with interrupts := true }

def hash (paddr : BitVec 32) : Fin ARP_TABLE_SIZE := Fin.ofNat 16 (Route.ntohl paddr &&& 15).toNat

inductive AddrKind where
  | other
  | myAddr
  | broadcast
  deriving DecidableEq

def getMask (addr : BitVec 32) : BitVec 32 :=
  if addr = 0 then 0
  else
    let dst := Route.ntohl addr
    if dst &&& 0x80000000 = 0 then Route.ntohl 0xff000000
    else if dst &&& 0xc0000000 = 0x80000000 then Route.ntohl 0xffff0000
    else if dst &&& 0xc0000000 = 0xc0000000 then Route.ntohl 0xffffff00
    else 0

def chkInterfaces (addr mask : BitVec 32) : List Device → AddrKind
  | [] => .other
  | dev :: rest =>
    if !dev.up then chkInterfaces addr mask rest
    else if dev.paAddr = 0 then .myAddr
    else if addr = dev.paAddr then .myAddr
    else if dev.bcast && addr = dev.paBrdaddr then .broadcast
    else if (addr ^^^ dev.paAddr) &&& dev.paMask = 0 ∧
        (addr &&& ~~~dev.paMask = 0 ∨ addr &&& ~~~dev.paMask = ~~~dev.paMask) then .broadcast
    else if (addr ^^^ dev.paAddr) &&& mask = 0 ∧
        (addr &&& ~~~mask = 0 ∨ addr &&& ~~~mask = ~~~mask) then .broadcast
    else chkInterfaces addr mask rest

def chkAddr (devBase : List Device) (addr : BitVec 32) : AddrKind :=
  if addr = 0 ∨ addr = 0xffffffff then .broadcast
  else
    let mask := getMask addr
    if addr &&& mask = Route.ntohl 0x7f000000 then .myAddr
    else chkInterfaces addr mask devBase

/-! ## The cache -/

def Cache.find (s : Cache) (paddr : BitVec 32) : Option ArpTable :=
  HashChain.find ArpTable.ip hash s.tables paddr

/-- A change to the entry that `arp_lookup` or `arp_create` has just returned. -/
def Cache.update (s : Cache) (paddr : BitVec 32) (f : ArpTable → ArpTable) : Cache :=
  { s with tables := HashChain.modify ArpTable.ip hash s.tables paddr f }

def Cache.arpLookup (s : Cache) (paddr : BitVec 32) : Cache × Option ArpTable :=
  if chkAddr s.devBase paddr = .myAddr then (s, none)
  else
    let s := s.cli
    (s.sti, s.find paddr)

def Cache.arpLookupProxy (s : Cache) (paddr : BitVec 32) : Cache × Option ArpTable :=
  let s := s.cli
  (s.sti, (s.tables (hash paddr)).find? fun apt => apt.ip = paddr ∧ apt.publ)

def Cache.arpDestructor (s : Cache) (paddr : BitVec 32) (force : Bool) : Cache :=
  if chkAddr s.devBase paddr = .myAddr then s
  else
    let s := s.cli
    match s.find paddr with
    | some apt =>
      if apt.perm && !force then s
      else
        let s := { s with tables := HashChain.erase ArpTable.ip hash s.tables paddr }
        let s := if apt.publ then { s with arpProxies := s.arpProxies - 1 } else s
        s.sti
    | none => s.sti

def Cache.arpDestroy (s : Cache) (paddr : BitVec 32) : Cache := s.arpDestructor paddr true

def Cache.arpDestroyMaybe (s : Cache) (paddr : BitVec 32) : Cache := s.arpDestructor paddr false

/-- `arp_create`.  `kmalloc` holds what the `ha` field of the allocated memory contains, and
nothing when there is no memory. -/
def Cache.arpCreate (s : Cache) (paddr : BitVec 32) (addr : List Byte) (hlen : ℕ)
    (htype : BitVec 8) (kmalloc : Option (List Byte)) : Option Cache :=
  match kmalloc with
  | none => none
  | some ha =>
    let apt : ArpTable :=
      { ip := paddr, hlen := hlen, htype := htype, flags := ATF_INUSE ||| ATF_COM,
        ha := memcpy ha addr hlen, lastUsed := s.jiffies }
    let s := s.cli
    let s := { s with tables := HashChain.push ArpTable.ip hash s.tables apt }
    some s.sti

/-- The comparison that `arp_find` makes for the age of an entry. -/
def ArpTable.young (apt : ArpTable) (jiffies : ℕ) : Bool :=
  apt.lastUsed % 2 ^ 32 < (jiffies + ARP_TIMEOUT) % 2 ^ 32

/-- `arp_find`: the hardware address, or nothing when the cache has none and a request was
sent.  The request is addressed to 0.0.0.0, so that its header needs no search here. -/
def Cache.arpFind (s : Cache) (paddr : BitVec 32) (dev : Device) : Cache × Option (List Byte) :=
  match chkAddr s.devBase paddr with
  | .myAddr => (s, some (dev.devAddr.take dev.addrLen))
  | .broadcast => (s, some (dev.broadcast.take dev.addrLen))
  | .other =>
    match s.arpLookup paddr with
    | (s, none) => (s, none)
    | (s, some apt) =>
      if apt.perm || (apt.young s.jiffies && apt.hlen ≠ 0) then
        let s := s.update paddr fun apt => { apt with lastUsed := s.jiffies }
        ({ s with handed := ⟨apt, s.jiffies⟩ :: s.handed }, some (apt.ha.take dev.addrLen))
      else (s, none)

def Cache.arpAdd (s : Cache) (addr : BitVec 32) (haddr : List Byte) (dev : Device)
    (kmalloc : Option (List Byte)) : Cache :=
  if addr = 0 then s
  else
    match s.arpLookup addr with
    | (s, some _) =>
      s.update addr fun apt =>
        { apt with lastUsed := s.jiffies, ha := memcpy apt.ha haddr dev.addrLen }
    | (s, none) =>
      (s.arpCreate addr haddr dev.addrLen (dev.type.setWidth 8) kmalloc).getD s

def Cache.arpAddBroad (s : Cache) (addr : BitVec 32) (dev : Device)
    (kmalloc : Option (List Byte)) : Cache :=
  let s := s.arpAdd addr dev.broadcast dev kmalloc
  match s.arpLookup addr with
  | (s, some _) => s.update addr fun apt => { apt with flags := apt.flags ||| ATF_PERM }
  | (s, none) => s

/-- `eth_header` and its like for an ARP packet; only the search of the cache is left. -/
def Cache.hardHeader (s : Cache) (dev : Device) (daddr : BitVec 32) : Cache :=
  match dev.header with
  | .slip => s
  | .eth =>
    if dev.loopback then s
    else if chkAddr s.devBase daddr = .broadcast then s
    else (s.cli.arpFind daddr dev).1.sti

def Cache.rebuildHeader (s : Cache) (skb : Queued) : Cache × Bool :=
  match skb.dev.header with
  | .slip => (s, true)
  | .eth =>
    if skb.arpProto then (s, true)
    else
      let (s, haddr) := s.arpFind skb.dst skb.dev
      (s, haddr.isSome)

/-- The loop of `arp_send_q` over the packets it has taken off the queue. -/
def arpSendLoop : List Queued → Cache → Cache
  | [], s => s
  | skb :: workQ, s =>
    let skb := { skb with tries := skb.tries - 1 }
    if skb.tries = 0 then arpSendLoop workQ s.cli.sti
    else
      let s := s.cli.sti
      if skb.arp then arpSendLoop workQ s
      else
        match s.rebuildHeader skb with
        | (s, true) => arpSendLoop workQ s
        | (s, false) => arpSendLoop workQ { s with arpQ := skb :: s.arpQ }

def Cache.arpSendQ (s : Cache) : Cache :=
  let workQ := s.arpQ
  let s := s.cli
  arpSendLoop workQ ({ s with arpQ := [] } : Cache).sti

def Cache.arpQueue (s : Cache) (skb : Queued) (linked : Bool) : Cache :=
  let skb := { skb with tries := ARP_MAX_TRIES }
  let s := s.cli
  let s :=
    if linked then
      { s with arpQ := s.arpQ.map fun q =>
          if q.id = skb.id then { q with tries := ARP_MAX_TRIES } else q }
    else { s with arpQ := s.arpQ ++ [skb] }
  s.sti

def Cache.arpResponse (s : Cache) (arp : ArpPacket) (dev : Device) (addrtype : AddrKind)
    (alloc : Bool) : Cache :=
  if addrtype = .myAddr then if alloc then s.hardHeader dev arp.spa else s
  else
    match s.arpLookupProxy arp.tpa with
    | (s, none) => s
    | (s, some _) => if alloc then s.hardHeader dev arp.spa else s

def ArpPacket.Accepted (arp : ArpPacket) (dev : Device) : Prop :=
  (arp.arHln = dev.addrLen ∧ dev.type = net16 arp.arHrd) ∧
    (if dev.type = 3 then arp.arPro = net16 0x00cc else arp.arPro = net16 ETH_P_IP) ∧ arp.arPln = 4

instance (arp : ArpPacket) (dev : Device) : Decidable (arp.Accepted dev) := by
  unfold ArpPacket.Accepted
  infer_instance

/-- `arp_rcv` from the call of `arp_send_q` on.  `dst` is what the variable holds when it is
first looked at, before the packet's target address is read into it. -/
def Cache.arpAnswer (s : Cache) (arp : ArpPacket) (dev : Device) (dst : BitVec 32)
    (alloc : Bool) : Cache :=
  let s := s.arpSendQ
  if arp.arOp ≠ net16 ARPOP_REQUEST then s
  else if chkAddr s.devBase dst = .broadcast then s
  else
    let addrHint := chkAddr s.devBase arp.tpa
    if addrHint ≠ .myAddr ∧ s.arpProxies = 0 then s
    else s.arpResponse arp dev addrHint alloc

def ArpPacket.learn (arp : ArpPacket) (jiffies : ℕ) (tbl : ArpTable) : ArpTable :=
  { tbl with
    ha := memcpy tbl.ha arp.sha arp.arHln, hlen := arp.arHln,
    flags := tbl.flags ||| ATF_COM, lastUsed := jiffies }

/-- `arp_rcv`.  When the sender has an entry, `dst` is not set before it is looked at, and
then holds anything, here `stack`. -/
def Cache.arpRcv (s : Cache) (arp : ArpPacket) (dev : Device) (kmalloc : Option (List Byte))
    (stack : BitVec 32) (alloc : Bool) : Cache :=
  if arp.Accepted dev then
    match s.arpLookup arp.spa with
    | (s, some _) => (s.update arp.spa (arp.learn s.jiffies)).arpAnswer arp dev stack alloc
    | (s, none) =>
      if chkAddr s.devBase arp.tpa ≠ .myAddr ∧ s.arpProxies = 0 then s
      else
        match s.arpCreate arp.spa arp.sha arp.arHln (arp.arHrd.setWidth 8) kmalloc with
        | none => s
        | some s => s.arpAnswer arp dev arp.tpa alloc
  else s

/-! ## Requests of processes -/

inductive Errno where
  | eperm
  | efault
  | enomem
  | enxio
  | einval
  | epfnosupport
  deriving DecidableEq

/-- The hardware type and the address length that `arp_req_set` reads off the family. -/
def hardwareType (family : BitVec 16) : Option (BitVec 8 × ℕ) :=
  if family = 0 ∨ family = ARPHRD_ETHER then some (ARPHRD_ETHER.setWidth 8, ETH_ALEN)
  else if family = ARPHRD_AX25 then some (ARPHRD_AX25.setWidth 8, 7)
  else none

def ArpReq.set (r : ArpReq) (hlen jiffies : ℕ) (apt : ArpTable) : ArpTable :=
  { apt with ha := memcpy apt.ha r.haData hlen, lastUsed := jiffies, flags := r.flags }

def Cache.arpReqSet (s : Cache) (r : ArpReq) (kmalloc : Option (List Byte)) :
    Cache × Except Errno Unit :=
  if !r.paInet then (s, .error .epfnosupport)
  else
    match hardwareType r.haFamily with
    | none => (s, .error .epfnosupport)
    | some (htype, hlen) =>
      if r.pa = 0 then (s, .error .einval)
      else
        let found : Option Cache :=
          match s.arpLookup r.pa with
          | (s, some _) => some s
          | (s, none) => s.arpCreate r.pa r.haData hlen htype kmalloc
        match found with
        | none => ((s.arpLookup r.pa).1, .error .enomem)
        | some s =>
          let s := s.update r.pa (r.set hlen s.jiffies)
          if r.flags &&& ATF_PUBL ≠ 0 then
            ({ s with arpProxies := s.arpProxies + 1 }, .ok ())
          else (s, .ok ())

def Cache.arpReqGet (s : Cache) (r : ArpReq) : Cache × Except Errno (BitVec 8 × List Byte) :=
  if !r.paInet then (s, .error .epfnosupport)
  else
    match s.arpLookup r.pa with
    | (s, none) => (s, .error .enxio)
    | (s, some apt) => (s, .ok (apt.htype, memcpy r.haData apt.ha apt.hlen))

def Cache.arpReqDel (s : Cache) (r : ArpReq) : Cache × Except Errno Unit :=
  if !r.paInet then (s, .error .epfnosupport)
  else if chkAddr s.devBase r.pa = .myAddr then (s, .error .einval)
  else (s.arpDestroy r.pa, .ok ())

inductive Cmd where
  | siocdarp
  | siocgarp
  | siocsarp
  | other
  deriving DecidableEq

def Cache.arpIoctl (s : Cache) (cmd : Cmd) (r : ArpReq) (suser : Bool) (area : Option Errno)
    (kmalloc : Option (List Byte)) : Cache × Except Errno Unit :=
  match cmd with
  | .siocdarp =>
    if !suser then (s, .error .eperm)
    else
      match area with
      | some err => (s, .error err)
      | none => s.arpReqDel r
  | .siocgarp =>
    match area with
    | some err => (s, .error err)
    | none =>
      let (s, reply) := s.arpReqGet r
      (s, reply.map fun _ => ())
  | .siocsarp =>
    if !suser then (s, .error .eperm)
    else
      match area with
      | some err => (s, .error err)
      | none => s.arpReqSet r kmalloc
  | .other => (s, .error .einval)

inductive Event where
  | rcv (arp : ArpPacket) (dev : Device) (kmalloc : Option (List Byte))
      (stack : BitVec 32) (alloc : Bool)
  | add (addr : BitVec 32) (haddr : List Byte) (dev : Device) (kmalloc : Option (List Byte))
  | addBroad (addr : BitVec 32) (dev : Device) (kmalloc : Option (List Byte))
  | find (paddr : BitVec 32) (dev : Device)
  | ioctl (cmd : Cmd) (r : ArpReq) (suser : Bool) (area : Option Errno)
      (kmalloc : Option (List Byte))
  | destroy (paddr : BitVec 32)
  | destroyMaybe (paddr : BitVec 32)
  | queue (skb : Queued) (linked : Bool)
  | ticker
  | tick
  | ifconfig (devBase : List Device)

def step (s : Cache) : Event → Cache
  | .rcv arp dev kmalloc stack alloc => s.arpRcv arp dev kmalloc stack alloc
  | .add addr haddr dev kmalloc => s.arpAdd addr haddr dev kmalloc
  | .addBroad addr dev kmalloc => s.arpAddBroad addr dev kmalloc
  | .find paddr dev => (s.arpFind paddr dev).1
  | .ioctl cmd r suser area kmalloc => (s.arpIoctl cmd r suser area kmalloc).1
  | .destroy paddr => s.arpDestroy paddr
  | .destroyMaybe paddr => s.arpDestroyMaybe paddr
  | .queue skb linked => s.arpQueue skb linked
  | .ticker => s.arpSendQ
  | .tick => { s with jiffies := s.jiffies + 1 }
  | .ifconfig devBase => { s with devBase := devBase }

def run (s : Cache) (es : List Event) : Cache := es.foldl step s

def boot (devBase : List Device) : Cache :=
  { tables := fun _ => [], arpProxies := 0, arpQ := [], devBase := devBase,
    interrupts := true, jiffies := 0, handed := [] }

end LinuxKernel.Arp
