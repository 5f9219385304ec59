import LinuxKernel.SlhcHeaders

/-!
# TCP header compression

`slhc_compress`, `slhc_uncompress` and `slhc_remember` of `drivers/net/slhc.c`, and the choice
between them by the type of a packet as `sl_bump` of `slip.c` makes it.  `last_retran` is 0, and
the statistics are left out.

A packet is the list of its bytes.  The states of the transmitter are in a ring that is in order
of their last use, `next` by `next`, with `xmit_oldest` at its end.
-/

namespace LinuxKernel.Slhc
open Function

def IPPROTO_TCP : Byte := 6
def SL_TYPE_UNCOMPRESSED_TCP : Byte := 0x70
def SL_TYPE_COMPRESSED_TCP : Byte := 0x80
def NEW_C : Byte := 0x40
def NEW_I : Byte := 0x20
def NEW_S : Byte := 0x08
def NEW_A : Byte := 0x04
def NEW_W : Byte := 0x02
def NEW_U : Byte := 0x01
def SPECIAL_I : Byte := NEW_S ||| NEW_W ||| NEW_U
def SPECIAL_D : Byte := NEW_S ||| NEW_A ||| NEW_W ||| NEW_U
def SPECIALS_MASK : Byte := NEW_S ||| NEW_A ||| NEW_W ||| NEW_U
def TCP_PUSH_BIT : Byte := 0x10

/-- `struct cstate`, but for its number and its place in the ring. -/
structure CState where
  ip : IpHdr
  tcp : TcpHdr
  ipopt : List Byte
  tcpopt : List Byte
  deriving DecidableEq

structure Sender where
  tstate : ℕ → CState
  next : ℕ → ℕ
  tslotLimit : ℕ
  xmitOldest : ℕ
  xmitCurrent : ℕ

/-- The part of a `struct slcompress` for receiving; `toss` is the flag `SLF_TOSS`. -/
structure Receiver where
  rstate : ℕ → CState
  rslotLimit : ℕ
  recvCurrent : ℕ
  toss : Bool

def put16 (x : BitVec 16) : List Byte := [x.extractLsb' 8 8, x.extractLsb' 0 8]

def encode (n : ℤ) : List Byte :=
  if 256 ≤ n ∨ n = 0 then 0 :: put16 (BitVec.ofInt 16 n) else [BitVec.ofInt 8 n]

def pull16 (icp : List Byte) (cp : ℕ) : BitVec 16 := icp.getD cp 0 ++ icp.getD (cp + 1) 0

def decode (icp : List Byte) (cp : ℕ) : ℕ × ℕ :=
  if icp.getD cp 0 = 0 then ((pull16 icp (cp + 1)).toNat, cp + 3)
  else ((icp.getD cp 0).toNat, cp + 1)

def memcpy (dst src : List Byte) (n : ℕ) : List Byte := src.take n ++ dst.drop n

def optLen (words : BitVec 4) : ℕ := (words.toNat - 5) * 4

def hdrLen (ip : IpHdr) (th : TcpHdr) : ℕ := ip.ihl.toNat * 4 + th.doff.toNat * 4

/-! ## `slhc_compress` -/

def tcpPart (icp : List Byte) : List Byte := icp.drop ((IpHdr.read icp).ihl.toNat * 4)

def Sender.matches (comp : Sender) (ip : IpHdr) (th : TcpHdr) (cs : ℕ) : Bool :=
  ip.saddr = (comp.tstate cs).ip.saddr && ip.daddr = (comp.tstate cs).ip.daddr &&
    th.source = (comp.tstate cs).tcp.source && th.dest = (comp.tstate cs).tcp.dest

/-- The search for the connection: whether it was found, `lcs` and `cs`.  The first argument
bounds the number of rounds. -/
def Sender.search (comp : Sender) (ip : IpHdr) (th : TcpHdr) (ocs : ℕ) :
    ℕ → ℕ → ℕ → Option (Bool × ℕ × ℕ)
  | 0, _, _ => none
  | n + 1, lcs, cs =>
    if comp.matches ip th cs then some (true, lcs, cs)
    else if cs = ocs then some (false, lcs, cs)
    else comp.search ip th ocs n cs (comp.next cs)

def Sender.reorder (comp : Sender) (found : Bool) (lcs cs : ℕ) : Sender :=
  let ocs := comp.xmitOldest
  if found then
    if lcs = ocs then comp
    else if cs = ocs then { comp with xmitOldest := lcs }
    else
      let next := update comp.next lcs (comp.next cs)
      let next := update next cs (next ocs)
      { comp with next := update next ocs cs }
  else { comp with xmitOldest := lcs }

/-- What has to be as it was in the last packet.  Of the TCP options `memcmp` looks at one byte
only. -/
def CState.incompat (cs : CState) (ip : IpHdr) (th : TcpHdr) (ipopt tcpopt : List Byte) : Bool :=
  ip.version ≠ cs.ip.version || ip.ihl ≠ cs.ip.ihl || ip.tos ≠ cs.ip.tos ||
    ip.fragOff &&& 64 ≠ cs.ip.fragOff &&& 64 || ip.ttl ≠ cs.ip.ttl || th.doff ≠ cs.tcp.doff ||
      (5 < ip.ihl.toNat && ipopt.take (optLen ip.ihl) ≠ cs.ipopt.take (optLen ip.ihl)) ||
        (5 < th.doff.toNat && tcpopt.take 1 ≠ cs.tcpopt.take 1)

def CState.deltaW (cs : CState) (th : TcpHdr) : ℤ :=
  (ntohs th.window).toNat - (ntohs cs.tcp.window).toNat

def CState.deltaA (cs : CState) (th : TcpHdr) : BitVec 32 := ntohl th.ackSeq - ntohl cs.tcp.ackSeq

def CState.deltaS (cs : CState) (th : TcpHdr) : BitVec 32 := ntohl th.seq - ntohl cs.tcp.seq

def CState.deltaI (cs : CState) (ip : IpHdr) : ℤ := (ntohs ip.id).toNat - (ntohs cs.ip.id).toNat

/-- `ntohs(cs->cs_ip.tot_len) - hlen`, the length of the data of the last packet. -/
def CState.dataLen (cs : CState) (hlen : ℕ) : ℤ := (ntohs cs.ip.totLen).toNat - hlen

def when (b : Bool) (m : Byte) : Byte := if b then m else 0

def bits (u w a s : Bool) : Byte := when u NEW_U ||| when w NEW_W ||| when a NEW_A ||| when s NEW_S

def segment (b : Bool) (n : ℤ) : List Byte := if b then encode n else []

/-- The changes in the TCP header, up to the special cases; none if the packet goes
uncompressed. -/
def CState.changes (cs : CState) (ip : IpHdr) (th : TcpHdr) : Option (Byte × List Byte) :=
  let hlen := hdrLen ip th
  let len := BitVec.ofInt 32 (cs.dataLen hlen)
  if th.urg = false ∧ th.urgPtr ≠ cs.tcp.urgPtr then none
  else if 0xffff < cs.deltaA th ∨ 0xffff < cs.deltaS th then none
  else
    let w : Bool := cs.deltaW th ≠ 0
    let a : Bool := cs.deltaA th ≠ 0
    let s : Bool := cs.deltaS th ≠ 0
    let changes := bits th.urg w a s
    let newSeq := segment th.urg (ntohs th.urgPtr).toNat ++ segment w (cs.deltaW th) ++
      segment a (cs.deltaA th).toNat ++ segment s (cs.deltaS th).toNat
    if changes = 0 then
      if ip.totLen ≠ cs.ip.totLen ∧ (ntohs cs.ip.totLen).toNat = hlen then some (changes, newSeq)
      else none
    else if changes = SPECIAL_I ∨ changes = SPECIAL_D then none
    else if changes = NEW_S ||| NEW_A ∧ cs.deltaS th = cs.deltaA th ∧ cs.deltaS th = len then
      some (SPECIAL_I, [])
    else if changes = NEW_S ∧ cs.deltaS th = len then some (SPECIAL_D, [])
    else some (changes, newSeq)

def CState.deltas (cs : CState) (ip : IpHdr) (th : TcpHdr) : Option (Byte × List Byte) :=
  (cs.changes ip th).map fun (changes, newSeq) =>
    (changes ||| when (cs.deltaI ip ≠ 1) NEW_I ||| when th.psh TCP_PUSH_BIT,
      newSeq ++ segment (cs.deltaI ip ≠ 1) (cs.deltaI ip))

def Sender.sendCompressed (comp : Sender) (icp : List Byte) (compressCid : Bool) (cs : ℕ)
    (ip : IpHdr) (th : TcpHdr) (changes : Byte) (newSeq : List Byte) : Sender × List Byte :=
  let tstate := update comp.tstate cs { comp.tstate cs with ip := ip, tcp := th }
  let rest := put16 (ntohs th.check) ++ newSeq ++ icp.drop (hdrLen ip th)
  if compressCid = false ∨ comp.xmitCurrent ≠ cs then
    ({ comp with tstate := tstate, xmitCurrent := cs },
      (changes ||| NEW_C ||| SL_TYPE_COMPRESSED_TCP) :: BitVec.ofNat 8 cs :: rest)
  else ({ comp with tstate := tstate }, (changes ||| SL_TYPE_COMPRESSED_TCP) :: rest)

def CState.save (cs : CState) (icp : List Byte) : CState :=
  let ip := IpHdr.read icp
  let th := TcpHdr.read (tcpPart icp)
  { ip := ip
    tcp := th
    ipopt := memcpy cs.ipopt (icp.drop 20) (optLen ip.ihl)
    tcpopt := memcpy cs.tcpopt ((tcpPart icp).drop 20) (optLen th.doff) }

def Sender.sendUncompressed (comp : Sender) (icp : List Byte) (cs : ℕ) : Sender × List Byte :=
  ({ comp with
      tstate := update comp.tstate cs ((comp.tstate cs).save icp)
      xmitCurrent := cs },
    (icp.set 9 (BitVec.ofNat 8 cs)).set 0 (icp.getD 0 0 ||| SL_TYPE_UNCOMPRESSED_TCP))

def IpHdr.plain (ip : IpHdr) : Bool :=
  ip.protocol ≠ IPPROTO_TCP || ntohs ip.fragOff &&& 0x1fff ≠ 0 || ip.fragOff &&& 32 ≠ 0

def TcpHdr.control (th : TcpHdr) : Bool := th.syn || th.fin || th.rst || !th.ack

def Sender.changed (comp : Sender) (icp : List Byte) (found : Bool) (cs : ℕ) :
    Option (Byte × List Byte) :=
  let ip := IpHdr.read icp
  let th := TcpHdr.read (tcpPart icp)
  if found && !(comp.tstate cs).incompat ip th (icp.drop 20) ((tcpPart icp).drop 20) then
    (comp.tstate cs).deltas ip th
  else none

def Sender.compress (comp : Sender) (icp : List Byte) (compressCid : Bool) :
    Option (Sender × List Byte) :=
  let ip := IpHdr.read icp
  if ip.plain then some (comp, icp)
  else
    let th := TcpHdr.read (tcpPart icp)
    if th.control then some (comp, icp)
    else
      let ocs := comp.xmitOldest
      match comp.search ip th ocs (comp.tslotLimit + 1) ocs (comp.next ocs) with
      | none => none
      | some (found, lcs, cs) =>
        let comp := comp.reorder found lcs cs
        match comp.changed icp found cs with
        | some (changes, newSeq) =>
          some (comp.sendCompressed icp compressCid cs ip th changes newSeq)
        | none => some (comp.sendUncompressed icp cs)

/-! ## `slhc_uncompress` -/

def Receiver.setState (comp : Receiver) (cs : CState) : Receiver :=
  { comp with rstate := update comp.rstate comp.recvCurrent cs }

def Receiver.slhcToss (comp : Receiver) : Receiver := { comp with toss := true }

def pull (icp : List Byte) (changes bit : Byte) (set : TcpHdr → ℕ → TcpHdr) (x : TcpHdr × ℕ) :
    TcpHdr × ℕ :=
  if changes &&& bit ≠ 0 then
    let (n, cp) := decode icp x.2
    (set x.1 n, cp)
  else x

def TcpHdr.setUrgPtr (th : TcpHdr) (x : ℕ) : TcpHdr :=
  { th with urgPtr := ntohs (BitVec.ofNat 16 x) }

def TcpHdr.addWindow (th : TcpHdr) (x : ℕ) : TcpHdr :=
  { th with window := ntohs (ntohs th.window + BitVec.ofNat 16 x) }

def TcpHdr.addAckSeq (th : TcpHdr) (x : ℕ) : TcpHdr :=
  { th with ackSeq := ntohl (ntohl th.ackSeq + BitVec.ofNat 32 x) }

def TcpHdr.addSeq (th : TcpHdr) (x : ℕ) : TcpHdr :=
  { th with seq := ntohl (ntohl th.seq + BitVec.ofNat 32 x) }

def CState.applyTcp (cs : CState) (icp : List Byte) (changes : Byte) (cp : ℕ) : TcpHdr × ℕ :=
  let th := { cs.tcp with
    check := ntohs (pull16 icp cp)
    psh := changes &&& TCP_PUSH_BIT ≠ 0 }
  let cp := cp + 2
  let len := cs.dataLen (hdrLen cs.ip th)
  if changes &&& SPECIALS_MASK = SPECIAL_I then
    -- the difference goes through a short
    let i : BitVec 32 := (BitVec.ofInt 16 len).signExtend 32
    ({ th with ackSeq := ntohl (ntohl th.ackSeq + i), seq := ntohl (ntohl th.seq + i) }, cp)
  else if changes &&& SPECIALS_MASK = SPECIAL_D then
    ({ th with seq := ntohl (ntohl th.seq + BitVec.ofInt 32 len) }, cp)
  else
    let x := pull icp changes NEW_U TcpHdr.setUrgPtr ({ th with urg := changes &&& NEW_U ≠ 0 }, cp)
    let x := pull icp changes NEW_W TcpHdr.addWindow x
    let x := pull icp changes NEW_A TcpHdr.addAckSeq x
    pull icp changes NEW_S TcpHdr.addSeq x

def CState.applyId (cs : CState) (icp : List Byte) (changes : Byte) (cp : ℕ) : BitVec 16 × ℕ :=
  if changes &&& NEW_I ≠ 0 then
    let (x, cp) := decode icp cp
    (ntohs (ntohs cs.ip.id + BitVec.ofNat 16 x), cp)
  else (ntohs (ntohs cs.ip.id + 1), cp)

def CState.header (cs : CState) : List Byte :=
  let ipPart := cs.ip.bytes ++ cs.ipopt.take (optLen cs.ip.ihl)
  let cs := { cs with ip := { cs.ip with check := ipCsum ipPart } }
  cs.ip.bytes ++ cs.ipopt.take (optLen cs.ip.ihl) ++ cs.tcp.bytes ++
    cs.tcpopt.take (optLen cs.tcp.doff)

/-- `slhc_uncompress` once the connection is known.  The headers are put over the front of the
data where a header length is too small for them. -/
def Receiver.expand (comp : Receiver) (icp : List Byte) (changes : Byte) (cp : ℕ) :
    Receiver × Option (List Byte) :=
  let cs := comp.rstate comp.recvCurrent
  let (th, cp) := cs.applyTcp icp changes cp
  let (id, cp) := cs.applyId icp changes cp
  let cs := { cs with ip := { cs.ip with id := id }, tcp := th }
  if icp.length < cp then ((comp.setState cs).slhcToss, none)
  else
    let len := icp.length - cp + hdrLen cs.ip cs.tcp
    let cs := { cs with ip := { cs.ip with totLen := ntohs (BitVec.ofNat 16 len), check := 0 } }
    let header := cs.header
    let rest := (icp.drop cp).drop (header.length - hdrLen cs.ip cs.tcp)
    (comp.setState cs, some ((header ++ rest).take len))

def Receiver.uncompress (comp : Receiver) (icp : List Byte) : Receiver × Option (List Byte) :=
  if icp.length < 3 then (comp, none)
  else
    let changes := icp.getD 0 0
    if changes &&& NEW_C ≠ 0 then
      let x := (icp.getD 1 0).toNat
      if comp.rslotLimit < x then (comp.slhcToss, none)
      else { comp with toss := false, recvCurrent := x }.expand icp changes 2
    else if comp.toss then (comp, none)
    else comp.expand icp changes 1

def Receiver.remember (comp : Receiver) (icp : List Byte) : Receiver × Option (List Byte) :=
  if icp.length < 20 then (comp.slhcToss, none)
  else if (IpHdr.read icp).ihl.toNat * 4 < 20 then (comp.slhcToss, none)
  else
    let index := (icp.getD 9 0).toNat
    let icp := icp.set 9 IPPROTO_TCP
    if ipCsum icp ≠ 0 then (comp.slhcToss, none)
    else if comp.rslotLimit < index then (comp.slhcToss, none)
    else
      let comp := { comp with toss := false, recvCurrent := index }
      (comp.setState ((comp.rstate index).save icp), some icp)

def Receiver.bump (comp : Receiver) (icp : List Byte) : Receiver × Option (List Byte) :=
  let c := icp.getD 0 0
  if c &&& SL_TYPE_COMPRESSED_TCP ≠ 0 then comp.uncompress icp
  else if SL_TYPE_UNCOMPRESSED_TCP ≤ c then comp.remember (icp.set 0 (c &&& 0x4f))
  else (comp, some icp)

structure Line where
  sender : Sender
  receiver : Receiver

def Line.pass (l : Line) (compressCid : Bool) (icp : List Byte) :
    Option (Line × Option (List Byte)) :=
  (l.sender.compress icp compressCid).map fun (sender, packet) =>
    let (receiver, out) := l.receiver.bump packet
    (⟨sender, receiver⟩, out)

def Line.run (l : Line) (compressCid : Bool) : List (List Byte) →
    Option (Line × List (Option (List Byte)))
  | [] => some (l, [])
  | icp :: packets =>
    (l.pass compressCid icp).bind fun (l, out) =>
      (l.run compressCid packets).map fun (l, outs) => (l, out :: outs)

def CState.zero : CState where
  ip := IpHdr.read []
  tcp := TcpHdr.read []
  ipopt := List.replicate 64 0
  tcpopt := List.replicate 64 0

/-- `slhc_init`, with the same number of slots for both directions. -/
def init (slots : ℕ) : Line where
  sender :=
    { tstate := fun _ => CState.zero
      next := fun i => if i = 0 then slots - 1 else i - 1
      tslotLimit := slots - 1
      xmitOldest := 0
      xmitCurrent := 255 }
  receiver :=
    { rstate := fun _ => CState.zero
      rslotLimit := slots - 1
      recvCurrent := 255
      toss := true }

end LinuxKernel.Slhc
