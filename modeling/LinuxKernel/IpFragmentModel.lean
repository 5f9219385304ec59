import Mathlib.Data.List.Range

/-!
# IP fragmentation and reassembly

`ip_fragment`, `ip_defrag` and the functions they use in `net/inet/ip.c`.
A frame is kept as its hardware header, its IP header and the bytes that
follow; header fields are in host byte order.  An `ipfrag` points into the
bytes of the frame it came with, so `ptr` is an index into them.

The `fragments` of an `ipq` and the list `ipqueue` are kept as the lists their
`next` fields spell.  Every `kmalloc` may refuse; `Grants` says what it answers.
A step that reads through a null pointer has no result.
-/

namespace LinuxKernel.IpFragment

def sizeofSkBuff : ℕ := 84

structure Iphdr where
  ihl : ℕ
  totLen : ℕ
  id : ℕ
  fragOff : ℕ
  protocol : ℕ
  saddr : ℕ
  daddr : ℕ
  options : List UInt8
  deriving DecidableEq, Repr

/-- A frame in an `sk_buff`: what lies before the IP header, the header, and
what lies behind it. -/
structure Skb where
  mac : List UInt8
  iph : Iphdr
  payload : List UInt8
  deriving DecidableEq, Repr

structure Device where
  hardHeaderLen : ℕ
  mtu : ℕ

def Iphdr.hlen (iph : Iphdr) : ℕ := iph.ihl * 4

def Iphdr.moreFragments (iph : Iphdr) : Prop := iph.fragOff &&& 0x2000 ≠ 0

def Iphdr.dontFragment (iph : Iphdr) : Prop := iph.fragOff &&& 0x4000 ≠ 0

def Iphdr.offsetUnits (iph : Iphdr) : ℕ := iph.fragOff &&& 0x1FFF

instance (iph : Iphdr) : Decidable iph.moreFragments := inferInstanceAs (Decidable (_ ≠ _))

instance (iph : Iphdr) : Decidable iph.dontFragment := inferInstanceAs (Decidable (_ ≠ _))

def byteAt (bytes : List UInt8) (i : ℤ) : UInt8 := bytes.getD i.toNat 0

/-- The piece `ip_fragment` hands to `ip_queue_xmit`, which fills in `tot_len`. -/
def piece (skb : Skb) (isFrag offset start len left : ℕ) : Skb :=
  { mac := skb.mac
    iph :=
      { skb.iph with
        fragOff :=
          if 0 < left ∨ isFrag &&& 1 ≠ 0 then offset / 8 % 65536 ||| 0x2000
          else offset / 8 % 65536
        totLen := (skb.iph.hlen + len) % 65536 }
    payload := (List.range len).map fun i : ℕ => byteAt skb.payload ((start + i : ℕ) : ℤ) }

/-- The length of the next piece: what fits, cut to a multiple of eight unless
it is the end of the packet. -/
def pieceLen (left mtu : ℕ) : ℕ :=
  let len := if mtu < left then mtu else left
  if len < left then len / 8 * 8 else len

/-- The loop of `ip_fragment` from byte `start` of the packet on.  `fuel` bounds
the turns: with less than eight bytes of room the loop of the source does not
end. -/
def fragmentLoop (skb : Skb) (isFrag mtu : ℕ) : ℕ → ℕ → ℕ → ℕ → List Skb
  | 0, _, _, _ => []
  | fuel + 1, offset, start, left =>
    if 0 < left then
      let len := pieceLen left mtu
      piece skb isFrag offset start len (left - len) ::
        fragmentLoop skb isFrag mtu fuel (offset + len) (start + len) (left - len)
    else []

def ipFragment (skb : Skb) (dev : Device) (isFrag : ℕ) : List Skb :=
  let left := skb.iph.totLen - skb.iph.hlen
  let mtu := dev.mtu - (skb.iph.hlen + dev.hardHeaderLen)
  if skb.iph.dontFragment then []
  else
    let offset := if isFrag &&& 2 ≠ 0 then skb.iph.offsetUnits * 8 else 0
    fragmentLoop skb isFrag mtu left offset 0 left

/-- The `is_frag` that `ip_rcv` finds for a packet it forwards. -/
def isFragOf (iph : Iphdr) : ℕ :=
  (if iph.moreFragments then 1 else 0) + (if iph.offsetUnits ≠ 0 then 2 else 0)

/-! ## Reassembly -/

structure Ipfrag where
  offset : ℤ
  fend : ℤ
  len : ℤ
  skb : Skb
  ptr : ℤ
  deriving DecidableEq, Repr

structure Ipq where
  mac : List UInt8
  iph : Iphdr
  len : ℤ
  ihlen : ℕ
  maclen : ℕ
  fragments : List Ipfrag
  deriving DecidableEq, Repr

/-- The answers of `kmalloc` to the requests of one call of `ip_defrag`. -/
structure Grants where
  queue : Bool
  mac : Bool
  header : Bool
  frag : Bool
  buffer : Bool
  deriving DecidableEq, Repr

def allGranted : Grants :=
  { queue := true, mac := true, header := true, frag := true, buffer := true }

/-- What a call of `ip_glue` did to its buffer: the `qp->len` it worked for, the
room behind the headers, and the offset and length of every `memcpy`. -/
structure Glue where
  len : ℤ
  room : ℤ
  copied : List (ℤ × ℤ)
  deriving DecidableEq, Repr

structure Defragged where
  ipqueue : List Ipq
  skb : Option Skb
  glue : Option Glue
  deriving DecidableEq, Repr

def sameDatagram (iph : Iphdr) (qp : Ipq) : Bool :=
  iph.id == qp.iph.id && iph.saddr == qp.iph.saddr &&
    iph.daddr == qp.iph.daddr && iph.protocol == qp.iph.protocol

def ipFind (ipqueue : List Ipq) (iph : Iphdr) : Option Ipq := ipqueue.find? (sameDatagram iph)

def ipFree (ipqueue : List Ipq) (iph : Iphdr) : List Ipq := ipqueue.eraseP (sameDatagram iph)

def storeQueue (ipqueue : List Ipq) (iph : Iphdr) (qp : Ipq) : List Ipq :=
  match ipqueue with
  | [] => []
  | q :: rest => if sameDatagram iph q then qp :: rest else q :: storeQueue rest iph qp

def ipCreate (skb : Skb) (grants : Grants) : Option Ipq :=
  if grants.queue && grants.mac && grants.header then
    some
      { mac := skb.mac
        iph := skb.iph
        len := 0
        ihlen := skb.iph.hlen
        maclen := skb.mac.length
        fragments := [] }
  else none

def ipFragCreate (offset fend : ℤ) (skb : Skb) (ptr : ℤ) : Ipfrag :=
  { offset := offset, fend := fend, len := fend - offset, skb := skb, ptr := ptr }

def connected : ℤ → List Ipfrag → Bool
  | _, [] => true
  | offset, fp :: rest => if fp.offset > offset then false else connected fp.fend rest

def ipDone (qp : Ipq) : Bool := if qp.len = 0 then false else connected 0 qp.fragments

/-- `memcpy(ptr + offset, src, len)` on the memory behind `ptr`. -/
def memcpy (memory : ℤ → UInt8) (offset len : ℤ) (src : ℤ → UInt8) : ℤ → UInt8 :=
  fun x => if offset ≤ x ∧ x < offset + len then src (x - offset) else memory x

structure Copy where
  count : ℤ
  memory : ℤ → UInt8
  copied : List (ℤ × ℤ)
  overSize : Bool

/-- The copying loop of `ip_glue`; `skbLen` is the `skb->len` it compares with. -/
def copyFragments (skbLen : ℤ) : Copy → List Ipfrag → Copy
  | c, [] => c
  | c, fp :: rest =>
    if c.count + fp.len > skbLen then { c with overSize := true }
    else
      copyFragments skbLen
        { c with
          count := c.count + fp.len
          memory := memcpy c.memory fp.offset fp.len fun i => byteAt fp.skb.payload (fp.ptr + i)
          copied := c.copied ++ [(fp.offset, fp.len)] }
        rest

def glueLen (qp : Ipq) : ℤ := sizeofSkBuff + qp.maclen + qp.ihlen + qp.len

/-- `ip_glue` once `alloc_skb` has granted the buffer.  The memory behind the
headers is whatever the allocator left there. -/
def glueBuffer (qp : Ipq) : Copy :=
  copyFragments (glueLen qp - qp.maclen)
    { count := 0, memory := fun _ => 0, copied := [], overSize := false } qp.fragments

/-- The frame `ip_glue` builds.  Its upper layers read `tot_len` minus the header
length bytes behind the header. -/
def gluedSkb (qp : Ipq) : Skb :=
  let c := glueBuffer qp
  { mac := qp.mac
    iph := { qp.iph with fragOff := 0, totLen := (qp.iph.hlen + c.count.toNat) % 65536 }
    payload := (List.range c.count.toNat).map fun i : ℕ => c.memory (i : ℤ) }

def ipGlue (ipqueue : List Ipq) (qp : Ipq) (grants : Grants) : Defragged :=
  let rest := ipFree ipqueue qp.iph
  if grants.buffer then
    let c := glueBuffer qp
    { ipqueue := rest
      skb := if c.overSize then none else some (gluedSkb qp)
      glue := some
        { len := qp.len
          room := glueLen qp - sizeofSkBuff - qp.maclen - qp.ihlen
          copied := c.copied } }
  else { ipqueue := rest, skb := none, glue := none }

/-- The fragments up to the last one that starts at or before `offset`: the loop
that looks for `prev` and `next`. -/
def inFront (offset : ℤ) : List Ipfrag → List Ipfrag
  | [] => []
  | next :: rest => if next.offset > offset then [] else next :: inFront offset rest

def behind (offset : ℤ) : List Ipfrag → List Ipfrag
  | [] => []
  | next :: rest => if next.offset > offset then next :: rest else behind offset rest

/-- The loop over the succeeding fragments.  A fragment that is trimmed to
nothing is unlinked, which reads `tfp->next` of the fragment behind it; one that
keeps some bytes is passed over as well, and is not linked behind the new
fragment afterwards. -/
def trimOverlap (fend : ℤ) : List Ipfrag → Option (List Ipfrag)
  | [] => some []
  | next :: rest =>
    if next.offset ≥ fend then some (next :: rest)
    else
      let i := fend - next.offset
      let next' : Ipfrag :=
        { next with len := next.len - i, offset := next.offset + i, ptr := next.ptr + i }
      if next'.len ≤ 0 then
        match rest with
        | [] => none
        | _ :: _ => trimOverlap fend rest
      else trimOverlap fend rest

/-- How far the front of a fragment at `offset` overlaps `prev`. -/
def lowOverlap (prev : Option Ipfrag) (offset : ℤ) : ℤ :=
  match prev with
  | none => 0
  | some prev => if offset < prev.fend then prev.fend - offset else 0

/-- The insertion of a fragment with bytes `[offset, fend)` into a chain. -/
def insertFragment (chain : List Ipfrag) (offset fend : ℤ) (skb : Skb) (grants : Grants) :
    Option (List Ipfrag) :=
  let front := inFront offset chain
  let i := lowOverlap front.getLast? offset
  match trimOverlap fend (behind offset chain) with
  | none => none
  | some rest =>
    if grants.frag then some (front ++ ipFragCreate (offset + i) fend skb i :: rest)
    else none

/-- The rest of `ip_defrag` for a fragment whose queue `qp` is on `ipqueue`. -/
def queueFragment (ipqueue : List Ipq) (qp : Ipq) (skb : Skb) (grants : Grants) :
    Option Defragged :=
  let offset : ℤ := (skb.iph.offsetUnits * 8 : ℕ)
  let fend : ℤ := offset + skb.iph.totLen - skb.iph.hlen
  let len := if skb.iph.moreFragments then qp.len else fend
  match insertFragment qp.fragments offset fend skb grants with
  | none => none
  | some chain =>
    let qp' := { qp with len := len, fragments := chain }
    let ipqueue' := storeQueue ipqueue skb.iph qp'
    if ipDone qp' then some (ipGlue ipqueue' qp' grants)
    else some { ipqueue := ipqueue', skb := none, glue := none }

def ipDefrag (ipqueue : List Ipq) (skb : Skb) (grants : Grants) : Option Defragged :=
  if ¬skb.iph.moreFragments ∧ skb.iph.offsetUnits = 0 then
    some { ipqueue := ipFree ipqueue skb.iph, skb := some skb, glue := none }
  else
    match ipFind ipqueue skb.iph with
    | some qp => queueFragment ipqueue qp skb grants
    | none =>
      match ipCreate skb grants with
      | none => some { ipqueue := ipqueue, skb := none, glue := none }
      | some qp => queueFragment (qp :: ipqueue) qp skb grants

end LinuxKernel.IpFragment
