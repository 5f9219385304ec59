import Mathlib.Data.BitVec

/-!
# IP and TCP headers in memory

`struct iphdr` and `struct tcphdr` with their bit fields, as a little-endian machine lays them
over the bytes of a packet, the functions for the byte order, and `ip_fast_csum` of
`net/inet/ip.c`.
-/

namespace LinuxKernel.Slhc

abbrev Byte := BitVec 8

/-! ## Words of two and four bytes -/

def word16 (l : List Byte) (i : ℕ) : BitVec 16 := l.getD (i + 1) 0 ++ l.getD i 0

def word32 (l : List Byte) (i : ℕ) : BitVec 32 := word16 l (i + 2) ++ word16 l i

def bytes16 (x : BitVec 16) : List Byte := [x.extractLsb' 0 8, x.extractLsb' 8 8]

def bytes32 (x : BitVec 32) : List Byte :=
  bytes16 (x.extractLsb' 0 16) ++ bytes16 (x.extractLsb' 16 16)

def ntohs (x : BitVec 16) : BitVec 16 := x.extractLsb' 0 8 ++ x.extractLsb' 8 8

def ntohl (x : BitVec 32) : BitVec 32 := ntohs (x.extractLsb' 0 16) ++ ntohs (x.extractLsb' 16 16)

theorem bytes16_append (a b : Byte) : bytes16 (a ++ b : BitVec 16) = [b, a] := by
  have hlow : (a ++ b : BitVec 16).extractLsb' 0 8 = b := BitVec.extractLsb'_append_eq_right
  have hhigh : (a ++ b : BitVec 16).extractLsb' 8 8 = a := BitVec.extractLsb'_append_eq_left
  rw [bytes16, hlow, hhigh]

theorem bytes32_append (a b : BitVec 16) :
    bytes32 (a ++ b : BitVec 32) = bytes16 b ++ bytes16 a := by
  have hlow : (a ++ b : BitVec 32).extractLsb' 0 16 = b := BitVec.extractLsb'_append_eq_right
  have hhigh : (a ++ b : BitVec 32).extractLsb' 16 16 = a := BitVec.extractLsb'_append_eq_left
  rw [bytes32, hlow, hhigh]

@[simp] theorem ntohs_ntohs (x : BitVec 16) : ntohs (ntohs x) = x := by
  have hlow : (ntohs x).extractLsb' 0 8 = x.extractLsb' 8 8 := BitVec.extractLsb'_append_eq_right
  have hhigh : (ntohs x).extractLsb' 8 8 = x.extractLsb' 0 8 := BitVec.extractLsb'_append_eq_left
  conv_lhs => rw [ntohs, hlow, hhigh]
  exact BitVec.extractLsb'_append_extractLsb'

@[simp] theorem ntohl_ntohl (x : BitVec 32) : ntohl (ntohl x) = x := by
  have hlow : (ntohl x).extractLsb' 0 16 = ntohs (x.extractLsb' 16 16) :=
    BitVec.extractLsb'_append_eq_right
  have hhigh : (ntohl x).extractLsb' 16 16 = ntohs (x.extractLsb' 0 16) :=
    BitVec.extractLsb'_append_eq_left
  conv_lhs => rw [ntohl, hlow, hhigh, ntohs_ntohs, ntohs_ntohs]
  exact BitVec.extractLsb'_append_extractLsb'

/-! ## Headers -/

@[ext]
structure IpHdr where
  ihl : BitVec 4
  version : BitVec 4
  tos : Byte
  totLen : BitVec 16
  id : BitVec 16
  fragOff : BitVec 16
  ttl : Byte
  protocol : Byte
  check : BitVec 16
  saddr : BitVec 32
  daddr : BitVec 32
  deriving DecidableEq

@[ext]
structure TcpHdr where
  source : BitVec 16
  dest : BitVec 16
  seq : BitVec 32
  ackSeq : BitVec 32
  res1 : BitVec 4
  doff : BitVec 4
  fin : Bool
  syn : Bool
  rst : Bool
  psh : Bool
  ack : Bool
  urg : Bool
  res2 : BitVec 2
  window : BitVec 16
  check : BitVec 16
  urgPtr : BitVec 16
  deriving DecidableEq

def IpHdr.read (l : List Byte) : IpHdr where
  ihl := (l.getD 0 0).extractLsb' 0 4
  version := (l.getD 0 0).extractLsb' 4 4
  tos := l.getD 1 0
  totLen := word16 l 2
  id := word16 l 4
  fragOff := word16 l 6
  ttl := l.getD 8 0
  protocol := l.getD 9 0
  check := word16 l 10
  saddr := word32 l 12
  daddr := word32 l 16

def IpHdr.bytes (ip : IpHdr) : List Byte :=
  [ip.version ++ ip.ihl, ip.tos] ++ bytes16 ip.totLen ++ bytes16 ip.id ++ bytes16 ip.fragOff ++
    [ip.ttl, ip.protocol] ++ bytes16 ip.check ++ bytes32 ip.saddr ++ bytes32 ip.daddr

def TcpHdr.read (l : List Byte) : TcpHdr where
  source := word16 l 0
  dest := word16 l 2
  seq := word32 l 4
  ackSeq := word32 l 8
  res1 := (l.getD 12 0).extractLsb' 0 4
  doff := (l.getD 12 0).extractLsb' 4 4
  fin := (l.getD 13 0)[0]
  syn := (l.getD 13 0)[1]
  rst := (l.getD 13 0)[2]
  psh := (l.getD 13 0)[3]
  ack := (l.getD 13 0)[4]
  urg := (l.getD 13 0)[5]
  res2 := (l.getD 13 0).extractLsb' 6 2
  window := word16 l 14
  check := word16 l 16
  urgPtr := word16 l 18

def TcpHdr.flags (th : TcpHdr) : Byte :=
  th.res2 ++ BitVec.ofBool th.urg ++ BitVec.ofBool th.ack ++ BitVec.ofBool th.psh ++
    BitVec.ofBool th.rst ++ BitVec.ofBool th.syn ++ BitVec.ofBool th.fin

def TcpHdr.bytes (th : TcpHdr) : List Byte :=
  bytes16 th.source ++ bytes16 th.dest ++ bytes32 th.seq ++ bytes32 th.ackSeq ++
    [th.doff ++ th.res1, th.flags] ++ bytes16 th.window ++ bytes16 th.check ++ bytes16 th.urgPtr

theorem take_eq_map_getD {α : Type} {n : ℕ} {l : List α} (d : α) (h : n ≤ l.length) :
    l.take n = (List.range n).map fun i => l.getD i d := by
  apply List.ext_getElem
  · simp [h]
  · intro i hi _
    have hlt : i < l.length := by
      rw [List.length_take] at hi
      omega
    simp [List.getD_eq_getElem?_getD, hlt]

theorem nibbles (b : Byte) :
    ((b.extractLsb' 4 4 : BitVec 4) ++ (b.extractLsb' 0 4 : BitVec 4) : Byte) = b := by
  revert b
  decide

theorem flags_read (b : Byte) :
    ((b.extractLsb' 6 2 : BitVec 2) ++ BitVec.ofBool b[5] ++ BitVec.ofBool b[4] ++
      BitVec.ofBool b[3] ++ BitVec.ofBool b[2] ++ BitVec.ofBool b[1] ++
        BitVec.ofBool b[0] : Byte) = b := by
  revert b
  decide

theorem IpHdr.bytes_read {l : List Byte} (h : 20 ≤ l.length) :
    (IpHdr.read l).bytes = l.take 20 := by
  rw [take_eq_map_getD 0 h]
  simp only [IpHdr.bytes, IpHdr.read, word32, word16, bytes32_append, bytes16_append, nibbles]
  rfl

theorem TcpHdr.bytes_read {l : List Byte} (h : 20 ≤ l.length) :
    (TcpHdr.read l).bytes = l.take 20 := by
  rw [take_eq_map_getD 0 h]
  simp only [TcpHdr.bytes, TcpHdr.flags, TcpHdr.read, word32, word16, bytes32_append,
    bytes16_append, nibbles, flags_read]
  rfl

def adc (a b : BitVec 32) (carry : Bool) : BitVec 32 × Bool :=
  let n := a.toNat + b.toNat + carry.toNat
  (BitVec.ofNat 32 n, 2 ^ 32 ≤ n)

def ipFastCsum (buff : List Byte) (wlen : ℕ) : BitVec 16 :=
  let (sum, carry) := (List.range wlen).foldl
    (fun (sum, carry) i => adc sum (word32 buff (4 * i)) carry) ((0, false) : BitVec 32 × Bool)
  let sum := (adc sum 0 carry).1
  let n := (sum.extractLsb' 0 16).toNat + (sum.extractLsb' 16 16).toNat
  ~~~(BitVec.ofNat 16 n + BitVec.ofNat 16 (n / 2 ^ 16))

def ipCsum (l : List Byte) : BitVec 16 := ipFastCsum l (IpHdr.read l).ihl.toNat

end LinuxKernel.Slhc
