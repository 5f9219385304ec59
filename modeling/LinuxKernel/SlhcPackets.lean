import LinuxKernel.SlhcChanges
import LinuxKernel.SlhcChecksum

/-!
# Packets that come out

What `slhc_uncompress` and `slhc_remember` make of a packet when the state of the connection is
that of the sender.
-/

namespace LinuxKernel.Slhc
open List

variable {icp : List Byte} {cs ts rs : CState} {comp : Receiver}

/-- A packet as IP makes it, with the checksum that `ip_send_check` gives it. -/
structure WellFormed (icp : List Byte) : Prop where
  version : (IpHdr.read icp).version = 4
  ihl : 5 ≤ (IpHdr.read icp).ihl.toNat
  length : (IpHdr.read icp).ihl.toNat * 4 ≤ icp.length
  totLen : (ntohs (IpHdr.read icp).totLen).toNat = icp.length
  check : ipCsum (clearCheck icp) = (IpHdr.read icp).check
  doff : (IpHdr.read icp).plain = false → 5 ≤ (TcpHdr.read (tcpPart icp)).doff.toNat
  tcp : (IpHdr.read icp).plain = false →
    hdrLen (IpHdr.read icp) (TcpHdr.read (tcpPart icp)) ≤ icp.length

instance (icp : List Byte) : Decidable (WellFormed icp) :=
  decidable_of_iff ((IpHdr.read icp).version = 4 ∧ 5 ≤ (IpHdr.read icp).ihl.toNat ∧
      (IpHdr.read icp).ihl.toNat * 4 ≤ icp.length ∧
        (ntohs (IpHdr.read icp).totLen).toNat = icp.length ∧
          ipCsum (clearCheck icp) = (IpHdr.read icp).check ∧
            ((IpHdr.read icp).plain = false → 5 ≤ (TcpHdr.read (tcpPart icp)).doff.toNat) ∧
              ((IpHdr.read icp).plain = false →
                hdrLen (IpHdr.read icp) (TcpHdr.read (tcpPart icp)) ≤ icp.length))
    ⟨fun ⟨hversion, hihl, hlength, htotLen, hcheck, hdoff, htcp⟩ =>
        ⟨hversion, hihl, hlength, htotLen, hcheck, hdoff, htcp⟩,
      fun ⟨hversion, hihl, hlength, htotLen, hcheck, hdoff, htcp⟩ =>
        ⟨hversion, hihl, hlength, htotLen, hcheck, hdoff, htcp⟩⟩

/-- Both ends have the same state.  The saved header of the receiver has no checksum after a
compressed packet; neither end looks at it. -/
structure Same (ts rs : CState) : Prop where
  ip : rs.ip = ts.ip ∨ rs.ip = { ts.ip with check := 0 }
  tcp : rs.tcp = ts.tcp
  ipopt : rs.ipopt = ts.ipopt
  tcpopt : rs.tcpopt = ts.tcpopt

theorem drop_clearCheck (n : ℕ) : (clearCheck icp).drop (n + 12) = icp.drop (n + 12) := by
  rw [clearCheck, drop_set_of_lt (by omega), drop_set_of_lt (by omega)]

theorem read_clearCheck (hlen : 12 ≤ icp.length) :
    IpHdr.read (clearCheck icp) = { IpHdr.read icp with check := 0 } := by
  have hget : ∀ j, j ≠ 10 → j ≠ 11 → (clearCheck icp).getD j 0 = icp.getD j 0 :=
    fun _ => getD_clearCheck
  have h10 : (clearCheck icp).getD 10 0 = 0 := by
    rw [clearCheck, getD_set_of_ne 0 (by omega), getD_set_self 0 (by omega)]
  have h11 : (clearCheck icp).getD 11 0 = 0 := getD_set_self 0 (by rw [length_set]; omega)
  have hcheck : word16 (clearCheck icp) 10 = 0 := by
    unfold word16
    rw [h10, h11]
    rfl
  simp only [IpHdr.read, hcheck]
  simp (disch := decide) only [word32, word16, hget, Nat.reduceAdd]

theorem check_header {k : ℕ} (hihl : 5 ≤ (IpHdr.read icp).ihl.toNat)
    (hlen : (IpHdr.read icp).ihl.toNat * 4 ≤ icp.length)
    (hk : 20 + k = (IpHdr.read icp).ihl.toNat * 4) :
    ipCsum (({ IpHdr.read icp with check := 0 } : IpHdr).bytes ++ (icp.drop 20).take k) =
      ipCsum (clearCheck icp) := by
  have hlength : (clearCheck icp).length = icp.length := by
    rw [clearCheck, length_set, length_set]
  have hdrop : (clearCheck icp).drop 20 = icp.drop 20 := drop_clearCheck 8
  rw [← read_clearCheck (by omega), IpHdr.bytes_read (by omega), ← hdrop, ← take_add, hk]
  have hget : ∀ j < (IpHdr.read icp).ihl.toNat * 4,
      ((clearCheck icp).take ((IpHdr.read icp).ihl.toNat * 4)).getD j 0 =
        (clearCheck icp).getD j 0 := by
    intro j hj
    rw [getD_eq_getElem?_getD, getD_eq_getElem?_getD, List.getElem?_take_of_lt hj]
  have hsame : (IpHdr.read (clearCheck icp)).ihl = (IpHdr.read icp).ihl := by
    rw [read_clearCheck (by omega)]
  have hsameTake : (IpHdr.read ((clearCheck icp).take ((IpHdr.read icp).ihl.toNat * 4))).ihl =
      (IpHdr.read icp).ihl := by
    exact (congrArg (BitVec.extractLsb' 0 4) (hget 0 (by omega))).trans hsame
  unfold ipCsum
  rw [hsame, hsameTake]
  apply ipFastCsum_congr
  intro j hj
  exact hget j (by omega)

theorem packet_parts (h : WellFormed icp) (hplain : (IpHdr.read icp).plain = false) :
    (IpHdr.read icp).bytes ++ (icp.drop 20).take (optLen (IpHdr.read icp).ihl) ++
        (TcpHdr.read (tcpPart icp)).bytes ++
          ((tcpPart icp).drop 20).take (optLen (TcpHdr.read (tcpPart icp)).doff) ++
      icp.drop (hdrLen (IpHdr.read icp) (TcpHdr.read (tcpPart icp))) = icp := by
  have hihl := h.ihl
  have hdoff := h.doff hplain
  have htcp := h.tcp hplain
  have hlen : 20 + optLen (IpHdr.read icp).ihl = (IpHdr.read icp).ihl.toNat * 4 := by
    unfold optLen
    omega
  have hdlen : 20 + optLen (TcpHdr.read (tcpPart icp)).doff =
      (TcpHdr.read (tcpPart icp)).doff.toNat * 4 := by
    unfold optLen
    omega
  have htail : icp.drop (hdrLen (IpHdr.read icp) (TcpHdr.read (tcpPart icp))) =
      (tcpPart icp).drop ((TcpHdr.read (tcpPart icp)).doff.toNat * 4) := by
    conv_rhs => rw [tcpPart, drop_drop]
    rfl
  unfold hdrLen at htcp
  have hpart : 20 ≤ (tcpPart icp).length := by
    rw [tcpPart, length_drop]
    omega
  rw [htail, IpHdr.bytes_read (by omega), TcpHdr.bytes_read hpart, ← take_add, hlen]
  generalize htcpPart : tcpPart icp = part at *
  rw [append_assoc, append_assoc, ← append_assoc (part.take 20), ← take_add,
    hdlen, take_append_drop, ← htcpPart]
  exact take_append_drop _ _

/-- The fields of the IP header that a compressed packet has as the one before. -/
structure KeptIp (old ip : IpHdr) : Prop where
  ihl : ip.ihl = old.ihl
  version : ip.version = old.version
  tos : ip.tos = old.tos
  fragOff : ip.fragOff = old.fragOff
  ttl : ip.ttl = old.ttl
  protocol : ip.protocol = old.protocol
  saddr : ip.saddr = old.saddr
  daddr : ip.daddr = old.daddr

theorem KeptIp.eq {old ip : IpHdr} (h : KeptIp old ip) (check : BitVec 16) :
    { old with id := ip.id, totLen := ip.totLen, check := check } = { ip with check := check } := by
  ext1
  · exact h.ihl.symm
  · exact h.version.symm
  · exact h.tos.symm
  · rfl
  · rfl
  · exact h.fragOff.symm
  · exact h.ttl.symm
  · exact h.protocol.symm
  · rfl
  · exact h.saddr.symm
  · exact h.daddr.symm

theorem KeptIp.of_same (h : Same ts rs) {ip : IpHdr} (hkept : KeptIp ts.ip ip) :
    KeptIp rs.ip ip := by
  rcases h.ip with hip | hip
  · rw [hip]
    exact hkept
  · rw [hip]
    exact ⟨hkept.ihl, hkept.version, hkept.tos, hkept.fragOff, hkept.ttl, hkept.protocol,
      hkept.saddr, hkept.daddr⟩

theorem header_eq (cs : CState) (h : WellFormed icp) (hplain : (IpHdr.read icp).plain = false)
    (hip : cs.ip = { IpHdr.read icp with check := 0 }) (htcp : cs.tcp = TcpHdr.read (tcpPart icp))
    (hipopt : cs.ipopt.take (optLen (IpHdr.read icp).ihl) =
      (icp.drop 20).take (optLen (IpHdr.read icp).ihl))
    (htcpopt : cs.tcpopt.take (optLen (TcpHdr.read (tcpPart icp)).doff) =
      ((tcpPart icp).drop 20).take (optLen (TcpHdr.read (tcpPart icp)).doff)) :
    cs.header ++ icp.drop (hdrLen (IpHdr.read icp) (TcpHdr.read (tcpPart icp))) = icp ∧
      cs.header.length = hdrLen (IpHdr.read icp) (TcpHdr.read (tcpPart icp)) := by
  have hk : 20 + optLen (IpHdr.read icp).ihl = (IpHdr.read icp).ihl.toNat * 4 := by
    have := h.ihl
    unfold optLen
    omega
  have hheader : cs.header = (IpHdr.read icp).bytes ++
      (icp.drop 20).take (optLen (IpHdr.read icp).ihl) ++ (TcpHdr.read (tcpPart icp)).bytes ++
        ((tcpPart icp).drop 20).take (optLen (TcpHdr.read (tcpPart icp)).doff) := by
    unfold CState.header
    rw [hip, htcp]
    dsimp only
    rw [hipopt, htcpopt, check_header h.ihl h.length hk, h.check]
  have hparts := packet_parts h hplain
  rw [← hheader] at hparts
  refine ⟨hparts, ?_⟩
  have hlen := congrArg List.length hparts
  have htcpLen := h.tcp hplain
  rw [length_append, length_drop] at hlen
  omega

def CState.next (cs : CState) (th : TcpHdr) (id : BitVec 16) (len : ℕ) : CState :=
  { cs with
    ip := { cs.ip with id := id, totLen := ntohs (BitVec.ofNat 16 len), check := 0 }
    tcp := th }

theorem expand_data {packet front data : List Byte} {m : Byte} {th : TcpHdr} {id : BitVec 16}
    {cp cp' : ℕ} (hpacket : packet = front ++ data)
    (htcp : (comp.rstate comp.recvCurrent).applyTcp packet m cp = (th, cp'))
    (hid : (comp.rstate comp.recvCurrent).applyId packet m cp' = (id, front.length))
    (hcs : (comp.rstate comp.recvCurrent).next th id
      (data.length + hdrLen (comp.rstate comp.recvCurrent).ip th) = cs)
    (hheader : cs.header.length = hdrLen (comp.rstate comp.recvCurrent).ip th) :
    comp.expand packet m cp = (comp.setState cs, some (cs.header ++ data)) := by
  have hlen : packet.length - front.length = data.length := by
    rw [hpacket, length_append, Nat.add_sub_cancel_left]
  have hdrop : packet.drop front.length = data := by
    rw [hpacket, drop_left]
  have hle : ¬packet.length < front.length := by
    rw [hpacket, length_append]
    omega
  have htake : (cs.header ++ data).take
      (data.length + hdrLen (comp.rstate comp.recvCurrent).ip th) = cs.header ++ data := by
    apply take_of_length_le
    rw [length_append, hheader, Nat.add_comm]
  have hzero : cs.header.length - hdrLen (comp.rstate comp.recvCurrent).ip th = 0 := by
    rw [hheader, Nat.sub_self]
  unfold CState.next at hcs
  unfold Receiver.expand
  simp only [htcp, hid, if_neg hle, hlen, hdrop]
  unfold hdrLen at hcs hheader htake hzero ⊢
  simp only [hcs, hzero, drop_zero, htake]

theorem expand_eq (comp : Receiver) (pre : List Byte) {u w a s c : Bool} {seq : List Byte}
    (h : WellFormed icp)
    (hplain : (IpHdr.read icp).plain = false) (hsame : Same ts (comp.rstate comp.recvCurrent))
    (hchanged : Changed ts (IpHdr.read icp) (TcpHdr.read (tcpPart icp)) u w a s seq)
    (hcarries : ts.Carries (IpHdr.read icp) (TcpHdr.read (tcpPart icp)))
    (hkept : Kept ts.tcp (TcpHdr.read (tcpPart icp))) (hkeptIp : KeptIp ts.ip (IpHdr.read icp))
    (hipopt : ts.ipopt.take (optLen (IpHdr.read icp).ihl) =
      (icp.drop 20).take (optLen (IpHdr.read icp).ihl))
    (htcpopt : ts.tcpopt.take (optLen (TcpHdr.read (tcpPart icp)).doff) =
      ((tcpPart icp).drop 20).take (optLen (TcpHdr.read (tcpPart icp)).doff)) :
    ∃ rs, comp.expand (pre ++ (put16 (ntohs (TcpHdr.read (tcpPart icp)).check) ++ (seq ++
          (segment (ts.deltaI (IpHdr.read icp) ≠ 1) (ts.deltaI (IpHdr.read icp)) ++
            icp.drop (hdrLen (IpHdr.read icp) (TcpHdr.read (tcpPart icp)))))))
        (mask u w a s (ts.deltaI (IpHdr.read icp) ≠ 1) (TcpHdr.read (tcpPart icp)).psh c)
          pre.length = (comp.setState rs, some icp) ∧
      Same { ts with ip := IpHdr.read icp, tcp := TcpHdr.read (tcpPart icp) } rs := by
  have hparts := fun cs => header_eq cs h hplain
  have htotLen := h.totLen
  have htcpLen := h.tcp hplain
  have hrkept := KeptIp.of_same hsame hkeptIp
  have hrtot : (comp.rstate comp.recvCurrent).ip.totLen = ts.ip.totLen := by
    rcases hsame.ip with hip | hip <;> rw [hip]
  have hrid : (comp.rstate comp.recvCurrent).ip.id = ts.ip.id := by
    rcases hsame.ip with hip | hip <;> rw [hip]
  have hmask := mask_i u w a s (decide (ts.deltaI (IpHdr.read icp) ≠ 1))
    (TcpHdr.read (tcpPart icp)).psh c
  generalize hrs : comp.rstate comp.recvCurrent = rs at *
  generalize IpHdr.read icp = ip at *
  generalize TcpHdr.read (tcpPart icp) = th at *
  refine ⟨{ rs with ip := { ip with check := 0 }, tcp := th }, ?_, .inr rfl, rfl, hsame.ipopt,
    hsame.tcpopt⟩
  have htcp := applyTcp_eq (i := decide (ts.deltaI ip ≠ 1)) (c := c) hchanged hcarries hkept
    hsame.tcp hrtot hrkept.ihl.symm pre (segment (ts.deltaI ip ≠ 1) (ts.deltaI ip) ++
      icp.drop (hdrLen ip th))
  have hid := applyId_eq (pre ++ put16 (ntohs th.check) ++ seq)
    (icp.drop (hdrLen ip th)) rfl hmask hcarries.id hrid
  have hassoc : pre ++ put16 (ntohs th.check) ++ seq ++
      (segment (ts.deltaI ip ≠ 1) (ts.deltaI ip) ++ icp.drop (hdrLen ip th)) =
        pre ++ (put16 (ntohs th.check) ++ (seq ++
          (segment (ts.deltaI ip ≠ 1) (ts.deltaI ip) ++ icp.drop (hdrLen ip th)))) := by
    simp only [append_assoc]
  have hpacket : pre ++ (put16 (ntohs th.check) ++ (seq ++
      (segment (ts.deltaI ip ≠ 1) (ts.deltaI ip) ++ icp.drop (hdrLen ip th)))) =
        (pre ++ put16 (ntohs th.check) ++ seq ++
          segment (ts.deltaI ip ≠ 1) (ts.deltaI ip)) ++ icp.drop (hdrLen ip th) := by
    simp only [append_assoc]
  rw [hassoc] at hid
  have hhdr : hdrLen rs.ip th = hdrLen ip th := by
    rw [hdrLen, ← hrkept.ihl, ← hdrLen]
  have hnext : rs.next th ip.id ((icp.drop (hdrLen ip th)).length + hdrLen rs.ip th) =
      { rs with ip := { ip with check := 0 }, tcp := th } := by
    have hlen : (icp.drop (hdrLen ip th)).length + hdrLen ip th = icp.length := by
      rw [length_drop]
      omega
    have htot : ntohs (BitVec.ofNat 16 icp.length) = ip.totLen := by
      rw [← htotLen, BitVec.ofNat_toNat, BitVec.setWidth_eq, ntohs_ntohs]
    rw [CState.next, hhdr, hlen, htot, hrkept.eq]
  obtain ⟨hout, hheader⟩ := hparts { rs with ip := { ip with check := 0 }, tcp := th } rfl rfl
    (by rw [← hipopt, hsame.ipopt]) (by rw [← htcpopt, hsame.tcpopt])
  subst hrs
  rw [expand_data hpacket htcp hid hnext (hheader.trans hhdr.symm), hout]

theorem first_byte {b : Byte} (h : b.extractLsb' 4 4 = (4 : BitVec 4)) :
    b &&& SL_TYPE_COMPRESSED_TCP = 0 ∧ ¬SL_TYPE_UNCOMPRESSED_TCP ≤ b := by
  revert b
  decide

theorem first_byte_uncompressed {b : Byte} (h : b.extractLsb' 4 4 = (4 : BitVec 4)) :
    (b ||| SL_TYPE_UNCOMPRESSED_TCP) &&& SL_TYPE_COMPRESSED_TCP = 0 ∧
      SL_TYPE_UNCOMPRESSED_TCP ≤ b ||| SL_TYPE_UNCOMPRESSED_TCP ∧
        (b ||| SL_TYPE_UNCOMPRESSED_TCP) &&& 0x4f = b := by
  revert b
  decide

theorem bump_plain (h : (IpHdr.read icp).version = 4) : comp.bump icp = (comp, some icp) := by
  obtain ⟨hcompressed, huncompressed⟩ := first_byte h
  unfold Receiver.bump
  rw [if_neg (not_not_intro hcompressed), if_neg huncompressed]

theorem bump_explicit {m : Byte} {rest : List Byte} {slot : ℕ}
    (hm : m &&& SL_TYPE_COMPRESSED_TCP ≠ 0) (hc : m &&& NEW_C ≠ 0) (hrest : 0 < rest.length)
    (hslot : slot ≤ comp.rslotLimit) (hsmall : slot < 256) :
    comp.bump (m :: BitVec.ofNat 8 slot :: rest) =
      ({ comp with toss := false, recvCurrent := slot } : Receiver).expand
        (m :: BitVec.ofNat 8 slot :: rest) m 2 := by
  have hindex : (BitVec.ofNat 8 slot).toNat = slot := by
    rw [BitVec.toNat_ofNat, Nat.mod_eq_of_lt hsmall]
  unfold Receiver.bump
  simp only [getD_cons_zero]
  rw [if_pos hm]
  unfold Receiver.uncompress
  simp only [getD_cons_zero, getD_cons_succ, length_cons]
  rw [if_neg (by omega), if_pos hc, hindex, if_neg (by omega)]

theorem bump_implicit {m : Byte} {rest : List Byte} (hm : m &&& SL_TYPE_COMPRESSED_TCP ≠ 0)
    (hc : ¬m &&& NEW_C ≠ 0) (hrest : 2 ≤ rest.length) (htoss : comp.toss = false) :
    comp.bump (m :: rest) = comp.expand (m :: rest) m 1 := by
  unfold Receiver.bump
  simp only [getD_cons_zero]
  rw [if_pos hm]
  unfold Receiver.uncompress
  simp only [getD_cons_zero, length_cons]
  rw [if_neg (by omega), if_neg hc, htoss]
  rfl

theorem set_getD (l : List Byte) (i : ℕ) : l.set i (l.getD i 0) = l := by
  apply ext_getElem?
  intro j
  rw [List.getElem?_set]
  split
  · rename_i hij
    subst hij
    split
    · rename_i hlt
      rw [getD_eq_getElem?_getD, List.getElem?_eq_getElem hlt]
      rfl
    · rename_i hlt
      rw [List.getElem?_eq_none (by omega)]
  · rfl

theorem bump_uncompressed (comp : Receiver) (slot : ℕ) (h : WellFormed icp)
    (hprotocol : (IpHdr.read icp).protocol = IPPROTO_TCP) (hslot : slot ≤ comp.rslotLimit)
    (hsmall : slot < 256) :
    comp.bump ((icp.set 9 (BitVec.ofNat 8 slot)).set 0
        (icp.getD 0 0 ||| SL_TYPE_UNCOMPRESSED_TCP)) =
      (({ comp with toss := false, recvCurrent := slot } : Receiver).setState
        ((comp.rstate slot).save icp), some icp) := by
  obtain ⟨hcompressed, huncompressed, hback⟩ := first_byte_uncompressed h.version
  have hihl := h.ihl
  have hlen := h.length
  have hfirst : ((icp.set 9 (BitVec.ofNat 8 slot)).set 0
      (icp.getD 0 0 ||| SL_TYPE_UNCOMPRESSED_TCP)).getD 0 0 =
        icp.getD 0 0 ||| SL_TYPE_UNCOMPRESSED_TCP :=
    getD_set_self _ (by rw [length_set]; omega)
  have hget0 : (icp.set 9 (BitVec.ofNat 8 slot)).getD 0 0 = icp.getD 0 0 :=
    getD_set_of_ne _ (by omega)
  have hrestored : ((icp.set 9 (BitVec.ofNat 8 slot)).set 0
      (icp.getD 0 0 ||| SL_TYPE_UNCOMPRESSED_TCP)).set 0
        ((icp.getD 0 0 ||| SL_TYPE_UNCOMPRESSED_TCP) &&& 0x4f) =
          icp.set 9 (BitVec.ofNat 8 slot) := by
    rw [set_set, hback, ← hget0, set_getD]
  have hindex : ((icp.set 9 (BitVec.ofNat 8 slot)).getD 9 0).toNat = slot := by
    rw [getD_set_self _ (by omega), BitVec.toNat_ofNat, Nat.mod_eq_of_lt hsmall]
  have hpacket : (icp.set 9 (BitVec.ofNat 8 slot)).set 9 IPPROTO_TCP = icp := by
    rw [set_set, ← hprotocol]
    exact set_getD icp 9
  have hread : (IpHdr.read (icp.set 9 (BitVec.ofNat 8 slot))).ihl = (IpHdr.read icp).ihl :=
    congrArg (BitVec.extractLsb' 0 4) hget0
  unfold Receiver.bump
  rw [hfirst, if_neg (not_not_intro hcompressed), if_pos huncompressed, hrestored]
  unfold Receiver.remember
  dsimp only
  rw [if_neg (by rw [length_set]; omega), hread, if_neg (by omega), hindex, hpacket,
    ipCsum_eq_zero (by omega) hihl h.check, if_neg (not_not_intro rfl), if_neg (by omega)]

end LinuxKernel.Slhc
