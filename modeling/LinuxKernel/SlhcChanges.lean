import LinuxKernel.SlhcModel

/-!
# What the changes say

The receiver reads the numbers that the sender has written, and gets the header of the packet
from that of the one before.
-/

namespace LinuxKernel.Slhc
open List

variable {icp pre post : List Byte} {n : ℤ} {cp : ℕ} {cs rs : CState} {ip : IpHdr} {th : TcpHdr}

/-- The differences that `decode` gets right: those that are not negative, and of the negative
ones those that are a single byte modulo `2 ^ 16` too. -/
def Sends (n : ℤ) : Prop := (0 ≤ n ∧ n < 65536) ∨ (-65536 < n ∧ n ≤ -65281)

instance (n : ℤ) : Decidable (Sends n) :=
  inferInstanceAs (Decidable ((0 ≤ n ∧ n < 65536) ∨ (-65536 < n ∧ n ≤ -65281)))

theorem getD_append_add (pre l : List Byte) (i : ℕ) :
    (pre ++ l).getD (pre.length + i) 0 = l.getD i 0 := by
  simp [getD_eq_getElem?_getD, List.getElem?_append_right]

theorem pull16_put16 (pre post : List Byte) (x : BitVec 16) :
    pull16 (pre ++ (put16 x ++ post)) pre.length = x := by
  have hhigh := getD_append_add pre (put16 x ++ post) 0
  have hlow := getD_append_add pre (put16 x ++ post) 1
  rw [Nat.add_zero] at hhigh
  unfold pull16
  rw [hhigh, hlow]
  exact BitVec.extractLsb'_append_extractLsb'

theorem decode_encode (pre post : List Byte) (hn : Sends n) :
    decode (pre ++ (encode n ++ post)) pre.length =
      ((n % 65536).toNat, pre.length + (encode n).length) := by
  have hfirst := getD_append_add pre (encode n ++ post) 0
  rw [Nat.add_zero] at hfirst
  unfold decode
  rw [hfirst]
  unfold encode
  split
  · -- three bytes
    have hsplit : pre ++ (0 :: put16 (BitVec.ofInt 16 n) ++ post) =
        (pre ++ [0]) ++ (put16 (BitVec.ofInt 16 n) ++ post) := by simp
    have hpull := pull16_put16 (pre ++ [0]) post (BitVec.ofInt 16 n)
    rw [← hsplit, length_append, length_singleton] at hpull
    rw [if_pos (by rfl), hpull, BitVec.toNat_ofInt]
    rfl
  · rename_i hsmall
    have hbyte : (BitVec.ofInt 8 n).toNat = (n % 256).toNat := by
      rfl
    have hsame : n % 65536 = n % 256 := by
      rcases hn with hn | hn <;> omega
    have hne : BitVec.ofInt 8 n ≠ 0 := by
      intro heq
      have := congrArg BitVec.toNat heq
      change (n % 256).toNat = 0 at this
      rcases hn with hn | hn <;> omega
    have hget : ([BitVec.ofInt 8 n] ++ post).getD 0 0 = BitVec.ofInt 8 n := rfl
    rw [hget, if_neg hne, hbyte, hsame]
    rfl

/-! ## The change byte -/

def mask (u w a s i p c : Bool) : Byte :=
  when u NEW_U ||| when w NEW_W ||| when a NEW_A ||| when s NEW_S ||| when i NEW_I |||
    when p TCP_PUSH_BIT ||| when c NEW_C ||| SL_TYPE_COMPRESSED_TCP

section Mask

variable (u w a s i p c : Bool)

theorem mask_u : (mask u w a s i p c &&& NEW_U ≠ 0) ↔ u = true := by
  revert u w a s i p c
  decide

theorem mask_w : (mask u w a s i p c &&& NEW_W ≠ 0) ↔ w = true := by
  revert u w a s i p c
  decide

theorem mask_a : (mask u w a s i p c &&& NEW_A ≠ 0) ↔ a = true := by
  revert u w a s i p c
  decide

theorem mask_s : (mask u w a s i p c &&& NEW_S ≠ 0) ↔ s = true := by
  revert u w a s i p c
  decide

theorem mask_i : (mask u w a s i p c &&& NEW_I ≠ 0) ↔ i = true := by
  revert u w a s i p c
  decide

theorem mask_p : (mask u w a s i p c &&& TCP_PUSH_BIT ≠ 0) ↔ p = true := by
  revert u w a s i p c
  decide

theorem mask_c : (mask u w a s i p c &&& NEW_C ≠ 0) ↔ c = true := by
  revert u w a s i p c
  decide

theorem mask_type : mask u w a s i p c &&& SL_TYPE_COMPRESSED_TCP ≠ 0 := by
  revert u w a s i p c
  decide

theorem mask_special_i : mask u w a s i p c &&& SPECIALS_MASK = SPECIAL_I ↔
    u = true ∧ w = true ∧ a = false ∧ s = true := by
  revert u w a s i p c
  decide

theorem mask_special_d : mask u w a s i p c &&& SPECIALS_MASK = SPECIAL_D ↔
    u = true ∧ w = true ∧ a = true ∧ s = true := by
  revert u w a s i p c
  decide

end Mask

/-- The packet goes on where the data of the packet before end: one of the special cases. -/
structure CState.Continues (cs : CState) (ip : IpHdr) (th : TcpHdr) : Prop where
  urg : th.urg = false
  window : cs.deltaW th = 0
  seq : cs.deltaS th = BitVec.ofInt 32 (cs.dataLen (hdrLen ip th))
  moves : cs.deltaS th ≠ 0
  ackSeq : cs.deltaA th = 0 ∨ cs.deltaA th = cs.deltaS th

instance (cs : CState) (ip : IpHdr) (th : TcpHdr) : Decidable (cs.Continues ip th) :=
  decidable_of_iff (th.urg = false ∧ cs.deltaW th = 0 ∧
      cs.deltaS th = BitVec.ofInt 32 (cs.dataLen (hdrLen ip th)) ∧ cs.deltaS th ≠ 0 ∧
        (cs.deltaA th = 0 ∨ cs.deltaA th = cs.deltaS th))
    ⟨fun ⟨hurg, hwindow, hseq, hmoves, hack⟩ => ⟨hurg, hwindow, hseq, hmoves, hack⟩,
      fun ⟨hurg, hwindow, hseq, hmoves, hack⟩ => ⟨hurg, hwindow, hseq, hmoves, hack⟩⟩

/-- What `CState.changes` can give: the bits for the urgent pointer, the window, the
acknowledgement and the sequence number, and the numbers that go with them. -/
inductive Changed (cs : CState) (ip : IpHdr) (th : TcpHdr) :
    Bool → Bool → Bool → Bool → List Byte → Prop
  | echo : cs.Continues ip th → th.urgPtr = cs.tcp.urgPtr → cs.deltaA th = cs.deltaS th →
      Changed cs ip th true true false true []
  | data : cs.Continues ip th → th.urgPtr = cs.tcp.urgPtr → cs.deltaA th = 0 →
      Changed cs ip th true true true true []
  | fields (u w a s : Bool) : (u = true ↔ th.urg = true) → (w = true ↔ cs.deltaW th ≠ 0) →
      (a = true ↔ cs.deltaA th ≠ 0) → (s = true ↔ cs.deltaS th ≠ 0) →
        (th.urg = false → th.urgPtr = cs.tcp.urgPtr) →
          cs.deltaA th ≤ 0xffff → cs.deltaS th ≤ 0xffff →
            ¬(u = true ∧ w = true ∧ s = true) →
              Changed cs ip th u w a s (segment u (ntohs th.urgPtr).toNat ++
                segment w (cs.deltaW th) ++ segment a (cs.deltaA th).toNat ++
                  segment s (cs.deltaS th).toNat)

theorem bits_special (u w a s : Bool) :
    (bits u w a s = SPECIAL_I ∨ bits u w a s = SPECIAL_D) ↔ u = true ∧ w = true ∧ s = true := by
  revert u w a s
  decide

theorem bits_eq_echo (u w a s : Bool) :
    bits u w a s = NEW_S ||| NEW_A ↔ u = false ∧ w = false ∧ a = true ∧ s = true := by
  revert u w a s
  decide

theorem bits_eq_data (u w a s : Bool) :
    bits u w a s = NEW_S ↔ u = false ∧ w = false ∧ a = false ∧ s = true := by
  revert u w a s
  decide

theorem changes_cases {m : Byte} {seq : List Byte} (h : cs.changes ip th = some (m, seq)) :
    ∃ u w a s, m = bits u w a s ∧ Changed cs ip th u w a s seq := by
  unfold CState.changes at h
  dsimp only at h
  split at h
  · cases h
  · rename_i hurg
    split at h
    · cases h
    · rename_i hsmall
      rw [not_or, BitVec.not_lt, BitVec.not_lt] at hsmall
      obtain ⟨hsmallA, hsmallS⟩ := hsmall
      have hurgPtr : th.urg = false → th.urgPtr = cs.tcp.urgPtr := by
        intro hu
        by_contra hne
        exact hurg ⟨hu, hne⟩
      have hw' : decide (cs.deltaW th ≠ 0) = true ↔ cs.deltaW th ≠ 0 := decide_eq_true_iff
      have ha' : decide (cs.deltaA th ≠ 0) = true ↔ cs.deltaA th ≠ 0 := decide_eq_true_iff
      have hs' : decide (cs.deltaS th ≠ 0) = true ↔ cs.deltaS th ≠ 0 := decide_eq_true_iff
      generalize decide (cs.deltaW th ≠ 0) = w at h hw'
      generalize decide (cs.deltaA th ≠ 0) = a at h ha'
      generalize decide (cs.deltaS th ≠ 0) = s at h hs'
      have hplain : ¬(th.urg = true ∧ w = true ∧ s = true) →
          some (bits th.urg w a s, segment th.urg (ntohs th.urgPtr).toNat ++
            segment w (cs.deltaW th) ++ segment a (cs.deltaA th).toNat ++
              segment s (cs.deltaS th).toNat) = some (m, seq) →
          ∃ u w a s, m = bits u w a s ∧ Changed cs ip th u w a s seq := by
        intro hspecial heq
        cases heq
        exact ⟨_, _, _, _, rfl,
            .fields _ _ _ _ Iff.rfl hw' ha' hs' hurgPtr hsmallA hsmallS hspecial⟩
      split at h
      · rename_i hzero
        split at h
        · refine hplain ?_ h
          rw [← bits_special th.urg w a s, hzero]
          decide
        · cases h
      · split at h
        · cases h
        · rename_i hspecial
          rw [bits_special] at hspecial
          split at h
          · rename_i hecho
            obtain ⟨hbits, hSA, hSlen⟩ := hecho
            obtain ⟨hu, hw0, -, hs1⟩ := (bits_eq_echo ..).1 hbits
            cases h
            refine ⟨true, true, false, true, rfl, .echo ⟨hu, ?_, hSlen, hs'.1 hs1, .inr hSA.symm⟩
              (hurgPtr hu) hSA.symm⟩
            by_contra hne
            rw [hw'.2 hne] at hw0
            cases hw0
          · split at h
            · rename_i hdata
              obtain ⟨hbits, hSlen⟩ := hdata
              obtain ⟨hu, hw0, ha0, hs1⟩ := (bits_eq_data ..).1 hbits
              have hA : cs.deltaA th = 0 := by
                by_contra hne
                rw [ha'.2 hne] at ha0
                cases ha0
              cases h
              refine ⟨true, true, true, true, rfl, .data ⟨hu, ?_, hSlen, hs'.1 hs1, .inl hA⟩
                (hurgPtr hu) hA⟩
              by_contra hne
              rw [hw'.2 hne] at hw0
              cases hw0
            · exact hplain hspecial h

/-! ## The header that comes out -/

theorem pull_segment {b : Bool} {bit c : Byte} (hicp : icp = pre ++ (segment b n ++ post))
    (hbit : (c &&& bit ≠ 0) ↔ b = true) (hn : b = true → Sends n) (set : TcpHdr → ℕ → TcpHdr)
    (th : TcpHdr) :
    pull icp c bit set (th, pre.length) =
      (if b = true then set th (n % 65536).toNat else th, (pre ++ segment b n).length) := by
  rw [hicp]
  unfold pull
  cases b with
  | true =>
    rw [if_pos (hbit.2 rfl)]
    have hdecode := decode_encode pre post (hn rfl)
    simp only [segment, if_true]
    rw [hdecode, length_append]
  | false =>
    rw [if_neg fun hne => absurd (hbit.1 hne) (by simp)]
    simp [segment]

theorem pull_fields (post : List Byte) {u w a s : Bool} {m : Byte} {nU nW nA nS : ℤ}
    (hicp : icp = pre ++ (segment u nU ++ segment w nW ++ segment a nA ++ segment s nS ++ post))
    (hmaskU : (m &&& NEW_U ≠ 0) ↔ u = true) (hmaskW : (m &&& NEW_W ≠ 0) ↔ w = true)
    (hmaskA : (m &&& NEW_A ≠ 0) ↔ a = true) (hmaskS : (m &&& NEW_S ≠ 0) ↔ s = true)
    (hU : u = true → Sends nU) (hW : w = true → Sends nW) (hA : a = true → Sends nA)
    (hS : s = true → Sends nS) (th : TcpHdr) :
    ∃ thU thW thA, thU = (if u = true then th.setUrgPtr (nU % 65536).toNat else th) ∧
      thW = (if w = true then thU.addWindow (nW % 65536).toNat else thU) ∧
        thA = (if a = true then thW.addAckSeq (nA % 65536).toNat else thW) ∧
          pull icp m NEW_S TcpHdr.addSeq (pull icp m NEW_A TcpHdr.addAckSeq
              (pull icp m NEW_W TcpHdr.addWindow
                (pull icp m NEW_U TcpHdr.setUrgPtr (th, pre.length)))) =
            (if s = true then thA.addSeq (nS % 65536).toNat else thA,
              (pre ++ (segment u nU ++ segment w nW ++ segment a nA ++ segment s nS)).length) := by
  refine ⟨_, _, _, rfl, rfl, rfl, ?_⟩
  have hsplitU : icp = pre ++ (segment u nU ++
      (segment w nW ++ (segment a nA ++ (segment s nS ++ post)))) := by
    simp [hicp]
  have hsplitW : icp = (pre ++ segment u nU) ++ (segment w nW ++
      (segment a nA ++ (segment s nS ++ post))) := by
    simp [hicp]
  have hsplitA : icp = (pre ++ segment u nU ++ segment w nW) ++ (segment a nA ++
      (segment s nS ++ post)) := by
    simp [hicp]
  have hsplitS : icp = (pre ++ segment u nU ++ segment w nW ++ segment a nA) ++
      (segment s nS ++ post) := by
    simp [hicp]
  rw [pull_segment hsplitU hmaskU hU, pull_segment hsplitW hmaskW hW,
    pull_segment hsplitA hmaskA hA, pull_segment hsplitS hmaskS hS]
  simp only [append_assoc]

theorem addWindow_eq : ntohs (ntohs cs.tcp.window +
    BitVec.ofNat 16 ((cs.deltaW th) % 65536).toNat) = th.window := by
  have hword : ntohs cs.tcp.window + BitVec.ofNat 16 ((cs.deltaW th) % 65536).toNat =
      ntohs th.window := by
    apply BitVec.eq_of_toNat_eq
    rw [BitVec.toNat_add, BitVec.toNat_ofNat, CState.deltaW]
    omega
  rw [hword, ntohs_ntohs]

theorem add_sub_ntohl (x y : BitVec 32) : ntohl x + (ntohl y - ntohl x) = ntohl y := by
  rw [BitVec.add_comm, BitVec.sub_add_cancel]

theorem ntohl_sub_eq_zero {x y : BitVec 32} (h : ntohl y - ntohl x = 0) : x = y := by
  have hadd := add_sub_ntohl x y
  rw [h] at hadd
  have hzero : ntohl x + (0 : BitVec 32) = ntohl x := BitVec.add_zero _
  rw [hzero] at hadd
  rw [← ntohl_ntohl x, hadd, ntohl_ntohl]

theorem addLong_eq {x y : BitVec 32} (h : ntohl y - ntohl x ≤ 0xffff) :
    ntohl (ntohl x + BitVec.ofNat 32 (((ntohl y - ntohl x).toNat : ℤ) % 65536).toNat) = y := by
  have hlt : (ntohl y - ntohl x).toNat < 65536 := by
    have := BitVec.le_def.1 h
    exact Nat.lt_succ_of_le this
  have hmod : (((ntohl y - ntohl x).toNat : ℤ) % 65536).toNat = (ntohl y - ntohl x).toNat := by
    omega
  rw [hmod, BitVec.ofNat_toNat, BitVec.setWidth_eq, add_sub_ntohl, ntohl_ntohl]

theorem ofNat_toNat_mod (x : BitVec 16) : BitVec.ofNat 16 ((x.toNat : ℤ) % 65536).toNat = x := by
  have hmod : ((x.toNat : ℤ) % 65536).toNat = x.toNat := by omega
  rw [hmod, BitVec.ofNat_toNat, BitVec.setWidth_eq]

structure Kept (old th : TcpHdr) : Prop where
  source : th.source = old.source
  dest : th.dest = old.dest
  res1 : th.res1 = old.res1
  doff : th.doff = old.doff
  fin : th.fin = old.fin
  syn : th.syn = old.syn
  rst : th.rst = old.rst
  ack : th.ack = old.ack
  res2 : th.res2 = old.res2

theorem Kept.eq {old : TcpHdr} (h : Kept old th) {seq ackSeq : BitVec 32} {psh urg : Bool}
    {window check urgPtr : BitVec 16} (hseq : seq = th.seq) (hackSeq : ackSeq = th.ackSeq)
    (hpsh : psh = th.psh) (hurg : urg = th.urg) (hwindow : window = th.window)
    (hcheck : check = th.check) (hurgPtr : urgPtr = th.urgPtr) :
    { old with
      seq := seq, ackSeq := ackSeq, psh := psh, urg := urg, window := window, check := check
      urgPtr := urgPtr } = th := by
  ext1
  · exact h.source.symm
  · exact h.dest.symm
  · exact hseq
  · exact hackSeq
  · exact h.res1.symm
  · exact h.doff.symm
  · exact h.fin.symm
  · exact h.syn.symm
  · exact h.rst.symm
  · exact hpsh
  · exact h.ack.symm
  · exact hurg
  · exact h.res2.symm
  · exact hwindow
  · exact hcheck
  · exact hurgPtr

/-- What the changes can say of a packet: the differences of the window and of the
identification can be sent, the special cases come without urgent data in the packet before, and
the length that goes through a short is none that is negative there. -/
structure CState.Carries (cs : CState) (ip : IpHdr) (th : TcpHdr) : Prop where
  window : Sends (cs.deltaW th)
  id : Sends (cs.deltaI ip)
  urg : cs.Continues ip th → cs.tcp.urg = false
  echo : cs.Continues ip th → cs.deltaA th = cs.deltaS th → cs.dataLen (hdrLen ip th) < 32768

instance (cs : CState) (ip : IpHdr) (th : TcpHdr) : Decidable (cs.Carries ip th) :=
  decidable_of_iff (Sends (cs.deltaW th) ∧ Sends (cs.deltaI ip) ∧
      (cs.Continues ip th → cs.tcp.urg = false) ∧
        (cs.Continues ip th → cs.deltaA th = cs.deltaS th → cs.dataLen (hdrLen ip th) < 32768))
    ⟨fun ⟨hwindow, hid, hurg, hecho⟩ => ⟨hwindow, hid, hurg, hecho⟩,
      fun ⟨hwindow, hid, hurg, hecho⟩ => ⟨hwindow, hid, hurg, hecho⟩⟩

theorem sends_toNat16 (x : BitVec 16) : Sends x.toNat := by
  left
  omega

theorem sends_toNat32 {x : BitVec 32} (h : x ≤ 0xffff) : Sends x.toNat := by
  left
  have := BitVec.le_def.1 h
  change x.toNat ≤ 65535 at this
  omega

theorem window_eq (h : cs.deltaW th = 0) : cs.tcp.window = th.window := by
  have hword : ntohs cs.tcp.window = ntohs th.window := by
    apply BitVec.eq_of_toNat_eq
    rw [CState.deltaW] at h
    omega
  rw [← ntohs_ntohs cs.tcp.window, hword, ntohs_ntohs]

theorem hdrLen_le (ip : IpHdr) (th : TcpHdr) : hdrLen ip th ≤ 120 := by
  unfold hdrLen
  omega

theorem signExtend_dataLen (h : cs.dataLen (hdrLen ip th) < 32768) :
    (BitVec.ofInt 16 (cs.dataLen (hdrLen ip th))).signExtend 32 =
      BitVec.ofInt 32 (cs.dataLen (hdrLen ip th)) := by
  have hlow : -120 ≤ cs.dataLen (hdrLen ip th) := by
    have := hdrLen_le ip th
    unfold CState.dataLen
    omega
  rw [BitVec.signExtend, BitVec.toInt_ofInt, Int.bmod_eq_of_le (by omega) (by omega)]

theorem applyId_eq (pre post : List Byte) {m : Byte}
    (hicp : icp = pre ++ (segment (cs.deltaI ip ≠ 1) (cs.deltaI ip) ++ post))
    (hmask : (m &&& NEW_I ≠ 0) ↔ decide (cs.deltaI ip ≠ 1) = true)
    (hsend : Sends (cs.deltaI ip)) (hid : rs.ip.id = cs.ip.id) :
    rs.applyId icp m pre.length =
      (ip.id, (pre ++ segment (cs.deltaI ip ≠ 1) (cs.deltaI ip)).length) := by
  unfold CState.applyId
  rw [hid]
  split
  · rename_i hbit
    have hi := hmask.1 hbit
    rw [hicp, hi]
    simp only [segment, if_true]
    rw [decode_encode pre post hsend, length_append]
    have hword : ntohs cs.ip.id + BitVec.ofNat 16 (cs.deltaI ip % 65536).toNat = ntohs ip.id := by
      apply BitVec.eq_of_toNat_eq
      rw [BitVec.toNat_add, BitVec.toNat_ofNat, CState.deltaI]
      omega
    rw [hword, ntohs_ntohs]
  · rename_i hbit
    have hi : decide (cs.deltaI ip ≠ 1) = false := by
      rw [← Bool.not_eq_true, ← hmask]
      exact hbit
    have hone : cs.deltaI ip = 1 := by simpa using hi
    have hword : ntohs cs.ip.id + 1 = ntohs ip.id := by
      apply BitVec.eq_of_toNat_eq
      rw [CState.deltaI] at hone
      change ((ntohs cs.ip.id).toNat + 1) % 2 ^ 16 = _
      omega
    rw [hword, ntohs_ntohs, hi]
    simp [segment]

theorem applyTcp_eq {u w a s i c : Bool} {seq : List Byte} (h : Changed cs ip th u w a s seq)
    (hok : cs.Carries ip th) (hkept : Kept cs.tcp th)
    (htcp : rs.tcp = cs.tcp) (htot : rs.ip.totLen = cs.ip.totLen) (hihl : rs.ip.ihl = ip.ihl)
    (pre post : List Byte) :
    rs.applyTcp (pre ++ (put16 (ntohs th.check) ++ (seq ++ post))) (mask u w a s i th.psh c)
      pre.length = (th, (pre ++ put16 (ntohs th.check) ++ seq).length) := by
  have hpsh : decide (mask u w a s i th.psh c &&& TCP_PUSH_BIT ≠ 0) = th.psh := by
    have := mask_p u w a s i th.psh c
    cases hp : th.psh <;> simp_all
  have hhdr : ∀ check psh, hdrLen rs.ip { cs.tcp with check := check, psh := psh } =
      hdrLen ip th := by
    intro check psh
    simp only [hdrLen, hihl, hkept.doff]
  have hlen : ∀ n, rs.dataLen n = cs.dataLen n := by
    intro n
    simp only [CState.dataLen, htot]
  have hcp : ∀ l : List Byte, pre.length + 2 + l.length =
      (pre ++ put16 (ntohs th.check) ++ l).length := by
    intro l
    simp only [put16, length_append, length_cons, length_nil]
  unfold CState.applyTcp
  dsimp only
  rw [pull16_put16, ntohs_ntohs, htcp, hpsh, hhdr, hlen]
  cases h with
  | echo hcont hptr hA =>
    have hspecial := (mask_special_i true true false true i th.psh c).2 ⟨rfl, rfl, rfl, rfl⟩
    rw [if_pos hspecial, signExtend_dataLen (hok.echo hcont hA), ← hcp [], ← hcont.seq]
    refine Prod.ext (hkept.eq ?_ ?_ rfl ?_ (window_eq hcont.window) rfl hptr.symm) rfl
    · rw [CState.deltaS, add_sub_ntohl, ntohl_ntohl]
    · rw [← hA, CState.deltaA, add_sub_ntohl, ntohl_ntohl]
    · exact (hok.urg hcont).trans hcont.urg.symm
  | data hcont hptr hA =>
    have hspecial := (mask_special_d true true true true i th.psh c).2 ⟨rfl, rfl, rfl, rfl⟩
    have hnot : mask true true true true i th.psh c &&& SPECIALS_MASK ≠ SPECIAL_I := by
      rw [hspecial]
      decide
    rw [if_neg hnot, if_pos hspecial, ← hcp [], ← hcont.seq]
    refine Prod.ext (hkept.eq ?_ ?_ rfl ?_ (window_eq hcont.window) rfl hptr.symm) rfl
    · rw [CState.deltaS, add_sub_ntohl, ntohl_ntohl]
    · exact ntohl_sub_eq_zero hA
    · exact (hok.urg hcont).trans hcont.urg.symm
  | fields u w a s hu hw ha hs hptr hA hS hspecial =>
    have hnotI : mask u w a s i th.psh c &&& SPECIALS_MASK ≠ SPECIAL_I := by
      intro heq
      obtain ⟨hu', hw', -, hs'⟩ := (mask_special_i ..).1 heq
      exact hspecial ⟨hu', hw', hs'⟩
    have hnotD : mask u w a s i th.psh c &&& SPECIALS_MASK ≠ SPECIAL_D := by
      intro heq
      obtain ⟨hu', hw', -, hs'⟩ := (mask_special_d ..).1 heq
      exact hspecial ⟨hu', hw', hs'⟩
    have hmaskU := mask_u u w a s i th.psh c
    have hmaskW := mask_w u w a s i th.psh c
    have hmaskA := mask_a u w a s i th.psh c
    have hmaskS := mask_s u w a s i th.psh c
    have hsendW : w = true → Sends (cs.deltaW th) := fun _ => hok.window
    have hurg : decide (mask u w a s i th.psh c &&& NEW_U ≠ 0) = th.urg := by
      rw [Bool.eq_iff_iff, decide_eq_true_iff, hmaskU, hu]
    rw [if_neg hnotI, if_neg hnotD, hurg]
    have hcp0 : pre.length + 2 = (pre ++ put16 (ntohs th.check)).length := by
      rw [length_append]
      rfl
    rw [hcp0, ← append_assoc]
    obtain ⟨thU, thW, thA, hthU, hthW, hthA, hpull⟩ := pull_fields post rfl hmaskU
      hmaskW hmaskA hmaskS (fun _ => sends_toNat16 (ntohs th.urgPtr)) hsendW
      (fun _ => sends_toNat32 hA) (fun _ => sends_toNat32 hS)
      { cs.tcp with check := th.check, psh := th.psh, urg := th.urg }
    rw [hpull]
    refine Prod.ext ?_ rfl
    have hthU' : thU = { cs.tcp with
        check := th.check, psh := th.psh, urg := th.urg, urgPtr := th.urgPtr } := by
      rw [hthU]
      split
      · rw [TcpHdr.setUrgPtr, ofNat_toNat_mod, ntohs_ntohs]
      · rename_i hu'
        have hfalse : th.urg = false := by simpa [hu] using hu'
        rw [hptr hfalse]
    have hthW' : thW = { cs.tcp with
        check := th.check, psh := th.psh, urg := th.urg, urgPtr := th.urgPtr
        window := th.window } := by
      rw [hthW, hthU']
      split
      · rw [TcpHdr.addWindow, addWindow_eq]
      · rename_i hw'
        rw [← window_eq (by simpa [hw] using hw')]
    have hthA' : thA = { cs.tcp with
        check := th.check, psh := th.psh, urg := th.urg, urgPtr := th.urgPtr
        window := th.window, ackSeq := th.ackSeq } := by
      rw [hthA, hthW']
      split
      · rw [TcpHdr.addAckSeq, CState.deltaA, addLong_eq hA]
      · rename_i ha'
        have hzero : cs.deltaA th = 0 := by simpa [ha] using ha'
        rw [← ntohl_sub_eq_zero hzero]
    rw [hthA']
    split
    · rw [TcpHdr.addSeq, CState.deltaS, addLong_eq hS]
      exact hkept.eq rfl rfl rfl rfl rfl rfl rfl
    · rename_i hs'
      have hzero : cs.deltaS th = 0 := by simpa [hs] using hs'
      exact hkept.eq (ntohl_sub_eq_zero hzero) rfl rfl rfl rfl rfl rfl

end LinuxKernel.Slhc
