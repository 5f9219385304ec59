import LinuxKernel.BitMask
import LinuxKernel.OnesComplement
import LinuxKernel.SlhcChecksum

/-!
# The Internet checksum routines

`ip_compute_csum` and `ip_send_check` of `net/inet/ip.c`, `tcp_check` and `tcp_send_check` of
`net/inet/tcp.c`, instruction by instruction, beside `ip_fast_csum`.  They are the Internet
checksum of the bytes that they are given, `tcp_check` with the pseudo header before them.
-/

namespace LinuxKernel.InetChecksum
open List

open Slhc OnesComplement

def bytesAt (buff : List Byte) (len : ℕ) : List Byte := (List.range len).map (buff.getD · 0)

/-! ## The routines -/

def addDwords (buff : List Byte) (n : ℕ) (sum : BitVec 32) : BitVec 32 :=
  let (sum, carry) := (List.range n).foldl
    (fun (sum, carry) i => adc sum (word32 buff (4 * i)) carry) ((sum, false) : BitVec 32 × Bool)
  (adc sum 0 carry).1

def addWord (sum : BitVec 32) (ax : BitVec 16) : BitVec 32 :=
  let n := (sum.extractLsb' 0 16).toNat + ax.toNat
  sum.extractLsb' 16 16 ++ (BitVec.ofNat 16 n + BitVec.ofNat 16 (n / 2 ^ 16))

def addHalves (sum : BitVec 32) : BitVec 32 := addWord sum (sum.extractLsb' 16 16)

def addTail (buff : List Byte) (len i : ℕ) (sum : BitVec 32) : BitVec 32 :=
  let (sum, i) := if len &&& 2 ≠ 0 then (addWord sum (word16 buff i), i + 2) else (sum, i)
  if len &&& 1 ≠ 0 then addWord sum (0#8 ++ buff.getD i 0) else sum

def ipComputeCsum (buff : List Byte) (len : ℕ) : BitVec 16 :=
  let (sum, i) :=
    if 3 < len then (addHalves (addDwords buff (len >>> 2) 0), 4 * (len >>> 2)) else (0, 0)
  (~~~(addTail buff len i sum)).extractLsb' 0 16

def tcpCheck (myAddr : BitVec 32) (th : List Byte) (len : ℕ) (saddr daddr : BitVec 32) :
    BitVec 16 :=
  let saddr := if saddr = 0 then myAddr else saddr
  let (sum, carry) := adc daddr saddr false
  let (sum, carry) :=
    adc sum ((ntohs (BitVec.ofNat 16 len)).setWidth 32 <<< 16 + BitVec.ofNat 32 (6 * 256)) carry
  let sum := (adc sum 0 carry).1
  let (sum, i) := if 3 < len then (addDwords th (len / 4) sum, 4 * (len / 4)) else (sum, 0)
  (~~~(addTail th len i (addHalves sum))).extractLsb' 0 16

def setWord16 (l : List Byte) (i : ℕ) (x : BitVec 16) : List Byte :=
  (l.set i (x.extractLsb' 0 8)).set (i + 1) (x.extractLsb' 8 8)

def ipSendCheck (iph : List Byte) : List Byte :=
  let iph := setWord16 iph 10 0
  setWord16 iph 10 (ipFastCsum iph (IpHdr.read iph).ihl.toNat)

def tcpSendCheck (myAddr : BitVec 32) (th : List Byte) (saddr daddr : BitVec 32) (len : ℕ) :
    List Byte :=
  let th := setWord16 th 16 0
  setWord16 th 16 (tcpCheck myAddr th len saddr daddr)

def pseudoHeader (saddr daddr : BitVec 32) (len : ℕ) : List Byte :=
  bytes32 saddr ++ bytes32 daddr ++ [0, 6] ++ bytes16 (ntohs (BitVec.ofNat 16 len))

def LowSums (sum : BitVec 32) (s : ℕ) : Prop := Sums (sum.extractLsb' 0 16) s

variable {sum : BitVec 32} {s : ℕ}

theorem addWord_low (sum : BitVec 32) (ax : BitVec 16) :
    (addWord sum ax).extractLsb' 0 16 = OnesComplement.add (sum.extractLsb' 0 16) ax :=
  BitVec.extractLsb'_append_eq_right

theorem LowSums.addWord (h : LowSums sum s) (ax : BitVec 16) :
    LowSums (addWord sum ax) (s + ax.toNat) := by
  unfold LowSums
  rw [addWord_low]
  exact h.add ax

theorem Stands.last {x : BitVec 32 × Bool} (h : Slhc.Stands x s) :
    Slhc.Stands ((adc x.1 0 x.2).1, false) s := by
  have hlast : (adc x.1 0 x.2).1.toNat = total x := by
    have hsum : x.1.toNat + (0 : BitVec 32).toNat + x.2.toNat = total x := rfl
    unfold adc
    rw [hsum, BitVec.toNat_ofNat, Nat.mod_eq_of_lt h.lt]
  have htotal : total ((adc x.1 0 x.2).1, false) = total x := by
    rw [total, hlast]
    rfl
  exact ⟨by rw [htotal]; exact h.mod, by rw [htotal]; exact h.zero, by rw [htotal]; exact h.lt⟩

theorem addDwords_stands (h : Slhc.Stands (sum, false) s) (buff : List Byte) (n : ℕ) :
    Slhc.Stands (addDwords buff n sum, false)
      (s + ∑ i ∈ Finset.range n, (word32 buff (4 * i)).toNat) := by
  have hfold : Slhc.Stands ((List.range n).foldl
      (fun (sum, carry) i => adc sum (word32 buff (4 * i)) carry)
      ((sum, false) : BitVec 32 × Bool))
      (s + ∑ i ∈ Finset.range n, (word32 buff (4 * i)).toNat) := by
    induction n with
    | zero => exact h
    | succ n ih =>
      rw [range_succ, foldl_append, Finset.sum_range_succ, ← Nat.add_assoc]
      exact ih.adc _
  exact Stands.last hfold

theorem addHalves_low (h : Slhc.Stands (sum, false) s) : LowSums (addHalves sum) s := by
  have hmod := h.mod
  have hzero := h.zero
  have hlt := h.lt
  have htotal : total (sum, false) = sum.toNat := rfl
  have hlow : (sum.extractLsb' 0 16).toNat = sum.toNat % 65536 := by
    rfl
  have hhigh : (sum.extractLsb' 16 16).toNat = sum.toNat / 65536 := by
    rw [BitVec.extractLsb'_toNat, Nat.shiftRight_eq_div_pow]
    omega
  unfold LowSums addHalves
  rw [addWord_low]
  have hadd := toNat_add (sum.extractLsb' 0 16) (sum.extractLsb' 16 16)
  exact ⟨by omega, by omega⟩

/-! ## The words of a buffer -/

section
variable (buff : List Byte)

theorem bytesAt_add (n k : ℕ) :
    bytesAt buff (n + k) = bytesAt buff n ++ (List.range k).map fun i => buff.getD (n + i) 0 := by
  unfold bytesAt
  rw [range_add, map_append, map_map]
  rfl

theorem length_bytesAt (n : ℕ) : (bytesAt buff n).length = n := by
  simp [bytesAt]

theorem toNat_word32 (i : ℕ) :
    (word32 buff i).toNat = (word16 buff i).toNat + 65536 * (word16 buff (i + 2)).toNat := by
  have hlt := (word16 buff i).isLt
  change (word16 buff (i + 2) ++ word16 buff i : BitVec 32).toNat = _
  rw [BitVec.toNat_append, Nat.shiftLeft_eq, ← Nat.mul_comm (2 ^ 16),
    ← Nat.two_pow_add_eq_or_of_lt hlt]
  omega

theorem wordSum_dwords (n : ℕ) :
    wordSum (bytesAt buff (4 * n)) % 65535 =
        (∑ i ∈ Finset.range n, (word32 buff (4 * i)).toNat) % 65535 ∧
      (wordSum (bytesAt buff (4 * n)) = 0 ↔
        ∑ i ∈ Finset.range n, (word32 buff (4 * i)).toNat = 0) := by
  induction n with
  | zero => exact ⟨rfl, by simp [bytesAt, wordSum, words]⟩
  | succ n ih =>
    have hnext : wordSum (bytesAt buff (4 * (n + 1))) = wordSum (bytesAt buff (4 * n)) +
        ((word16 buff (4 * n)).toNat + (word16 buff (4 * n + 2)).toNat) := by
      rw [Nat.mul_succ, bytesAt_add, wordSum_append (by rw [length_bytesAt]; omega)]
      rfl
    rw [hnext, Finset.sum_range_succ, toNat_word32]
    omega

theorem LowSums.addTail (h : LowSums sum s) (buff : List Byte) (len : ℕ) :
    LowSums (addTail buff len (4 * (len / 4)) sum)
      (s + wordSum ((List.range (len % 4)).map fun i => buff.getD (4 * (len / 4) + i) 0)) := by
  have htwo : len &&& 2 ≠ 0 ↔ 2 ≤ len % 4 := by
    have hbit : len &&& 2 ≠ 0 ↔ len / 2 % 2 = 1 := BitMask.and_two_pow_ne_zero_iff len 1
    omega
  have hone : len &&& 1 ≠ 0 ↔ len % 2 = 1 := by
    have hbit : len &&& 1 ≠ 0 ↔ len / 1 % 2 = 1 := BitMask.and_two_pow_ne_zero_iff len 0
    omega
  unfold InetChecksum.addTail
  generalize 4 * (len / 4) = i
  obtain hr | hr | hr | hr : len % 4 = 0 ∨ len % 4 = 1 ∨ len % 4 = 2 ∨ len % 4 = 3 := by omega
  · rw [if_neg (mt htwo.mp (by omega)), hr]
    dsimp only
    rw [if_neg (mt hone.mp (by omega))]
    exact h
  · rw [if_neg (mt htwo.mp (by omega)), hr]
    dsimp only
    rw [if_pos (hone.mpr (by omega))]
    exact h.addWord _
  · rw [if_pos (htwo.mpr (by omega)), hr]
    dsimp only
    rw [if_neg (mt hone.mp (by omega))]
    exact h.addWord _
  · rw [if_pos (htwo.mpr (by omega)), hr]
    dsimp only
    rw [if_pos (hone.mpr (by omega))]
    have hlast := (h.addWord (word16 buff i)).addWord (0#8 ++ buff.getD (i + 2) 0)
    rw [Nat.add_assoc] at hlast
    exact hlast

theorem wordSum_bytesAt (len : ℕ) :
    wordSum (bytesAt buff len) = wordSum (bytesAt buff (4 * (len / 4))) +
      wordSum ((List.range (len % 4)).map fun i => buff.getD (4 * (len / 4) + i) 0) := by
  conv_lhs => rw [← Nat.div_add_mod len 4]
  rw [bytesAt_add, wordSum_append (by rw [length_bytesAt]; omega)]

theorem not_low (sum : BitVec 32) : (~~~sum).extractLsb' 0 16 = ~~~(sum.extractLsb' 0 16) := by
  apply BitVec.eq_of_getLsbD_eq
  intro i hi
  simp [hi]
  omega

theorem ipFastCsum_eq (wlen : ℕ) : ipFastCsum buff wlen = checksum (bytesAt buff (4 * wlen)) := by
  obtain ⟨r, hr, hmod, hzero⟩ := ipFastCsum_sum buff wlen
  obtain ⟨hwords, hwordsZero⟩ := wordSum_dwords buff wlen
  have hnot : (~~~(ipFastCsum buff wlen)).toNat = r := by
    rw [BitVec.toNat_not]
    omega
  have hsums : Sums (~~~(ipFastCsum buff wlen))
      (∑ i ∈ Finset.range wlen, (word32 buff (4 * i)).toNat) :=
    ⟨by rw [hnot, hmod], by rw [hnot, hzero]⟩
  have h := hsums.not_eq_checksum hwords.symm hwordsZero.symm
  rw [BitVec.not_not] at h
  exact h

theorem LowSums.checksum_eq {l : List Byte} (h : LowSums sum s)
    (hmod : s % 65535 = wordSum l % 65535) (hzero : s = 0 ↔ wordSum l = 0) :
    (~~~sum).extractLsb' 0 16 = checksum l := by
  rw [not_low]
  exact h.not_eq_checksum hmod hzero

theorem stands_self (x : BitVec 32) : Slhc.Stands (x, false) x.toNat := ⟨rfl, Iff.rfl, x.isLt⟩

theorem ipComputeCsum_eq (len : ℕ) : ipComputeCsum buff len = checksum (bytesAt buff len) := by
  obtain ⟨hwords, hwordsZero⟩ := wordSum_dwords buff (len / 4)
  have hsplit := wordSum_bytesAt buff len
  unfold ipComputeCsum
  rw [Nat.shiftRight_eq_div_pow]
  split_ifs with hlen
  · have hsum := addDwords_stands (stands_self 0) buff (len / 4)
    have h := (addHalves_low hsum).addTail buff len
    rw [show (0 : BitVec 32).toNat = 0 from rfl] at h
    exact h.checksum_eq (by omega) (by omega)
  · have hzero : LowSums 0 0 := ⟨rfl, by simp⟩
    have h := hzero.addTail buff len
    have hdiv : len / 4 = 0 := by omega
    rw [hdiv] at h hsplit
    exact h.checksum_eq (by rw [hsplit]; rfl) (by rw [hsplit]; rfl)

end

theorem words_bytes16 (x : BitVec 16) (l : List Byte) : words (bytes16 x ++ l) = x :: words l := by
  have hword : (x.extractLsb' 8 8 ++ x.extractLsb' 0 8 : BitVec 16) = x :=
    BitVec.extractLsb'_append_extractLsb'
  change (x.extractLsb' 8 8 ++ x.extractLsb' 0 8 : BitVec 16) :: words l = _
  rw [hword]

theorem toNat_halves (x : BitVec 32) :
    x.toNat = (x.extractLsb' 0 16).toNat + 65536 * (x.extractLsb' 16 16).toNat := by
  rw [BitVec.extractLsb'_toNat, BitVec.extractLsb'_toNat, Nat.shiftRight_zero,
    Nat.shiftRight_eq_div_pow]
  omega

theorem wordSum_pseudoHeader (saddr daddr : BitVec 32) (len : ℕ) (l : List Byte) :
    wordSum (pseudoHeader saddr daddr len ++ l) =
      (saddr.extractLsb' 0 16).toNat + (saddr.extractLsb' 16 16).toNat +
        (daddr.extractLsb' 0 16).toNat + (daddr.extractLsb' 16 16).toNat + 1536 +
        (ntohs (BitVec.ofNat 16 len)).toNat + wordSum l := by
  have hproto : ∀ m : List Byte, words ([0, 6] ++ m) = 0x0600 :: words m := fun _ => rfl
  unfold wordSum pseudoHeader bytes32
  simp only [append_assoc, words_bytes16, hproto, map_cons, sum_cons]
  rw [show (0x0600 : BitVec 16).toNat = 1536 from rfl]
  omega

theorem lengthWord_toNat (x : BitVec 16) :
    (x.setWidth 32 <<< 16 + BitVec.ofNat 32 (6 * 256)).toNat = 65536 * x.toNat + 1536 := by
  rw [BitVec.toNat_add, BitVec.toNat_shiftLeft, BitVec.toNat_setWidth, BitVec.toNat_ofNat,
    Nat.shiftLeft_eq]
  omega

theorem tcpCheck_eq (myAddr : BitVec 32) (th : List Byte) (len : ℕ) (saddr daddr : BitVec 32) :
    tcpCheck myAddr th len saddr daddr =
      checksum (pseudoHeader (if saddr = 0 then myAddr else saddr) daddr len ++
        bytesAt th len) := by
  unfold tcpCheck
  generalize (if saddr = 0 then myAddr else saddr) = source
  have hpseudo := wordSum_pseudoHeader source daddr len (bytesAt th len)
  have hsource := toNat_halves source
  have hdaddr := toNat_halves daddr
  have hlength := lengthWord_toNat (ntohs (BitVec.ofNat 16 len))
  have hstart := Stands.last (((stands_self daddr).adc source).adc
    ((ntohs (BitVec.ofNat 16 len)).setWidth 32 <<< 16 + BitVec.ofNat 32 (6 * 256)))
  obtain ⟨hwords, hwordsZero⟩ := wordSum_dwords th (len / 4)
  have hsplit := wordSum_bytesAt th len
  dsimp only
  split_ifs with hlen
  · have h := (addHalves_low (addDwords_stands hstart th (len / 4))).addTail th len
    exact h.checksum_eq (by omega) (by omega)
  · have h := (addHalves_low hstart).addTail th len
    have hdiv : len / 4 = 0 := by omega
    rw [hdiv] at h hsplit
    rw [show wordSum (bytesAt th (4 * 0)) = 0 from rfl] at hsplit
    exact h.checksum_eq (by omega) (by omega)

/-! ## Filled check fields -/

variable {l : List Byte} {i j : ℕ} {x : BitVec 16}

theorem getD_setWord16_of_ne (h : j ≠ i) (h' : j ≠ i + 1) :
    (setWord16 l i x).getD j 0 = l.getD j 0 := by
  rw [setWord16, getD_set_of_ne _ h'.symm, getD_set_of_ne _ h.symm]

theorem setWord16_setWord16 (l : List Byte) (i : ℕ) (x y : BitVec 16) :
    setWord16 (setWord16 l i x) i y = setWord16 l i y := by
  unfold setWord16
  rw [set_comm _ _ (show i ≠ i + 1 by omega), set_set, set_comm _ _ (by omega), set_set]

theorem wordSum_setWord16 {len : ℕ} (hi : i % 2 = 0) (hlen : i + 2 ≤ len) (hl : i + 2 ≤ l.length)
    (x : BitVec 16) :
    wordSum (bytesAt (setWord16 l i x) len) =
      wordSum (bytesAt (setWord16 l i 0) len) + x.toNat := by
  have hparts : ∀ y : BitVec 16, wordSum (bytesAt (setWord16 l i y) len) =
      wordSum (bytesAt l i) + (y.toNat +
        wordSum ((List.range (len - (i + 2))).map fun k => l.getD (i + 2 + k) 0)) := by
    intro y
    have hsplit := bytesAt_add (setWord16 l i y) i (2 + (len - (i + 2)))
    rw [show i + (2 + (len - (i + 2))) = len by omega] at hsplit
    have hfront : bytesAt (setWord16 l i y) i = bytesAt l i := by
      refine map_congr_left fun k hk => ?_
      have hlt := mem_range.mp hk
      exact getD_setWord16_of_ne (by omega) (by omega)
    have hword : (List.range (2 + (len - (i + 2)))).map
          (fun k => (setWord16 l i y).getD (i + k) 0) =
        bytes16 y ++ (List.range (len - (i + 2))).map fun k => l.getD (i + 2 + k) 0 := by
      rw [range_add, map_append, map_map]
      congr 1
      · have hlow : (setWord16 l i y).getD (i + 0) 0 = y.extractLsb' 0 8 := by
          rw [Nat.add_zero, setWord16, getD_set_of_ne _ (by omega), getD_set_self _ (by omega)]
        have hhigh : (setWord16 l i y).getD (i + 1) 0 = y.extractLsb' 8 8 := by
          rw [setWord16, getD_set_self _ (by rw [length_set]; omega)]
        change [(setWord16 l i y).getD (i + 0) 0, (setWord16 l i y).getD (i + 1) 0] = _
        rw [hlow, hhigh]
        rfl
      · refine map_congr_left fun k _ => ?_
        change (setWord16 l i y).getD (i + (2 + k)) 0 = _
        rw [getD_setWord16_of_ne (by omega) (by omega), Nat.add_assoc]
    rw [hsplit, hfront, hword, wordSum_append (by rw [length_bytesAt]; exact hi)]
    unfold wordSum
    rw [words_bytes16, map_cons, sum_cons]
  rw [hparts x, hparts 0]
  change _ = _ + (0 + _) + _
  omega

theorem ipSendCheck_verifies (iph : List Byte) (hlen : 20 ≤ iph.length)
    (hihl : 5 ≤ (IpHdr.read iph).ihl.toNat) : ipCsum (ipSendCheck iph) = 0 := by
  have hsame : ∀ x, (IpHdr.read (setWord16 iph 10 x)).ihl = (IpHdr.read iph).ihl := by
    intro x
    have h0 : (setWord16 iph 10 x).getD 0 0 = iph.getD 0 0 :=
      getD_setWord16_of_ne (by omega) (by omega)
    simp only [IpHdr.read, h0]
  unfold ipCsum ipSendCheck
  rw [setWord16_setWord16, hsame, hsame, ipFastCsum_eq, ipFastCsum_eq]
  exact checksum_eq_zero (wordSum_setWord16 (by omega) (by omega) (by omega) _)

theorem tcpSendCheck_verifies (myAddr : BitVec 32) (th : List Byte) (len : ℕ)
    (saddr daddr : BitVec 32) (hlen : 20 ≤ len) (hth : len ≤ th.length) :
    tcpCheck myAddr (tcpSendCheck myAddr th saddr daddr len) len saddr daddr = 0 := by
  unfold tcpSendCheck
  rw [setWord16_setWord16, tcpCheck_eq, tcpCheck_eq]
  generalize hpseudo : pseudoHeader (if saddr = 0 then myAddr else saddr) daddr len = p
  have heven : p.length % 2 = 0 := by
    rw [← hpseudo]
    simp [pseudoHeader, bytes32, bytes16]
  have hword := wordSum_setWord16 (l := th) (i := 16) (by omega) (show 16 + 2 ≤ len by omega)
    (by omega) (checksum (p ++ bytesAt (setWord16 th 16 0) len))
  refine checksum_eq_zero (m := p ++ bytesAt (setWord16 th 16 0) len) ?_
  rw [wordSum_append heven, wordSum_append heven, hword, Nat.add_assoc]

theorem wordSum_mod_of_checksum (h : checksum l = 0) : wordSum l % 65535 = 0 := by
  have hmod := (sums_words l).mod
  unfold checksum at h
  rw [BitVec.not_eq_comm] at h
  rw [← hmod, h]
  rfl

/-- A changed word spoils the sum, unless it was changed from 0 to -1 or back. -/
theorem changed_word_detected (l : List Byte) (i : ℕ) (x y : BitVec 16) (hi : i % 2 = 0)
    (hl : i + 2 ≤ l.length) (hne : x ≠ y) (hzero : ¬(x = 0 ∧ y = -1 ∨ x = -1 ∧ y = 0)) :
    (∀ wlen, i + 2 ≤ 4 * wlen → ipFastCsum (setWord16 l i x) wlen = 0 →
      ipFastCsum (setWord16 l i y) wlen ≠ 0) ∧
    ∀ myAddr len saddr daddr, i + 2 ≤ len →
      tcpCheck myAddr (setWord16 l i x) len saddr daddr = 0 →
      tcpCheck myAddr (setWord16 l i y) len saddr daddr ≠ 0 := by
  have hsum : ∀ s, (s + x.toNat) % 65535 = 0 → (s + y.toNat) % 65535 ≠ 0 := by
    rw [← BitVec.toNat_ne_iff_ne] at hne
    simp only [← BitVec.toNat_inj] at hzero
    change ¬(x.toNat = 0 ∧ y.toNat = 65535 ∨ x.toNat = 65535 ∧ y.toNat = 0) at hzero
    omega
  have hdetect : ∀ p : List Byte, ∀ len, p.length % 2 = 0 → i + 2 ≤ len →
      checksum (p ++ bytesAt (setWord16 l i x) len) = 0 →
      checksum (p ++ bytesAt (setWord16 l i y) len) ≠ 0 := by
    intro p len hp hlen hx hy
    have hx' := wordSum_mod_of_checksum hx
    have hy' := wordSum_mod_of_checksum hy
    rw [wordSum_append hp, wordSum_setWord16 hi hlen hl, ← Nat.add_assoc] at hx' hy'
    exact hsum _ hx' hy'
  constructor
  · intro wlen hlen
    simpa only [ipFastCsum_eq, nil_append] using hdetect [] (4 * wlen) rfl hlen
  · intro myAddr len saddr daddr hlen
    simpa only [tcpCheck_eq] using
      hdetect _ len (by simp [pseudoHeader, bytes32, bytes16]) hlen

theorem changed_word_detected_fifth :
    ipFastCsum (setWord16 (ipSendCheck (0x45#8 :: List.replicate 19 7#8)) 8 5) 5 ≠ 0 :=
  (changed_word_detected (ipSendCheck (0x45#8 :: List.replicate 19 7#8)) 8 0x0707 5 (by decide)
    (by decide) (by decide) (by decide)).1 5 (by decide) (by decide)

/-- The routines are the Internet checksum of their bytes, for every buffer and length, and a
header or a segment with the checksum that they gave it adds up to zero. -/
theorem checksum_routines :
    (∀ buff wlen, ipFastCsum buff wlen = checksum (bytesAt buff (4 * wlen))) ∧
      (∀ buff len, ipComputeCsum buff len = checksum (bytesAt buff len)) ∧
      (∀ myAddr th len saddr daddr, tcpCheck myAddr th len saddr daddr =
        checksum (pseudoHeader (if saddr = 0 then myAddr else saddr) daddr len ++ bytesAt th len)) ∧
      (∀ iph : List Byte, 20 ≤ iph.length → 5 ≤ (IpHdr.read iph).ihl.toNat →
        ipCsum (ipSendCheck iph) = 0) ∧
      ∀ myAddr th len saddr daddr, 20 ≤ len → len ≤ th.length →
        tcpCheck myAddr (tcpSendCheck myAddr th saddr daddr len) len saddr daddr = 0 :=
  ⟨ipFastCsum_eq, ipComputeCsum_eq, tcpCheck_eq, ipSendCheck_verifies, tcpSendCheck_verifies⟩

/-- A header of twenty bytes, and a segment of twenty-one. -/
theorem checksum_routines_small :
    ipCsum (ipSendCheck (0x45#8 :: List.replicate 19 7#8)) = 0 ∧
      tcpCheck 0 (tcpSendCheck 0 (List.replicate 21 9#8) 1 2 21) 21 1 2 = 0 :=
  ⟨checksum_routines.2.2.2.1 _ (by decide) (by decide),
    checksum_routines.2.2.2.2 0 _ 21 1 2 (by decide) (by decide)⟩

end LinuxKernel.InetChecksum
