import LinuxKernel.SlhcHeaders
import Mathlib.Algebra.BigOperators.Group.Finset.Piecewise

/-!
# The checksum of an IP header

The sums with the carries put back in are sums modulo `2 ^ 32 - 1` and `2 ^ 16 - 1`, with two
values for zero.  A header with the checksum that `ip_send_check` gives it therefore passes the
test of `slhc_remember`.
-/

namespace LinuxKernel.Slhc
open List

variable {l : List Byte} {x : BitVec 32 × Bool} {s n : ℕ}

def total (x : BitVec 32 × Bool) : ℕ := x.1.toNat + x.2.toNat

structure Stands (x : BitVec 32 × Bool) (s : ℕ) : Prop where
  mod : total x % (2 ^ 32 - 1) = s % (2 ^ 32 - 1)
  zero : total x = 0 ↔ s = 0
  lt : total x < 2 ^ 32

theorem Stands.adc (h : Stands x s) (b : BitVec 32) : Stands (adc x.1 b x.2) (s + b.toNat) := by
  obtain ⟨hmod, hzero, hlt⟩ := h
  have hn : total (Slhc.adc x.1 b x.2) =
      (total x + b.toNat) % 2 ^ 32 + (total x + b.toNat) / 2 ^ 32 := by
    have hsum : x.1.toNat + b.toNat + x.2.toNat = total x + b.toNat := by
      unfold total
      omega
    unfold Slhc.adc
    dsimp only
    rw [hsum, total, BitVec.toNat_ofNat]
    by_cases hcarry : 2 ^ 32 ≤ total x + b.toNat
    · rw [decide_eq_true hcarry, Bool.toNat_true]
      omega
    · rw [decide_eq_false hcarry, Bool.toNat_false]
      omega
  exact ⟨by omega, by omega, by omega⟩

theorem stands_fold (l : List Byte) (n : ℕ) :
    Stands ((List.range n).foldl (fun (sum, carry) i => adc sum (word32 l (4 * i)) carry)
      ((0, false) : BitVec 32 × Bool)) (∑ i ∈ Finset.range n, (word32 l (4 * i)).toNat) := by
  induction n with
  | zero => exact ⟨rfl, by simp [total], by simp [total]⟩
  | succ n ih =>
    rw [range_succ, foldl_append, Finset.sum_range_succ]
    exact ih.adc _

theorem ipFastCsum_sum (l : List Byte) (n : ℕ) :
    ∃ r, (ipFastCsum l n).toNat + r = 65535 ∧
      r % 65535 = (∑ i ∈ Finset.range n, (word32 l (4 * i)).toNat) % 65535 ∧
        (r = 0 ↔ ∑ i ∈ Finset.range n, (word32 l (4 * i)).toNat = 0) := by
  have hfold := stands_fold l n
  unfold ipFastCsum
  generalize (List.range n).foldl (fun (sum, carry) i => adc sum (word32 l (4 * i)) carry)
    ((0, false) : BitVec 32 × Bool) = x at hfold
  obtain ⟨hmod, hzero, hlt⟩ := hfold
  dsimp only
  -- the last carry does not overflow
  have hlast : (adc x.1 0 x.2).1.toNat = total x := by
    have hsum : x.1.toNat + (0 : BitVec 32).toNat + x.2.toNat = total x := rfl
    unfold adc
    rw [hsum, BitVec.toNat_ofNat, Nat.mod_eq_of_lt hlt]
  have hlow : ((adc x.1 0 x.2).1.extractLsb' 0 16).toNat = total x % 65536 := by
    rw [BitVec.extractLsb'_toNat, hlast]
    rfl
  have hhigh : ((adc x.1 0 x.2).1.extractLsb' 16 16).toNat = total x / 65536 := by
    rw [BitVec.extractLsb'_toNat, hlast, Nat.shiftRight_eq_div_pow]
    omega
  refine ⟨(total x % 65536 + total x / 65536) % 65536 +
    (total x % 65536 + total x / 65536) / 65536, ?_, ?_, ?_⟩
  · rw [BitVec.toNat_not, BitVec.toNat_add, BitVec.toNat_ofNat, BitVec.toNat_ofNat]
    omega
  · omega
  · omega

theorem ipFastCsum_congr {l l' : List Byte} (h : ∀ j < 4 * n, l.getD j 0 = l'.getD j 0) :
    ipFastCsum l n = ipFastCsum l' n := by
  have hword : ∀ i ∈ List.range n, word32 l (4 * i) = word32 l' (4 * i) := by
    intro i hi
    have hlt := mem_range.1 hi
    unfold word32 word16
    rw [h (4 * i) (by omega), h (4 * i + 1) (by omega), h (4 * i + 2) (by omega),
      h (4 * i + 2 + 1) (by omega)]
  have hfold := foldl_ext (fun (x : BitVec 32 × Bool) i => adc x.1 (word32 l (4 * i)) x.2)
    (fun (x : BitVec 32 × Bool) i => adc x.1 (word32 l' (4 * i)) x.2) (0, false)
    (fun x i hi => by rw [hword i hi])
  unfold ipFastCsum
  rw [hfold]

theorem getD_set_of_ne {i j : ℕ} (b : Byte) (h : i ≠ j) : (l.set i b).getD j 0 = l.getD j 0 := by
  rw [getD_eq_getElem?_getD, getD_eq_getElem?_getD, List.getElem?_set_ne h]

theorem getD_set_self {i : ℕ} (b : Byte) (h : i < l.length) : (l.set i b).getD i 0 = b := by
  rw [getD_eq_getElem?_getD, List.getElem?_set_self h]
  rfl

def clearCheck (l : List Byte) : List Byte := (l.set 10 0).set 11 0

theorem getD_clearCheck {j : ℕ} (h10 : j ≠ 10) (h11 : j ≠ 11) :
    (clearCheck l).getD j 0 = l.getD j 0 := by
  rw [clearCheck, getD_set_of_ne 0 h11.symm, getD_set_of_ne 0 h10.symm]

theorem word32_clearCheck (hlen : 12 ≤ l.length) (i : ℕ) :
    (word32 l (4 * i)).toNat = (word32 (clearCheck l) (4 * i)).toNat +
      if i = 2 then 65536 * (IpHdr.read l).check.toNat else 0 := by
  split
  · rename_i hi
    subst hi
    have h8 : (clearCheck l).getD 8 0 = l.getD 8 0 := getD_clearCheck (by omega) (by omega)
    have h9 : (clearCheck l).getD 9 0 = l.getD 9 0 := getD_clearCheck (by omega) (by omega)
    have h10 : (clearCheck l).getD 10 0 = 0 := by
      rw [clearCheck, getD_set_of_ne 0 (by omega), getD_set_self 0 (by omega)]
    have h11 : (clearCheck l).getD 11 0 = 0 := getD_set_self 0 (by rw [length_set]; omega)
    have hlow : word16 (clearCheck l) 8 = word16 l 8 := by
      unfold word16
      rw [h8, h9]
    have hhigh : word16 (clearCheck l) 10 = 0 := by
      unfold word16
      rw [h10, h11]
      rfl
    have hword : ∀ l : List Byte, (word32 l (4 * 2)).toNat =
        (word16 l 8).toNat + 65536 * (word16 l 10).toNat := by
      intro l
      have hlt := (word16 l 8).isLt
      change (word16 l 10 ++ word16 l 8 : BitVec 32).toNat = _
      rw [BitVec.toNat_append, Nat.shiftLeft_eq, ← Nat.mul_comm (2 ^ 16),
        ← Nat.two_pow_add_eq_or_of_lt hlt]
      omega
    rw [hword, hword, hlow, hhigh]
    rfl
  · have hbyte : ∀ k < 4, (clearCheck l).getD (4 * i + k) 0 = l.getD (4 * i + k) 0 := by
      intro k hk
      exact getD_clearCheck (by omega) (by omega)
    have h0 := hbyte 0 (by omega)
    have h1 := hbyte 1 (by omega)
    have h2 := hbyte 2 (by omega)
    have h3 := hbyte 3 (by omega)
    rw [Nat.add_zero] at h0
    simp only [word32, word16, Nat.add_assoc, h0, h1, h2, h3, Nat.reduceAdd, Nat.add_zero]

theorem ipCsum_eq_zero (hlen : 12 ≤ l.length) (hihl : 5 ≤ (IpHdr.read l).ihl.toNat)
    (hcheck : ipCsum (clearCheck l) = (IpHdr.read l).check) : ipCsum l = 0 := by
  have hsame : (IpHdr.read (clearCheck l)).ihl = (IpHdr.read l).ihl := by
    have h0 : (clearCheck l).getD 0 0 = l.getD 0 0 := getD_clearCheck (by omega) (by omega)
    simp only [IpHdr.read, h0]
  unfold ipCsum at hcheck ⊢
  rw [hsame] at hcheck
  obtain ⟨r, hr, hrmod, hrzero⟩ := ipFastCsum_sum l (IpHdr.read l).ihl.toNat
  obtain ⟨q, hq, hqmod, hqzero⟩ := ipFastCsum_sum (clearCheck l) (IpHdr.read l).ihl.toNat
  have hsum : ∑ i ∈ Finset.range (IpHdr.read l).ihl.toNat, (word32 l (4 * i)).toNat =
      ∑ i ∈ Finset.range (IpHdr.read l).ihl.toNat, (word32 (clearCheck l) (4 * i)).toNat +
        65536 * (IpHdr.read l).check.toNat := by
    have hmem : 2 ∈ Finset.range (IpHdr.read l).ihl.toNat := Finset.mem_range.2 (by omega)
    calc ∑ i ∈ Finset.range (IpHdr.read l).ihl.toNat, (word32 l (4 * i)).toNat
        = ∑ i ∈ Finset.range (IpHdr.read l).ihl.toNat, ((word32 (clearCheck l) (4 * i)).toNat +
            if i = 2 then 65536 * (IpHdr.read l).check.toNat else 0) :=
          Finset.sum_congr rfl fun i _ => word32_clearCheck hlen i
      _ = _ := by rw [Finset.sum_add_distrib, Finset.sum_ite_eq', if_pos hmem]
  rw [hcheck] at hq
  apply BitVec.eq_of_toNat_eq
  change (ipFastCsum l (IpHdr.read l).ihl.toNat).toNat = 0
  omega

end LinuxKernel.Slhc
