import Mathlib.Data.Nat.Bitwise
import Mathlib.Tactic

/-!
# Masks of bits

A word whose one bits are its lowest ones is recognised by `x &&& (x + 1) = 0`.  Of two
such words the one covers the other.  How specific a mask is is the number of its bits.
-/

namespace LinuxKernel.BitMask

variable {w : ℕ} {x y : BitVec w}

def ones (x : BitVec w) : ℕ := ((Finset.range w).filter fun i => x.getLsbD i).card

theorem ones_le_of_and_eq (h : x &&& y = y) : ones y ≤ ones x := by
  apply Finset.card_le_card
  intro i hi
  rw [Finset.mem_filter] at hi ⊢
  refine ⟨hi.1, ?_⟩
  have hbit := hi.2
  rw [← h, BitVec.getLsbD_and, Bool.and_eq_true] at hbit
  exact hbit.1

theorem eq_of_and_eq_of_ones_le (h : x &&& y = y) (hle : ones x ≤ ones y) : x = y := by
  have hsub : ((Finset.range w).filter fun i => y.getLsbD i) ⊆
      (Finset.range w).filter fun i => x.getLsbD i := by
    intro i hi
    rw [Finset.mem_filter] at hi ⊢
    have hbit := hi.2
    rw [← h, BitVec.getLsbD_and, Bool.and_eq_true] at hbit
    exact ⟨hi.1, hbit.1⟩
  have heq := Finset.eq_of_subset_of_card_le hsub hle
  apply BitVec.eq_of_getLsbD_eq
  intro i hi
  have hmem := congrArg (i ∈ ·) heq
  simp only [Finset.mem_filter, Finset.mem_range, hi, true_and, eq_iff_iff] at hmem
  exact Bool.eq_iff_iff.mpr hmem.symm

theorem and_two_pow_ne_zero_iff (x i : ℕ) : x &&& 2 ^ i ≠ 0 ↔ x / 2 ^ i % 2 = 1 := by
  rw [Nat.and_comm, Nat.two_pow_and, Nat.testBit_eq_decide_div_mod_eq]
  by_cases h : x / 2 ^ i % 2 = 1
  · simp [h]
  · simp [h]

theorem and_top_eq_zero_iff (x : UInt16) : x &&& 0x8000 = 0 ↔ x.toNat < 0x8000 := by
  have hmask : (0x8000 : UInt16).toNat = 2 ^ 15 := by decide
  have hlt : x.toNat < 65536 := x.toNat_lt
  rw [← UInt16.toNat_inj, UInt16.toNat_and, hmask, Nat.and_comm, Nat.two_pow_and,
    Nat.testBit_eq_decide_div_mod_eq]
  by_cases hbit : x.toNat / 2 ^ 15 % 2 = 1
  · simp
    omega
  · simp
    omega

def LowOnes (x : BitVec w) : Prop := x &&& (x + 1) = 0

theorem LowOnes.exists_toNat (h : LowOnes x) : ∃ k, x.toNat = 2 ^ k - 1 := by
  by_cases hall : x.toNat + 1 = 2 ^ w
  · exact ⟨w, by omega⟩
  · have hsucc : (x + 1).toNat = x.toNat + 1 := by
      rcases Nat.eq_zero_or_pos w with rfl | hw
      · omega
      · change (x.toNat + (1#w).toNat) % 2 ^ w = x.toNat + 1
        rw [BitVec.toNat_one hw, Nat.mod_eq_of_lt (by omega)]
    have hand : (x.toNat + 1) &&& (x.toNat + 1 - 1) = 0 := by
      rw [Nat.add_sub_cancel, Nat.and_comm, ← hsucc, ← BitVec.toNat_and, h]
      exact BitVec.toNat_zero
    obtain ⟨k, hk⟩ := (Nat.and_sub_one_eq_zero_iff_isPowerOfTwo (by omega)).1 hand
    exact ⟨k, by omega⟩

theorem LowOnes.exists_getLsbD (h : LowOnes x) : ∃ k, ∀ i, x.getLsbD i = decide (i < k) := by
  obtain ⟨k, hk⟩ := h.exists_toNat
  refine ⟨k, fun i => ?_⟩
  rw [← BitVec.testBit_toNat, hk, Nat.testBit_two_pow_sub_one]

theorem LowOnes.and_total (hx : LowOnes x) (hy : LowOnes y) : x &&& y = x ∨ x &&& y = y := by
  obtain ⟨j, hj⟩ := hx.exists_getLsbD
  obtain ⟨k, hk⟩ := hy.exists_getLsbD
  rcases Nat.le_total j k with hle | hle
  · left
    apply BitVec.eq_of_getLsbD_eq
    intro i _
    rw [BitVec.getLsbD_and, hj, hk, Bool.and_eq_left_iff_imp]
    simp only [decide_eq_true_eq]
    omega
  · right
    apply BitVec.eq_of_getLsbD_eq
    intro i _
    rw [BitVec.getLsbD_and, hj, hk, Bool.and_eq_right_iff_imp]
    simp only [decide_eq_true_eq]
    omega

end LinuxKernel.BitMask
