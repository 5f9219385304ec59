import Mathlib.Data.BitVec
import Mathlib.Tactic

/-!
# Sequence numbers modulo 2^32

Sequence numbers are compared through the sign of their difference.  Where all
the numbers in use stay within half of the range of each other, they stand for
integers: `ofInt z` is the sequence number at position `z`, and the comparisons
are those of the positions.
-/

namespace LinuxKernel

abbrev Seq := BitVec 32

namespace Seq

def before (a b : Seq) : Bool := (a - b).toInt < 0

def after (a b : Seq) : Bool := 0 < (a - b).toInt

def ofInt (z : ℤ) : Seq := BitVec.ofInt 32 z

theorem ofInt_add (a b : ℤ) : ofInt (a + b) = ofInt a + ofInt b := BitVec.ofInt_add a b

theorem ofInt_sub (a b : ℤ) : ofInt (a - b) = ofInt a - ofInt b := by
  have h := ofInt_add (a - b) b
  rw [sub_add_cancel] at h
  rw [h, add_sub_cancel_right]

theorem natCast_eq (n : ℕ) : (BitVec.ofNat 32 n : Seq) = ofInt n := (BitVec.ofInt_natCast 32 n).symm

theorem one_eq : (1 : Seq) = ofInt 1 := rfl

theorem toInt_ofInt {z : ℤ} (hlo : -2147483648 ≤ z) (hhi : z < 2147483648) :
    (ofInt z).toInt = z := by
  apply BitVec.toInt_ofInt_eq_self (by omega)
  · norm_num
    omega
  · norm_num
    omega

theorem ofInt_toInt (x : Seq) : ofInt x.toInt = x := BitVec.ofInt_toInt

theorem toInt_bounds (x : Seq) : -2147483648 ≤ x.toInt ∧ x.toInt < 2147483648 := by
  have hlo := x.le_toInt
  have hhi := x.toInt_lt
  omega

def rel (a s : Seq) : ℤ := (s - a).toInt

theorem rel_bounds (a s : Seq) : -2147483648 ≤ rel a s ∧ rel a s < 2147483648 :=
  toInt_bounds (s - a)

theorem rel_self (a : Seq) : rel a a = 0 := by
  unfold rel
  rw [sub_self]
  rfl

theorem add_ofInt_rel (a s : Seq) : a + ofInt (rel a s) = s := by
  unfold rel
  rw [ofInt_toInt]
  exact add_sub_cancel a s

theorem rel_eq {a s : Seq} {z : ℤ} (h : s = a + ofInt z) (hlo : -2147483648 ≤ z)
    (hhi : z < 2147483648) : rel a s = z := by
  unfold rel
  rw [h, add_sub_cancel_left]
  exact toInt_ofInt hlo hhi

theorem rel_add (a s : Seq) {w z : ℤ} (hlo : -2147483648 ≤ rel a s + z - w)
    (hhi : rel a s + z - w < 2147483648) :
    rel (a + ofInt w) (s + ofInt z) = rel a s + z - w := by
  apply rel_eq _ hlo hhi
  have hs := add_ofInt_rel a s
  rw [ofInt_sub, ofInt_add]
  nth_rewrite 1 [← hs]
  abel

theorem rel_add_left (a s : Seq) {w : ℤ} (hlo : -2147483648 ≤ rel a s - w)
    (hhi : rel a s - w < 2147483648) : rel (a + ofInt w) s = rel a s - w := by
  have h := rel_add a s (w := w) (z := 0) (by omega) (by omega)
  rw [add_zero] at h
  rw [← h]
  congr 1
  exact (add_zero s).symm

theorem rel_add_right (a s : Seq) {z : ℤ} (hlo : -2147483648 ≤ rel a s + z)
    (hhi : rel a s + z < 2147483648) : rel a (s + ofInt z) = rel a s + z := by
  have h := rel_add a s (w := 0) (z := z) (by omega) (by omega)
  rw [sub_zero] at h
  rw [← h]
  congr 1
  exact (add_zero a).symm

theorem rel_trans {a b s : Seq} (hlo : -2147483648 ≤ rel a s - rel a b)
    (hhi : rel a s - rel a b < 2147483648) : rel b s = rel a s - rel a b := by
  have h := rel_add_left a s hlo hhi
  rw [add_ofInt_rel] at h
  exact h

theorem before_iff (s a : Seq) : before s a = true ↔ rel a s < 0 := by
  unfold before rel
  rw [decide_eq_true_eq]

theorem after_iff (s a : Seq) : after s a = true ↔ 0 < rel a s := by
  unfold after rel
  rw [decide_eq_true_eq]

theorem before_succ_iff {s a : Seq} (hlo : -2147483648 < rel a s) :
    before s (a + 1) = true ↔ rel a s ≤ 0 := by
  have hhi := (rel_bounds a s).2
  rw [before_iff, one_eq, rel_add_left a s (by omega) (by omega)]
  omega

theorem toNat_rel {a s : Seq} (h : 0 ≤ rel a s) : ((s - a).toNat : ℤ) = rel a s := by
  unfold rel at h ⊢
  rw [BitVec.toInt_eq_toNat_cond] at h ⊢
  split_ifs with hmsb
  · rfl
  · omega

end Seq

end LinuxKernel
