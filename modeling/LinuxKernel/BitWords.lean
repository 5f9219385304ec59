import Mathlib.Tactic

/-!
# Bits in an array of words

Bit `j` is bit `j % 32` of word `j / 32`, as the bit instructions of the machine count them.
The lowest one bit of a word is `BitVec.ctz`.
-/

namespace LinuxKernel.BitWords
open Function

abbrev Words : Type := ℕ → BitVec 32

def test (w : Words) (j : ℕ) : Bool := (w (j / 32)).getLsbD (j % 32)

def set (w : Words) (j : ℕ) : Words := update w (j / 32) (w (j / 32) ||| BitVec.twoPow 32 (j % 32))

def clear (w : Words) (j : ℕ) : Words :=
  update w (j / 32) (w (j / 32) &&& ~~~BitVec.twoPow 32 (j % 32))

def byte (w : Words) (q : ℕ) : BitVec 8 := (w (q / 4)).extractLsb' (8 * (q % 4)) 8

variable {w : Words} {i j n : ℕ}

theorem test_word {q b : ℕ} (hb : b < 32) : test w (32 * q + b) = (w q).getLsbD b := by
  unfold test
  rw [show (32 * q + b) / 32 = q by omega, show (32 * q + b) % 32 = b by omega]

theorem eq_of_div_mod (hdiv : i / 32 = j / 32) (hmod : i % 32 = j % 32) : i = j := by omega

@[simp] theorem test_set : test (set w j) i = (test w i || decide (i = j)) := by
  unfold test set
  by_cases hword : i / 32 = j / 32
  · rw [hword, update_self, BitVec.getLsbD_or, BitVec.getLsbD_twoPow]
    by_cases hbit : i % 32 = j % 32
    · simp [eq_of_div_mod hword hbit, Nat.mod_lt j (show 0 < 32 by decide)]
    · have hne : i ≠ j := fun h => hbit (by rw [h])
      simp [hne, Ne.symm hbit]
  · have hne : i ≠ j := fun h => hword (by rw [h])
    rw [update_of_ne hword]
    simp [hne]

@[simp] theorem test_clear : test (clear w j) i = (test w i && decide (i ≠ j)) := by
  unfold test clear
  by_cases hword : i / 32 = j / 32
  · rw [hword, update_self, BitVec.getLsbD_and, BitVec.getLsbD_not, BitVec.getLsbD_twoPow]
    have hlt : i % 32 < 32 := Nat.mod_lt i (by decide)
    by_cases hbit : i % 32 = j % 32
    · simp [eq_of_div_mod hword hbit]
    · have hne : i ≠ j := fun h => hbit (by rw [h])
      simp [hne, Ne.symm hbit, hlt]
  · have hne : i ≠ j := fun h => hword (by rw [h])
    rw [update_of_ne hword]
    simp [hne]

theorem byte_eq_zero_iff {q : ℕ} : byte w q = 0 ↔ ∀ b < 8, test w (8 * q + b) = false := by
  have hbit : ∀ b < 8, (byte w q).getLsbD b = test w (8 * q + b) := by
    intro b hb
    unfold byte test
    rw [BitVec.getLsbD_extractLsb', show (8 * q + b) / 32 = q / 4 by omega,
      show (8 * q + b) % 32 = 8 * (q % 4) + b by omega]
    simp [hb]
  constructor
  · intro hzero b hb
    rw [← hbit b hb, hzero]
    simp
  · intro hall
    apply BitVec.eq_of_getLsbD_eq
    intro b hb
    rw [hbit b hb, hall b hb]
    simp

def clears (w : Words) (n : ℕ) : Finset ℕ := (Finset.range n).filter fun j => test w j = false

theorem mem_clears : j ∈ clears w n ↔ j < n ∧ test w j = false := by
  unfold clears
  rw [Finset.mem_filter, Finset.mem_range]

theorem clears_clear (hj : j < n) : clears (clear w j) n = insert j (clears w n) := by
  ext i
  rw [mem_clears, Finset.mem_insert, mem_clears, test_clear]
  by_cases hi : i = j
  · simp [hi, hj]
  · simp [hi]

end LinuxKernel.BitWords
