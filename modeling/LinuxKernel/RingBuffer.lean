import Mathlib.Tactic

/-!
# Windows of a ring buffer

A ring of `N` cells is a memory whose addresses count modulo `N`.  A window is what a
reader finds who starts at one address and takes `n` cells on, around the end of the
ring if need be.
-/

namespace LinuxKernel.RingBuffer
open List

variable {α : Type*} {N : ℕ} {buf : ℕ → α}

def window (N : ℕ) (buf : ℕ → α) (start n : ℕ) : List α :=
  (List.range n).map fun i => buf ((start + i) % N)

theorem window_mod (start n : ℕ) : window N buf (start % N) n = window N buf start n := by
  simp [window]

theorem window_add (start m n : ℕ) :
    window N buf start (m + n) = window N buf start m ++ window N buf (start + m) n := by
  unfold window
  rw [range_add, map_append, map_map]
  congr 1
  apply map_congr_left
  intro i _
  simp only [Function.comp_apply, Nat.add_assoc]

theorem window_succ (start n : ℕ) :
    window N buf start (n + 1) = buf (start % N) :: window N buf (start + 1) n := by
  rw [Nat.add_comm n 1, window_add]
  simp [window]

theorem cell_ne {start i n : ℕ} (hi : i < n) (hn : n < N) : (start + i) % N ≠ (start + n) % N := by
  intro heq
  have hdvd : N ∣ (start + n) - (start + i) := (Nat.modEq_iff_dvd' (by omega)).1 heq
  have hle := Nat.le_of_dvd (by omega) hdvd
  omega

theorem window_push (buf : ℕ → α) (start : ℕ) {n : ℕ} (hn : n < N) (b : α) :
    window N (Function.update buf ((start + n) % N) b) start (n + 1) =
      window N buf start n ++ [b] := by
  unfold window
  rw [range_succ, map_append, map_singleton, Function.update_self]
  congr 1
  apply map_congr_left
  intro i hi
  exact Function.update_of_ne (cell_ne (mem_range.1 hi) hn) _ _

end LinuxKernel.RingBuffer
