import Mathlib.Data.BitVec
import Mathlib.Tactic

/-!
# One's complement sums

The Internet checksum of a list of bytes: the complement of the one's complement sum of its
16-bit words, where a carry out of the top is added at the bottom and a last odd byte gets a
zero byte.  Such a sum is the sum of the words modulo `2 ^ 16 - 1`, and it is zero only if
all words are.
-/

namespace LinuxKernel.OnesComplement

def add (a b : BitVec 16) : BitVec 16 :=
  let n := a.toNat + b.toNat
  BitVec.ofNat 16 n + BitVec.ofNat 16 (n / 2 ^ 16)

def words : List (BitVec 8) → List (BitVec 16)
  | [] => []
  | [a] => [(0#8 ++ a : BitVec 16)]
  | a :: b :: rest => (b ++ a : BitVec 16) :: words rest

def wordSum (l : List (BitVec 8)) : ℕ := ((words l).map BitVec.toNat).sum

def checksum (l : List (BitVec 8)) : BitVec 16 := ~~~((words l).foldl add 0)

section
variable {l : List (BitVec 8)} (h : l.length % 2 = 0) (m : List (BitVec 8))
include h

theorem words_append : words (l ++ m) = words l ++ words m := by
  induction l using words.induct with
  | case1 => rfl
  | case2 a => simp at h
  | case3 a b rest ih =>
    have hrest : rest.length % 2 = 0 := by
      simp only [List.length_cons] at h
      omega
    change _ :: words (rest ++ m) = _ :: (words rest ++ words m)
    rw [ih hrest]

theorem wordSum_append : wordSum (l ++ m) = wordSum l + wordSum m := by
  unfold wordSum
  rw [words_append h, List.map_append, List.sum_append]

end

structure Sums (x : BitVec 16) (s : ℕ) : Prop where
  mod : x.toNat % 65535 = s % 65535
  zero : x.toNat = 0 ↔ s = 0

variable {x y : BitVec 16} {s : ℕ}

theorem toNat_add (a b : BitVec 16) :
    (add a b).toNat = (a.toNat + b.toNat) % 65536 + (a.toNat + b.toNat) / 65536 := by
  unfold add
  rw [BitVec.toNat_add, BitVec.toNat_ofNat, BitVec.toNat_ofNat]
  omega

theorem Sums.add (h : Sums x s) (b : BitVec 16) : Sums (add x b) (s + b.toNat) := by
  have hzero := h.zero
  have hsum := toNat_add x b
  refine ⟨?_, by omega⟩
  calc (OnesComplement.add x b).toNat % 65535 = (x.toNat + b.toNat) % 65535 := by omega
    _ = (s + b.toNat) % 65535 := Nat.ModEq.add_right b.toNat h.mod

theorem Sums.foldl (h : Sums x s) (ws : List (BitVec 16)) :
    Sums (ws.foldl OnesComplement.add x) (s + (ws.map BitVec.toNat).sum) := by
  induction ws generalizing x s with
  | nil => exact h
  | cons w ws ih =>
    rw [List.foldl_cons, List.map_cons, List.sum_cons, ← Nat.add_assoc]
    exact ih (h.add w)

theorem Sums.eq (hx : Sums x s) (hy : Sums y s) : x = y := by
  have hxmod := hx.mod
  have hxzero := hx.zero
  have hymod := hy.mod
  have hyzero := hy.zero
  apply BitVec.eq_of_toNat_eq
  omega

theorem sums_words (l : List (BitVec 8)) : Sums ((words l).foldl add 0) (wordSum l) := by
  have hzero : Sums 0 0 := ⟨rfl, by simp⟩
  have h := hzero.foldl (words l)
  rw [Nat.zero_add] at h
  exact h

theorem Sums.not_eq_checksum {l : List (BitVec 8)} (h : Sums x s)
    (hmod : s % 65535 = wordSum l % 65535) (hzero : s = 0 ↔ wordSum l = 0) :
    ~~~x = checksum l := by
  have hsame : Sums x (wordSum l) := ⟨h.mod.trans hmod, h.zero.trans hzero⟩
  rw [hsame.eq (sums_words l)]
  rfl

theorem checksum_eq_zero {l m : List (BitVec 8)}
    (h : wordSum l = wordSum m + (checksum m).toNat) : checksum l = 0 := by
  have hm := sums_words m
  have hl := sums_words l
  have hmmod := hm.mod
  have hmzero := hm.zero
  have hlmod := hl.mod
  have hlzero := hl.zero
  unfold checksum at h ⊢
  generalize (words m).foldl add 0 = x at *
  generalize (words l).foldl add 0 = y at *
  rw [BitVec.toNat_not] at h
  apply BitVec.eq_of_toNat_eq
  rw [BitVec.toNat_not]
  change _ = 0
  omega

end LinuxKernel.OnesComplement
