import LinuxKernel.BitWords

/-!
# The bitmap searches of ext2

`find_first_zero_bit`, `find_next_zero_bit` and `find_first_zero_byte` of `fs/ext2/balloc.c`
and `fs/ext2/ialloc.c`, and the search of the next 32 blocks in `ext2_new_block`.  A search
that finds nothing returns the place behind the last word or byte it has looked at.
-/

namespace LinuxKernel.Ext2

open BitWords

def findFirstZeroBit (w : Words) (size : ℕ) : ℕ :=
  if size = 0 then 0
  else
    let n := (size + 31) / 32
    match (List.range n).find? fun q => w q ≠ BitVec.allOnes 32 with
    | some q => 32 * q + (~~~w q).ctz.toNat
    | none => 32 * n

def «from» (w : Words) (p : ℕ) : Words := fun q => w (p + q)

def findNextZeroBit (w : Words) (size offset : ℕ) : ℕ :=
  let p := offset / 32
  let bit := offset % 32
  if bit ≠ 0 then
    let set := (~~~(w p >>> bit)).ctz.toNat
    if set < 32 - bit then set + offset
    else offset + (32 - bit) + findFirstZeroBit («from» w (p + 1)) (size - 32 * (p + 1))
  else offset + findFirstZeroBit («from» w p) (size - 32 * p)

def findFirstZeroByte (w : Words) (addr size : ℕ) : ℕ :=
  match (List.range size).find? fun q => byte w (addr + q) = 0 with
  | some q => addr + q
  | none => addr + size

/-- The bits behind bit `j` in one word: the rest of its word and the beginning of the next
one.  The machine takes shift counts modulo 32. -/
def lmap (w : Words) (blocksPerGroup j : ℕ) : BitVec 32 :=
  w (j / 32) >>> ((j % 32 + 1) % 32) |||
    if j < blocksPerGroup - 32 then w (j / 32 + 1) <<< (31 - j % 32)
    else BitVec.allOnes 32 <<< (31 - j % 32)

def findNear (w : Words) (blocksPerGroup j : ℕ) : Option ℕ :=
  if lmap w blocksPerGroup j ≠ BitVec.allOnes 32 then
    let k := (~~~lmap w blocksPerGroup j).ctz.toNat + 1
    if j + k < blocksPerGroup then some (j + k) else none
  else none

def searchBack (w : Words) : ℕ → ℕ → ℕ
  | 0, j => j
  | k + 1, j => if 0 < j ∧ test w (j - 1) = false then searchBack w k (j - 1) else j

variable {w : Words} {size j : ℕ}

section
variable {x : BitVec 32} (hx : x ≠ BitVec.allOnes 32)
include hx

theorem not_ne_zero : ~~~x ≠ 0#32 := by
  intro hzero
  apply hx
  rw [← BitVec.not_not (b := x), hzero, BitVec.not_zero]

theorem ctz_not_lt : (~~~x).ctz.toNat < 32 := by
  have hlt := BitVec.ctz_lt_iff_ne_zero.2 (not_ne_zero hx)
  rw [BitVec.lt_def] at hlt
  simpa using hlt

theorem getLsbD_ctz_not : x.getLsbD (~~~x).ctz.toNat = false := by
  have htrue := BitVec.getLsbD_true_ctz_of_ne_zero (not_ne_zero hx)
  simpa [ctz_not_lt hx] using htrue

end

theorem getLsbD_of_lt_ctz_not {x : BitVec 32} {i : ℕ} (hi : i < (~~~x).ctz.toNat)
    (hlt : i < 32) : x.getLsbD i = true := by
  have hfalse := BitVec.getLsbD_false_of_lt_ctz hi
  simpa [hlt] using hfalse

theorem findFirstZeroBit_spec (w : Words) (size : ℕ) :
    (∀ i < findFirstZeroBit w size, test w i = true) ∧
      (findFirstZeroBit w size < size → test w (findFirstZeroBit w size) = false) := by
  have hword : ∀ {n : ℕ}, (∀ q < n, w q = BitVec.allOnes 32) → ∀ i < 32 * n, test w i = true := by
    intro n hall i hi
    unfold test
    rw [hall (i / 32) (by omega), BitVec.getLsbD_allOnes]
    simp [Nat.mod_lt i (show 0 < 32 by decide)]
  unfold findFirstZeroBit
  split
  · exact ⟨fun i hi => absurd hi (Nat.not_lt_zero i), fun h => by omega⟩
  dsimp only
  split
  · rename_i q hq
    have hne : w q ≠ BitVec.allOnes 32 := by simpa using List.find?_some hq
    have hbefore : ∀ r < q, w r = BitVec.allOnes 32 := by
      intro r hr
      have := (List.find?_range_eq_some.1 hq).2.2 r hr
      simpa using this
    refine ⟨?_, fun _ => ?_⟩
    · intro i hi
      rcases Nat.lt_or_ge i (32 * q) with hlt | hge
      · exact hword hbefore i hlt
      · obtain ⟨b, rfl⟩ := Nat.exists_eq_add_of_le hge
        have hb : b < (~~~w q).ctz.toNat := by omega
        have hb32 : b < 32 := hb.trans (ctz_not_lt hne)
        rw [test_word hb32]
        exact getLsbD_of_lt_ctz_not hb hb32
    · rw [test_word (ctz_not_lt hne)]
      exact getLsbD_ctz_not hne
  · rename_i hnone
    refine ⟨hword ?_, fun h => ?_⟩
    · intro q hq
      have := List.find?_eq_none.1 hnone q (List.mem_range.2 hq)
      simpa using this
    · omega

theorem test_from (p i : ℕ) : test («from» w p) i = test w (32 * p + i) := by
  unfold test «from»
  rw [show (32 * p + i) / 32 = p + i / 32 by omega, show (32 * p + i) % 32 = i % 32 by omega]

theorem findFrom_spec (w : Words) {size p : ℕ} (hsize : 32 ∣ size) :
    (∀ i, 32 * p ≤ i → i < 32 * p + findFirstZeroBit («from» w p) (size - 32 * p) →
      test w i = true) ∧
    (32 * p + findFirstZeroBit («from» w p) (size - 32 * p) < size →
      test w (32 * p + findFirstZeroBit («from» w p) (size - 32 * p)) = false) := by
  obtain ⟨hset, hclear⟩ := findFirstZeroBit_spec («from» w p) (size - 32 * p)
  refine ⟨?_, ?_⟩
  · intro i hi hlt
    obtain ⟨b, rfl⟩ := Nat.exists_eq_add_of_le hi
    rw [← test_from]
    exact hset b (by omega)
  · intro hlt
    rw [← test_from]
    exact hclear (by omega)

theorem findNextZeroBit_spec (w : Words) {size : ℕ} (hsize : 32 ∣ size) (offset : ℕ) :
    (∀ i, offset ≤ i → i < findNextZeroBit w size offset → test w i = true) ∧
      (findNextZeroBit w size offset < size → test w (findNextZeroBit w size offset) = false) := by
  unfold findNextZeroBit
  dsimp only
  split
  · -- bit `b` of the shifted word is bit `offset % 32 + b` of the word
    have hshift : ∀ b < 32 - offset % 32,
        (w (offset / 32) >>> (offset % 32)).getLsbD b = test w (offset + b) := by
      intro b hb
      rw [BitVec.getLsbD_ushiftRight, ← test_word (by omega)]
      congr 1
      omega
    have hbefore : ∀ b < (~~~(w (offset / 32) >>> (offset % 32))).ctz.toNat,
        b < 32 - offset % 32 → test w (offset + b) = true := by
      intro b hb hlt
      rw [← hshift b hlt]
      exact getLsbD_of_lt_ctz_not hb (by omega)
    split
    · rename_i hfound
      refine ⟨?_, fun _ => ?_⟩
      · intro i hi hlt
        obtain ⟨b, rfl⟩ := Nat.exists_eq_add_of_le hi
        exact hbefore b (by omega) (by omega)
      · rw [Nat.add_comm, ← hshift _ hfound]
        apply getLsbD_ctz_not
        intro hall
        -- the shift has brought in a zero
        have htop := congrArg (fun x => x.getLsbD 31) hall
        rw [BitVec.getLsbD_ushiftRight, BitVec.getLsbD_of_ge _ _ (by omega),
          BitVec.getLsbD_allOnes] at htop
        exact absurd htop (by decide)
    · rename_i hnot
      have hnext : offset + (32 - offset % 32) = 32 * (offset / 32 + 1) := by omega
      obtain ⟨hset, hclear⟩ := findFrom_spec w hsize (p := offset / 32 + 1)
      rw [hnext]
      refine ⟨?_, hclear⟩
      intro i hi hlt
      rcases Nat.lt_or_ge i (32 * (offset / 32 + 1)) with hword | hword
      · obtain ⟨b, rfl⟩ := Nat.exists_eq_add_of_le hi
        exact hbefore b (by omega) (by omega)
      · exact hset i hword hlt
  · rename_i hzero
    have hstart : offset = 32 * (offset / 32) := by omega
    have hfrom := findFrom_spec w hsize (p := offset / 32)
    rw [← hstart] at hfrom ⊢
    exact hfrom

theorem findFirstZeroByte_some {addr size : ℕ} (h : findFirstZeroByte w addr size < addr + size) :
    addr ≤ findFirstZeroByte w addr size ∧
      ∀ b < 8, test w (8 * findFirstZeroByte w addr size + b) = false := by
  unfold findFirstZeroByte at h ⊢
  split at h
  · rename_i q hq
    have hzero : byte w (addr + q) = 0 := by simpa using List.find?_some hq
    exact ⟨Nat.le_add_right addr q, byte_eq_zero_iff.1 hzero⟩
  · omega

theorem test_of_lmap {blocksPerGroup k : ℕ} (hk : k < 32)
    (hbit : (lmap w blocksPerGroup j).getLsbD k = false) : test w (j + (k + 1)) = false := by
  unfold lmap at hbit
  rw [BitVec.getLsbD_or, Bool.or_eq_false_iff, BitVec.getLsbD_ushiftRight] at hbit
  obtain ⟨hlow, hhigh⟩ := hbit
  by_cases hin : k < 31 - j % 32
  · -- still in the word of `j`
    rw [Nat.mod_eq_of_lt (show j % 32 + 1 < 32 by omega), ← test_word (by omega)] at hlow
    rwa [show j + (k + 1) = 32 * (j / 32) + (j % 32 + 1 + k) by omega]
  · split at hhigh
    · rw [BitVec.getLsbD_shiftLeft] at hhigh
      have hnext : (w (j / 32 + 1)).getLsbD (k - (31 - j % 32)) = false := by
        simpa [hk, hin] using hhigh
      rw [← test_word (by omega)] at hnext
      rwa [show j + (k + 1) = 32 * (j / 32 + 1) + (k - (31 - j % 32)) by omega]
    · rw [BitVec.getLsbD_shiftLeft, BitVec.getLsbD_allOnes] at hhigh
      simp [hk, hin] at hhigh
      omega

theorem findNear_some {blocksPerGroup j' : ℕ} (h : findNear w blocksPerGroup j = some j') :
    j' < blocksPerGroup ∧ test w j' = false := by
  unfold findNear at h
  split at h
  · rename_i hne
    dsimp only at h
    split at h
    · rename_i hlt
      obtain rfl := Option.some.inj h
      exact ⟨hlt, test_of_lmap (ctz_not_lt hne) (getLsbD_ctz_not hne)⟩
    · cases h
  · cases h

theorem searchBack_spec (k : ℕ) (hj : test w j = false) :
    searchBack w k j ≤ j ∧ test w (searchBack w k j) = false := by
  induction k generalizing j with
  | zero => exact ⟨le_rfl, hj⟩
  | succ k ih =>
    unfold searchBack
    split
    · rename_i hprev
      obtain ⟨hle, hclear⟩ := ih hprev.2
      exact ⟨by omega, hclear⟩
    · exact ⟨le_rfl, hj⟩

end LinuxKernel.Ext2
