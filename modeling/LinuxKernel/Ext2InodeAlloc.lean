import LinuxKernel.Ext2InodeModel

/-!
# When `ext2_new_inode` finds a group

The search for a directory sees all groups.  The search for a file sees the group of the
directory, the next one through the hash, and from the second next one on the others; only
behind the last group the linear search begins one group too early and ends one too early,
and the second last group is left to the hash.
-/

namespace LinuxKernel.Ext2
open Function

open BitWords

/-- The counts are those of the bitmaps, and the first inodes are in use. -/
structure Inodes.Wf (fs : Inodes) : Prop where
  groups : 0 < fs.groupsCount
  inodesCount : fs.inodesCount = fs.groupsCount * fs.inodesPerGroup
  groupFree : ∀ i < fs.groupsCount,
    (fs.group i).freeInodes = (clears (fs.group i).bitmap fs.inodesPerGroup).card
  free : fs.freeInodes = ∑ i ∈ Finset.range fs.groupsCount, (fs.group i).freeInodes
  reserved : ∀ i < fs.groupsCount, ∀ j < fs.inodesPerGroup,
    j + i * fs.inodesPerGroup + 1 < firstIno → test (fs.group i).bitmap j = true

def Inodes.NoFree (fs : Inodes) : Prop := ∀ i < fs.groupsCount, (fs.group i).freeInodes = 0

/-- The file is made in the last group, the second last has the only free inodes, and the
hash does not come to it. -/
def Inodes.Missed (fs : Inodes) (parent : ℕ) : Prop :=
  parent + 1 = fs.groupsCount ∧ 2 ≤ fs.groupsCount ∧ (¬∃ k, fs.groupsCount = 2 ^ k) ∧
    (fs.group (fs.groupsCount - 2)).freeInodes ≠ 0 ∧
    ∀ i < fs.groupsCount, i ≠ fs.groupsCount - 2 → (fs.group i).freeInodes = 0

section

variable {fs : Inodes} {i j n p : ℕ}

theorem dirGroup_none {ave : ℕ} {gdp : Option ℕ} (h : fs.dirGroup ave n j gdp = none) :
    gdp = none ∧ ∀ i, j ≤ i → i < j + n →
      ¬((fs.group i).freeInodes ≠ 0 ∧ ave ≤ (fs.group i).freeInodes) := by
  induction n generalizing j gdp with
  | zero => exact ⟨h, fun i h1 h2 => by omega⟩
  | succ n ih =>
    unfold Inodes.dirGroup at h
    obtain ⟨hnone, hrest⟩ := ih h
    split at hnone
    · cases hnone
    · rename_i hnot
      rw [hnone] at hnot ⊢
      refine ⟨rfl, ?_⟩
      intro i h1 h2 hi
      by_cases hij : i = j
      · subst hij
        exact hnot ⟨hi.1, hi.2, rfl⟩
      · exact hrest i (by omega) (by omega) hi

theorem dirGroup_some {ave : ℕ} {gdp : Option ℕ}
    (hgdp : ∀ i ∈ gdp, i < j + n ∧ (fs.group i).freeInodes ≠ 0)
    (h : fs.dirGroup ave n j gdp = some i) : i < j + n ∧ (fs.group i).freeInodes ≠ 0 := by
  induction n generalizing j gdp with
  | zero => exact hgdp i h
  | succ n ih =>
    unfold Inodes.dirGroup at h
    rw [show j + (n + 1) = j + 1 + n by omega] at hgdp ⊢
    refine ih ?_ h
    intro i' hi'
    split at hi'
    · rename_i hbetter
      obtain rfl := Option.some.inj hi'
      exact ⟨by omega, hbetter.1⟩
    · exact hgdp i' hi'

theorem hashGroup_some (h : fs.hashGroup n j p = some i) (hp : p < fs.groupsCount) :
    i < fs.groupsCount ∧ (fs.group i).freeInodes ≠ 0 := by
  induction n generalizing j p with
  | zero => cases h
  | succ n ih =>
    unfold Inodes.hashGroup at h
    split at h
    · rename_i hj
      dsimp only at h
      have hnext : (if fs.groupsCount ≤ p + j then p + j - fs.groupsCount else p + j) <
          fs.groupsCount := by
        split <;> omega
      generalize (if fs.groupsCount ≤ p + j then p + j - fs.groupsCount else p + j) = next
        at h hnext
      split at h
      · rename_i hfree
        obtain rfl := Option.some.inj h
        exact ⟨hnext, hfree⟩
      · exact ih h hnext
    · cases h

theorem hashGroup_none_iff (hp : p < fs.groupsCount) : fs.hashGroup n j p = none ↔
    ∀ t < n, j * 2 ^ t < fs.groupsCount →
      (fs.group ((p + j * (2 ^ (t + 1) - 1)) % fs.groupsCount)).freeInodes = 0 := by
  induction n generalizing j p with
  | zero => simp [Inodes.hashGroup]
  | succ n ih =>
    unfold Inodes.hashGroup
    by_cases hj : j < fs.groupsCount
    · rw [if_pos hj]
      dsimp only
      have hnext : (if fs.groupsCount ≤ p + j then p + j - fs.groupsCount else p + j) =
          (p + j) % fs.groupsCount := by
        split
        · rename_i hle
          rw [Nat.mod_eq_sub_mod hle, Nat.mod_eq_of_lt (by omega)]
        · rw [Nat.mod_eq_of_lt (by omega)]
      -- one turn later the step is doubled
      have hshift : ∀ t, ((p + j) % fs.groupsCount + 2 * j * (2 ^ (t + 1) - 1)) % fs.groupsCount =
          (p + j * (2 ^ (t + 1 + 1) - 1)) % fs.groupsCount := by
        intro t
        rw [Nat.mod_add_mod]
        have hpos : 0 < 2 ^ t := Nat.two_pow_pos t
        rw [pow_succ 2 (t + 1), pow_succ 2 t]
        obtain ⟨m, hm⟩ : ∃ m, 2 ^ t = m + 1 := ⟨2 ^ t - 1, by omega⟩
        rw [hm, show (m + 1) * 2 - 1 = 2 * m + 1 by omega,
          show (m + 1) * 2 * 2 - 1 = 4 * m + 3 by omega]
        ring
      rw [hnext]
      split
      · rename_i hfree
        refine iff_of_false (by simp) ?_
        intro hall
        have hzero := hall 0 (by omega) (by simpa using hj)
        simp only [Nat.zero_add, pow_one, Nat.add_one_sub_one, Nat.mul_one] at hzero
        exact hfree hzero
      · rename_i hfree
        rw [ih (Nat.mod_lt _ (by omega))]
        constructor
        · intro hall t ht hlt
          cases t with
          | zero =>
            simp only [Nat.zero_add, pow_one, Nat.add_one_sub_one, Nat.mul_one]
            omega
          | succ t =>
            rw [← hshift]
            refine hall t (by omega) ?_
            rwa [pow_succ, mul_comm (2 ^ t), ← mul_assoc, mul_comm j] at hlt
        · intro hall t ht hlt
          rw [hshift]
          refine hall (t + 1) (by omega) ?_
          rwa [pow_succ, mul_comm (2 ^ t), ← mul_assoc, mul_comm j]
    · rw [if_neg hj]
      refine iff_of_true rfl ?_
      intro t _ hlt
      have := Nat.le_mul_of_pos_right j (Nat.two_pow_pos t)
      omega

theorem linearGroup_some (h : fs.linearGroup n p = some i) (hpos : 0 < fs.groupsCount) :
    i < fs.groupsCount ∧ (fs.group i).freeInodes ≠ 0 := by
  induction n generalizing p with
  | zero => cases h
  | succ n ih =>
    unfold Inodes.linearGroup at h
    dsimp only at h
    have hnext : (if fs.groupsCount ≤ p + 1 then 0 else p + 1) < fs.groupsCount := by
      split <;> omega
    generalize (if fs.groupsCount ≤ p + 1 then 0 else p + 1) = next at h hnext
    split at h
    · rename_i hfree
      obtain rfl := Option.some.inj h
      exact ⟨hnext, hfree⟩
    · exact ih h

theorem linearGroup_none_iff (hp : p < fs.groupsCount) : fs.linearGroup n p = none ↔
    ∀ m < n, (fs.group ((p + 1 + m) % fs.groupsCount)).freeInodes = 0 := by
  induction n generalizing p with
  | zero => simp [Inodes.linearGroup]
  | succ n ih =>
    unfold Inodes.linearGroup
    dsimp only
    have hnext : (if fs.groupsCount ≤ p + 1 then 0 else p + 1) = (p + 1) % fs.groupsCount := by
      split
      · rw [show p + 1 = fs.groupsCount by omega, Nat.mod_self]
      · rw [Nat.mod_eq_of_lt (by omega)]
    have hshift : ∀ m, ((p + 1) % fs.groupsCount + 1 + m) % fs.groupsCount =
        (p + 1 + (m + 1)) % fs.groupsCount := by
      intro m
      rw [Nat.add_assoc, Nat.mod_add_mod]
      congr 1
      omega
    rw [hnext]
    split
    · rename_i hfree
      refine iff_of_false (by simp) fun hall => hfree ?_
      exact hall 0 (by omega)
    · rename_i hfree
      rw [ih (Nat.mod_lt _ (by omega))]
      constructor
      · intro hall m hm
        cases m with
        | zero => simpa using hfree
        | succ m =>
          rw [← hshift]
          exact hall m (by omega)
      · intro hall m hm
        rw [hshift]
        exact hall (m + 1) (by omega)

theorem linearGroup_behind (hpos : 0 < fs.groupsCount) :
    fs.linearGroup n fs.groupsCount = fs.linearGroup n (fs.groupsCount - 1) := by
  cases n with
  | zero => rfl
  | succ n =>
    unfold Inodes.linearGroup
    have hbehind : fs.groupsCount ≤ fs.groupsCount + 1 := Nat.le_succ _
    have hlast : fs.groupsCount ≤ fs.groupsCount - 1 + 1 := by omega
    simp only [hbehind, hlast, if_true]

theorem hash_second_last {t : ℕ} {G : ℕ} (hG : 2 ≤ G) :
    (G - 1 + 1 * (2 ^ (t + 1) - 1)) % G = G - 2 ↔ G ∣ 2 ^ (t + 1) := by
  have hpos : 0 < 2 ^ t := Nat.two_pow_pos t
  have hsum : G - 1 + 1 * (2 ^ (t + 1) - 1) = 2 ^ (t + 1) + (G - 2) := by omega
  rw [hsum]
  constructor
  · intro hmod
    have hself : (G - 2) % G = G - 2 := Nat.mod_eq_of_lt (by omega)
    have hcancel : 2 ^ (t + 1) ≡ 0 [MOD G] := by
      refine Nat.ModEq.add_right_cancel' (G - 2) ?_
      rw [Nat.zero_add]
      exact hmod.trans hself.symm
    exact (Nat.modEq_zero_iff_dvd).1 hcancel
  · rintro ⟨q, hq⟩
    rw [hq, Nat.mul_add_mod, Nat.mod_eq_of_lt (by omega)]

theorem fileGroup_some (hp : p < fs.groupsCount) (h : fs.fileGroup p = some i) :
    i < fs.groupsCount ∧ (fs.group i).freeInodes ≠ 0 := by
  unfold Inodes.fileGroup at h
  split at h
  · rename_i hfree
    obtain rfl := Option.some.inj h
    exact ⟨hp, hfree⟩
  split at h
  · rename_i i' hhash
    obtain rfl := Option.some.inj h
    exact hashGroup_some hhash hp
  · exact linearGroup_some h (by omega)

theorem fileGroup_none_iff (hp : p < fs.groupsCount) :
    fs.fileGroup p = none ↔ fs.NoFree ∨ fs.Missed p := by
  have hunfold : fs.fileGroup p = none ↔ (fs.group p).freeInodes = 0 ∧
      fs.hashGroup fs.groupsCount 1 p = none ∧
      fs.linearGroup (fs.groupsCount - 2) (p + 1) = none := by
    unfold Inodes.fileGroup
    by_cases hfree : (fs.group p).freeInodes = 0
    · rw [if_neg (by simpa using hfree)]
      cases fs.hashGroup fs.groupsCount 1 p with
      | none => simp [hfree]
      | some i => simp
    · simp [hfree]
  rw [hunfold, hashGroup_none_iff hp]
  constructor
  · rintro ⟨hparent, hhash, hlinear⟩
    -- the first step of the hash is to the next group
    have hfirst : 1 < fs.groupsCount → (fs.group ((p + 1) % fs.groupsCount)).freeInodes = 0 := by
      intro hlt
      simpa using hhash 0 (by omega) (by simpa using hlt)
    rcases Nat.lt_or_ge (p + 1) fs.groupsCount with hlt | hge
    · left
      rw [linearGroup_none_iff hlt] at hlinear
      intro g hg
      rcases Nat.lt_trichotomy g p with hgp | rfl | hgp
      · have hzero := hlinear (fs.groupsCount - 2 - p + g) (by omega)
        rwa [show p + 1 + 1 + (fs.groupsCount - 2 - p + g) = g + fs.groupsCount by omega,
          Nat.add_mod_right, Nat.mod_eq_of_lt hg] at hzero
      · exact hparent
      · by_cases hnext : g = p + 1
        · have hzero := hfirst (by omega)
          rwa [← hnext, Nat.mod_eq_of_lt hg] at hzero
        · have hzero := hlinear (g - p - 2) (by omega)
          rwa [show p + 1 + 1 + (g - p - 2) = g by omega, Nat.mod_eq_of_lt hg] at hzero
    · have hlast : p + 1 = fs.groupsCount := by omega
      rw [hlast, linearGroup_behind (by omega), linearGroup_none_iff (by omega)] at hlinear
      have hothers : ∀ g < fs.groupsCount, g ≠ fs.groupsCount - 2 →
          (fs.group g).freeInodes = 0 := by
        intro g hg hne
        by_cases hgp : g = p
        · rw [hgp]
          exact hparent
        · have hzero := hlinear g (by omega)
          rwa [show fs.groupsCount - 1 + 1 + g = g + fs.groupsCount by omega, Nat.add_mod_right,
            Nat.mod_eq_of_lt hg] at hzero
      by_cases hfree : 2 ≤ fs.groupsCount ∧ (fs.group (fs.groupsCount - 2)).freeInodes ≠ 0
      · right
        refine ⟨hlast, hfree.1, ?_, hfree.2, hothers⟩
        rintro ⟨k, hk⟩
        cases k with
        | zero => omega
        | succ t =>
          have hlt : 2 ^ t < fs.groupsCount := by
            rw [hk]
            exact Nat.pow_lt_pow_right (by decide) (Nat.lt_succ_self t)
          have hzero := hhash t (Nat.lt_two_pow_self.trans hlt) (by omega)
          rw [show p = fs.groupsCount - 1 by omega,
            (hash_second_last hfree.1).2 (by rw [hk])] at hzero
          exact hfree.2 hzero
      · left
        intro g hg
        by_cases hne : g = fs.groupsCount - 2
        · by_cases hG : 2 ≤ fs.groupsCount
          · rw [hne]
            by_contra hpos
            exact hfree ⟨hG, hpos⟩
          · rw [show g = p by omega]
            exact hparent
        · exact hothers g hg hne
  · rintro (hnone | ⟨hlast, hG, hpow, -, hothers⟩)
    · refine ⟨hnone p hp, fun t _ _ => hnone _ (Nat.mod_lt _ (by omega)), ?_⟩
      cases hlinear : fs.linearGroup (fs.groupsCount - 2) (p + 1) with
      | none => rfl
      | some i =>
        obtain ⟨hi, hfree⟩ := linearGroup_some hlinear (by omega)
        exact absurd (hnone i hi) hfree
    · refine ⟨hothers p hp (by omega), ?_, ?_⟩
      · intro t _ _
        refine hothers _ (Nat.mod_lt _ (by omega)) ?_
        rw [show p = fs.groupsCount - 1 by omega, Ne, hash_second_last hG]
        intro hdvd
        obtain ⟨k, -, hk⟩ := (Nat.dvd_prime_pow Nat.prime_two).1 hdvd
        exact hpow ⟨k, hk⟩
      · rw [hlast, linearGroup_behind (by omega), linearGroup_none_iff (by omega)]
        intro m hm
        rw [show fs.groupsCount - 1 + 1 + m = m + fs.groupsCount by omega, Nat.add_mod_right,
          Nat.mod_eq_of_lt (by omega)]
        exact hothers m (by omega) (by omega)

theorem Inodes.Wf.exists_average (h : fs.Wf) (hfree : ¬fs.NoFree) :
    ∃ i < fs.groupsCount, (fs.group i).freeInodes ≠ 0 ∧
      fs.freeInodes / fs.groupsCount ≤ (fs.group i).freeInodes := by
  obtain ⟨i, hi, hmax⟩ := Finset.exists_max_image (Finset.range fs.groupsCount)
    (fun i => (fs.group i).freeInodes) ⟨0, Finset.mem_range.2 h.groups⟩
  refine ⟨i, Finset.mem_range.1 hi, ?_, ?_⟩
  · intro hzero
    apply hfree
    intro i' hi'
    have := hmax i' (Finset.mem_range.2 hi')
    omega
  · rw [h.free]
    apply Nat.div_le_of_le_mul
    have hsum := Finset.sum_le_card_nsmul (Finset.range fs.groupsCount)
      (fun i => (fs.group i).freeInodes) _ hmax
    rwa [Finset.card_range, smul_eq_mul] at hsum

theorem Inodes.Wf.chooseGroup_none_iff (h : fs.Wf) (hp : p < fs.groupsCount) (isDir : Bool) :
    fs.chooseGroup p isDir = none ↔ fs.NoFree ∨ isDir = false ∧ fs.Missed p := by
  unfold Inodes.chooseGroup
  cases isDir with
  | false => simpa using fileGroup_none_iff hp
  | true =>
    simp only [if_true, Bool.true_eq_false, false_and, or_false]
    constructor
    · intro hnone
      by_contra hfree
      obtain ⟨i, hi, hne, hmean⟩ := h.exists_average hfree
      exact (dirGroup_none hnone).2 i (Nat.zero_le i) (by omega) ⟨hne, hmean⟩
    · intro hnofree
      cases hdir : fs.dirGroup (fs.freeInodes / fs.groupsCount) fs.groupsCount 0 none with
      | none => rfl
      | some i =>
        obtain ⟨hi, hne⟩ := dirGroup_some (by simp) hdir
        exact absurd (hnofree i (by omega)) hne

theorem chooseGroup_some (hp : p < fs.groupsCount) {isDir : Bool}
    (h : fs.chooseGroup p isDir = some i) :
    i < fs.groupsCount ∧ (fs.group i).freeInodes ≠ 0 := by
  unfold Inodes.chooseGroup at h
  split at h
  · have hdir := dirGroup_some (by simp) h
    rwa [Nat.zero_add] at hdir
  · exact fileGroup_some hp h

structure Taken (fs : Inodes) (isDir : Bool) (r : Inodes × ℕ) (i j : ℕ) : Prop where
  group : i < fs.groupsCount
  bit : j < fs.inodesPerGroup
  clear : test (fs.group i).bitmap j = false
  number : r.2 = j + i * fs.inodesPerGroup + 1
  marked : (r.1.group i).bitmap = set (fs.group i).bitmap j
  others : ∀ i', i' ≠ i → r.1.group i' = fs.group i'
  groupFree : (r.1.group i).freeInodes + 1 = (fs.group i).freeInodes
  usedDirs : (r.1.group i).usedDirs = (fs.group i).usedDirs + if isDir then 1 else 0
  free : r.1.freeInodes + 1 = fs.freeInodes
  layout : r.1.groupsCount = fs.groupsCount ∧ r.1.inodesPerGroup = fs.inodesPerGroup ∧
    r.1.inodesCount = fs.inodesCount

theorem Inodes.Wf.newInode_taken (h : fs.Wf) {isDir : Bool} (fuel : ℕ)
    (hchoose : fs.chooseGroup p isDir = some i) (hi : i < fs.groupsCount)
    (hfree : (fs.group i).freeInodes ≠ 0) :
    ∃ r j, fs.newInode p isDir (fuel + 1) = some r ∧ Taken fs isDir r i j := by
  obtain ⟨hset, hclear⟩ := findFirstZeroBit_spec (fs.group i).bitmap fs.inodesPerGroup
  have hcard := h.groupFree i hi
  obtain ⟨b, hb⟩ : (clears (fs.group i).bitmap fs.inodesPerGroup).Nonempty := by
    rw [← Finset.card_pos]
    omega
  obtain ⟨hbn, hbclear⟩ := mem_clears.1 hb
  have hj : findFirstZeroBit (fs.group i).bitmap fs.inodesPerGroup < fs.inodesPerGroup := by
    by_contra hge
    rw [hset b (by omega)] at hbclear
    cases hbclear
  have hbit := hclear hj
  have htotal : (fs.group i).freeInodes ≤ fs.freeInodes := by
    rw [h.free]
    exact Finset.single_le_sum (f := fun i => (fs.group i).freeInodes)
      (fun _ _ => Nat.zero_le _) (Finset.mem_range.2 hi)
  generalize hjdef : findFirstZeroBit (fs.group i).bitmap fs.inodesPerGroup = j at hj hbit
  have hnumber : ¬(j + i * fs.inodesPerGroup + 1 < firstIno ∨
      fs.inodesCount < j + i * fs.inodesPerGroup + 1) := by
    rintro (hlow | hhigh)
    · rw [h.reserved i hi j hj hlow] at hbit
      cases hbit
    · rw [h.inodesCount] at hhigh
      have hmul : (i + 1) * fs.inodesPerGroup ≤ fs.groupsCount * fs.inodesPerGroup :=
        Nat.mul_le_mul_right _ hi
      rw [Nat.add_mul, Nat.one_mul] at hmul
      omega
  have heq : fs.newInode p isDir (fuel + 1) = some
      ({ fs.setGroup i { fs.group i with
            bitmap := set (fs.group i).bitmap j
            freeInodes := (fs.group i).freeInodes - 1
            usedDirs := if isDir then (fs.group i).usedDirs + 1 else (fs.group i).usedDirs } with
          freeInodes := fs.freeInodes - 1 }, j + i * fs.inodesPerGroup + 1) := by
    unfold Inodes.newInode
    rw [hchoose]
    dsimp only
    rw [hjdef, if_pos hj, if_neg (by simp [hbit]), if_neg hnumber]
  refine ⟨_, j, heq, hi, hj, hbit, rfl, ?_, ?_, ?_, ?_, ?_, rfl, rfl, rfl⟩
  · change (update fs.group i _ i).bitmap = _
    rw [update_self]
  · exact fun i' hi' => update_of_ne hi' ..
  · change (update fs.group i _ i).freeInodes + 1 = _
    rw [update_self]
    dsimp only
    omega
  · change (update fs.group i _ i).usedDirs = _
    rw [update_self]
    cases isDir <;> rfl
  · change fs.freeInodes - 1 + 1 = _
    omega

/-- `ext2_new_inode` returns an inode if a group has a free one, and else changes nothing. -/
def Inodes.Complete (fs : Inodes) (parent : ℕ) (isDir : Bool) (fuel : ℕ) : Prop :=
  ∃ r, fs.newInode parent isDir fuel = some r ∧
    (¬fs.NoFree → ∃ i j, Taken fs isDir r i j) ∧ (fs.NoFree → r = (fs, 0))

/-- The allocator is complete for directories, and for files unless it misses the second last
group. -/
theorem newInode_complete_iff (h : fs.Wf) (hp : p < fs.groupsCount) (isDir : Bool) (fuel : ℕ) :
    fs.Complete p isDir (fuel + 1) ↔ ¬(isDir = false ∧ fs.Missed p) := by
  cases hchoose : fs.chooseGroup p isDir with
  | none =>
    have hnew : fs.newInode p isDir (fuel + 1) = some (fs, 0) := by
      unfold Inodes.newInode
      rw [hchoose]
    have hwhy := (h.chooseGroup_none_iff hp isDir).1 hchoose
    constructor
    · rintro ⟨r, hr, htaken, -⟩ hmissed
      rw [hnew] at hr
      obtain rfl := Option.some.inj hr
      have hfree : ¬fs.NoFree := by
        intro hnone
        exact hmissed.2.2.2.2.1 (hnone _ (by omega))
      obtain ⟨i, j, hinode⟩ := htaken hfree
      exact absurd hinode.number (by omega)
    · intro hnot
      have hnone := hwhy.resolve_right hnot
      exact ⟨_, hnew, fun hfree => absurd hnone hfree, fun _ => rfl⟩
  | some i =>
    obtain ⟨hi, hfree⟩ := chooseGroup_some hp hchoose
    obtain ⟨r, j, hr, htaken⟩ := h.newInode_taken fuel hchoose hi hfree
    have hsome : ¬fs.NoFree := fun hnone => hfree (hnone i hi)
    refine iff_of_true ⟨r, hr, fun _ => ⟨i, j, htaken⟩, fun hnone => absurd hnone hsome⟩ ?_
    intro hmissed
    have hnone := (h.chooseGroup_none_iff hp isDir).2 (Or.inr hmissed)
    rw [hchoose] at hnone
    cases hnone

theorem clear_set {w : Words} {b : ℕ} (h : test w b = false) :
    BitWords.clear (BitWords.set w b) b = w := by
  funext q
  unfold BitWords.clear BitWords.set
  by_cases hq : q = b / 32
  · subst hq
    rw [update_self, update_self]
    apply BitVec.eq_of_getLsbD_eq
    intro k hk
    unfold test at h
    simp only [BitVec.getLsbD_and, BitVec.getLsbD_or, BitVec.getLsbD_not, BitVec.getLsbD_twoPow]
    grind
  · rw [update_of_ne hq, update_of_ne hq]

/-- `ext2_free_inode` takes back what `ext2_new_inode` did. -/
theorem freeInode_newInode (h : fs.Wf) (hp : p < fs.groupsCount) (isDir : Bool) (fuel : ℕ)
    {r : Inodes × ℕ} (hr : fs.newInode p isDir (fuel + 1) = some r) (hne : r.2 ≠ 0) :
    r.1.freeInode r.2 isDir = fs := by
  unfold Inodes.newInode at hr
  cases hchoose : fs.chooseGroup p isDir with
  | none =>
    simp only [hchoose, Option.some.injEq] at hr
    exact absurd (congrArg Prod.snd hr).symm hne
  | some i =>
    obtain ⟨hi, hfree⟩ := chooseGroup_some hp hchoose
    have htotal : (fs.group i).freeInodes ≤ fs.freeInodes := by
      rw [h.free]
      exact Finset.single_le_sum (f := fun i => (fs.group i).freeInodes)
        (fun _ _ => Nat.zero_le _) (Finset.mem_range.2 hi)
    have hclear := (findFirstZeroBit_spec (fs.group i).bitmap fs.inodesPerGroup).2
    simp only [hchoose] at hr
    generalize findFirstZeroBit (fs.group i).bitmap fs.inodesPerGroup = j at hr hclear
    by_cases hj : j < fs.inodesPerGroup
    · simp only [hj, hclear hj, if_true, Bool.false_eq_true, if_false] at hr
      split at hr
      · exact absurd (congrArg Prod.snd (Option.some.inj hr)).symm hne
      next hrange =>
        obtain rfl := Option.some.inj hr
        have hdiv : (j + i * fs.inodesPerGroup + 1 - 1) / fs.inodesPerGroup = i := by
          rw [Nat.add_sub_cancel, Nat.add_mul_div_right _ _ (by omega), Nat.div_eq_of_lt hj,
            zero_add]
        have hmod : (j + i * fs.inodesPerGroup + 1 - 1) % fs.inodesPerGroup = j := by
          rw [Nat.add_sub_cancel, Nat.add_mul_mod_self_right, Nat.mod_eq_of_lt hj]
        have hdirs : (if isDir = true then
            (if isDir = true then (fs.group i).usedDirs + 1 else (fs.group i).usedDirs) - 1
          else if isDir = true then (fs.group i).usedDirs + 1 else (fs.group i).usedDirs) =
            (fs.group i).usedDirs := by
          cases isDir <;> rfl
        unfold Inodes.freeInode Inodes.setGroup
        simp only [hrange, hdiv, hmod, update_self, test_set, decide_true, Bool.or_true, if_true,
          if_false, update_idem, clear_set (hclear hj), hdirs, Nat.sub_add_cancel
            (Nat.pos_of_ne_zero hfree), Nat.sub_add_cancel ((Nat.pos_of_ne_zero hfree).trans_le htotal),
          update_eq_self]
    · simp only [hj, if_false, hfree, ne_eq, not_false_eq_true, if_true] at hr
      exact absurd (congrArg Prod.snd (Option.some.inj hr)).symm hne

end

def threeGroups : Inodes where
  groupsCount := 3
  inodesPerGroup := 32
  inodesCount := 96
  group := fun i => if i = 1 then ⟨fun _ => 0, 32, 8, 0⟩ else ⟨fun _ => BitVec.allOnes 32, 0, 8, 0⟩
  freeInodes := 32

theorem threeGroups_wf : threeGroups.Wf := by
  refine ⟨by decide, by decide, ?_, by decide, ?_⟩
  · decide
  · decide

theorem newInode_complete_iff_threeGroups :
    threeGroups.Wf ∧ 1 < threeGroups.groupsCount ∧
      (threeGroups.Complete 1 false 1 ↔ ¬(false = false ∧ threeGroups.Missed 1)) :=
  ⟨threeGroups_wf, by decide, newInode_complete_iff threeGroups_wf (by decide) false 0⟩

theorem freeInode_newInode_threeGroups :
    ∃ r, threeGroups.newInode 1 false 1 = some r ∧ r.1.freeInode r.2 false = threeGroups := by
  have hchoose : threeGroups.chooseGroup 1 false = some 1 := rfl
  obtain ⟨r, j, hr, htaken⟩ := threeGroups_wf.newInode_taken 0 hchoose (by decide) (by decide)
  have hne : r.2 ≠ 0 := by rw [htaken.number]; omega
  exact ⟨r, hr, freeInode_newInode threeGroups_wf (by decide) false 0 hr hne⟩

/-- For a file in the last of the three groups nothing is found. -/
theorem threeGroups_misses :
    threeGroups.Wf ∧ ¬threeGroups.NoFree ∧ threeGroups.newInode 2 false 1 = some (threeGroups, 0) ∧
      ¬threeGroups.Complete 2 false 1 := by
  have hfree : ¬threeGroups.NoFree := fun hnone => absurd (hnone 1 (by decide)) (by decide)
  have hnew : threeGroups.newInode 2 false 1 = some (threeGroups, 0) := rfl
  refine ⟨threeGroups_wf, hfree, hnew, ?_⟩
  rintro ⟨r, hr, htaken, -⟩
  obtain rfl := Option.some.inj hr
  obtain ⟨i, j, hinode⟩ := htaken hfree
  exact absurd hinode.number (by omega)

end LinuxKernel.Ext2
