import LinuxKernel.Ext2BlockModel

/-!
# What the block search finds

The search in a group returns a clear bit and fails only when there is none, from the goal
on in the group of the goal and at all in the others.  The walk over the groups comes back
to the group of the goal.
-/

namespace LinuxKernel.Ext2

open BitWords

section

variable {w : Words} {n j k : ℕ}

theorem test_of_zeroByte {addr size : ℕ} (h : 8 * findFirstZeroByte w addr size < n)
    (hn : n ≤ 8 * (addr + size)) : test w (8 * findFirstZeroByte w addr size) = false := by
  have hlt : findFirstZeroByte w addr size < addr + size := by omega
  exact (findFirstZeroByte_some hlt).2 0 (by decide)

theorem searchGoal_some (hn : 32 ∣ n) (hj : j < n) (h : searchGoal w n j = some k) :
    k < n ∧ test w k = false := by
  unfold searchGoal at h
  split at h
  · rename_i hclear
    obtain rfl := Option.some.inj h
    exact ⟨hj, hclear⟩
  split at h
  · rename_i k' hnear
    obtain rfl := Option.some.inj h
    split at hnear
    · exact findNear_some hnear
    · cases hnear
  dsimp only at h
  split at h
  · rename_i hbyte
    obtain rfl := Option.some.inj h
    -- the bytes searched end with the bitmap of the group
    have hclear := test_of_zeroByte hbyte (by omega)
    obtain ⟨hle, hback⟩ := searchBack_spec 7 hclear
    exact ⟨by omega, hback⟩
  split at h
  · rename_i hbit
    obtain rfl := Option.some.inj h
    exact ⟨hbit, (findNextZeroBit_spec w hn j).2 hbit⟩
  · cases h

theorem searchGroup_some (hn : 32 ∣ n) (h : searchGroup w n = some k) :
    k < n ∧ test w k = false := by
  unfold searchGroup at h
  dsimp only at h
  split at h
  · rename_i hbyte
    obtain rfl := Option.some.inj h
    have hclear := test_of_zeroByte hbyte (by omega)
    obtain ⟨hle, hback⟩ := searchBack_spec 7 hclear
    exact ⟨by omega, hback⟩
  split at h
  · rename_i hbit
    obtain rfl := Option.some.inj h
    obtain ⟨hle, hback⟩ := searchBack_spec 7 ((findFirstZeroBit_spec w n).2 hbit)
    exact ⟨by omega, hback⟩
  · cases h

theorem searchGroup_none (h : searchGroup w n = none) {i : ℕ} (hi : i < n) : test w i = true := by
  unfold searchGroup at h
  dsimp only at h
  split at h
  · cases h
  split at h
  · cases h
  · rename_i hbit
    exact (findFirstZeroBit_spec w n).1 i (by omega)

theorem preallocate_spec (w : Words) (m k count : ℕ) :
    ∃ c, preallocate n j m k w count = ((preallocate n j m k w count).1, count + c) ∧
      (∀ i, j + k ≤ i → i < j + k + c → i < n ∧ test w i = false) ∧
      ∀ i, test (preallocate n j m k w count).1 i =
        (test w i || decide (j + k ≤ i ∧ i < j + k + c)) := by
  induction m generalizing k w count with
  | zero => exact ⟨0, rfl, fun i h1 h2 => by omega, fun i => by simp [preallocate]⟩
  | succ m ih =>
    by_cases hin : j + k < n
    · by_cases hset : test w (j + k) = true
      · have heq : preallocate n j (m + 1) k w count = (w, count) := by
          simp [preallocate, hin, hset]
        rw [heq]
        exact ⟨0, rfl, fun i h1 h2 => by omega, fun i => by simp⟩
      · have heq : preallocate n j (m + 1) k w count =
            preallocate n j m (k + 1) (set w (j + k)) (count + 1) := by
          simp [preallocate, hin, hset]
        obtain ⟨c, hc, hclear, hbits⟩ := ih (set w (j + k)) (k + 1) (count + 1)
        rw [heq]
        refine ⟨c + 1, by rw [hc]; congr 1; omega, ?_, ?_⟩
        · intro i h1 h2
          by_cases hi : i = j + k
          · subst hi
            exact ⟨hin, by simpa using hset⟩
          · obtain ⟨hlt, htest⟩ := hclear i (by omega) (by omega)
            rw [test_set, Bool.or_eq_false_iff] at htest
            exact ⟨hlt, htest.1⟩
        · intro i
          rw [hbits i, test_set, Bool.or_assoc]
          congr 1
          rw [← Bool.decide_or]
          apply decide_eq_decide.2
          omega
    · have heq : preallocate n j (m + 1) k w count = (w, count) := by
        simp [preallocate, hin]
      rw [heq]
      exact ⟨0, rfl, fun i h1 h2 => by omega, fun i => by simp⟩

end

/-- The file system is well formed: the counts are those of the bitmaps, and the first block,
the bitmaps, the inode tables and the blocks behind the end are marked used. -/
structure Blocks.Wf (fs : Blocks) : Prop where
  words : 0 < fs.sb.wordsPerGroup
  data : fs.sb.firstDataBlock < fs.sb.blocksCount
  groupFree : ∀ i < fs.sb.groupsCount,
    fs.groupFree i = (clears (fs.bitmap i) fs.sb.blocksPerGroup).card
  free : fs.free = ∑ i ∈ Finset.range fs.sb.groupsCount, fs.groupFree i
  first : test (fs.bitmap 0) 0 = true
  past : ∀ i < fs.sb.groupsCount, ∀ j < fs.sb.blocksPerGroup,
    fs.sb.blocksCount ≤ fs.number i j → test (fs.bitmap i) j = true
  system : ∀ i < fs.sb.groupsCount, ∀ j < fs.sb.blocksPerGroup,
    fs.inSystemZone i (fs.number i j) = true → test (fs.bitmap i) j = true

section

variable {fs : Blocks} {i j k g : ℕ}

def Blocks.Full (fs : Blocks) : Prop :=
  ∀ i < fs.sb.groupsCount, ∀ j < fs.sb.blocksPerGroup, test (fs.bitmap i) j = true

theorem Blocks.Wf.blocksPerGroup_pos (h : fs.Wf) : 0 < fs.sb.blocksPerGroup := by
  have := h.words
  unfold BlockSuper.blocksPerGroup
  omega

theorem dvd_blocksPerGroup (sb : BlockSuper) : 32 ∣ sb.blocksPerGroup := Dvd.intro _ rfl

theorem Blocks.Wf.group_lt (h : fs.Wf) {block : ℕ} (hfirst : fs.sb.firstDataBlock ≤ block)
    (hblock : block < fs.sb.blocksCount) :
    (block - fs.sb.firstDataBlock) / fs.sb.blocksPerGroup < fs.sb.groupsCount := by
  have hpos := h.blocksPerGroup_pos
  unfold BlockSuper.groupsCount
  rw [Nat.div_lt_iff_lt_mul hpos, Nat.lt_iff_add_one_le]
  have hceil := Nat.lt_div_mul_add hpos
    (a := fs.sb.blocksCount - fs.sb.firstDataBlock + fs.sb.blocksPerGroup - 1)
  omega

theorem nextGroup_some (h : fs.nextGroup k i = some g) (hpos : 0 < fs.sb.groupsCount) :
    g < fs.sb.groupsCount ∧ 0 < fs.groupFree g := by
  induction k generalizing i with
  | zero => cases h
  | succ k ih =>
    unfold Blocks.nextGroup at h
    dsimp only at h
    have hnext : (if fs.sb.groupsCount ≤ i + 1 then 0 else i + 1) < fs.sb.groupsCount := by
      split <;> omega
    generalize (if fs.sb.groupsCount ≤ i + 1 then 0 else i + 1) = next at h hnext
    split at h
    · rename_i hfree
      obtain rfl := Option.some.inj h
      exact ⟨hnext, hfree⟩
    · exact ih h

theorem nextGroup_none (h : fs.nextGroup k i = none) (hi : i < fs.sb.groupsCount) {m : ℕ}
    (hm : m < k) : fs.groupFree ((i + 1 + m) % fs.sb.groupsCount) = 0 := by
  induction k generalizing i m with
  | zero => omega
  | succ k ih =>
    unfold Blocks.nextGroup at h
    dsimp only at h
    have hnext : (if fs.sb.groupsCount ≤ i + 1 then 0 else i + 1) =
        (i + 1) % fs.sb.groupsCount := by
      split
      · rw [show i + 1 = fs.sb.groupsCount by omega, Nat.mod_self]
      · rw [Nat.mod_eq_of_lt (by omega)]
    rw [hnext] at h
    split at h
    · cases h
    cases m with
    | zero => rw [Nat.add_zero]; omega
    | succ m =>
      have hstep := ih h (Nat.mod_lt _ (by omega)) (m := m) (by omega)
      rwa [Nat.add_assoc, Nat.mod_add_mod, ← Nat.add_assoc, Nat.add_right_comm] at hstep

theorem nextGroup_all (h : fs.nextGroup fs.sb.groupsCount i = none) (hi : i < fs.sb.groupsCount)
    (hg : g < fs.sb.groupsCount) : fs.groupFree g = 0 := by
  rcases Nat.lt_or_ge i g with hlt | hge
  · have hzero := nextGroup_none h hi (m := g - i - 1) (by omega)
    rwa [show i + 1 + (g - i - 1) = g by omega, Nat.mod_eq_of_lt hg] at hzero
  · have hzero := nextGroup_none h hi (m := fs.sb.groupsCount - 1 - i + g) (by omega)
    rwa [show i + 1 + (fs.sb.groupsCount - 1 - i + g) = g + fs.sb.groupsCount by omega,
      Nat.add_mod_right, Nat.mod_eq_of_lt hg] at hzero

theorem Blocks.Wf.groupFree_pos_iff (h : fs.Wf) (hi : i < fs.sb.groupsCount) :
    0 < fs.groupFree i ↔ ∃ j < fs.sb.blocksPerGroup, test (fs.bitmap i) j = false := by
  rw [h.groupFree i hi, Finset.card_pos]
  constructor
  · rintro ⟨j, hj⟩
    exact ⟨j, mem_clears.1 hj⟩
  · rintro ⟨j, hj⟩
    exact ⟨j, mem_clears.2 hj⟩

theorem searchRest_some (hpos : 0 < fs.sb.groupsCount)
    (hfound : fs.searchRest i = some (g, j)) :
    g < fs.sb.groupsCount ∧ j < fs.sb.blocksPerGroup ∧ test (fs.bitmap g) j = false := by
  unfold Blocks.searchRest at hfound
  split at hfound
  · cases hfound
  · rename_i g' hgroup
    obtain ⟨j', hj', heq⟩ := Option.map_eq_some_iff.1 hfound
    obtain ⟨rfl, rfl⟩ := Prod.mk.inj heq
    have hsearch := searchGroup_some (dvd_blocksPerGroup fs.sb) hj'
    exact ⟨(nextGroup_some hgroup hpos).1, hsearch.1, hsearch.2⟩

theorem Blocks.Wf.searchRest_none (h : fs.Wf) (hi : i < fs.sb.groupsCount)
    (hfound : fs.searchRest i = none) : fs.Full := by
  unfold Blocks.searchRest at hfound
  split at hfound
  · rename_i hnone
    intro g hg j hj
    by_contra hclear
    have hpos := (h.groupFree_pos_iff hg).2 ⟨j, hj, by simpa using hclear⟩
    have := nextGroup_all hnone hi hg
    omega
  · -- not reached: the group has a free block
    rename_i g hgroup
    obtain ⟨hg, hfree⟩ := nextGroup_some hgroup (by omega)
    obtain ⟨j, hj, hclear⟩ := (h.groupFree_pos_iff hg).1 hfree
    have hset := searchGroup_none (Option.map_eq_none_iff.1 hfound) hj
    rw [hset] at hclear
    cases hclear

theorem Blocks.Wf.search (h : fs.Wf) {goal : ℕ} (hfirst : fs.sb.firstDataBlock ≤ goal)
    (hgoal : goal < fs.sb.blocksCount) :
    (∀ i j, fs.search goal = some (i, j) →
      i < fs.sb.groupsCount ∧ j < fs.sb.blocksPerGroup ∧ test (fs.bitmap i) j = false) ∧
    (fs.search goal = none → fs.Full) := by
  have hi := h.group_lt hfirst hgoal
  have hpos := Nat.zero_lt_of_lt hi
  have hj := Nat.mod_lt (goal - fs.sb.firstDataBlock) h.blocksPerGroup_pos
  unfold Blocks.search
  dsimp only
  split
  · split
    · rename_i j' hj'
      refine ⟨?_, by simp⟩
      rintro i j ⟨⟩
      exact ⟨hi, searchGoal_some (dvd_blocksPerGroup fs.sb) hj hj'⟩
    · exact ⟨fun i j hfound => searchRest_some hpos hfound, h.searchRest_none hi⟩
  · exact ⟨fun i j hfound => searchRest_some hpos hfound, h.searchRest_none hi⟩

end

end LinuxKernel.Ext2
