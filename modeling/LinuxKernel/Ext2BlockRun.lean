import LinuxKernel.Ext2BlockSearch

/-!
# Runs of the block allocator

Every call keeps the counts equal to the numbers of clear bits.  `ext2_new_block` marks a
block that was free with the free blocks behind it that it reports, and the super-user gets
none only when all blocks are in use.
-/

namespace LinuxKernel.Ext2
open Function

open BitWords

def Blocks.Reserved (fs : Blocks) (i j : ℕ) : Prop :=
  fs.sb.blocksCount ≤ fs.number i j ∨ fs.inSystemZone i (fs.number i j) = true ∨ i = 0 ∧ j = 0

def Blocks.FileRange (fs : Blocks) (block count : ℕ) : Prop :=
  ∃ i < fs.sb.groupsCount, ∃ j, block = fs.number i j ∧ j + count ≤ fs.sb.blocksPerGroup ∧
    0 < count ∧ ∀ k < count, ¬fs.Reserved i (j + k)

variable {count : ℕ}

variable {prealloc : Bool} {r : NewBlock}

variable {c : ℕ}

structure Blocks.Ok (fs : Blocks) : Prop where
  wf : fs.Wf
  prealloc : ∀ ino, (fs.inode ino).count ≠ 0 →
    fs.FileRange (fs.inode ino).block (fs.inode ino).count

section

variable {fs fs' : Blocks} {i j : ℕ}

theorem Blocks.Wf.reserved (h : fs.Wf) (hi : i < fs.sb.groupsCount)
    (hj : j < fs.sb.blocksPerGroup) (hres : fs.Reserved i j) : test (fs.bitmap i) j = true := by
  rcases hres with hpast | hsystem | ⟨rfl, rfl⟩
  · exact h.past i hi j hj hpast
  · exact h.system i hi j hj hsystem
  · exact h.first

theorem Blocks.Wf.setGroup (h : fs.Wf) (hi : i < fs.sb.groupsCount) {w : Words} {f total : ℕ}
    (hcard : f = (clears w fs.sb.blocksPerGroup).card)
    (htotal : total + fs.groupFree i = fs.free + f)
    (hkeep : ∀ j < fs.sb.blocksPerGroup, fs.Reserved i j → test w j = true) :
    { fs with
      bitmap := update fs.bitmap i w
      groupFree := update fs.groupFree i f
      free := total }.Wf := by
  have hstill : ∀ i' < fs.sb.groupsCount, ∀ j < fs.sb.blocksPerGroup, fs.Reserved i' j →
      test (update fs.bitmap i w i') j = true := by
    intro i' hi' j hj hres
    by_cases heq : i' = i
    · subst heq
      rw [update_self]
      exact hkeep j hj hres
    · rw [update_of_ne heq]
      exact h.reserved hi' hj hres
  refine ⟨h.words, h.data, ?_, ?_, ?_, ?_, ?_⟩
  · intro i' hi'
    change update fs.groupFree i f i' = (clears (update fs.bitmap i w i') fs.sb.blocksPerGroup).card
    by_cases heq : i' = i
    · subst heq
      rw [update_self, update_self, hcard]
    · rw [update_of_ne heq, update_of_ne heq]
      exact h.groupFree i' hi'
  · change total = ∑ i' ∈ Finset.range fs.sb.groupsCount, update fs.groupFree i f i'
    have hmem : i ∈ Finset.range fs.sb.groupsCount := Finset.mem_range.2 hi
    have hold := h.free
    rw [← Finset.add_sum_erase _ _ hmem] at hold
    rw [← Finset.add_sum_erase _ _ hmem, update_self]
    have hrest : ∑ i' ∈ (Finset.range fs.sb.groupsCount).erase i,
        update fs.groupFree i f i' =
          ∑ i' ∈ (Finset.range fs.sb.groupsCount).erase i, fs.groupFree i' := by
      apply Finset.sum_congr rfl
      intro i' hi'
      rw [update_of_ne (Finset.ne_of_mem_erase hi')]
    omega
  · have hpos : 0 < fs.sb.groupsCount := Nat.zero_lt_of_lt hi
    exact hstill 0 hpos 0 h.blocksPerGroup_pos (Or.inr (Or.inr ⟨rfl, rfl⟩))
  · intro i' hi' j hj hpast
    exact hstill i' hi' j hj (Or.inl hpast)
  · intro i' hi' j hj hsystem
    exact hstill i' hi' j hj (Or.inr (Or.inl hsystem))

structure Found (fs : Blocks) (prealloc : Bool) (r : NewBlock) (i j c : ℕ) : Prop where
  group : i < fs.sb.groupsCount
  bits : ∀ k ≤ c, j + k < fs.sb.blocksPerGroup ∧ test (fs.bitmap i) (j + k) = false
  block : r.block = fs.number i j
  inside : r.block < fs.sb.blocksCount
  marked : ∀ i' j', test (r.fs.bitmap i') j' =
    (test (fs.bitmap i') j' || decide (i' = i ∧ j ≤ j' ∧ j' ≤ j + c))
  reported : r.prealloc = if prealloc then some ⟨c, r.block + 1⟩ else none
  alone : prealloc = false → c = 0
  frame : r.fs.sb = fs.sb ∧ r.fs.group = fs.group ∧ r.fs.inode = fs.inode

theorem clears_card_of_marked {w w' : Words} {n : ℕ}
    (hbits : ∀ k ≤ c, j + k < n ∧ test w (j + k) = false)
    (hmarked : ∀ j', test w' j' = (test w j' || decide (j ≤ j' ∧ j' ≤ j + c))) :
    (clears w' n).card + (c + 1) = (clears w n).card := by
  have hsub : Finset.Icc j (j + c) ⊆ clears w n := by
    intro j' hj'
    obtain ⟨hle, hge⟩ := Finset.mem_Icc.1 hj'
    obtain ⟨k, rfl⟩ := Nat.exists_eq_add_of_le hle
    exact mem_clears.2 (hbits k (by omega))
  have hsplit : clears w' n = clears w n \ Finset.Icc j (j + c) := by
    ext j'
    rw [mem_clears, Finset.mem_sdiff, mem_clears, hmarked j', Finset.mem_Icc]
    simp only [Bool.or_eq_false_iff, decide_eq_false_iff_not]
    tauto
  have hcard := Finset.card_sdiff_add_card_eq_card hsub
  rw [Nat.card_Icc] at hcard
  rw [hsplit]
  omega

theorem exists_marks (hj : j < fs.sb.blocksPerGroup) (hclear : test (fs.bitmap i) j = false)
    (prealloc : Bool) :
    ∃ w c, (if prealloc then preallocate fs.sb.blocksPerGroup j 7 1 (set (fs.bitmap i) j) 0
        else (set (fs.bitmap i) j, 0)) = (w, c) ∧
      (∀ k ≤ c, j + k < fs.sb.blocksPerGroup ∧ test (fs.bitmap i) (j + k) = false) ∧
      (∀ j', test w j' = (test (fs.bitmap i) j' || decide (j ≤ j' ∧ j' ≤ j + c))) ∧
      (prealloc = false → c = 0) := by
  cases prealloc with
  | false =>
    refine ⟨_, 0, rfl, ?_, ?_, fun _ => rfl⟩
    · intro k hk
      obtain rfl := Nat.le_zero.1 hk
      exact ⟨hj, hclear⟩
    · intro j'
      rw [test_set]
      congr 1
      apply decide_eq_decide.2
      omega
  | true =>
    obtain ⟨c, hpair, hbits, hmarked⟩ := preallocate_spec (n := fs.sb.blocksPerGroup) (j := j)
      (set (fs.bitmap i) j) 7 1 0
    refine ⟨_, c, by rw [if_pos rfl, hpair, Nat.zero_add], ?_, ?_, fun hfalse => by cases hfalse⟩
    · intro k hk
      rcases Nat.eq_zero_or_pos k with rfl | hpos
      · exact ⟨hj, hclear⟩
      · obtain ⟨hlt, htest⟩ := hbits (j + k) (by omega) (by omega)
        rw [test_set, Bool.or_eq_false_iff] at htest
        exact ⟨hlt, htest.1⟩
    · intro j'
      rw [hmarked j', test_set, Bool.or_assoc]
      congr 1
      rw [← Bool.decide_or]
      apply decide_eq_decide.2
      omega

theorem Blocks.Wf.gotBlock (h : fs.Wf) (hi : i < fs.sb.groupsCount)
    (hj : j < fs.sb.blocksPerGroup) (hclear : test (fs.bitmap i) j = false) (prealloc : Bool) :
    (∃ c, Found fs prealloc (fs.gotBlock i j prealloc) i j c) ∧
      (fs.gotBlock i j prealloc).fs.Wf := by
  have hinside : fs.number i j < fs.sb.blocksCount := by
    by_contra hpast
    rw [h.past i hi j hj (by omega)] at hclear
    cases hclear
  obtain ⟨w, c, hpair, hbits, hmarked, halone⟩ := exists_marks hj hclear prealloc
  have hcard := clears_card_of_marked hbits hmarked
  rw [← h.groupFree i hi] at hcard
  have htotal : fs.groupFree i ≤ fs.free := by
    rw [h.free]
    exact Finset.single_le_sum (f := fs.groupFree) (fun _ _ => Nat.zero_le _)
      (Finset.mem_range.2 hi)
  have heq : fs.gotBlock i j prealloc =
      ⟨{ fs with
          bitmap := update fs.bitmap i w
          groupFree := update fs.groupFree i (fs.groupFree i - c - 1)
          free := fs.free - c - 1 }, fs.number i j,
        if prealloc then some ⟨c, fs.number i j + 1⟩ else none⟩ := by
    unfold Blocks.gotBlock
    simp only [hpair]
    rw [if_neg (by omega), update_self, update_idem]
  rw [heq]
  refine ⟨⟨c, hi, hbits, rfl, hinside, ?_, rfl, halone, rfl, rfl, rfl⟩, ?_⟩
  · intro i' j'
    change test (update fs.bitmap i w i') j' = _
    by_cases hii : i' = i
    · subst hii
      rw [update_self, hmarked j']
      simp
    · simp [hii]
  · refine h.setGroup hi (by omega) (by omega) ?_
    intro j' hj' hres
    rw [hmarked j', h.reserved hi hj' hres]
    rfl

theorem Found.block_ne_zero (h : fs.Wf)
    (hfound : Found fs prealloc r i j c) : r.block ≠ 0 := by
  intro hzero
  have hnumber := hfound.block
  unfold Blocks.number at hnumber
  have hj : j = 0 := by omega
  have hi : i * fs.sb.blocksPerGroup = 0 := by omega
  have hi0 : i = 0 := (Nat.mul_eq_zero.1 hi).resolve_right h.blocksPerGroup_pos.ne'
  obtain ⟨-, hclear⟩ := hfound.bits 0 (Nat.zero_le c)
  rw [hi0, hj, Nat.add_zero, h.first] at hclear
  cases hclear

theorem Blocks.Wf.newBlock (h : fs.Wf) (fuel goal : ℕ) (prealloc suser : Bool) :
    ∃ r, fs.newBlock (fuel + 1) goal prealloc suser = some r ∧ r.fs.Wf ∧
      (r = ⟨fs, 0, none⟩ ∧ (suser = true → fs.Full) ∨
        r.block ≠ 0 ∧ ∃ i j c, Found fs prealloc r i j c) := by
  unfold Blocks.newBlock
  split
  · rename_i hreserved
    refine ⟨_, rfl, h, Or.inl ⟨rfl, fun hsuser => ?_⟩⟩
    rw [hreserved.2] at hsuser
    cases hsuser
  unfold Blocks.newBlockRepeat
  have hdata := h.data
  have hgoal : ∃ g, (if goal < fs.sb.firstDataBlock ∨ fs.sb.blocksCount ≤ goal then
      fs.sb.firstDataBlock else goal) = g ∧ fs.sb.firstDataBlock ≤ g ∧ g < fs.sb.blocksCount := by
    refine ⟨_, rfl, ?_⟩
    split <;> omega
  obtain ⟨g, hg, hfirst, hlt⟩ := hgoal
  obtain ⟨hsome, hnone⟩ := h.search hfirst hlt
  dsimp only
  rw [hg]
  split
  · rename_i hsearch
    exact ⟨_, rfl, h, Or.inl ⟨rfl, fun _ => hnone hsearch⟩⟩
  · rename_i i j hsearch
    obtain ⟨hi, hj, hclear⟩ := hsome i j hsearch
    have hzone : ¬(fs.sb.checkStrict = true ∧ fs.inSystemZone i (fs.number i j) = true) := by
      rintro ⟨-, hsystem⟩
      rw [h.system i hi j hj hsystem] at hclear
      cases hclear
    rw [if_neg hzone, if_neg (by simp [hclear])]
    obtain ⟨⟨c, hfound⟩, hwf⟩ := h.gotBlock hi hj hclear prealloc
    exact ⟨_, rfl, hwf, Or.inr ⟨hfound.block_ne_zero h, i, j, c, hfound⟩⟩

theorem Found.not_full
    (hfound : Found fs prealloc r i j c) : ¬fs.Full := by
  intro hfull
  obtain ⟨hlt, hclear⟩ := hfound.bits 0 (Nat.zero_le c)
  rw [hfull i hfound.group (j + 0) hlt] at hclear
  cases hclear

theorem Blocks.Wf.not_reserved (h : fs.Wf) (hi : i < fs.sb.groupsCount)
    (hj : j < fs.sb.blocksPerGroup) (hclear : test (fs.bitmap i) j = false) :
    ¬fs.Reserved i j := by
  intro hres
  rw [h.reserved hi hj hres] at hclear
  cases hclear

theorem Found.fileRange (h : fs.Wf)
    (hfound : Found fs prealloc r i j c) (hc : c ≠ 0) : fs.FileRange (r.block + 1) c := by
  refine ⟨i, hfound.group, j + 1, ?_, ?_, Nat.pos_of_ne_zero hc, ?_⟩
  · rw [hfound.block]
    unfold Blocks.number
    omega
  · have := (hfound.bits c le_rfl).1
    omega
  · intro k hk
    obtain ⟨hlt, hclear⟩ := hfound.bits (k + 1) (by omega)
    rw [show j + 1 + k = j + (k + 1) by omega]
    exact h.not_reserved hfound.group hlt hclear

def SameLayout (fs fs' : Blocks) : Prop := fs'.sb = fs.sb ∧ fs'.group = fs.group

theorem SameLayout.trans {fs'' : Blocks} (h : SameLayout fs fs') (h' : SameLayout fs' fs'') :
    SameLayout fs fs'' :=
  ⟨h'.1.trans h.1, h'.2.trans h.2⟩

theorem Blocks.FileRange.congr {block : ℕ} (h : fs.FileRange block count)
    (hsame : SameLayout fs fs') : fs'.FileRange block count := by
  obtain ⟨hsb, hgroup⟩ := hsame
  have hnumber : fs'.number = fs.number := by
    unfold Blocks.number
    rw [hsb]
  unfold Blocks.FileRange Blocks.Reserved Blocks.inSystemZone
  rw [hnumber, hsb, hgroup]
  exact h

theorem Blocks.Wf.clearBits (h : fs.Wf) (hi : i < fs.sb.groupsCount)
    (hin : j + count ≤ fs.sb.blocksPerGroup) (hfree : ∀ k < count, ¬fs.Reserved i (j + k)) :
    (fs.clearBits i count j).Wf ∧ SameLayout fs (fs.clearBits i count j) ∧
      (fs.clearBits i count j).inode = fs.inode ∧
      ∀ i' j', test ((fs.clearBits i count j).bitmap i') j' =
        (test (fs.bitmap i') j' && decide (¬(i' = i ∧ j ≤ j' ∧ j' < j + count))) := by
  induction count generalizing fs j with
  | zero =>
    refine ⟨h, ⟨rfl, rfl⟩, rfl, fun i' j' => ?_⟩
    have hnot : ¬(i' = i ∧ j ≤ j' ∧ j' < j + 0) := by omega
    rw [decide_eq_true hnot, Bool.and_true]
    rfl
  | succ count ih =>
    have hfirst := hfree 0 (by omega)
    have hlen : j + 1 + count ≤ fs.sb.blocksPerGroup := by omega
    have hrest : ∀ k < count, ¬fs.Reserved i (j + 1 + k) := by
      intro k hk
      rw [show j + 1 + k = j + (k + 1) by omega]
      exact hfree (k + 1) (by omega)
    unfold Blocks.clearBits
    split
    · rename_i hset
      have hwf : { fs with
          bitmap := update fs.bitmap i (clear (fs.bitmap i) j)
          groupFree := update fs.groupFree i (fs.groupFree i + 1)
          free := fs.free + 1 }.Wf := by
        refine h.setGroup hi ?_ (by omega) ?_
        · rw [clears_clear (by omega), Finset.card_insert_of_notMem, h.groupFree i hi]
          intro hmem
          rw [(mem_clears.1 hmem).2] at hset
          cases hset
        · intro j' hj' hres
          have hne : j' ≠ j := by
            rintro rfl
            exact hfirst hres
          rw [test_clear, h.reserved hi hj' hres]
          simp [hne]
      obtain ⟨hwf', hsame, hinode, hbits⟩ := ih hwf hi hlen hrest
      refine ⟨hwf', hsame, hinode, fun i' j' => ?_⟩
      rw [hbits i' j']
      change (test (update fs.bitmap i (clear (fs.bitmap i) j) i') j' && _) = _
      by_cases hii : i' = i
      · subst hii
        rw [update_self, test_clear, Bool.and_assoc, ← Bool.decide_and]
        congr 1
        apply decide_eq_decide.2
        omega
      · simp [hii]
    · rename_i hset
      obtain ⟨hwf', hsame, hinode, hbits⟩ := ih h hi hlen hrest
      refine ⟨hwf', hsame, hinode, fun i' j' => ?_⟩
      rw [hbits i' j']
      by_cases hij : i' = i ∧ j' = j
      · obtain ⟨rfl, rfl⟩ := hij
        simp [hset]
      · congr 1
        apply decide_eq_decide.2
        omega

theorem number_div_mod (hj : j < fs.sb.blocksPerGroup) :
    (fs.number i j - fs.sb.firstDataBlock) / fs.sb.blocksPerGroup = i ∧
      (fs.number i j - fs.sb.firstDataBlock) % fs.sb.blocksPerGroup = j := by
  unfold Blocks.number
  rw [Nat.add_sub_cancel]
  constructor
  · rw [Nat.add_mul_div_right _ _ (Nat.zero_lt_of_lt hj), Nat.div_eq_of_lt hj, Nat.zero_add]
  · rw [Nat.add_mul_mod_self_right, Nat.mod_eq_of_lt hj]

theorem Blocks.Wf.freeBlocks (h : fs.Wf) {block : ℕ} (hrange : fs.FileRange block count) :
    ∃ fs', fs.freeBlocks block count = some fs' ∧ fs'.Wf ∧ SameLayout fs fs' ∧
      fs'.inode = fs.inode := by
  obtain ⟨i, hi, j, rfl, hin, hcount, hfree⟩ := hrange
  have hj : j < fs.sb.blocksPerGroup := by omega
  obtain ⟨hdiv, hmod⟩ := @number_div_mod fs i j hj
  -- the last block of the range lies inside the file system
  have hlast := hfree (count - 1) (by omega)
  have hinside : ¬(fs.number i j < fs.sb.firstDataBlock ∨
      fs.sb.blocksCount < fs.number i j + count) := by
    have hnot : ¬fs.sb.blocksCount ≤ fs.number i (j + (count - 1)) := fun hle => hlast (Or.inl hle)
    unfold Blocks.number at hnot ⊢
    omega
  have hnumber : ∀ k, fs.number i j + k = fs.number i (j + k) := by
    intro k
    unfold Blocks.number
    omega
  have hzone : ∀ k < count, fs.inSystemZone i (fs.number i j + k) = false := by
    intro k hk
    have hnot := hfree k hk
    rw [hnumber]
    by_contra hsystem
    exact hnot (Or.inr (Or.inl (by simpa using hsystem)))
  have hstrict : fs.freesSystemZone i (fs.number i j) count = false := by
    unfold Blocks.freesSystemZone
    unfold Blocks.inSystemZone at hzone
    simp only [Bool.or_eq_false_iff, decide_eq_false_iff_not] at hzone ⊢
    refine ⟨⟨⟨?_, ?_⟩, ?_⟩, ?_⟩
    · by_contra hbitmap
      simp only [inRange, Bool.not_eq_false, Bool.and_eq_true, decide_eq_true_eq] at hbitmap
      exact (hzone ((fs.group i).blockBitmap - fs.number i j) (by omega)).1.1 (by omega)
    · by_contra hbitmap
      simp only [inRange, Bool.not_eq_false, Bool.and_eq_true, decide_eq_true_eq] at hbitmap
      exact (hzone ((fs.group i).inodeBitmap - fs.number i j) (by omega)).1.2 (by omega)
    · simpa using (hzone 0 hcount).2
    · have hend := (hzone (count - 1) (by omega)).2
      rwa [← Nat.add_sub_assoc hcount] at hend
  obtain ⟨hwf, hsame, hinode, -⟩ := h.clearBits hi hin hfree
  refine ⟨fs.clearBits i count j, ?_, hwf, hsame, hinode⟩
  unfold Blocks.freeBlocks
  rw [if_neg hinside, hdiv, hmod, if_neg (by omega), hstrict, if_neg (by simp)]

theorem Blocks.Wf.setInode (h : fs.Wf) (ino : ℕ) (p : Prealloc) : (fs.setInode ino p).Wf :=
  ⟨h.words, h.data, h.groupFree, h.free, h.first, h.past, h.system⟩

section
variable (h : fs.Ok) (hwf : fs'.Wf) (hsame : SameLayout fs fs') (hinode : fs'.inode = fs.inode)
include h hwf hsame hinode

theorem Blocks.Ok.setInode (ino : ℕ) {p : Prealloc}
    (hp : p.count ≠ 0 → fs.FileRange p.block p.count) : (fs'.setInode ino p).Ok := by
  refine ⟨hwf.setInode ino p, ?_⟩
  intro ino' hcount
  have hlayout : SameLayout fs (fs'.setInode ino p) := hsame
  change (update fs'.inode ino p ino').count ≠ 0 at hcount
  change (fs'.setInode ino p).FileRange (update fs'.inode ino p ino').block
    (update fs'.inode ino p ino').count
  by_cases hino : ino' = ino
  · subst hino
    rw [update_self] at hcount ⊢
    exact (hp hcount).congr hlayout
  · rw [update_of_ne hino, hinode] at hcount ⊢
    exact (h.prealloc ino' hcount).congr hlayout

theorem Blocks.Ok.same : fs'.Ok := by
  refine ⟨hwf, fun ino hcount => ?_⟩
  rw [hinode] at hcount ⊢
  exact (h.prealloc ino hcount).congr hsame

end

theorem Blocks.Ok.discardPrealloc (h : fs.Ok) (ino : ℕ) :
    ∃ fs', fs.discardPrealloc ino = some fs' ∧ fs'.Ok ∧ SameLayout fs fs' := by
  unfold Blocks.discardPrealloc
  dsimp only
  split
  · rename_i hcount
    have hrange := h.prealloc ino hcount
    have hset : (fs.setInode ino { fs.inode ino with count := 0 }).Ok :=
      h.setInode h.wf ⟨rfl, rfl⟩ rfl ino fun hzero => absurd rfl hzero
    have hrange' : (fs.setInode ino { fs.inode ino with count := 0 }).FileRange
        (fs.inode ino).block (fs.inode ino).count := hrange.congr ⟨rfl, rfl⟩
    obtain ⟨fs', hfree, hwf, hsame, hinode⟩ := hset.wf.freeBlocks hrange'
    exact ⟨fs', hfree, hset.same hwf hsame hinode, hsame⟩
  · exact ⟨fs, rfl, h, rfl, rfl⟩

theorem Found.sameLayout
    (hfound : Found fs prealloc r i j c) : SameLayout fs r.fs :=
  ⟨hfound.frame.1, hfound.frame.2.1⟩

theorem Blocks.Ok.newBlock (h : fs.Ok) (fuel goal : ℕ) (prealloc suser : Bool) :
    ∃ r, fs.newBlock (fuel + 1) goal prealloc suser = some r ∧ r.fs.Ok ∧ SameLayout fs r.fs ∧
      ∀ ino, ∀ p ∈ r.prealloc, (r.fs.setInode ino p).Ok := by
  obtain ⟨r, hr, hwf, ⟨rfl, -⟩ | ⟨-, i, j, c, hfound⟩⟩ := h.wf.newBlock fuel goal prealloc suser
  · exact ⟨_, hr, h, ⟨rfl, rfl⟩, fun ino p hp => by cases hp⟩
  · refine ⟨r, hr, h.same hwf hfound.sameLayout hfound.frame.2.2, hfound.sameLayout,
      fun ino p hp => ?_⟩
    refine h.setInode hwf hfound.sameLayout hfound.frame.2.2 ino ?_
    have hreported := hfound.reported
    cases prealloc with
    | false =>
      rw [hreported] at hp
      cases hp
    | true =>
      rw [hreported, if_pos rfl] at hp
      obtain rfl := Option.some.inj hp
      exact hfound.fileRange h.wf

theorem Blocks.Ok.allocBlock (h : fs.Ok) (fuel ino goal : ℕ) (isReg suser : Bool) :
    ∃ r, fs.allocBlock (fuel + 1) ino goal isReg suser = some r ∧ r.1.Ok ∧ SameLayout fs r.1 := by
  unfold Blocks.allocBlock
  dsimp only
  split
  · rename_i hkept
    refine ⟨_, rfl, h.setInode h.wf ⟨rfl, rfl⟩ rfl ino ?_, rfl, rfl⟩
    intro hcount
    dsimp only at hcount ⊢
    obtain ⟨i, hi, j, hblock, hin, -, hfree⟩ := h.prealloc ino hkept.1
    refine ⟨i, hi, j + 1, ?_, by omega, Nat.pos_of_ne_zero hcount, ?_⟩
    · rw [hblock]
      unfold Blocks.number
      omega
    · intro k hk
      rw [show j + 1 + k = j + (k + 1) by omega]
      exact hfree (k + 1) (by omega)
  · obtain ⟨fs', hdiscard, hok, hsame⟩ := h.discardPrealloc ino
    obtain ⟨r, hr, hrok, hsame', hset⟩ := hok.newBlock fuel goal isReg suser
    rw [hdiscard]
    dsimp only
    rw [hr]
    dsimp only
    split
    · rename_i p hp
      exact ⟨_, rfl, hset ino p hp, hsame.trans hsame'⟩
    · exact ⟨_, rfl, hrok, hsame.trans hsame'⟩

def BlockCall.Ok (fs : Blocks) : BlockCall → Prop
  | .freeBlocks block count => fs.FileRange block count
  | _ => True

theorem Blocks.Ok.step (h : fs.Ok) (fuel : ℕ) {call : BlockCall} (hok : call.Ok fs) :
    ∃ fs', fs.step (fuel + 1) call = some fs' ∧ fs'.Ok ∧ SameLayout fs fs' := by
  cases call with
  | newBlock goal prealloc suser =>
    obtain ⟨r, hr, hrok, hsame, -⟩ := h.newBlock fuel goal prealloc suser
    exact ⟨r.fs, by simp only [Blocks.step, hr, Option.map_some], hrok, hsame⟩
  | freeBlocks block count =>
    obtain ⟨fs', hfree, hwf, hsame, hinode⟩ := h.wf.freeBlocks hok
    exact ⟨fs', hfree, h.same hwf hsame hinode, hsame⟩
  | allocBlock ino goal isReg suser =>
    obtain ⟨r, hr, hrok, hsame⟩ := h.allocBlock fuel ino goal isReg suser
    exact ⟨r.1, by simp only [Blocks.step, hr, Option.map_some], hrok, hsame⟩
  | discardPrealloc ino => exact h.discardPrealloc ino

theorem BlockCall.Ok.congr {call : BlockCall} (h : call.Ok fs) (hsame : SameLayout fs fs') :
    call.Ok fs' := by
  cases call with
  | freeBlocks block count => exact Blocks.FileRange.congr h hsame
  | newBlock goal prealloc suser => trivial
  | allocBlock ino goal isReg suser => trivial
  | discardPrealloc ino => trivial

theorem Blocks.Ok.run (h : fs.Ok) (fuel : ℕ) {calls : List BlockCall}
    (hok : ∀ call ∈ calls, call.Ok fs) : ∃ fs', fs.run (fuel + 1) calls = some fs' ∧ fs'.Ok := by
  induction calls generalizing fs with
  | nil => exact ⟨fs, rfl, h⟩
  | cons call calls ih =>
    obtain ⟨fs', hstep, hok', hsame⟩ := h.step fuel (hok call List.mem_cons_self)
    have hrest : ∀ call ∈ calls, call.Ok fs' :=
      fun call hcall => (hok call (List.mem_cons_of_mem _ hcall)).congr hsame
    obtain ⟨fs'', hrun, hok''⟩ := ih hok' hrest
    exact ⟨fs'', by simp only [Blocks.run, hstep, hrun], hok''⟩

/-- After every run of the allocator the counts are those of the bitmaps, and
`ext2_new_block` marks a free block with the free blocks behind it that it reports, or
changes nothing; for the super-user it fails only when all blocks are in use. -/
theorem run_blocks (h : fs.Ok) (fuel : ℕ) {calls : List BlockCall}
    (hok : ∀ call ∈ calls, call.Ok fs) :
    ∃ fs', fs.run (fuel + 1) calls = some fs' ∧
      (∀ i < fs'.sb.groupsCount,
        fs'.groupFree i = (clears (fs'.bitmap i) fs'.sb.blocksPerGroup).card) ∧
      fs'.free = ∑ i ∈ Finset.range fs'.sb.groupsCount, fs'.groupFree i ∧
      ∀ goal prealloc suser, ∃ r, fs'.newBlock (fuel + 1) goal prealloc suser = some r ∧
        (r.block ≠ 0 → ∃ i j c, Found fs' prealloc r i j c) ∧
        (r.block = 0 → r.fs = fs' ∧ r.prealloc = none) ∧
        (suser = true → (r.block = 0 ↔ fs'.Full)) := by
  obtain ⟨fs', hrun, hok'⟩ := h.run fuel hok
  refine ⟨fs', hrun, hok'.wf.groupFree, hok'.wf.free, ?_⟩
  intro goal prealloc suser
  obtain ⟨r, hr, -, ⟨rfl, hfull⟩ | ⟨hne, i, j, c, hfound⟩⟩ :=
    hok'.wf.newBlock fuel goal prealloc suser
  · refine ⟨_, hr, fun hne => absurd rfl hne, fun _ => ⟨rfl, rfl⟩, fun hsuser => ?_⟩
    exact iff_of_true rfl (hfull hsuser)
  · refine ⟨r, hr, fun _ => ⟨i, j, c, hfound⟩, fun hzero => absurd hzero hne, fun _ => ?_⟩
    exact iff_of_false hne hfound.not_full

end

def nineBlocks : Blocks where
  sb := ⟨1, 10, 0, 1, 1, true⟩
  group := fun _ => ⟨2, 3, 4⟩
  bitmap := fun _ _ => 0xfffffe0f
  groupFree := fun _ => 5
  free := 5
  inode := fun _ => ⟨0, 0⟩

theorem nineBlocks_ok : nineBlocks.Ok := by
  refine ⟨⟨by decide, by decide, ?_, by decide, by decide, ?_, ?_⟩, ?_⟩
  · decide
  · decide
  · decide
  · intro ino hcount
    exact absurd rfl hcount

theorem run_blocks_nineBlocks :
    nineBlocks.Ok ∧ ∃ fs', nineBlocks.run 1 [.newBlock 7 true true] = some fs' ∧
      (∀ i < fs'.sb.groupsCount,
        fs'.groupFree i = (clears (fs'.bitmap i) fs'.sb.blocksPerGroup).card) ∧
      fs'.free = ∑ i ∈ Finset.range fs'.sb.groupsCount, fs'.groupFree i ∧
      ∀ goal prealloc suser, ∃ r, fs'.newBlock 1 goal prealloc suser = some r ∧
        (r.block ≠ 0 → ∃ i j c, Found fs' prealloc r i j c) ∧
        (r.block = 0 → r.fs = fs' ∧ r.prealloc = none) ∧
        (suser = true → (r.block = 0 ↔ fs'.Full)) :=
  ⟨nineBlocks_ok, run_blocks nineBlocks_ok 0 (by
    intro call hcall
    rw [List.mem_singleton.1 hcall]
    trivial)⟩

end LinuxKernel.Ext2
