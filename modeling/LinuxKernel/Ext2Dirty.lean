import LinuxKernel.Ext2DirtyModel
import LinuxKernel.Ext2InodeAlloc
import LinuxKernel.Ext2BlockSearch

/-!
# The buffers that the allocators of ext2 leave dirty

A call changes the buffers of one group only, those of the super block and a block of its own.
Each is marked, but for the descriptors when a directory gets a group whose descriptor is not in the
last block of them.
-/

namespace LinuxKernel.Ext2
open Function

open BitWords

variable {fs fs' : Fs} {i j n bh2 ino parent : ℕ} {isDir : Bool} {b b' : Buffer}

namespace Fs

def Settled (fs : Fs) (b : Buffer) : Prop := fs.dirt b = true ∨ b ∈ fs.wrote

def Marked (fs fs' : Fs) : Prop := ∀ b, ¬ fs.Same fs' b → fs'.Settled b

@[simp]
theorem settled_mark (fs : Fs) (b b' : Buffer) :
    (fs.mark b).Settled b' ↔ b' = b ∨ fs.Settled b' := by
  unfold Settled mark
  by_cases h : b' = b
  · simp [h]
  · simp [h]

@[simp]
theorem settled_writeSync (fs : Fs) (sync : Bool) (b b' : Buffer) :
    (fs.writeSync sync b).Settled b' ↔ sync = true ∧ b' = b ∨ fs.Settled b' := by
  unfold Settled writeSync
  cases sync with
  | false => simp
  | true =>
    by_cases h : b' = b
    · simp [h]
    · simp [h]

end Fs

section

variable {is : Inodes}

theorem dirLooked_fst (is : Inodes) (ave n j : ℕ) (gdp : Option ℕ) (bh2 : ℕ) :
    (is.dirLooked ave n j gdp bh2).1 = is.dirGroup ave n j gdp := by
  induction n generalizing j gdp bh2 with
  | zero => rfl
  | succ n ih => exact ih _ _ _

theorem dirLooked_snd (is : Inodes) (ave n j : ℕ) (gdp : Option ℕ) (bh2 : ℕ) :
    (is.dirLooked ave (n + 1) j gdp bh2).2 = j + n := by
  induction n generalizing j gdp bh2 with
  | zero => rfl
  | succ n ih =>
    rw [Inodes.dirLooked, ih]
    omega

theorem hashLooked_snd {k : ℕ} (h : (is.hashLooked n j i bh2).1 = some k) :
    (is.hashLooked n j i bh2).2 = k := by
  induction n generalizing j i bh2 with
  | zero => exact absurd h (by simp [Inodes.hashLooked])
  | succ n ih =>
    rw [Inodes.hashLooked] at h ⊢
    by_cases hj : j < is.groupsCount
    · dsimp only at h ⊢
      generalize (if is.groupsCount ≤ i + j then i + j - is.groupsCount else i + j) = next
        at h ⊢
      split_ifs at h ⊢
      · exact Option.some.inj h
      · exact ih h
    · rw [if_neg hj] at h
      exact absurd h (by simp)

theorem linearLooked_snd {k : ℕ} (h : (is.linearLooked n i bh2).1 = some k) :
    (is.linearLooked n i bh2).2 = k := by
  induction n generalizing i bh2 with
  | zero => exact absurd h (by simp [Inodes.linearLooked])
  | succ n ih =>
    rw [Inodes.linearLooked] at h ⊢
    split_ifs at h ⊢
    · exact Option.some.inj h
    · exact ih h
    · exact Option.some.inj h
    · exact ih h

theorem fileLooked_snd (h : (is.fileLooked parent).1 = some i) : (is.fileLooked parent).2 = i := by
  unfold Inodes.fileLooked at h ⊢
  split_ifs at h ⊢ with hfree
  · exact Option.some.inj h
  · have hhash (hfst : (is.hashLooked is.groupsCount 1 parent parent).1 = some i) :
        (is.hashLooked is.groupsCount 1 parent parent).2 = i := hashLooked_snd hfst
    rcases hr : is.hashLooked is.groupsCount 1 parent parent with ⟨o, last⟩
    rw [hr] at h hhash
    cases o with
    | some k => exact hhash h
    | none => exact linearLooked_snd h

end

section

variable {bs : Blocks}

theorem nextLooked_snd {k : ℕ} (h : (bs.nextLooked n i bh2).1 = some k) :
    (bs.nextLooked n i bh2).2 = k := by
  induction n generalizing i bh2 with
  | zero => exact absurd h (by simp [Blocks.nextLooked])
  | succ n ih =>
    rw [Blocks.nextLooked] at h ⊢
    split_ifs at h ⊢
    · exact Option.some.inj h
    · exact ih h
    · exact Option.some.inj h
    · exact ih h

theorem searchLooked_snd {goal : ℕ} (h : bs.searchLooked goal = some (i, j, bh2)) : bh2 = i := by
  unfold Blocks.searchLooked at h
  dsimp only at h
  split at h
  · simp only [Option.some.injEq, Prod.mk.injEq] at h
    omega
  · split at h
    · exact absurd h (by simp)
    · rename_i k last hnext
      have hlast := nextLooked_snd (congrArg Prod.fst hnext)
      rw [hnext] at hlast
      obtain ⟨j', -, heq⟩ := Option.map_eq_some_iff.mp h
      simp only [Prod.mk.injEq] at heq
      omega

end

namespace Inodes

def Fit (is : Inodes) (ave i : ℕ) : Prop :=
  (is.group i).freeInodes ≠ 0 ∧ ave ≤ (is.group i).freeInodes

/-- Of the groups below `n` that fit, `i` is the first with the most free blocks. -/
structure Best (is : Inodes) (ave n i : ℕ) : Prop where
  lt : i < n
  fit : is.Fit ave i
  most : ∀ k < n, is.Fit ave k → (is.group k).freeBlocks ≤ (is.group i).freeBlocks
  first : ∀ k < i, is.Fit ave k → (is.group k).freeBlocks < (is.group i).freeBlocks

variable {is : Inodes} {ave : ℕ}

theorem Best.unique {i i' : ℕ} (h : is.Best ave n i) (h' : is.Best ave n i') : i = i' := by
  rcases Nat.lt_trichotomy i i' with hlt | heq | hlt
  · have := h'.first i hlt h.fit
    have := h.most i' h'.lt h'.fit
    omega
  · exact heq
  · have := h.first i' hlt h'.fit
    have := h'.most i h.lt h.fit
    omega

theorem Best.succ {i : ℕ} (h : is.Best ave j i)
    (hj : is.Fit ave j → (is.group j).freeBlocks ≤ (is.group i).freeBlocks) :
    is.Best ave (j + 1) i where
  lt := Nat.lt_succ_of_lt h.lt
  fit := h.fit
  most := by
    intro k hk hfit
    rcases Nat.lt_succ_iff_lt_or_eq.mp hk with hlt | rfl
    · exact h.most k hlt hfit
    · exact hj hfit
  first := h.first

theorem dirGroup_best {gdp : Option ℕ} (hsome : ∀ k, gdp = some k → is.Best ave j k)
    (hnone : gdp = none → ∀ k < j, ¬ is.Fit ave k) (h : is.dirGroup ave n j gdp = some i) :
    is.Best ave (j + n) i := by
  induction n generalizing j gdp with
  | zero => exact hsome i h
  | succ n ih =>
    rw [show j + (n + 1) = j + 1 + n by omega]
    refine ih ?_ ?_ h
    · intro k hk
      split_ifs at hk with htake
      · obtain rfl := Option.some.inj hk
        obtain ⟨hfree, have', hbetter⟩ := htake
        refine ⟨Nat.lt_succ_self j, ⟨hfree, have'⟩, ?_, ?_⟩
        · intro m hm hfit
          cases gdp with
          | none =>
            rcases Nat.lt_succ_iff_lt_or_eq.mp hm with hlt | rfl
            · exact absurd hfit (hnone rfl m hlt)
            · exact le_rfl
          | some g =>
            rcases Nat.lt_succ_iff_lt_or_eq.mp hm with hlt | rfl
            · have := (hsome g rfl).most m hlt hfit
              simp only [better, decide_eq_true_eq] at hbetter
              omega
            · exact le_rfl
        · intro m hm hfit
          cases gdp with
          | none => exact absurd hfit (hnone rfl m hm)
          | some g =>
            have := (hsome g rfl).most m hm hfit
            simp only [better, decide_eq_true_eq] at hbetter
            omega
      · refine (hsome k hk).succ fun hfit => ?_
        by_contra hlt
        rw [hk] at htake
        exact htake ⟨hfit.1, hfit.2, by simp only [better, decide_eq_true_eq]; omega⟩
    · intro hk
      split_ifs at hk with htake
      intro m hm hfit
      rcases Nat.lt_succ_iff_lt_or_eq.mp hm with hlt | rfl
      · exact hnone hk m hlt hfit
      · rw [hk] at htake
        exact htake ⟨hfit.1, hfit.2, rfl⟩

theorem chooseLooked_dir (h : is.chooseLooked parent true = (some i, bh2)) :
    is.Best (is.freeInodes / is.groupsCount) is.groupsCount i ∧ bh2 = is.groupsCount - 1 := by
  have hchoose : is.dirLooked (is.freeInodes / is.groupsCount) is.groupsCount 0 none 0 =
    (some i, bh2) := h
  have hfst := congrArg Prod.fst hchoose
  rw [dirLooked_fst] at hfst
  have hbest := dirGroup_best (j := 0) (by simp) (by simp) hfst
  rw [Nat.zero_add] at hbest
  refine ⟨hbest, ?_⟩
  obtain ⟨m, hm⟩ := Nat.exists_eq_succ_of_ne_zero (Nat.ne_of_gt (Nat.zero_lt_of_lt hbest.lt))
  have hsnd := congrArg Prod.snd hchoose
  rw [hm, dirLooked_snd] at hsnd
  omega

end Inodes

/-! ## Inodes -/

namespace Fs

def tookInode (fs : Fs) (i j bh2 : ℕ) (isDir : Bool) : Fs :=
  (fs.setInodeBit i j).countInode i bh2 (j + i * fs.inodesPerGroup + 1) isDir

theorem newInode_eq {fuel : ℕ} (h : fs.newInode parent isDir fuel = some (fs', ino))
    (hino : ino ≠ 0) :
    ∃ i j bh2, fs.inodes.chooseLooked parent isDir = (some i, bh2) ∧
      fs' = fs.tookInode i j bh2 isDir := by
  induction fuel with
  | zero => exact absurd h (by simp [newInode])
  | succ fuel ih =>
    rw [newInode] at h
    split at h
    · simp only [Option.some.injEq, Prod.mk.injEq] at h
      exact absurd h.2.symm hino
    · rename_i i bh2 hchoose
      dsimp only at h
      split_ifs at h with hin htest hbad hfree
      · exact ih h
      · simp only [Option.some.injEq, Prod.mk.injEq] at h
        exact absurd h.2.symm hino
      · simp only [Option.some.injEq, Prod.mk.injEq] at h
        exact ⟨i, findFirstZeroBit (fs.inodeBitmap i) fs.inodesPerGroup, bh2, hchoose, h.1.symm⟩
      · simp only [Option.some.injEq, Prod.mk.injEq] at h
        exact absurd h.2.symm hino
      · exact ih h

theorem tookInode_settled (fs : Fs) (i j bh2 : ℕ) (isDir : Bool) (b : Buffer) :
    (fs.tookInode i j bh2 isDir).Settled b ↔
      b = fs.tableOf (j + i * fs.inodesPerGroup + 1) ∨ b = .superBlock ∨ b = fs.descOf bh2 ∨
        b = .inodeBitmap i ∨ fs.Settled b := by
  have hset : (fs.setInodeBit i j).Settled b ↔ b = .inodeBitmap i ∨ fs.Settled b := by
    unfold setInodeBit
    rw [settled_writeSync, settled_mark]
    constructor
    · rintro (⟨-, hb⟩ | hb)
      · exact .inl hb
      · exact hb
    · exact .inr
  unfold tookInode countInode incInodeVersion
  rw [settled_mark]
  exact or_congr Iff.rfl ((settled_mark _ _ _).trans (or_congr Iff.rfl
    ((settled_mark _ _ _).trans (or_congr Iff.rfl hset))))

theorem tookInode_same (fs : Fs) (i j bh2 : ℕ) (isDir : Bool) (b : Buffer)
    (h1 : b ≠ fs.tableOf (j + i * fs.inodesPerGroup + 1)) (h2 : b ≠ .superBlock)
    (h3 : b ≠ fs.descOf i) (h4 : b ≠ .inodeBitmap i) :
    fs.Same (fs.tookInode i j bh2 isDir) b := by
  cases b with
  | blockBitmap k => rfl
  | inodeBitmap k =>
    have hk : k ≠ i := fun heq => h4 (by rw [heq])
    exact update_of_ne hk _ _
  | groupDesc k =>
    intro g hg
    have hne : g ≠ i := by
      rintro rfl
      exact h3 (by rw [descOf, hg])
    refine ⟨rfl, update_of_ne hne _ _, ?_⟩
    cases isDir with
    | true => exact update_of_ne hne _ _
    | false => rfl
  | superBlock => exact absurd rfl h2
  | inodeTable g k =>
    intro m hm
    have hne : m ≠ j + i * fs.inodesPerGroup + 1 := by
      rintro rfl
      exact h1 hm.symm
    exact update_of_ne hne _ _
  | block k => rfl

theorem tookInode_marked (j : ℕ) (isDir : Bool)
    (hdesc : fs.descOf i = fs.descOf bh2 ∨ fs.Settled (fs.descOf i)) :
    fs.Marked (fs.tookInode i j bh2 isDir) := by
  intro b hsame
  rw [tookInode_settled]
  by_contra hclean
  push Not at hclean
  obtain ⟨h1, h2, h3, h4, h5⟩ := hclean
  refine hsame (tookInode_same fs i j bh2 isDir b h1 h2 ?_ h4)
  rintro rfl
  rcases hdesc with hdesc | hdesc
  · exact h3 hdesc
  · exact h5 hdesc

theorem tookInode_marked_iff (j : ℕ) (isDir : Bool) (hfree : fs.groupFreeInodes i ≠ 0) :
    fs.Marked (fs.tookInode i j bh2 isDir) ↔
      fs.descOf i = fs.descOf bh2 ∨ fs.Settled (fs.descOf i) := by
  constructor
  · intro h
    have hdesc := h (fs.descOf i) (by
      intro hsame
      have hcount : update fs.groupFreeInodes i (fs.groupFreeInodes i - 1) i =
          fs.groupFreeInodes i := (hsame i rfl).2.1
      rw [update_self] at hcount
      omega)
    rw [tookInode_settled] at hdesc
    simpa [tableOf, descOf] using hdesc
  · exact tookInode_marked j isDir

def freedInode (fs : Fs) (i ino : ℕ) (isDir isSync : Bool) (now : ℕ) : Fs :=
  ((fs.uncountInode i ino isDir isSync now).mark (.inodeBitmap i)).writeSync fs.sync
    (.inodeBitmap i)

theorem freedInode_settled (fs : Fs) (i ino : ℕ) (isDir isSync : Bool) (now : ℕ) (b : Buffer)
    (h : b = .inodeBitmap i ∨ b = fs.tableOf ino ∨ b = .superBlock ∨ b = fs.descOf i) :
    (fs.freedInode i ino isDir isSync now).Settled b := by
  have hcount : (fs.uncountInode i ino isDir isSync now).Settled b ↔
      isSync = true ∧ b = fs.tableOf ino ∨ b = fs.tableOf ino ∨ b = .superBlock ∨
        b = fs.descOf i ∨ fs.Settled b := by
    unfold uncountInode setInodeDtime
    rw [settled_writeSync, settled_mark]
    exact or_congr Iff.rfl (or_congr Iff.rfl ((settled_mark _ _ _).trans (or_congr Iff.rfl
      (settled_mark _ _ _))))
  unfold freedInode
  rw [settled_writeSync, settled_mark, hcount]
  rcases h with h | h | h | h
  · exact .inr (.inl h)
  · exact .inr (.inr (.inr (.inl h)))
  · exact .inr (.inr (.inr (.inr (.inl h))))
  · exact .inr (.inr (.inr (.inr (.inr (.inl h)))))

theorem freedInode_same (fs : Fs) (i ino : ℕ) (isDir isSync : Bool) (now : ℕ) (b : Buffer)
    (h1 : b ≠ fs.tableOf ino) (h2 : b ≠ .superBlock) (h3 : b ≠ fs.descOf i)
    (h4 : b ≠ .inodeBitmap i) : fs.Same (fs.freedInode i ino isDir isSync now) b := by
  cases b with
  | blockBitmap k => rfl
  | inodeBitmap k =>
    have hk : k ≠ i := fun heq => h4 (by rw [heq])
    exact update_of_ne hk _ _
  | groupDesc k =>
    intro g hg
    have hne : g ≠ i := by
      rintro rfl
      exact h3 (by rw [descOf, hg])
    refine ⟨rfl, update_of_ne hne _ _, ?_⟩
    cases isDir with
    | true => exact update_of_ne hne _ _
    | false => rfl
  | superBlock => exact absurd rfl h2
  | inodeTable g k =>
    intro m hm
    have hne : m ≠ ino := by
      rintro rfl
      exact h1 hm.symm
    exact update_of_ne hne _ _
  | block k => rfl

theorem freeInode_marked {isSync : Bool} {now : ℕ}
    (h : fs.freeInode ino isDir isSync now = some fs') : fs.Marked fs' := by
  unfold freeInode at h
  dsimp only at h
  generalize (ino - 1) / fs.inodesPerGroup = i at h
  split_ifs at h with hbad hbit
  · obtain rfl := Option.some.inj h
    intro b hsame
    by_contra hnot
    have hclean := mt (freedInode_settled fs i ino isDir isSync now b) hnot
    push Not at hclean
    obtain ⟨h1, h2, h3, h4⟩ := hclean
    exact hsame (freedInode_same fs i ino isDir isSync now b h2 h3 h4 h1)
  · obtain rfl := Option.some.inj h
    refine fun b hsame => absurd ?_ hsame
    cases b with
    | groupDesc k => exact fun g _ => ⟨rfl, rfl, rfl⟩
    | superBlock => exact ⟨rfl, rfl⟩
    | inodeTable g k => exact fun m _ => rfl
    | blockBitmap k => rfl
    | inodeBitmap k => rfl
    | block k => rfl

/-! ## Blocks -/

def OnlyGroup (bs bs' : Blocks) (i : ℕ) : Prop :=
  ∀ k ≠ i, bs'.bitmap k = bs.bitmap k ∧ bs'.groupFree k = bs.groupFree k

theorem gotBlock_onlyGroup (bs : Blocks) (i j : ℕ) (prealloc : Bool) :
    OnlyGroup bs (bs.gotBlock i j prealloc).fs i := by
  intro k hk
  unfold Blocks.gotBlock
  dsimp only
  generalize bs.number i j = number
  by_cases hlast : bs.sb.blocksCount ≤ number
  · rw [if_pos hlast]
    exact ⟨update_of_ne hk _ _, update_of_ne hk _ _⟩
  · rw [if_neg hlast]
    refine ⟨update_of_ne hk _ _, ?_⟩
    exact (update_of_ne hk _ _).trans (update_of_ne hk _ _)

theorem clearBits_onlyGroup (bs : Blocks) (i count bit : ℕ) :
    OnlyGroup bs (bs.clearBits i count bit) i := by
  induction count generalizing bs bit with
  | zero => exact fun k _ => ⟨rfl, rfl⟩
  | succ count ih =>
    intro k hk
    rw [Blocks.clearBits]
    split_ifs
    · refine ⟨((ih _ _) k hk).1.trans (update_of_ne hk _ _), ?_⟩
      exact ((ih _ _) k hk).2.trans (update_of_ne hk _ _)
    · exact ih bs (bit + 1) k hk

theorem marked_of_onlyGroup {bs : Blocks} (honly : OnlyGroup fs.blocks bs i)
    (hblocks : fs'.blocks = bs)
    (hinodes : fs'.inodeBitmap = fs.inodeBitmap ∧ fs'.groupFreeInodes = fs.groupFreeInodes ∧
      fs'.usedDirs = fs.usedDirs ∧ fs'.freeInodes = fs.freeInodes ∧ fs'.raw = fs.raw)
    (hdata : ∀ n, fs'.data n ≠ fs.data n → fs'.Settled (.block n))
    (hbitmap : fs'.Settled (.blockBitmap i)) (hdesc : fs'.Settled (fs.descOf i))
    (hsuper : fs'.Settled .superBlock) : fs.Marked fs' := by
  obtain ⟨h1, h2, h3, h4, h5⟩ := hinodes
  intro b hsame
  cases b with
  | blockBitmap k =>
    by_cases hk : k = i
    · rw [hk]
      exact hbitmap
    · exact absurd (show fs'.blocks.bitmap k = _ by rw [hblocks, (honly k hk).1]) hsame
  | inodeBitmap k => exact absurd (congrFun h1 k) hsame
  | groupDesc k =>
    by_cases hk : fs.descOf i = .groupDesc k
    · rw [← hk]
      exact hdesc
    · refine absurd (fun g hg => ?_) hsame
      have hne : g ≠ i := by
        rintro rfl
        exact hk (by rw [descOf, hg])
      exact ⟨by rw [hblocks, (honly g hne).2], congrFun h2 g, congrFun h3 g⟩
  | superBlock => exact hsuper
  | inodeTable g k => exact absurd (fun m _ => congrFun h5 m) hsame
  | block n => exact hdata n hsame

def tookBlock (fs : Fs) (i j : ℕ) (prealloc : Bool) : Fs :=
  (fs.setBlockBits (fs.blocks.gotBlock i j prealloc) i).countBlock i
    (fs.blocks.gotBlock i j prealloc).block

theorem newBlock_eq {fuel goal block : ℕ} {prealloc suser : Bool}
    (h : fs.newBlock fuel goal prealloc suser = some (fs', block)) (hblock : block ≠ 0) :
    ∃ i j, fs' = fs.tookBlock i j prealloc := by
  unfold newBlock at h
  split_ifs at h with hfull
  · simp only [Option.some.injEq, Prod.mk.injEq] at h
    exact absurd h.2.symm hblock
  induction fuel generalizing goal with
  | zero => exact absurd h (by simp [newBlockRepeat])
  | succ fuel ih =>
    rw [newBlockRepeat] at h
    dsimp only at h
    generalize (if goal < fs.blocks.sb.firstDataBlock ∨ fs.blocks.sb.blocksCount ≤ goal then
      fs.blocks.sb.firstDataBlock else goal) = goal' at h
    split at h
    · simp only [Option.some.injEq, Prod.mk.injEq] at h
      exact absurd h.2.symm hblock
    · rename_i i j bh2 hsearch
      obtain rfl := searchLooked_snd hsearch
      split_ifs at h with hzone htest hzero
      · exact ih h
      · simp only [Option.some.injEq, Prod.mk.injEq] at h
        exact absurd h.2.symm hblock
      · simp only [Option.some.injEq, Prod.mk.injEq] at h
        exact ⟨bh2, j, h.1.symm⟩

theorem tookBlock_settled (fs : Fs) (i j : ℕ) (prealloc : Bool) (b : Buffer) :
    (fs.tookBlock i j prealloc).Settled b ↔
      b = .superBlock ∨ b = fs.descOf i ∨ b = .block (fs.blocks.gotBlock i j prealloc).block ∨
        b = .blockBitmap i ∨ fs.Settled b := by
  have hbits : (fs.setBlockBits (fs.blocks.gotBlock i j prealloc) i).Settled b ↔
      b = .blockBitmap i ∨ fs.Settled b := by
    unfold setBlockBits
    rw [settled_writeSync, settled_mark]
    constructor
    · rintro (⟨-, hb⟩ | hb)
      · exact .inl hb
      · exact hb
    · exact .inr
  unfold tookBlock countBlock
  rw [settled_mark, settled_mark]
  exact or_congr Iff.rfl (or_congr Iff.rfl ((settled_mark _ _ _).trans (or_congr Iff.rfl hbits)))

theorem tookBlock_marked (fs : Fs) (i j : ℕ) (prealloc : Bool) :
    fs.Marked (fs.tookBlock i j prealloc) := by
  refine marked_of_onlyGroup (gotBlock_onlyGroup fs.blocks i j prealloc) rfl
    ⟨rfl, rfl, rfl, rfl, rfl⟩ ?_ ?_ ?_ ?_
  · intro n hn
    have heq : n = (fs.blocks.gotBlock i j prealloc).block := by
      by_contra hne
      exact hn (update_of_ne hne _ _)
    rw [tookBlock_settled, heq]
    exact .inr (.inr (.inl rfl))
  · rw [tookBlock_settled]
    exact .inr (.inr (.inr (.inl rfl)))
  · rw [tookBlock_settled]
    exact .inr (.inl rfl)
  · exact .inl rfl

theorem freeBlocks_marked {block count : ℕ} (h : fs.freeBlocks block count = some fs') :
    fs.Marked fs' := by
  unfold freeBlocks at h
  dsimp only at h
  split_ifs at h with hzone
  obtain ⟨bs, hfree, rfl⟩ := Option.map_eq_some_iff.mp h
  unfold Blocks.freeBlocks at hfree
  dsimp only at hfree
  generalize (block - fs.blocks.sb.firstDataBlock) / fs.blocks.sb.blocksPerGroup = i at hfree ⊢
  split_ifs at hfree
  obtain rfl := Option.some.inj hfree
  refine marked_of_onlyGroup (clearBits_onlyGroup fs.blocks i count _) rfl
    ⟨rfl, rfl, rfl, rfl, rfl⟩ (fun n hn => absurd rfl hn) ?_ ?_ ?_
  · rw [settled_writeSync, settled_mark]
    exact .inr (.inl rfl)
  · rw [settled_writeSync, settled_mark, settled_mark, settled_mark]
    exact .inr (.inr (.inr (.inl rfl)))
  · rw [settled_writeSync, settled_mark, settled_mark]
    exact .inr (.inr (.inl rfl))

/-! ## The calls -/

/-- A new directory gets a group whose descriptor is in the block of the last descriptor, or in one
that is dirty already. -/
def DescLooked (fs : Fs) : MetadataCall → Prop
  | .newInode _ true => ∀ i, fs.inodes.Best (fs.freeInodes / fs.blocks.sb.groupsCount)
      fs.blocks.sb.groupsCount i →
    i / fs.descPerBlock = (fs.blocks.sb.groupsCount - 1) / fs.descPerBlock ∨
      fs.dirt (fs.descOf i) = true
  | _ => True

def Async (fs : Fs) : MetadataCall → Prop
  | .freeInode _ _ isSync _ => fs.sync = false ∧ isSync = false
  | _ => fs.sync = false

theorem wrote_freeInode {isSync : Bool} {now : ℕ}
    (h : fs.freeInode ino isDir isSync now = some fs') (hsync : fs.sync = false)
    (hisSync : isSync = false) : fs'.wrote = fs.wrote := by
  unfold freeInode at h
  dsimp only at h
  rw [hsync, hisSync] at h
  split_ifs at h
  · obtain rfl := Option.some.inj h
    rfl
  · obtain rfl := Option.some.inj h
    rfl

theorem wrote_tookInode (hsync : fs.sync = false) :
    (fs.tookInode i j bh2 isDir).wrote = fs.wrote := by
  unfold tookInode setInodeBit
  rw [hsync]
  rfl

theorem wrote_tookBlock {prealloc : Bool} (hsync : fs.sync = false) :
    (fs.tookBlock i j prealloc).wrote = fs.wrote := by
  unfold tookBlock setBlockBits
  rw [hsync]
  rfl

theorem wrote_freeBlocks {block count : ℕ} (h : fs.freeBlocks block count = some fs')
    (hsync : fs.sync = false) : fs'.wrote = fs.wrote := by
  unfold freeBlocks at h
  dsimp only at h
  split_ifs at h with hzone
  obtain ⟨bs, -, rfl⟩ := Option.map_eq_some_iff.mp h
  rw [hsync]
  rfl

/-- A call that returns successfully leaves each buffer that it has changed dirty or written, if and
only if the descriptor of a new directory is in the block of the last one or dirty already; without
`MS_SYNC` it writes none. -/
theorem call_marked_iff {fuel : ℕ} {c : MetadataCall} (h : fs.call fuel c = some fs') :
    (fs.Marked fs' ↔ fs.DescLooked c) ∧ (fs.Async c → fs'.wrote = []) := by
  unfold call at h
  generalize hfs0 : { fs with wrote := [] } = fs0 at h
  have hsync : fs0.sync = fs.sync := by rw [← hfs0]
  have hwrote : fs0.wrote = [] := by rw [← hfs0]
  have hmarked : fs.Marked fs' ↔ fs0.Marked fs' := by
    subst hfs0
    exact Iff.rfl
  rw [hmarked, ← hwrote]
  cases c with
  | newInode parent isDir =>
    obtain ⟨⟨fs1, ino⟩, hnew, hr⟩ := Option.bind_eq_some_iff.mp h
    split_ifs at hr with hino
    obtain rfl := Option.some.inj hr
    obtain ⟨i, j, bh2, hchoose, rfl⟩ := newInode_eq hnew hino
    refine ⟨?_, fun hasync => wrote_tookInode (hsync.trans hasync)⟩
    cases isDir with
    | false =>
      have hlast := fileLooked_snd (congrArg Prod.fst hchoose)
      have hbh2 : bh2 = i := (congrArg Prod.snd hchoose).symm.trans hlast
      refine iff_of_true (tookInode_marked j false ?_) trivial
      rw [hbh2]
      exact .inl rfl
    | true =>
      obtain ⟨hbest, rfl⟩ := Inodes.chooseLooked_dir hchoose
      rw [tookInode_marked_iff j true hbest.fit.1]
      have hclean : fs0.Settled (fs0.descOf i) ↔ fs0.dirt (fs0.descOf i) = true := by
        unfold Settled
        rw [hwrote]
        simp
      rw [hclean]
      subst hfs0
      constructor
      · intro hdesc i' hbest'
        obtain rfl := hbest.unique hbest'
        exact hdesc.imp_left Buffer.groupDesc.inj
      · intro hdesc
        exact (hdesc i hbest).imp_left (congrArg Buffer.groupDesc)
  | freeInode ino isDir isSync now =>
    exact ⟨iff_of_true (freeInode_marked h) trivial,
      fun hasync => wrote_freeInode h (hsync.trans hasync.1) hasync.2⟩
  | newBlock goal prealloc suser =>
    obtain ⟨⟨fs1, block⟩, hnew, hr⟩ := Option.bind_eq_some_iff.mp h
    split_ifs at hr with hblock
    obtain rfl := Option.some.inj hr
    obtain ⟨i, j, rfl⟩ := newBlock_eq hnew hblock
    exact ⟨iff_of_true (tookBlock_marked fs0 i j prealloc) trivial,
      fun hasync => wrote_tookBlock (hsync.trans hasync)⟩
  | freeBlocks block count =>
    exact ⟨iff_of_true (freeBlocks_marked h) trivial,
      fun hasync => wrote_freeBlocks h (hsync.trans hasync)⟩

end Fs

def twoGroups : Fs where
  blocks :=
    { sb := ⟨1, 65, 0, 1, 2, false⟩
      group := fun i => ⟨3 + 32 * i, 4 + 32 * i, 5 + 32 * i⟩
      bitmap := fun i => if i = 0 then fun _ => 0x3f#32 else fun _ => 0x3f_ffff#32
      groupFree := fun i => if i = 0 then 26 else 10
      free := 36
      inode := fun _ => ⟨0, 0⟩ }
  inodesPerGroup := 32
  inodesPerBlock := 8
  inodesCount := 64
  descPerBlock := 1
  inodeBitmap := fun i => if i = 0 then fun _ => 0x7ff#32 else fun _ => 0xf_ffff#32
  groupFreeInodes := fun i => if i = 0 then 21 else 12
  usedDirs := fun i => if i = 0 then 2 else 0
  freeInodes := 33
  raw := fun _ => ⟨0, 0, 0⟩
  data := fun _ _ => 0
  dirt := fun _ => false
  wrote := []
  sync := false

theorem call_twoGroups :
    twoGroups.call 1 (.newInode 0 true) = some (twoGroups.tookInode 0 11 1 true) := by
  have hbit : findFirstZeroBit (twoGroups.inodeBitmap 0) 32 = 11 := by decide +kernel
  have hnew : twoGroups.newInode 0 true 1 = some (twoGroups.tookInode 0 11 1 true, 12) := by
    have hchoose : twoGroups.inodes.chooseLooked 0 true = (some 0, 1) := by decide
    rw [Fs.newInode, hchoose]
    dsimp only
    rw [show twoGroups.inodesPerGroup = 32 from rfl, hbit]
    rfl
  unfold Fs.call
  change (twoGroups.newInode 0 true 1).bind _ = _
  rw [hnew]
  rfl

theorem call_marked_iff_twoGroups :
    twoGroups.call 1 (.newInode 0 true) = some (twoGroups.tookInode 0 11 1 true) ∧
      (twoGroups.Marked (twoGroups.tookInode 0 11 1 true) ↔
        twoGroups.DescLooked (.newInode 0 true)) :=
  ⟨call_twoGroups, (Fs.call_marked_iff call_twoGroups).1⟩

/-- A directory in the first group leaves the counts of the group in a buffer that is clean. -/
theorem mkdir_clean_desc :
    ¬ ∀ (fs fs' : Fs) (fuel : ℕ) (c : MetadataCall), fs.call fuel c = some fs' →
      ∀ b, ¬ fs.Same fs' b → fs'.dirt b = true := by
  intro h
  have hdirt := h twoGroups (twoGroups.tookInode 0 11 1 true) 1 (.newInode 0 true)
    call_twoGroups (.groupDesc 0) (fun hsame => absurd (hsame 0 rfl).2.1 (by decide))
  exact absurd hdirt (by decide)

end LinuxKernel.Ext2
