import LinuxKernel.Ext2Getblk
import LinuxKernel.Ext2Truncate

/-!
# What is left of a file behind `ext2_truncate`

The cut of the whole tree, told by the blocks of the file.
-/

namespace LinuxKernel.Ext2Tree
open List

variable {a k D : ℕ} {t t' : Tree} {q r : List ℕ} {i j n : ℕ} {g : ℕ → ℕ}

/-! ## The blocks of a file -/

theorem div_mul_add {x y m : ℕ} (hy : y < m) : (x * m + y) / m = x ∧ (x * m + y) % m = y := by
  constructor
  · rw [Nat.mul_comm, Nat.mul_add_div (Nat.zero_lt_of_lt hy), Nat.div_eq_of_lt hy, Nat.add_zero]
  · rw [Nat.mul_comm, Nat.mul_add_mod, Nat.mod_eq_of_lt hy]

theorem parts_lt {x y : ℕ} (hx : x < a) (hy : y < a) : x * a + y < a * a := by
  have : (x + 1) * a ≤ a * a := Nat.mul_le_mul_right a hx
  rw [Nat.add_mul, Nat.one_mul] at this
  omega

theorem getblkPath_first (hk : a = 2 ^ k) (h : IsLeaf a r) :
    Tree.BmapAccepts a (first a r) ∧ getblkPath a (first a r) = r := by
  suffices hnat : first a r < Tree.maxBlock a ∧ getblkPath a (first a r) = r by
    refine ⟨⟨by omega, ?_⟩, hnat.2⟩
    exact_mod_cast not_le.mpr hnat.1
  cases r with
  | nil => exact absurd h id
  | cons i js =>
    obtain ⟨hi, hlen, hjs⟩ := h
    unfold getblkPath Tree.maxBlock
    simp only [Int.toNat_natCast, and_mask hk]
    change i ≤ 14 at hi
    unfold levels at hlen
    have hcases : i < 12 ∨ i = 12 ∨ i = 13 ∨ i = 14 := by omega
    rcases hcases with hlt | rfl | rfl | rfl
    · obtain rfl : js = [] := length_eq_zero_iff.mp (by omega)
      have hfirst : first a [i] = i := if_pos hlt.le
      rw [hfirst, if_pos (show i < ndirBlocks from hlt)]
      refine ⟨?_, rfl⟩
      unfold ndirBlocks
      omega
    · obtain ⟨j, rfl⟩ := length_eq_one_iff.mp hlen
      have hj := hjs j (by simp)
      have hfirst : first a [12, j] = ndirBlocks + j := by
        change 12 + j * a ^ 0 = 12 + j
        rw [pow_zero, Nat.mul_one]
      rw [hfirst, if_neg (by omega), Nat.add_sub_cancel_left, if_pos hj]
      exact ⟨by omega, rfl⟩
    · obtain ⟨j, l, rfl⟩ := length_eq_two.mp hlen
      have hj := hjs j (by simp)
      have hl := hjs l (by simp)
      have hfirst : first a [13, j, l] = ndirBlocks + a + (j * a + l) := by
        change ndirBlocks + a + j * a ^ 1 + l * a ^ 0 = _
        ring
      have hlt := parts_lt hj hl
      obtain ⟨hdiv, hmod⟩ := div_mul_add (x := j) hl
      rw [hfirst, if_neg (by omega), if_neg (by omega),
        show ndirBlocks + a + (j * a + l) - ndirBlocks - a = j * a + l by omega, if_pos hlt,
        hdiv, hmod]
      exact ⟨by omega, rfl⟩
    · obtain ⟨j, l, m, rfl⟩ := length_eq_three.mp hlen
      have hj := hjs j (by simp)
      have hl := hjs l (by simp)
      have hm := hjs m (by simp)
      have hfirst : first a [14, j, l, m] =
          ndirBlocks + a + a * a + (j * (a * a) + (l * a + m)) := by
        change ndirBlocks + a + a * a + j * a ^ 2 + l * a ^ 1 + m * a ^ 0 = _
        ring
      have hlow := parts_lt hl hm
      have hlt : j * (a * a) + (l * a + m) < a * a * a := by
        have : (j + 1) * (a * a) ≤ a * (a * a) := Nat.mul_le_mul_right _ hj
        rw [Nat.add_mul, Nat.one_mul, ← Nat.mul_assoc a a a] at this
        omega
      have hdiv := (div_mul_add (x := j) hlow).1
      have hsplit : j * (a * a) + (l * a + m) = (j * a + l) * a + m := by ring
      obtain ⟨hhigh, hlast⟩ := div_mul_add (x := j * a + l) hm
      obtain ⟨-, hmiddle⟩ := div_mul_add (x := j) hl
      rw [hfirst, if_neg (by omega), if_neg (by omega),
        show ndirBlocks + a + a * a + (j * (a * a) + (l * a + m)) - ndirBlocks - a =
          a * a + (j * (a * a) + (l * a + m)) by omega, if_neg (by omega),
        Nat.add_sub_cancel_left, hdiv, hsplit, hhigh, hlast, hmiddle]
      refine ⟨?_, rfl⟩
      omega

theorem first_getblkPath (hk : a = 2 ^ k) {block : ℤ} (h : Tree.BmapAccepts a block) :
    (first a (getblkPath a block) : ℤ) = block := by
  obtain ⟨haccepts, hpath⟩ := getblkPath_first hk (getblkPath_leaf hk h)
  exact getblkPath_injective hk haccepts h hpath

theorem bmap_first (hk : a = 2 ^ k) (h : IsLeaf a r) (t : Tree) :
    t.bmap a (first a r) = t.val r := by
  obtain ⟨haccepts, hpath⟩ := getblkPath_first hk h
  rw [bmap_eq_val haccepts, hpath]

theorem Holder.first (h : Holder a t q) :
    ∃ f, ∀ j < width a q, Ext2Tree.first a (q ++ [j]) = f + j := by
  rcases h with rfl | ⟨hq, hheight, -⟩
  · refine ⟨0, fun j hj => ?_⟩
    rw [Nat.zero_add]
    exact if_pos (Nat.le_of_lt hj)
  · refine ⟨Ext2Tree.first a q, fun j _ => ?_⟩
    rw [first_snoc hq.ne_nil, height_snoc hq.ne_nil, hheight, pow_zero, Nat.mul_one]

/-- No run of blocks of the file crosses a group: where the block of the disk that is behind that of
a block of the file belongs to the next one that has a block, both are in one group. -/
def RunsUncut (a : ℕ) (g : ℕ → ℕ) (t : Tree) : Prop :=
  ∀ m n : ℕ, m < n → t.bmap a m ≠ 0 → (∀ j : ℕ, m < j → j < n → t.bmap a j = 0) →
    t.bmap a n = t.bmap a m + 1 → g (t.bmap a m) = g (t.bmap a n)

section
variable {w : ℕ}
  (hnext : ∀ x y, x < y → y < w → t.val (q ++ [x]) ≠ 0 →
      (∀ j, x < j → j < y → t.val (q ++ [j]) = 0) → t.val (q ++ [y]) = t.val (q ++ [x]) + 1 → g
        (t.val (q ++ [x])) = g (t.val (q ++ [y])))
include hnext

theorem uncut_cons {m : ℕ} (hm : m < i) (hn : i + n ≤ w) (hne : t.val (q ++ [m]) ≠ 0)
    (hzero : ∀ j, m < j → j < i → t.val (q ++ [j]) = 0) :
    Uncut g (t.val (q ++ [m]) :: words t q i n) := by
  induction n generalizing i m with
  | zero => exact isChain_singleton _
  | succ n ih =>
    rw [words_succ]
    split_ifs with hi
    · refine ih (by omega) (by omega) hne fun j hj hlt => ?_
      rcases Nat.lt_succ_iff_lt_or_eq.mp hlt with hlt | rfl
      · exact hzero j hj hlt
      · exact hi
    · refine isChain_cons_cons.mpr ⟨hnext m i hm (by omega) hne hzero, ?_⟩
      exact ih (by omega) (by omega) hi fun j hj hlt => absurd hlt (by omega)

theorem uncut_words (hn : i + n ≤ w) : Uncut g (words t q i n) := by
  induction n generalizing i with
  | zero => exact isChain_nil
  | succ n ih =>
    rw [words_succ]
    split_ifs with hi
    · exact ih (by omega)
    · exact uncut_cons hnext (Nat.lt_succ_self i) (by omega) hi
        fun j hj hlt => absurd hlt (by omega)

end

theorem RunsUncut.noCross (hk : a = 2 ^ k) (h : RunsUncut a g t) (R : List ℕ → Prop) :
    NoCross a g t R := by
  intro q hq _
  obtain ⟨f, hf⟩ := hq.first
  have hval (j : ℕ) (hj : j < width a q) : t.bmap a ((f + j : ℕ) : ℤ) = t.val (q ++ [j]) := by
    rw [← hf j hj]
    exact bmap_first hk (hq.leaf hj) t
  refine uncut_words (w := width a q) (fun x y hlt hy hne hzero hnext => ?_) (by omega)
  have hx : x < width a q := hlt.trans hy
  rw [← hval x hx, ← hval y hy] at hnext ⊢
  refine h (f + x) (f + y) (by omega) (by rwa [hval x hx]) (fun j hj hjy => ?_) hnext
  obtain ⟨d, rfl⟩ := Nat.exists_eq_add_of_le (show f ≤ j by omega)
  rw [hval d (by omega)]
  exact hzero d (by omega) (by omega)

/-! ## `ext2_truncate` -/

def keptBlocks (blocksize : ℕ) (ino : Inode) : ℕ := (ino.size + blocksize - 1) / blocksize

def Inode.preallocated (ino : Inode) : List (ℕ × ℕ) :=
  if ino.preallocCount ≠ 0 then [(ino.preallocBlock, ino.preallocCount)] else []

theorem discardPrealloc_eq (ino : Inode) :
    ino.discardPrealloc = ⟨ino.tree, ino.iBlocks, ino.preallocated⟩ := by
  unfold Inode.discardPrealloc Inode.preallocated
  split_ifs <;> rfl

theorem entries_last (i : ℕ) (r : List ℕ) :
    Entries [] 0 (i + 1) r ↔ Entries [] 0 i r ∨ [i] <+: r := by
  constructor
  · rintro ⟨j, hj, hlt, hpre⟩
    rcases Nat.lt_succ_iff_lt_or_eq.mp hlt with hlt | rfl
    · exact .inl ⟨j, hj, hlt, hpre⟩
    · exact .inr hpre
  · rintro (⟨j, hj, hlt, hpre⟩ | hpre)
    · exact ⟨j, hj, by omega, hpre⟩
    · exact ⟨i, Nat.zero_le i, Nat.lt_succ_self i, hpre⟩

theorem entries_all (hr : IsPath a r) : Entries [] 0 (tindBlock + 1) r := by
  cases r with
  | nil => exact absurd hr id
  | cons i js => exact ⟨i, Nat.zero_le i, Nat.lt_succ_of_le hr.1, js, rfl⟩

theorem hasSlot_data (t : Tree) (i : ℕ) : t.HasSlot [i] := by
  intro p j hp heq
  cases p with
  | nil => exact absurd rfl hp
  | cons i js => simp at heq

variable {v : Job} {s0 s : Truncation} {new : List (ℕ × ℕ)}

theorem Does.next {f : Truncation → Truncation} (h : Does v (Entries [] 0 i) s0 s new)
    (hready : Ready v s0.tree)
    (hf : Ready v s.tree → ∃ new', Does v (fun r => [i] <+: r) s (f s) new') :
    ∃ new', Does v (Entries [] 0 (i + 1)) s0 (f s) new' := by
  obtain ⟨new', hdo⟩ := hf (h.cut.ready hready)
  refine ⟨_, (h.trans hdo hready (closed_entries _ _ _ _) ?_).congr fun r _ => entries_last i r⟩
  rintro r - ⟨j, -, hlt, hpre⟩ hpre'
  exact absurd (eq_of_prefixes (q := []) hpre hpre') (by omega)

def Inode.job (ok : ℕ → Bool) (blocksize : ℕ) (ino : Inode) : Job :=
  ⟨ok, blocksize / 4, blocksize / 512, keptBlocks blocksize ino⟩

theorem truncate_does {ok : ℕ → Bool} {blocksize : ℕ} {ino : Inode} (ha : 0 < blocksize / 4)
    (hready : Ready (ino.job ok blocksize) ino.tree) :
    ∃ new, Does (ino.job ok blocksize) (fun _ => True)
      ⟨ino.tree, ino.iBlocks, ino.preallocated⟩ (truncate ok blocksize ino) new := by
  have heq : truncate ok blocksize ino = (ino.job ok blocksize).truncTindirect
      ((ino.job ok blocksize).truncDindirect (indBlock + (ino.job ok blocksize).a) (.data dindBlock)
        ((ino.job ok blocksize).truncIndirect indBlock (.data indBlock)
          ((ino.job ok blocksize).truncDirect ino.discardPrealloc))) := rfl
  have hva : 0 < (ino.job ok blocksize).a := ha
  rw [heq, discardPrealloc_eq]
  generalize ino.job ok blocksize = v at hready hva ⊢
  have hindirect : IsPath v.a [indBlock] := ⟨by decide, Nat.zero_le _, by simp⟩
  have hdindirect : IsPath v.a [dindBlock] := ⟨by decide, Nat.zero_le _, by simp⟩
  obtain ⟨_, hdirect⟩ := truncDirect_does (s := ⟨ino.tree, ino.iBlocks, ino.preallocated⟩) hready
  obtain ⟨_, htwo⟩ := hdirect.next (f := v.truncIndirect indBlock (.data indBlock)) hready
    fun h => truncIndirect_does h hindirect rfl (hasSlot_data _ _) (.inl rfl)
  obtain ⟨_, hthree⟩ := htwo.next
    (f := v.truncDindirect (indBlock + v.a) (.data dindBlock)) hready
    fun h => truncDindirect_does hva h hdindirect rfl (hasSlot_data _ _) (.inl rfl)
  obtain ⟨new, hfour⟩ := hthree.next hready (truncTindirect_does hva)
  exact ⟨new, hfour.congr fun r hr => ⟨fun _ => entries_all hr, fun _ => trivial⟩⟩

/-- The index blocks that the call takes out: those left without entries whose routine has been
called. -/
def Emptied (a D : ℕ) (t' : Tree) (r : List ℕ) : Prop :=
  IsPath a r ∧ ¬ IsLeaf a r ∧ Bare a t' r ∧ Visited a D r

section
variable {f : List ℕ} (hk : a = 2 ^ k) (h : Cut a D (fun _ => True) t t' f)
include hk h

theorem Cut.bmap (block : ℤ) : t'.bmap a block = if block < D then t.bmap a block else 0 := by
  by_cases haccepts : Tree.BmapAccepts a block
  · have hfirst := first_getblkPath hk haccepts
    rw [bmap_eq_val haccepts, bmap_eq_val haccepts, h.leaf _ (getblkPath_leaf hk haccepts) trivial]
    by_cases hlt : block < D
    · rw [if_pos hlt, if_pos (by omega)]
    · rw [if_neg hlt, if_neg (by omega)]
  · unfold Tree.bmap
    rw [if_pos haccepts, if_pos haccepts, ite_self]

theorem Cut.mem_freed_iff (x : ℕ) : x ∈ f ↔ x ≠ 0 ∧ ((∃ block : ℤ, D ≤ block ∧ t.bmap a block = x) ∨
      ∃ r, Emptied a D t' r ∧ t.val r = x) := by
  rw [h.mem_freed]
  refine and_congr_right fun hx => ⟨?_, ?_⟩
  · rintro ⟨r, hr, -, rfl, hzero⟩
    by_cases hleaf : IsLeaf a r
    · refine .inl ⟨first a r, ?_, bmap_first hk hleaf t⟩
      rw [h.leaf r hleaf trivial] at hzero
      by_contra hlt
      rw [if_pos (by omega)] at hzero
      exact hx hzero
    · refine .inr ⟨r, ?_, rfl⟩
      by_contra hnot
      rw [h.kept r hr hleaf trivial fun hgone => hnot ⟨hr, hleaf, hgone⟩] at hzero
      exact hx hzero
  · rintro (⟨block, hle, rfl⟩ | ⟨r, ⟨hr, hleaf, hbare, hvisited⟩, rfl⟩)
    · have haccepts : Tree.BmapAccepts a block := by
        by_contra hnot
        unfold Tree.bmap at hx
        rw [if_pos hnot] at hx
        exact hx rfl
      refine ⟨getblkPath a block, (getblkPath_leaf hk haccepts).isPath, trivial,
        (bmap_eq_val haccepts t).symm, ?_⟩
      rw [← bmap_eq_val haccepts, h.bmap hk, if_neg (by omega)]
    · exact ⟨r, hr, trivial, rfl, h.gone r hr hleaf trivial hbare hvisited⟩

end

/-- Where no block is in the tree twice and the index blocks can be read, `ext2_truncate` leaves the
blocks of the file below the new size, unmaps the others, takes out the index blocks left without
entries that it looks into, and frees what it has preallocated and, once each, the blocks that have
gone. -/
theorem truncate_exact (ok : ℕ → Bool) {blocksize : ℕ} (hb : blocksize ∈ [1024, 2048, 4096])
    (ino : Inode) (hready : Ready (ino.job ok blocksize) ino.tree) :
    let a := blocksize / 4
    let D := keptBlocks blocksize ino
    let s := truncate ok blocksize ino
    (∀ block : ℤ, s.tree.bmap a block = if block < D then ino.tree.bmap a block else 0) ∧
      (∀ r, Emptied a D s.tree r → s.tree.val r = 0) ∧
      (∀ r, IsPath a r → ¬ IsLeaf a r → ¬ Emptied a D s.tree r → s.tree.val r = ino.tree.val r) ∧
      ∃ new, s.frees = ino.preallocated ++ new ∧ (expand new).Nodup ∧
        (∀ x, x ∈ expand new ↔ x ≠ 0 ∧
          ((∃ block : ℤ, D ≤ block ∧ ino.tree.bmap a block = x) ∨
            ∃ r, Emptied a D s.tree r ∧ ino.tree.val r = x)) ∧
        s.iBlocks = ino.iBlocks - (blocksize / 512 : ℕ) * (expand new).length ∧
        ∀ g, RunsUncut a g ino.tree → ∀ p ∈ new, Whole g p := by
  intro a D s
  obtain ⟨k, hk⟩ : ∃ k, a = 2 ^ k := by
    simp only [mem_cons, not_mem_nil, or_false] at hb
    rcases hb with rfl | rfl | rfl
    · exact ⟨8, rfl⟩
    · exact ⟨9, rfl⟩
    · exact ⟨10, rfl⟩
  have ha : 0 < a := hk ▸ Nat.two_pow_pos k
  obtain ⟨new, hdo⟩ := truncate_does ha hready
  have hcut : Cut a D (fun _ => True) ino.tree s.tree (expand new) := hdo.cut
  refine ⟨hcut.bmap hk, fun r hr => hcut.gone r hr.1 hr.2.1 trivial hr.2.2.1 hr.2.2.2,
    fun r hr hleaf hnot => hcut.kept r hr hleaf trivial fun hgone => hnot ⟨hr, hleaf, hgone⟩,
    new, hdo.frees, hcut.nodup, hcut.mem_freed_iff hk, hdo.iBlocks, fun g hg => ?_⟩
  exact hdo.whole g (hg.noCross hk _)

def sparse : Tree where
  data i := if i = 0 then 8192 else if i = 2 then 8193 else if i = 12 then 200
    else if i = 13 then 300 else 0
  store bh j := if bh = 200 ∧ j = 3 then 201 else if bh = 300 ∧ j = 0 then 301 else 0
  blocks := 12

def sparseBlocks : List (List ℕ × ℕ) :=
  [([0], 8192), ([2], 8193), ([12], 200), ([12, 3], 201), ([13], 300), ([13, 0], 301)]

theorem sparse_entry {bh j : ℕ} (h : sparse.store bh j ≠ 0) :
    bh = 200 ∧ j = 3 ∨ bh = 300 ∧ j = 0 := by
  change (if bh = 200 ∧ j = 3 then 201 else if bh = 300 ∧ j = 0 then 301 else 0) ≠ 0 at h
  split_ifs at h with h200 h300
  · exact .inl h200
  · exact .inr h300
  · exact absurd rfl h

theorem sparse_walk {n : ℕ} {js : List ℕ} (h : sparse.walk n js ≠ 0) :
    js = [] ∨ (n = 200 ∧ js = [3]) ∨ (n = 300 ∧ js = [0]) := by
  have hstore {m i : ℕ} {is : List ℕ} (hm : sparse.walk m (i :: is) ≠ 0) :
      sparse.walk (sparse.store m i) is ≠ 0 := by
    rw [Tree.walk] at hm
    split_ifs at hm with hzero
    · exact absurd rfl hm
    · exact hm
  have hentry {m i : ℕ} {is : List ℕ} (hm : sparse.walk m (i :: is) ≠ 0) :
      sparse.store m i ≠ 0 := fun hzero => by
    have := hstore hm
    rw [hzero, Tree.walk_zero] at this
    exact this rfl
  cases js with
  | nil => exact .inl rfl
  | cons j js =>
    right
    have hrest := hstore h
    have hnext : sparse.store n j = 201 ∨ sparse.store n j = 301 := by
      rcases sparse_entry (hentry h) with ⟨rfl, rfl⟩ | ⟨rfl, rfl⟩
      · exact .inl rfl
      · exact .inr rfl
    cases js with
    | nil =>
      rcases sparse_entry (hentry h) with ⟨rfl, rfl⟩ | ⟨rfl, rfl⟩
      · exact .inl ⟨rfl, rfl⟩
      · exact .inr ⟨rfl, rfl⟩
    | cons l js =>
      rcases sparse_entry (hentry hrest) with ⟨heq, -⟩ | ⟨heq, -⟩ <;> omega

theorem sparse_mem (hq : IsPath 256 q) (hne : sparse.val q ≠ 0) :
    (q, sparse.val q) ∈ sparseBlocks := by
  cases q with
  | nil => exact absurd hq id
  | cons i js =>
    have hslot : i = 0 ∨ i = 2 ∨ i = 12 ∨ i = 13 := by
      by_contra hnone
      push Not at hnone
      obtain ⟨h0, h2, h12, h13⟩ := hnone
      change sparse.walk (if i = 0 then 8192 else if i = 2 then 8193 else if i = 12 then 200
        else if i = 13 then 300 else 0) js ≠ 0 at hne
      rw [if_neg h0, if_neg h2, if_neg h12, if_neg h13, Tree.walk_zero] at hne
      exact hne rfl
    have hrest := sparse_walk (show sparse.walk (sparse.data i) js ≠ 0 from hne)
    rcases hslot with rfl | rfl | rfl | rfl <;>
      rcases hrest with rfl | ⟨hbh, rfl⟩ | ⟨hbh, rfl⟩ <;>
      first
        | exact absurd hbh (by decide)
        | decide

theorem sparse_sane : Sane 256 sparse := by
  intro q r hq hr hne heq
  have hinj : ∀ x ∈ sparseBlocks, ∀ y ∈ sparseBlocks, x.2 = y.2 → x.1 = y.1 := by decide
  exact hinj _ (sparse_mem hq hne) _ (sparse_mem hr (heq ▸ hne)) heq

theorem truncate_exact_sparse :
    1024 ∈ [1024, 2048, 4096] ∧
      Ready (Inode.job (fun _ => true) 1024 ⟨sparse, 12, 3000, 0, 0⟩) sparse ∧
      ∀ block : ℤ, (truncate (fun _ => true) 1024 ⟨sparse, 12, 3000, 0, 0⟩).tree.bmap 256 block =
        if block < 3 then sparse.bmap 256 block else 0 := by
  have hready : Ready (Inode.job (fun _ => true) 1024 ⟨sparse, 12, 3000, 0, 0⟩) sparse :=
    ⟨sparse_sane, fun _ _ _ _ => rfl⟩
  exact ⟨by decide, hready, (truncate_exact _ (by decide) ⟨sparse, 12, 3000, 0, 0⟩ hready).1⟩

/-- What is preallocated is freed, an index block without entries stays, a block below the new size
is lost with an index block that cannot be read, and a range of blocks reaches over a hole into the
next group. -/
theorem truncate_takes_more :
    Sane 256 sparse ∧
      (truncate (fun _ => true) 1024 ⟨sparse, 12, 536576, 500, 8⟩).frees = [(500, 8)] ∧
      (truncate (fun _ => true) 1024 ⟨sparse, 12, 536576, 500, 8⟩).tree.val [13, 0] = 301 ∧
      Bare 256 (truncate (fun _ => true) 1024 ⟨sparse, 12, 536576, 500, 8⟩).tree [13, 0] ∧
      sparse.bmap 256 15 = 201 ∧
      (truncate (fun _ => false) 1024 ⟨sparse, 12, 536576, 0, 0⟩).tree.bmap 256 15 = 0 ∧
      (8192, 2) ∈ (truncate (fun _ => true) 1024 ⟨sparse, 12, 0, 0, 0⟩).frees ∧
      sparse.bmap 256 1 = 0 ∧ ¬ Whole (fun x => (x - 1) / 8192) (8192, 2) := by
  refine ⟨sparse_sane, ?_, ?_, ?_, ?_, ?_, ?_, ?_, ?_⟩
  · decide +kernel
  · decide +kernel
  · unfold Bare
    decide +kernel
  · decide +kernel
  · decide +kernel
  · decide +kernel
  · decide +kernel
  · unfold Whole
    decide

end LinuxKernel.Ext2Tree
