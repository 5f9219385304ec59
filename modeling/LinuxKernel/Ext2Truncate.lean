import LinuxKernel.Ext2TruncateModel
import LinuxKernel.Ext2Regions

/-!
# What `ext2_truncate` frees

Each routine cuts the tree below its slot.  The blocks of a routine are passed to `ext2_free_blocks`
in ranges that join what follows in the index block, holes left out.
-/

namespace LinuxKernel.Ext2Tree
open List

variable {a D : ℕ} {t t' : Tree} {q r p : List ℕ} {i j n x : ℕ} {R R' : List ℕ → Prop}
variable {s s' s'' : Truncation} {v : Job} {run : ℕ × ℕ} {tmp : ℕ}

/-! ## Ranges of blocks -/

def expand (frees : List (ℕ × ℕ)) : List ℕ := frees.flatMap fun p => List.range' p.1 p.2

@[simp]
theorem expand_nil : expand [] = [] := rfl

@[simp]
theorem expand_append (l l' : List (ℕ × ℕ)) : expand (l ++ l') = expand l ++ expand l' :=
  flatMap_append

@[simp]
theorem expand_singleton (p : ℕ × ℕ) : expand [p] = List.range' p.1 p.2 := by
  simp [expand]

def Whole (g : ℕ → ℕ) (p : ℕ × ℕ) : Prop := ∀ k < p.2, g (p.1 + k) = g p.1

def Uncut (g : ℕ → ℕ) (l : List ℕ) : Prop := l.IsChain fun x y => y = x + 1 → g x = g y

def takeRun (x : List (ℕ × ℕ) × (ℕ × ℕ)) (tmp : ℕ) : List (ℕ × ℕ) × (ℕ × ℕ) :=
  if x.2.2 = 0 then (x.1, (tmp, 1))
  else if x.2.1 + x.2.2 = tmp then (x.1, (x.2.1, x.2.2 + 1))
  else (x.1 ++ [x.2], (tmp, 1))

theorem take_eq (s : Truncation) (run : ℕ × ℕ) (tmp : ℕ) :
    s.take run tmp = ({ s with frees := (takeRun (s.frees, run) tmp).1 },
      (takeRun (s.frees, run) tmp).2) := by
  unfold Truncation.take takeRun Truncation.freeBlocks
  split_ifs <;> rfl

def total (x : List (ℕ × ℕ) × (ℕ × ℕ)) : List ℕ := expand x.1 ++ List.range' x.2.1 x.2.2

theorem total_takeRun (x : List (ℕ × ℕ) × (ℕ × ℕ)) (tmp : ℕ) :
    total (takeRun x tmp) = total x ++ [tmp] := by
  unfold takeRun total
  split_ifs with hopen hnext
  · simp [hopen]
  · rw [append_assoc, List.range'_concat, ← hnext, Nat.one_mul]
  · simp

theorem total_foldl (x : List (ℕ × ℕ) × (ℕ × ℕ)) (l : List ℕ) :
    total (l.foldl takeRun x) = total x ++ l := by
  induction l generalizing x with
  | nil => simp
  | cons tmp l ih =>
    rw [foldl_cons, ih, total_takeRun, append_assoc, singleton_append]

theorem whole_foldl {g : ℕ → ℕ} {x : List (ℕ × ℕ) × (ℕ × ℕ)} {l : List ℕ}
    (hfrees : ∀ p ∈ x.1, Whole g p) (hrun : Whole g x.2)
    (hl : if x.2.2 = 0 then Uncut g l else Uncut g ((x.2.1 + x.2.2 - 1) :: l)) :
    (∀ p ∈ (l.foldl takeRun x).1, Whole g p) ∧ Whole g (l.foldl takeRun x).2 := by
  induction l generalizing x with
  | nil => exact ⟨hfrees, hrun⟩
  | cons tmp l ih =>
    have hone : Whole g (tmp, 1) := by
      intro k hk
      rw [show k = 0 by omega, Nat.add_zero]
    rw [foldl_cons]
    unfold takeRun
    split_ifs at hl ⊢ with hopen hnext
    · exact ih hfrees hone (by simpa using hl)
    · refine ih hfrees ?_ ?_
      · intro k hk
        rcases Nat.lt_succ_iff_lt_or_eq.mp hk with hlt | rfl
        · exact hrun k hlt
        · -- the block that follows is in the group of the last one
          have hlast := (isChain_cons_cons.mp hl).1 (by omega)
          rw [← hnext] at hlast
          rw [← hlast, show x.2.1 + x.2.2 - 1 = x.2.1 + (x.2.2 - 1) by omega]
          exact hrun _ (by omega)
      · rw [if_neg (by simp)]
        rw [show x.2.1 + (x.2.2 + 1) - 1 = tmp by omega]
        exact (isChain_cons_cons.mp hl).2
    · refine ih ?_ hone ?_
      · intro p hp
        rcases mem_append.mp hp with hp | hp
        · exact hfrees p hp
        · rw [mem_singleton.mp hp]
          exact hrun
      · rw [if_neg (by simp)]
        exact (isChain_cons_cons.mp hl).2

/-! ## The slots for data -/

def words (t : Tree) (q : List ℕ) (i n : ℕ) : List ℕ :=
  ((List.range' i n).map fun j => t.val (q ++ [j])).filter (· ≠ 0)

theorem words_succ (t : Tree) (q : List ℕ) (i n : ℕ) : words t q i (n + 1) =
    if t.val (q ++ [i]) = 0 then words t q (i + 1) n
    else t.val (q ++ [i]) :: words t q (i + 1) n := by
  unfold words
  rw [List.range'_succ, map_cons, filter_cons]
  split_ifs with h h'
  · exact absurd h' (by simpa using h)
  · rfl
  · rfl
  · exact absurd h (by simpa using ‹¬ _ = 0›)

theorem words_congr (h : ∀ j, i ≤ j → j < i + n → t'.val (q ++ [j]) = t.val (q ++ [j])) :
    words t' q i n = words t q i n := by
  unfold words
  congr 1
  refine map_congr_left fun j hj => ?_
  rw [mem_range'_1] at hj
  exact h j hj.1 hj.2

theorem words_suffix (t : Tree) (q : List ℕ) (i n : ℕ) : words t q i (n - i) <:+ words t q 0 n := by
  unfold words
  rcases Nat.le_total i n with hle | hle
  · have hsplit : List.range' 0 n = List.range' 0 i ++ List.range' i (n - i) := by
      have happend := List.range'_append_1 (s := 0) (m := i) (n := n - i)
      rw [Nat.zero_add, Nat.add_sub_cancel' hle] at happend
      exact happend.symm
    rw [hsplit, map_append, filter_append]
    exact suffix_append _ _
  · rw [Nat.sub_eq_zero_of_le hle]
    exact nil_suffix

def width (a : ℕ) (q : List ℕ) : ℕ := if q = [] then ndirBlocks else a

def Holder (a : ℕ) (t : Tree) (q : List ℕ) : Prop :=
  q = [] ∨ IsPath a q ∧ height q = 1 ∧ t.val q ≠ 0

def dataSlot (t : Tree) (q : List ℕ) : ℕ → Slot := if q = [] then .data else .entry (t.val q)

theorem Holder.leaf (h : Holder a t q) (hj : j < width a q) : IsLeaf a (q ++ [j]) := by
  rcases h with rfl | ⟨hq, hheight, -⟩
  · have hlt : j < 12 := hj
    refine ⟨?_, ?_, by simp⟩
    · unfold tindBlock
      omega
    · change 0 = j - 11
      omega
  · have hne := hq.ne_nil
    have hleaf : ¬ IsLeaf a q := fun hleaf => by
      have := height_leaf hleaf
      omega
    unfold width at hj
    rw [if_neg hne] at hj
    refine isLeaf_of_height (hq.snoc hleaf hj) ?_
    rw [height_snoc hne, hheight]

theorem Holder.slot (h : Holder a t q) (j : ℕ) :
    dataSlot t q j = t.slotOf (q ++ [j]) ∧ t.HasSlot (q ++ [j]) := by
  rcases h with rfl | ⟨hq, -, hval⟩
  · refine ⟨rfl, fun p k hp heq => ?_⟩
    exact absurd (append_inj_left' heq rfl).symm hp
  · refine ⟨?_, fun p k hp heq => ?_⟩
    · unfold dataSlot
      rw [if_neg hq.ne_nil, Tree.slotOf_snoc t hq.ne_nil]
    · rw [← append_inj_left' heq rfl]
      exact hval

theorem Holder.read (h : Holder a t q) (j : ℕ) : t.read (dataSlot t q j) = t.val (q ++ [j]) := by
  rw [(h.slot j).1]
  exact Tree.read_slotOf (by simp) (h.slot j).2

variable {f : List ℕ}

theorem val_above (hq : IsPath a q) (h : Cut a D (fun r => q ++ [i] <+: r) t t' f) :
    t'.val q = t.val q := by
  refine h.frame q hq fun hpre => ?_
  have := hpre.length_le
  simp at this

section
variable (h : Holder a t q) (hcut : Cut a D (fun r => q ++ [i] <+: r) t t' f)
include h hcut

theorem Holder.frame : Holder a t' q := by
  rcases h with rfl | ⟨hq, hheight, hval⟩
  · exact .inl rfl
  · refine .inr ⟨hq, hheight, ?_⟩
    rwa [val_above hq hcut]

theorem Holder.dataSlot_frame : dataSlot t q = dataSlot t' q := by
  unfold dataSlot
  rcases h with rfl | ⟨hq, -, -⟩
  · rfl
  · rw [val_above hq hcut]

end

theorem dataLoop_spec (blocks : ℕ) {x : Truncation × (ℕ × ℕ)} (hsane : Sane a x.1.tree)
    (hq : Holder a x.1.tree q) (hn : i + n ≤ width a q)
    (hD : ∀ j, i ≤ j → j < i + n → D ≤ first a (q ++ [j])) :
    Cut a D (Entries q i (i + n)) x.1.tree
        (Truncation.dataLoop (dataSlot x.1.tree q) blocks n i x).1.tree (words x.1.tree q i n) ∧
      ((Truncation.dataLoop (dataSlot x.1.tree q) blocks n i x).1.frees,
        (Truncation.dataLoop (dataSlot x.1.tree q) blocks n i x).2) =
          (words x.1.tree q i n).foldl takeRun (x.1.frees, x.2) ∧
      (Truncation.dataLoop (dataSlot x.1.tree q) blocks n i x).1.iBlocks =
        x.1.iBlocks - blocks * (words x.1.tree q i n).length := by
  induction n generalizing i x with
  | zero =>
    refine ⟨cut_empty ?_, rfl, by simp [Truncation.dataLoop, words]⟩
    rintro r - ⟨j, hle, hlt, -⟩
    omega
  | succ n ih =>
    obtain ⟨s, run⟩ := x
    have hleaf : IsLeaf a (q ++ [i]) := hq.leaf (by omega)
    have hregion : ∀ r, Entries q i (i + (n + 1)) r ↔
        q ++ [i] <+: r ∨ Entries q (i + 1) (i + 1 + n) r := by
      intro r
      rw [entries_head q (by omega), show i + (n + 1) = i + 1 + n by omega]
    rw [Truncation.dataLoop]
    rw [hq.read i, words_succ]
    by_cases hzero : s.tree.val (q ++ [i]) = 0
    · obtain ⟨hcut, hfrees, hblocks⟩ := ih (i := i + 1) (x := (s, run)) hsane hq
        (by omega) fun j h1 h2 => hD j (by omega) (by omega)
      have hnone : Cut a D (fun r => q ++ [i] <+: r) s.tree s.tree [] := by
        refine cut_empty fun r hr hpre => ?_
        exact Tree.val_prefix_eq_zero hpre (by simp) hzero
      rw [if_pos hzero, if_pos hzero]
      refine ⟨?_, hfrees, hblocks⟩
      exact (hnone.trans hcut hsane (closed_under a _)
        fun r _ hpre => disjoint_entries q r hpre).congr fun r _ => hregion r
    · rw [if_neg hzero, if_neg hzero, take_eq, (hq.slot i).1]
      have hcut := cut_leaf hsane hleaf (hq.slot i).2 (hD i le_rfl (by omega)) hzero
      generalize hs1 : Truncation.clear s (s.tree.slotOf (q ++ [i])) blocks = s1
      have htree : s1.tree = s.tree.write (s.tree.slotOf (q ++ [i])) 0 := by rw [← hs1]; rfl
      have hold : s1.frees = s.frees := by rw [← hs1]; rfl
      have hcount : s1.iBlocks = s.iBlocks - blocks := by rw [← hs1]; rfl
      rw [← htree] at hcut
      generalize hy : takeRun (s1.frees, run) (s.tree.val (q ++ [i])) = y
      have hq1 : Holder a s1.tree q := hq.frame hcut
      rw [hq.dataSlot_frame hcut]
      obtain ⟨hcut', hfrees, hblocks⟩ := ih (i := i + 1) (x := ({ s1 with frees := y.1 }, y.2))
        (hcut.sane hsane) hq1 (by omega) fun j h1 h2 => hD j (by omega) (by omega)
      have hwords : words s1.tree q (i + 1) n = words s.tree q (i + 1) n := by
        refine words_congr fun j hlt hj => hcut.frame _ (hq.leaf (by omega)).isPath fun hpre => ?_
        exact absurd (eq_of_prefixes hpre prefix_rfl) (by omega)
      rw [hwords] at hcut' hfrees hblocks
      refine ⟨?_, ?_, ?_⟩
      · exact (hcut.trans hcut' hsane (closed_under a _)
          fun r _ hpre => disjoint_entries q r hpre).congr fun r _ => hregion r
      · rw [hfrees, foldl_cons, ← hold, hy]
      · rw [hblocks, hcount, length_cons]
        push_cast
        ring

/-! ## Routines -/

/-- Where blocks follow each other in the inode or in an index block of `R`, they are in one group.
-/
def NoCross (a : ℕ) (g : ℕ → ℕ) (t : Tree) (R : List ℕ → Prop) : Prop :=
  ∀ q, Holder a t q → (∀ j < width a q, R (q ++ [j])) → Uncut g (words t q 0 (width a q))

/-- A routine cuts the tree on the paths of `R`, and passes the ranges of `new` on. -/
structure Does (v : Job) (R : List ℕ → Prop) (s s' : Truncation) (new : List (ℕ × ℕ)) : Prop where
  frees : s'.frees = s.frees ++ new
  cut : Cut v.a v.size R s.tree s'.tree (expand new)
  iBlocks : s'.iBlocks = s.iBlocks - v.blocks * (expand new).length
  whole : ∀ g, NoCross v.a g s.tree R → ∀ p ∈ new, Whole g p

structure Ready (v : Job) (t : Tree) : Prop where
  sane : Sane v.a t
  readable : ∀ r, IsPath v.a r → ¬ IsLeaf v.a r → t.val r ≠ 0 → v.ok (t.val r) = true

theorem Cut.ready (h : Cut v.a D R t t' f) (hready : Ready v t) : Ready v t' := by
  refine ⟨h.sane hready.sane, fun r hr hleaf hne => ?_⟩
  rcases h.zero_or hr with hzero | hsame
  · exact absurd hzero hne
  · rw [hsame] at hne ⊢
    exact hready.readable r hr hleaf hne

variable {new new' : List (ℕ × ℕ)}

theorem does_nothing (h : Cut v.a v.size R s.tree s.tree []) : Does v R s s [] :=
  ⟨(append_nil _).symm, h, by simp, fun _ _ p hp => absurd hp (not_mem_nil)⟩

theorem Does.congr (h : Does v R s s' new) (hR : ∀ r, IsPath v.a r → (R' r ↔ R r)) :
    Does v R' s s' new := by
  refine ⟨h.frees, h.cut.congr hR, h.iBlocks, fun g hg => h.whole g fun q hq hin => ?_⟩
  exact hg q hq fun j hj => (hR _ (hq.leaf hj).isPath).mpr (hin j hj)

theorem Does.trans (h : Does v R s s' new) (h' : Does v R' s' s'' new') (hready : Ready v s.tree)
    (hclosed : Closed v.a R) (hdisj : ∀ r, IsPath v.a r → R r → ¬ R' r) :
    Does v (fun r => R r ∨ R' r) s s'' (new ++ new') where
  frees := by rw [h'.frees, h.frees, append_assoc]
  cut := by
    rw [expand_append]
    exact h.cut.trans h'.cut hready.sane hclosed hdisj
  iBlocks := by
    rw [h'.iBlocks, h.iBlocks, expand_append, length_append]
    push_cast
    ring
  whole g hg p hp := by
    rcases mem_append.mp hp with hp | hp
    · exact h.whole g (fun q hq hin => hg q hq fun j hj => .inl (hin j hj)) p hp
    · refine h'.whole g (fun q hq hin => ?_) p hp
      -- the second routine finds the words of its index blocks as they were
      have hold : Holder v.a s.tree q := by
        rcases hq with rfl | ⟨hpath, hheight, hne⟩
        · exact .inl rfl
        · rcases h.cut.zero_or hpath with hzero | hsame
          · exact absurd hzero hne
          · exact .inr ⟨hpath, hheight, hsame ▸ hne⟩
      have hwords : words s'.tree q 0 (width v.a q) = words s.tree q 0 (width v.a q) := by
        refine words_congr fun j _ hj => ?_
        rw [Nat.zero_add] at hj
        exact h.cut.frame _ (hq.leaf hj).isPath fun hR =>
          hdisj _ (hq.leaf hj).isPath hR (hin j hj)
      rw [hwords]
      exact hg q hold fun j hj => .inr (hin j hj)

section
variable (s : Truncation) (run : ℕ × ℕ)

theorem expand_flush :
    ∃ new, (s.flush run).frees = s.frees ++ new ∧ expand new = List.range' run.1 run.2 ∧
      ∀ p ∈ new, p = run := by
  unfold Truncation.flush
  split_ifs with hpos
  · exact ⟨[run], rfl, expand_singleton run, fun p hp => mem_singleton.mp hp⟩
  · refine ⟨[], (append_nil _).symm, ?_, fun p hp => absurd hp not_mem_nil⟩
    rw [show run.2 = 0 by omega]
    rfl

@[simp]
theorem flush_tree : (s.flush run).tree = s.tree := by
  unfold Truncation.flush
  split_ifs <;> rfl

@[simp]
theorem flush_iBlocks : (s.flush run).iBlocks = s.iBlocks := by
  unfold Truncation.flush
  split_ifs <;> rfl

end

theorem foldl_takeRun (old : List (ℕ × ℕ)) (x : List (ℕ × ℕ) × (ℕ × ℕ)) (l : List ℕ) :
    l.foldl takeRun (old ++ x.1, x.2) = (old ++ (l.foldl takeRun x).1, (l.foldl takeRun x).2) := by
  induction l generalizing x with
  | nil => rfl
  | cons tmp l ih =>
    rw [foldl_cons, foldl_cons, ← ih]
    unfold takeRun
    split_ifs <;> simp

theorem Uncut.suffix {g : ℕ → ℕ} {l l' : List ℕ} (h : Uncut g l) (hsuf : l' <:+ l) : Uncut g l' :=
  List.IsChain.infix h hsuf.isInfix

variable {m : ℕ}

theorem data_does (hready : Ready v s.tree) (hq : Holder v.a s.tree q)
    (hm : ∀ j < width v.a q, j < m ↔ first v.a (q ++ [j]) < v.size) :
    ∃ new, Does v (Entries q 0 (width v.a q)) s
      ((Truncation.dataLoop (dataSlot s.tree q) v.blocks (width v.a q - m) m (s, (0, 0))).1.flush
        (Truncation.dataLoop (dataSlot s.tree q) v.blocks (width v.a q - m) m (s, (0, 0))).2)
      new := by
  have hskip : Cut v.a v.size (Entries q 0 (min m (width v.a q))) s.tree s.tree [] := by
    refine cut_entries_below fun i hi hpath => ?_
    have hlt : i < width v.a q := by omega
    have hleaf := hq.leaf hlt
    refine ⟨?_, .inl hleaf⟩
    unfold stop
    rw [height_leaf hleaf, pow_zero]
    exact (hm i hlt).mp (by omega)
  rcases Nat.lt_or_ge (width v.a q) m with hlt | hle
  · -- every slot is below the new size
    rw [Nat.sub_eq_zero_of_le hlt.le]
    rw [min_eq_right hlt.le] at hskip
    exact ⟨[], does_nothing hskip⟩
  · obtain ⟨hcut, hfrees, hblocks⟩ := dataLoop_spec v.blocks (x := (s, (0, 0))) hready.sane hq
      (i := m) (n := width v.a q - m) (by omega)
      fun j hj hlt => not_lt.mp (mt (hm j (by omega)).mpr (not_lt.mpr hj))
    generalize Truncation.dataLoop (dataSlot s.tree q) v.blocks (width v.a q - m) m (s, (0, 0)) = y
      at hcut hfrees hblocks ⊢
    obtain ⟨last, hlast, hexpand, hmem⟩ := expand_flush y.1 y.2
    have hstart := foldl_takeRun s.frees ([], (0, 0)) (words s.tree q m (width v.a q - m))
    rw [append_nil, ← hfrees] at hstart
    have htotal := total_foldl ([], (0, 0)) (words s.tree q m (width v.a q - m))
    have hwhole (g : ℕ → ℕ) := whole_foldl (g := g) (x := ([], (0, 0)))
      (l := words s.tree q m (width v.a q - m))
    generalize (words s.tree q m (width v.a q - m)).foldl takeRun ([], (0, 0)) = z
      at hstart htotal hwhole
    simp only [total, expand_nil, List.range'_zero, nil_append] at htotal
    have hy1 : y.1.frees = s.frees ++ z.1 := congrArg Prod.fst hstart
    have hy2 : y.2 = z.2 := congrArg Prod.snd hstart
    have hall : expand (z.1 ++ last) = words s.tree q m (width v.a q - m) := by
      rw [expand_append, hexpand, hy2, htotal]
    refine ⟨z.1 ++ last, ?_, ?_, ?_, ?_⟩
    · rw [hlast, hy1, append_assoc]
    · rw [hall, flush_tree]
      exact (hskip.trans hcut hready.sane (closed_entries _ q _ _)
        fun r _ h => disjoint_split q r h).congr fun r _ => entries_split q m _ r
    · rw [hall, flush_iBlocks]
      exact hblocks
    · intro g hg p hp
      have huncut := (hg q hq fun j hj => ⟨j, Nat.zero_le j, hj, prefix_rfl⟩).suffix
        (words_suffix s.tree q m (width v.a q))
      obtain ⟨hfirst, hopen⟩ := hwhole g (by simp) (fun k hk => absurd hk (Nat.not_lt_zero k))
        (by simpa using huncut)
      rcases mem_append.mp hp with hp | hp
      · exact hfirst p hp
      · rw [hmem p hp, hy2]
        exact hopen

theorem not_entries (h : p <+: q) : ¬ Entries q m n p := by
  rintro ⟨i, -, -, hpre⟩
  have := (hpre.trans h).length_le
  simp at this

theorem Cut.slot_entries (h : Cut a D (Entries q m n) t t' f)
    (hq : IsPath a q) : t'.slotOf q = t.slotOf q ∧ (t.HasSlot q → t'.HasSlot q) := by
  have hval (p : List ℕ) (hp : p ≠ []) (hpre : p <+: q) : t'.val p = t.val p :=
    h.frame p (hq.of_prefix hpre hp) (not_entries hpre)
  constructor
  · cases q using List.reverseRecOn with
    | nil => rfl
    | append_singleton p j =>
      by_cases hp : p = []
      · subst hp
        rfl
      · rw [Tree.slotOf_snoc t hp, Tree.slotOf_snoc t' hp, hval p hp (prefix_append p [j])]
  · rintro hslot p j hp rfl
    rw [hval p hp (prefix_append p [j])]
    exact hslot p j hp rfl

theorem bare_iff (hq : q ≠ []) (hne : t.val q ≠ 0) :
    (∀ i < a, t.read (.entry (t.val q) i) = 0) ↔ Bare a t q := by
  refine forall₂_congr fun i _ => ?_
  rw [Tree.val_snoc t hq, if_neg hne]
  rfl

theorem finish_does (hready : Ready v s.tree) (hq : IsPath v.a q) (hleaf : ¬ IsLeaf v.a q)
    (hslot : s.tree.HasSlot q) (hne : s.tree.val q ≠ 0) (hvisited : Visited v.a v.size q)
    (h : Does v (Entries q 0 v.a) s s' new) :
    ∃ new', Does v (fun r => q <+: r) s
      (s'.finish v.a v.blocks (s.tree.slotOf q) (s.tree.val q)) new' := by
  obtain ⟨hsame, hkeep⟩ := h.cut.slot_entries hq
  have hval : s'.tree.val q = s.tree.val q := h.cut.frame q hq (not_entries prefix_rfl)
  have hne' : s'.tree.val q ≠ 0 := hval ▸ hne
  suffices hend : ∃ last, Does v (fun r => r = q) s'
      (s'.finish v.a v.blocks (s.tree.slotOf q) (s.tree.val q)) last by
    obtain ⟨last, hlast⟩ := hend
    exact ⟨_, (h.trans hlast hready (closed_entries _ q _ _)
      fun r _ hr => disjoint_self q r hr).congr fun r hr => prefix_iff hq.ne_nil hr⟩
  rw [← hsame, ← hval]
  unfold Truncation.finish
  have hiff := bare_iff (a := v.a) hq.ne_nil hne'
  by_cases hbare : Bare v.a s'.tree q
  · rw [if_pos (hiff.mpr hbare)]
    rw [Tree.read_slotOf hq.ne_nil (hkeep hslot)]
    refine ⟨[(s'.tree.val q, 1)], rfl, ?_, ?_, ?_⟩
    · rw [expand_singleton]
      exact cut_bare (h.cut.sane hready.sane) hq hleaf (hkeep hslot) hne' hbare hvisited
    · rw [expand_singleton]
      simp [Truncation.freeBlocks, Truncation.clear]
    · intro g _ p hp k hk
      rw [mem_singleton.mp hp] at hk ⊢
      rw [show k = 0 by omega, Nat.add_zero]
  · rw [if_neg (mt hiff.mp hbare)]
    exact ⟨[], does_nothing (cut_full hleaf hbare)⟩

theorem loop_does {loop : ℕ → ℕ → Truncation → Truncation} {body : ℕ → Truncation → Truncation}
    (hzero : ∀ i s, loop 0 i s = s) (hsucc : ∀ n i s, loop (n + 1) i s = loop n (i + 1) (body i s))
    (hq : IsPath v.a q) (hready : Ready v s.tree)
    (hbody : ∀ j s', i ≤ j → j < i + n → Ready v s'.tree → s'.tree.val q = s.tree.val q →
      ∃ new, Does v (fun r => q ++ [j] <+: r) s' (body j s') new) :
    ∃ new, Does v (Entries q i (i + n)) s (loop n i s) new := by
  induction n generalizing i s with
  | zero =>
    rw [hzero]
    refine ⟨[], does_nothing (cut_empty ?_)⟩
    rintro r - ⟨j, hle, hlt, -⟩
    omega
  | succ n ih =>
    obtain ⟨new, hdo⟩ := hbody i s le_rfl (by omega) hready rfl
    have hval : (body i s).tree.val q = s.tree.val q := val_above hq hdo.cut
    obtain ⟨new', hdo'⟩ := ih (i := i + 1) (s := body i s) (hdo.cut.ready hready)
      fun j s' hle hlt hr hs => hbody j s' (by omega) (by omega) hr (hs.trans hval)
    rw [hsucc]
    refine ⟨_, (hdo.trans hdo' hready (closed_under _ _)
      fun r _ hpre => disjoint_entries q r hpre).congr fun r _ => ?_⟩
    rw [entries_head q (by omega), show i + (n + 1) = i + 1 + n by omega]

theorem index_does (loop : ℕ → ℕ → Truncation → Truncation) (body : ℕ → Truncation → Truncation)
    (hzero : ∀ i s, loop 0 i s = s)
    (hsucc : ∀ n i s, loop (n + 1) i s = loop n (i + 1) (body i s))
    (hq : IsPath v.a q) (hleaf : ¬ IsLeaf v.a q) (hslot : s.tree.HasSlot q)
    (hne : s.tree.val q ≠ 0) (hvisited : Visited v.a v.size q) (hready : Ready v s.tree)
    (hbelow : ∀ i < m, IsPath v.a (q ++ [i]) → stop v.a (q ++ [i]) ≤ v.size)
    (hbody : ∀ j s', m ≤ j → j < v.a → Ready v s'.tree → s'.tree.val q = s.tree.val q →
      ∃ new, Does v (fun r => q ++ [j] <+: r) s' (body j s') new) :
    ∃ new, Does v (fun r => q <+: r) s ((loop (v.a - m) m s).finish v.a v.blocks
      (s.tree.slotOf q) (s.tree.val q)) new := by
  have hskip : Does v (Entries q 0 (min m v.a)) s s [] := by
    refine does_nothing (cut_entries_below fun i hi hpath => ?_)
    exact ⟨hbelow i (by omega) hpath, .inr hq.ne_nil⟩
  obtain ⟨new, hdo⟩ := loop_does (n := v.a - m) (i := m) hzero hsucc hq hready
    fun j s' hle hlt => hbody j s' hle (by omega)
  have hall : Does v (Entries q 0 v.a) s (loop (v.a - m) m s) ([] ++ new) :=
    (hskip.trans hdo hready (closed_entries _ q _ _)
      fun r _ h => disjoint_split q r h).congr fun r _ => entries_split q m _ r
  exact finish_does hready hq hleaf hslot hne hvisited hall

/-! ## The routines -/

theorem start_spec (d f i : ℕ) {w : ℕ} (hw : 0 < w) :
    i < (((d : ℤ) - f).tdiv w).toNat ↔ f + (i + 1) * w ≤ d := by
  rcases Nat.lt_or_ge d f with hlt | hle
  · have hneg : ((d : ℤ) - f).tdiv w ≤ 0 := by
      rw [show (d : ℤ) - f = -((f - d : ℕ) : ℤ) by omega, Int.neg_tdiv, Int.neg_nonpos_iff]
      exact Int.natCast_nonneg _
    omega
  · rw [show (d : ℤ) - f = ((d - f : ℕ) : ℤ) by omega]
    change i < (d - f) / w ↔ _
    rw [Nat.lt_iff_add_one_le, Nat.le_div_iff_mul_le hw]
    omega

theorem cut_absent (hq : IsPath a q) (hzero : t.val q = 0) : Cut a D (fun r => q <+: r) t t [] :=
  cut_empty fun _ _ hpre => Tree.val_prefix_eq_zero hpre hq.ne_nil hzero

theorem truncIndirect_does (hready : Ready v s.tree) (hq : IsPath v.a q) (hheight : height q = 1)
    (hslot : s.tree.HasSlot q) (hvisited : Visited v.a v.size q) :
    ∃ new, Does v (fun r => q <+: r) s
      (v.truncIndirect (first v.a q) (s.tree.slotOf q) s) new := by
  have hleaf : ¬ IsLeaf v.a q := fun hleaf => by
    have := height_leaf hleaf
    omega
  unfold Job.truncIndirect
  rw [Tree.read_slotOf hq.ne_nil hslot]
  by_cases hne : s.tree.val q = 0
  · rw [if_pos hne]
    exact ⟨[], does_nothing (cut_absent hq hne)⟩
  · rw [if_neg hne, if_neg (by rw [hready.readable q hq hleaf hne]; decide)]
    have hold : Holder v.a s.tree q := .inr ⟨hq, hheight, hne⟩
    have hfirst (j : ℕ) : first v.a (q ++ [j]) = first v.a q + j := by
      rw [first_snoc hq.ne_nil, height_snoc hq.ne_nil, hheight, pow_zero, Nat.mul_one]
    have hdo := data_does (m := ((v.size : ℤ) - first v.a q).toNat) hready hold
      (fun j _ => by rw [hfirst]; omega)
    have hwidth : width v.a q = v.a := if_neg hq.ne_nil
    have hdata : dataSlot s.tree q = .entry (s.tree.val q) := if_neg hq.ne_nil
    rw [hwidth, hdata] at hdo
    obtain ⟨new, hdo⟩ := hdo
    exact finish_does hready hq hleaf hslot hne hvisited hdo

theorem hasSlot_snoc (j : ℕ) (hne : t.val q ≠ 0) : t.HasSlot (q ++ [j]) := by
  intro p k _ heq
  rw [← append_inj_left' heq rfl]
  exact hne

theorem dindirectLoop_succ (v : Job) (offset bh n i : ℕ) (s : Truncation) :
    v.dindirectLoop offset bh (n + 1) i s =
      v.dindirectLoop offset bh n (i + 1)
        (v.truncIndirect (offset + i * v.a) (.entry bh i) s) := by
  rw [Job.dindirectLoop]
  split_ifs with hzero
  · unfold Job.truncIndirect
    rw [hzero]
    rfl
  · rfl

theorem truncDindirect_does (ha : 0 < v.a) (hready : Ready v s.tree) (hq : IsPath v.a q)
    (hheight : height q = 2) (hslot : s.tree.HasSlot q) (hvisited : Visited v.a v.size q) :
    ∃ new, Does v (fun r => q <+: r) s
      (v.truncDindirect (first v.a q) (s.tree.slotOf q) s) new := by
  have hleaf : ¬ IsLeaf v.a q := fun hleaf => by
    have := height_leaf hleaf
    omega
  unfold Job.truncDindirect
  rw [Tree.read_slotOf hq.ne_nil hslot]
  by_cases hne : s.tree.val q = 0
  · rw [if_pos hne]
    exact ⟨[], does_nothing (cut_absent hq hne)⟩
  · rw [if_neg hne, if_neg (by rw [hready.readable q hq hleaf hne]; decide)]
    have hone (j : ℕ) : height (q ++ [j]) = 1 := by rw [height_snoc hq.ne_nil, hheight]
    have hfirst (j : ℕ) : first v.a (q ++ [j]) = first v.a q + j * v.a := by
      rw [first_snoc hq.ne_nil, hone, pow_one]
    have hstop (j : ℕ) : stop v.a (q ++ [j]) = first v.a q + (j + 1) * v.a := by
      unfold stop
      rw [hfirst, hone, pow_one]
      ring
    have hstart (j : ℕ) := start_spec v.size (first v.a q) j ha
    refine index_does _ _ (fun _ _ => rfl) (dindirectLoop_succ v (first v.a q) (s.tree.val q))
      hq hleaf hslot hne hvisited hready (fun i hi _ => ?_) fun j s' hle hj hready' hval => ?_
    · rw [hstop]
      exact (hstart i).mp hi
    · rw [← hfirst, ← hval, ← Tree.slotOf_snoc s'.tree hq.ne_nil]
      refine truncIndirect_does hready' (hq.snoc hleaf hj) (hone j) (hasSlot_snoc j (hval ▸ hne))
        (.inr ?_)
      rw [hstop]
      exact not_le.mp (mt (hstart j).mpr (not_lt.mpr hle))

theorem truncTindirect_does (ha : 0 < v.a) (hready : Ready v s.tree) :
    ∃ new, Does v (fun r => [tindBlock] <+: r) s (v.truncTindirect s) new := by
  have hq : IsPath v.a [tindBlock] := ⟨le_rfl, Nat.zero_le _, by simp⟩
  have hheight : height [tindBlock] = 3 := rfl
  have hleaf : ¬ IsLeaf v.a [tindBlock] := fun hleaf => by
    have := height_leaf hleaf
    omega
  have hslot : s.tree.HasSlot [tindBlock] := fun p j hp heq => by
    cases p with
    | nil => exact absurd rfl hp
    | cons i js => simp at heq
  change ∃ new, Does v _ s (if s.tree.val [tindBlock] = 0 then s else _) new
  by_cases hne : s.tree.val [tindBlock] = 0
  · rw [if_pos hne]
    exact ⟨[], does_nothing (cut_absent hq hne)⟩
  · rw [if_neg hne]
    have hread := hready.readable _ hq hleaf hne
    have htwo (j : ℕ) : height ([tindBlock] ++ [j]) = 2 := rfl
    have hfirst (j : ℕ) : first v.a ([tindBlock] ++ [j]) =
        ndirBlocks + v.a + (j + 1) * v.a * v.a := by
      change ndirBlocks + v.a + v.a * v.a + j * v.a ^ 2 = _
      ring
    have hstop (j : ℕ) : stop v.a ([tindBlock] ++ [j]) =
        v.a * v.a + v.a + ndirBlocks + (j + 1) * (v.a * v.a) := by
      unfold stop
      rw [hfirst, htwo]
      ring
    have hstart (j : ℕ) := start_spec v.size (v.a * v.a + v.a + ndirBlocks) j (Nat.mul_pos ha ha)
    have hfinish := index_does (v.tindirectLoop (s.tree.val [tindBlock]))
      (fun i s' => v.truncDindirect (ndirBlocks + v.a + (i + 1) * v.a * v.a)
        (.entry (s.tree.val [tindBlock]) i) s')
      (m := (((v.size : ℤ) - (v.a * v.a + v.a + ndirBlocks : ℕ)).tdiv (v.a * v.a : ℕ)).toNat)
      (fun _ _ => rfl) (fun _ _ _ => rfl) hq hleaf hslot hne (.inl rfl) hready
      (fun i hi _ => ?_) fun j s' hle hj hready' hval => ?_
    · obtain ⟨new, hdo⟩ := hfinish
      refine ⟨new, ?_⟩
      change Does v _ s (if v.ok (s.tree.val [tindBlock]) = false then _ else _) new
      rw [if_neg (by rw [hread]; decide)]
      exact hdo
    · rw [hstop]
      exact (hstart i).mp hi
    · rw [← hfirst, ← hval, ← Tree.slotOf_snoc s'.tree hq.ne_nil]
      refine truncDindirect_does ha hready' (hq.snoc hleaf hj) (htwo j)
        (hasSlot_snoc j (hval ▸ hne)) (.inr ?_)
      rw [hstop]
      exact not_le.mp (mt (hstart j).mpr (not_lt.mpr hle))

theorem truncDirect_does (hready : Ready v s.tree) :
    ∃ new, Does v (Entries [] 0 ndirBlocks) s (v.truncDirect s) new := by
  have hdo := data_does (q := []) (m := v.size) hready (.inl rfl) fun j hj => by
    rw [show first v.a ([] ++ [j]) = j from if_pos (Nat.le_of_lt hj)]
  exact hdo

end LinuxKernel.Ext2Tree
