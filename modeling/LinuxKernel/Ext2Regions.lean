import LinuxKernel.Ext2Tree

/-!
# Cutting the block tree of an inode

A path stands for a range of the file.  `Cut` says of a set of paths that the blocks of the file
from some block on are gone there, the index blocks that have become empty with them, and which
blocks have been freed.  Cuts of disjoint sets follow each other.
-/

namespace LinuxKernel.Ext2Tree
open List

variable {a D : ℕ} {t t' t'' : Tree} {q r p : List ℕ} {i j n x : ℕ} {f g : List ℕ}
variable {R R' : List ℕ → Prop}

/-! ## The range of a path -/

def base (a i : ℕ) : ℕ :=
  if i ≤ indBlock then i
  else if i = dindBlock then ndirBlocks + a
  else ndirBlocks + a + a * a

def height : List ℕ → ℕ
  | [] => 0
  | i :: js => levels i - js.length

def firstFrom (a : ℕ) : ℕ → ℕ → List ℕ → ℕ
  | _, first, [] => first
  | h, first, j :: js => firstFrom a (h - 1) (first + j * a ^ (h - 1)) js

def first (a : ℕ) : List ℕ → ℕ
  | [] => 0
  | i :: js => firstFrom a (levels i) (base a i) js

def stop (a : ℕ) (q : List ℕ) : ℕ := first a q + a ^ height q

theorem firstFrom_snoc (a h f : ℕ) (js : List ℕ) (j : ℕ) :
    firstFrom a h f (js ++ [j]) = firstFrom a h f js + j * a ^ (h - js.length - 1) := by
  induction js generalizing h f with
  | nil => rfl
  | cons k ks ih =>
    change firstFrom a (h - 1) _ (ks ++ [j]) = firstFrom a (h - 1) _ ks + _
    rw [ih, length_cons]
    congr 3
    omega

theorem height_snoc (hq : q ≠ []) (j : ℕ) : height (q ++ [j]) = height q - 1 := by
  cases q with
  | nil => exact absurd rfl hq
  | cons i js =>
    change levels i - (js ++ [j]).length = levels i - js.length - 1
    rw [length_append, length_singleton]
    omega

theorem first_snoc (hq : q ≠ []) (j : ℕ) :
    first a (q ++ [j]) = first a q + j * a ^ height (q ++ [j]) := by
  rw [height_snoc hq]
  cases q with
  | nil => exact absurd rfl hq
  | cons i js => exact firstFrom_snoc a (levels i) (base a i) js j

theorem height_leaf (h : IsLeaf a q) : height q = 0 := by
  cases q with
  | nil => rfl
  | cons i js =>
    change levels i - js.length = 0
    rw [h.2.1, Nat.sub_self]

theorem height_pos (h : IsPath a q) (hleaf : ¬ IsLeaf a q) : 0 < height q := by
  cases q with
  | nil => exact absurd h id
  | cons i js =>
    by_contra hzero
    have heq : levels i - js.length = 0 := by
      change ¬ 0 < levels i - js.length at hzero
      omega
    have hlen := h.2.1
    exact hleaf ⟨h.1, by omega, h.2.2⟩

theorem isLeaf_of_height (h : IsPath a q) (hzero : height q = 0) : IsLeaf a q := by
  by_contra hleaf
  have := height_pos h hleaf
  omega

theorem range_snoc (h : IsPath a (q ++ [j])) (hq : q ≠ []) :
    first a (q ++ [j]) = first a q + j * a ^ height (q ++ [j]) ∧
      stop a (q ++ [j]) = first a q + (j + 1) * a ^ height (q ++ [j]) ∧
      stop a q = first a q + a * a ^ height (q ++ [j]) := by
  obtain ⟨hpath, hleaf, -⟩ := h.init hq
  have hpos := height_pos hpath hleaf
  have hheight := height_snoc hq j
  refine ⟨first_snoc hq j, ?_, ?_⟩
  · unfold stop
    rw [first_snoc hq j]
    ring
  · unfold stop
    rw [show height q = height (q ++ [j]) + 1 by omega, pow_succ]
    ring

theorem range_under (hr : IsPath a r) (hpre : q <+: r) (hq : q ≠ []) :
    first a q ≤ first a r ∧ stop a r ≤ stop a q := by
  obtain ⟨s, rfl⟩ := hpre
  induction s using List.reverseRecOn with
  | nil =>
    rw [append_nil]
    exact ⟨le_rfl, le_rfl⟩
  | append_singleton s j ih =>
    rw [← append_assoc] at hr ⊢
    have hne : q ++ s ≠ [] := by simp [hq]
    obtain ⟨hpath, -, hj⟩ := hr.init hne
    obtain ⟨hlow, hhigh⟩ := ih hpath
    obtain ⟨hfirst, hstop, hwhole⟩ := range_snoc hr hne
    have hle : (j + 1) * a ^ height (q ++ s ++ [j]) ≤ a * a ^ height (q ++ s ++ [j]) :=
      Nat.mul_le_mul_right _ hj
    omega

/-! ## Cuts -/

/-- The routine for the path is called: it is a slot of the inode, or reaches behind block `D` of
the file. -/
def Visited (a D : ℕ) (r : List ℕ) : Prop := r.length = 1 ∨ D < stop a r

def Bare (a : ℕ) (t : Tree) (r : List ℕ) : Prop := ∀ j < a, t.val (r ++ [j]) = 0

/-- On the paths of `R` the tree is cut at block `D` of the file, and `freed` are the blocks that
have gone. -/
structure Cut (a D : ℕ) (R : List ℕ → Prop) (t t' : Tree) (freed : List ℕ) : Prop where
  frame : ∀ r, IsPath a r → ¬ R r → t'.val r = t.val r
  leaf : ∀ r, IsLeaf a r → R r → t'.val r = if first a r < D then t.val r else 0
  gone : ∀ r, IsPath a r → ¬ IsLeaf a r → R r → Bare a t' r → Visited a D r → t'.val r = 0
  kept : ∀ r, IsPath a r → ¬ IsLeaf a r → R r → ¬ (Bare a t' r ∧ Visited a D r) → t'.val r = t.val r
  mem_freed : ∀ x, x ∈ freed ↔ x ≠ 0 ∧ ∃ r, IsPath a r ∧ R r ∧ t.val r = x ∧ t'.val r = 0
  nodup : freed.Nodup

theorem Cut.zero_or (h : Cut a D R t t' f) (hr : IsPath a r) :
    t'.val r = 0 ∨ t'.val r = t.val r := by
  by_cases hR : R r
  · by_cases hleaf : IsLeaf a r
    · rw [h.leaf r hleaf hR]
      split_ifs
      · exact .inr rfl
      · exact .inl rfl
    · by_cases hgone : Bare a t' r ∧ Visited a D r
      · exact .inl (h.gone r hr hleaf hR hgone.1 hgone.2)
      · exact .inr (h.kept r hr hleaf hR hgone)
  · exact .inr (h.frame r hr hR)

theorem Cut.sane (h : Cut a D R t t' f) (hsane : Sane a t) : Sane a t' := by
  intro q r hq hr hne heq
  rcases h.zero_or hq with hzero | hsame
  · exact absurd hzero hne
  · rcases h.zero_or hr with hzero' | hsame'
    · exact absurd (heq.trans hzero') hne
    · rw [hsame] at hne heq
      rw [hsame'] at heq
      exact hsane q r hq hr hne heq

theorem Cut.congr (h : Cut a D R t t' f) (hR : ∀ r, IsPath a r → (R' r ↔ R r)) :
    Cut a D R' t t' f where
  frame r hr hnot := h.frame r hr fun hin => hnot ((hR r hr).mpr hin)
  leaf r hr hin := h.leaf r hr ((hR r hr.isPath).mp hin)
  gone r hr hleaf hin := h.gone r hr hleaf ((hR r hr).mp hin)
  kept r hr hleaf hin := h.kept r hr hleaf ((hR r hr).mp hin)
  mem_freed x := by
    rw [h.mem_freed]
    constructor
    · rintro ⟨hx, r, hr, hin, hval⟩
      exact ⟨hx, r, hr, (hR r hr).mpr hin, hval⟩
    · rintro ⟨hx, r, hr, hin, hval⟩
      exact ⟨hx, r, hr, (hR r hr).mp hin, hval⟩
  nodup := h.nodup

def Closed (a : ℕ) (R : List ℕ → Prop) : Prop := ∀ r j, IsPath a (r ++ [j]) → R r → R (r ++ [j])

theorem Cut.trans (h : Cut a D R t t' f) (h' : Cut a D R' t' t'' g) (hsane : Sane a t)
    (hclosed : Closed a R) (hdisj : ∀ r, IsPath a r → R r → ¬ R' r) :
    Cut a D (fun r => R r ∨ R' r) t t'' (f ++ g) := by
  have hfirst : ∀ r, IsPath a r → R r → t''.val r = t'.val r := fun r hr hin =>
    h'.frame r hr (hdisj r hr hin)
  have hsecond : ∀ r, IsPath a r → R' r → t'.val r = t.val r := fun r hr hin =>
    h.frame r hr fun hin' => hdisj r hr hin' hin
  have hbare : ∀ r, IsPath a r → ¬ IsLeaf a r → R r → (Bare a t'' r ↔ Bare a t' r) := by
    intro r hr hleaf hin
    refine forall₂_congr fun j hj => ?_
    have hpath := hr.snoc hleaf hj
    rw [hfirst _ hpath (hclosed r j hpath hin)]
  refine ⟨?_, ?_, ?_, ?_, ?_, ?_⟩
  · intro r hr hnot
    rw [h'.frame r hr fun hin => hnot (.inr hin), h.frame r hr fun hin => hnot (.inl hin)]
  · rintro r hr (hin | hin)
    · rw [hfirst r hr.isPath hin, h.leaf r hr hin]
    · rw [h'.leaf r hr hin, hsecond r hr.isPath hin]
  · rintro r hr hleaf (hin | hin) hzero hvisited
    · rw [hfirst r hr hin]
      exact h.gone r hr hleaf hin ((hbare r hr hleaf hin).mp hzero) hvisited
    · exact h'.gone r hr hleaf hin hzero hvisited
  · rintro r hr hleaf (hin | hin) hnot
    · rw [hfirst r hr hin]
      exact h.kept r hr hleaf hin fun hgone =>
        hnot ⟨(hbare r hr hleaf hin).mpr hgone.1, hgone.2⟩
    · rw [h'.kept r hr hleaf hin hnot, hsecond r hr hin]
  · intro x
    rw [mem_append, h.mem_freed, h'.mem_freed]
    constructor
    · rintro (⟨hx, r, hr, hin, hval, hzero⟩ | ⟨hx, r, hr, hin, hval, hzero⟩)
      · exact ⟨hx, r, hr, .inl hin, hval, (hfirst r hr hin).trans hzero⟩
      · exact ⟨hx, r, hr, .inr hin, (hsecond r hr hin).symm.trans hval, hzero⟩
    · rintro ⟨hx, r, hr, hin | hin, hval, hzero⟩
      · exact .inl ⟨hx, r, hr, hin, hval, (hfirst r hr hin).symm.trans hzero⟩
      · exact .inr ⟨hx, r, hr, hin, (hsecond r hr hin).trans hval, hzero⟩
  · refine nodup_append'.mpr ⟨h.nodup, h'.nodup, ?_⟩
    intro x hx hx'
    obtain ⟨hne, r, hr, hin, hval, -⟩ := (h.mem_freed x).mp hx
    obtain ⟨-, s, hs, hin', hval', -⟩ := (h'.mem_freed x).mp hx'
    rw [hsecond s hs hin'] at hval'
    have heq := hsane r s hr hs (by rw [hval]; exact hne) (hval.trans hval'.symm)
    exact hdisj r hr hin (heq ▸ hin')

theorem cut_empty (h : ∀ r, IsPath a r → R r → t.val r = 0) : Cut a D R t t [] where
  frame _ _ _ := rfl
  leaf r hr hin := by rw [h r hr.isPath hin, ite_self]
  gone r hr _ hin _ _ := h r hr hin
  kept _ _ _ _ _ := rfl
  mem_freed x := by
    refine iff_of_false (by simp) ?_
    rintro ⟨hx, r, hr, hin, hval, -⟩
    exact hx (hval.symm.trans (h r hr hin))
  nodup := nodup_nil

theorem cut_below
    (h : ∀ r, IsPath a r → R r → stop a r ≤ D ∧ (IsLeaf a r ∨ r.length ≠ 1)) :
    Cut a D R t t [] where
  frame _ _ _ := rfl
  leaf r hr hin := by
    have hstop := (h r hr.isPath hin).1
    unfold stop at hstop
    rw [height_leaf hr, pow_zero] at hstop
    rw [if_pos (by omega)]
  gone r hr hleaf hin _ hvisited := by
    obtain ⟨hstop, hlen⟩ := h r hr hin
    rcases hvisited with hone | hlt
    · exact absurd hone (hlen.resolve_left hleaf)
    · omega
  kept _ _ _ _ _ := rfl
  mem_freed x := by
    refine iff_of_false (by simp) ?_
    rintro ⟨hx, r, -, -, hval, hzero⟩
    exact hx (hval.symm.trans hzero)
  nodup := nodup_nil

theorem cut_leaf (hsane : Sane a t) (hq : IsLeaf a q) (hslot : t.HasSlot q) (hD : D ≤ first a q)
    (hne : t.val q ≠ 0) : Cut a D (fun r => q <+: r) t (t.write (t.slotOf q) 0) [t.val q] := by
  have hsets : Sets a t (t.write (t.slotOf q) 0) q 0 := by
    refine sets_clear hsane hq.isPath hslot fun j hj => ?_
    have heq := hq.eq_of_prefix hj (prefix_append q [j])
    simp at heq
  suffices hself : Cut a D (fun r => r = q) t (t.write (t.slotOf q) 0) [t.val q] by
    refine hself.congr fun r hr => ⟨fun hpre => (hq.eq_of_prefix hr hpre).symm, ?_⟩
    rintro rfl
    exact prefix_rfl
  refine ⟨?_, ?_, ?_, ?_, ?_, nodup_singleton _⟩
  · intro r hr hnot
    rw [hsets r hr, if_neg hnot]
  · rintro r hr rfl
    rw [hsets r hr.isPath, if_pos rfl, if_neg (by omega)]
  · rintro r hr hleaf rfl
    exact absurd hq hleaf
  · rintro r hr hleaf rfl
    exact absurd hq hleaf
  · intro x
    rw [mem_singleton]
    constructor
    · rintro rfl
      exact ⟨hne, q, hq.isPath, rfl, rfl, by rw [hsets q hq.isPath, if_pos rfl]⟩
    · rintro ⟨-, r, -, rfl, hval, -⟩
      exact hval.symm

theorem cut_bare (hsane : Sane a t) (hq : IsPath a q) (hleaf : ¬ IsLeaf a q) (hslot : t.HasSlot q)
    (hne : t.val q ≠ 0) (hbare : Bare a t q) (hvisited : Visited a D q) :
    Cut a D (fun r => r = q) t (t.write (t.slotOf q) 0) [t.val q] := by
  have hsets : Sets a t (t.write (t.slotOf q) 0) q 0 :=
    sets_clear hsane hq hslot fun j hj => hbare j (hj.init hq.ne_nil).2.2
  have hzero : (t.write (t.slotOf q) 0).val q = 0 := by rw [hsets q hq, if_pos rfl]
  have hchild : Bare a (t.write (t.slotOf q) 0) q := by
    intro j hj
    have hpath := hq.snoc hleaf hj
    rw [hsets _ hpath, if_neg (by simp), hbare j hj]
  refine ⟨?_, ?_, ?_, ?_, ?_, nodup_singleton _⟩
  · intro r hr hnot
    rw [hsets r hr, if_neg hnot]
  · rintro r hr rfl
    exact absurd hr hleaf
  · rintro r hr - rfl - -
    exact hzero
  · rintro r hr - rfl hnot
    exact absurd ⟨hchild, hvisited⟩ hnot
  · intro x
    rw [mem_singleton]
    constructor
    · rintro rfl
      exact ⟨hne, q, hq, rfl, rfl, hzero⟩
    · rintro ⟨-, r, -, rfl, hval, -⟩
      exact hval.symm

theorem cut_full (hleaf : ¬ IsLeaf a q) (hfull : ¬ Bare a t q) :
    Cut a D (fun r => r = q) t t [] where
  frame _ _ _ := rfl
  leaf r hr hin := absurd (hin ▸ hr) hleaf
  gone r _ _ hin hbare _ := absurd (hin ▸ hbare) hfull
  kept _ _ _ _ _ := rfl
  mem_freed x := by
    refine iff_of_false (by simp) ?_
    rintro ⟨hx, r, -, -, hval, hzero⟩
    exact hx (hval.symm.trans hzero)
  nodup := nodup_nil

/-! ## The parts of an index block -/

def Entries (q : List ℕ) (m n : ℕ) (r : List ℕ) : Prop := ∃ i, m ≤ i ∧ i < n ∧ q ++ [i] <+: r

theorem closed_entries (a : ℕ) (q : List ℕ) (m n : ℕ) : Closed a (Entries q m n) := by
  rintro r j - ⟨i, hm, hn, hpre⟩
  exact ⟨i, hm, hn, hpre.trans (prefix_append r [j])⟩

theorem closed_under (a : ℕ) (q : List ℕ) : Closed a (fun r => q <+: r) :=
  fun r j _ hpre => hpre.trans (prefix_append r [j])

theorem eq_of_prefixes (h : q ++ [i] <+: r) (h' : q ++ [j] <+: r) : i = j := by
  have heq : q ++ [i] = q ++ [j] :=
    (prefix_of_prefix_length_le h h' (by simp)).eq_of_length (by simp)
  exact singleton_inj.mp (append_cancel_left heq)

theorem prefix_iff (hq : q ≠ []) (hr : IsPath a r) : q <+: r ↔ Entries q 0 a r ∨ r = q := by
  constructor
  · rintro ⟨s, rfl⟩
    cases s with
    | nil => exact .inr (append_nil q)
    | cons j js =>
      have hpre : q ++ [j] <+: q ++ j :: js := ⟨js, by simp⟩
      exact .inl ⟨j, Nat.zero_le j, ((hr.of_prefix hpre (by simp)).init hq).2.2, hpre⟩
  · rintro (⟨i, -, -, hpre⟩ | rfl)
    · exact (prefix_append q [i]).trans hpre
    · exact prefix_rfl

section
variable (q : List ℕ)

theorem entries_head {m n : ℕ} (hmn : m < n) (r : List ℕ) :
    Entries q m n r ↔ q ++ [m] <+: r ∨ Entries q (m + 1) n r := by
  constructor
  · rintro ⟨i, hm, hn, hpre⟩
    rcases Nat.eq_or_lt_of_le hm with rfl | hlt
    · exact .inl hpre
    · exact .inr ⟨i, hlt, hn, hpre⟩
  · rintro (hpre | ⟨i, hm, hn, hpre⟩)
    · exact ⟨m, le_rfl, hmn, hpre⟩
    · exact ⟨i, by omega, hn, hpre⟩

theorem disjoint_entries {m n : ℕ} (r : List ℕ) (h : q ++ [m] <+: r) : ¬ Entries q (m + 1) n r := by
  rintro ⟨i, hlt, -, hpre⟩
  exact absurd (eq_of_prefixes h hpre) (by omega)

theorem entries_split (m n : ℕ) (r : List ℕ) :
    Entries q 0 n r ↔ Entries q 0 (min m n) r ∨ Entries q m (m + (n - m)) r := by
  constructor
  · rintro ⟨i, -, hn, hpre⟩
    rcases Nat.lt_or_ge i m with hlt | hge
    · exact .inl ⟨i, Nat.zero_le i, by omega, hpre⟩
    · exact .inr ⟨i, hge, by omega, hpre⟩
  · rintro (⟨i, -, hn, hpre⟩ | ⟨i, hm, hn, hpre⟩)
    · exact ⟨i, Nat.zero_le i, by omega, hpre⟩
    · exact ⟨i, Nat.zero_le i, by omega, hpre⟩

theorem disjoint_split {m k n : ℕ} (r : List ℕ) (h : Entries q 0 (min m k) r) :
    ¬ Entries q m n r := by
  obtain ⟨i, -, hlt, hpre⟩ := h
  rintro ⟨j, hge, -, hpre'⟩
  exact absurd (eq_of_prefixes hpre hpre') (by omega)

theorem disjoint_self {m n : ℕ} (r : List ℕ) (h : Entries q m n r) : ¬ r = q := by
  obtain ⟨i, -, -, hpre⟩ := h
  rintro rfl
  have := hpre.length_le
  simp at this

end

theorem cut_entries_below {m : ℕ} (hm : ∀ i < m, IsPath a (q ++ [i]) →
      stop a (q ++ [i]) ≤ D ∧ (IsLeaf a (q ++ [i]) ∨ q ≠ [])) :
    Cut a D (Entries q 0 m) t t [] := by
  refine cut_below ?_
  rintro r hr ⟨i, -, hlt, hpre⟩
  have hpath := hr.of_prefix hpre (by simp)
  have hstop := (range_under hr hpre (by simp)).2
  obtain ⟨hend, hkind⟩ := hm i hlt hpath
  refine ⟨hstop.trans hend, ?_⟩
  rcases hkind with hleaf | hne
  · left
    rwa [← hleaf.eq_of_prefix hr hpre]
  · right
    have hlen := hpre.length_le
    have hpos := length_pos_iff.mpr hne
    rw [length_append, length_singleton] at hlen
    omega

end LinuxKernel.Ext2Tree
