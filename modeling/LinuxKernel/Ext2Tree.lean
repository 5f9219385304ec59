import LinuxKernel.Ext2TreeModel

/-!
# Paths in the block tree of an inode

A block of the tree has a path: the number in `i_data`, and the numbers in the index blocks.  Where
no block is in the tree twice, a write into the slot at the end of a path changes the block of that
path and of no other, if an index block that is put in is empty and one that is taken out is empty.
-/

namespace LinuxKernel.Ext2Tree
open Function List

variable {a : ℕ} {t t' : Tree} {q r p : List ℕ} {i j n x : ℕ} {js : List ℕ}

def levels (i : ℕ) : ℕ := i - 11

def IsPath (a : ℕ) : List ℕ → Prop
  | [] => False
  | i :: js => i ≤ tindBlock ∧ js.length ≤ levels i ∧ ∀ j ∈ js, j < a

def IsLeaf (a : ℕ) : List ℕ → Prop
  | [] => False
  | i :: js => i ≤ tindBlock ∧ js.length = levels i ∧ ∀ j ∈ js, j < a

theorem IsLeaf.isPath (h : IsLeaf a q) : IsPath a q := by
  cases q with
  | nil => exact h
  | cons i js => exact ⟨h.1, h.2.1.le, h.2.2⟩

theorem IsPath.ne_nil (h : IsPath a q) : q ≠ [] := by
  rintro rfl
  exact h

theorem IsPath.init (h : IsPath a (q ++ [j])) (hq : q ≠ []) :
    IsPath a q ∧ ¬ IsLeaf a q ∧ j < a := by
  cases q with
  | nil => exact absurd rfl hq
  | cons i js =>
    rw [cons_append] at h
    obtain ⟨hi, hlen, hjs⟩ := h
    rw [length_append, length_singleton] at hlen
    refine ⟨⟨hi, by omega, fun k hk => hjs k (mem_append_left _ hk)⟩, ?_, hjs j (by simp)⟩
    rintro ⟨-, hleaf, -⟩
    omega

theorem IsPath.snoc (h : IsPath a q) (hleaf : ¬ IsLeaf a q) (hj : j < a) : IsPath a (q ++ [j]) := by
  cases q with
  | nil => exact absurd h id
  | cons i js =>
    obtain ⟨hi, hlen, hjs⟩ := h
    have hlt : js.length < levels i := by
      rcases Nat.lt_or_eq_of_le hlen with hlt | heq
      · exact hlt
      · exact absurd ⟨hi, heq, hjs⟩ hleaf
    rw [cons_append]
    refine ⟨hi, ?_, fun k hk => ?_⟩
    · rw [length_append, length_singleton]
      omega
    · rcases mem_append.mp hk with hk | hk
      · exact hjs k hk
      · rwa [mem_singleton.mp hk]

theorem IsPath.of_prefix (h : IsPath a r) (hq : q <+: r) (hne : q ≠ []) : IsPath a q := by
  obtain ⟨s, rfl⟩ := hq
  cases q with
  | nil => exact absurd rfl hne
  | cons i js =>
    rw [cons_append] at h
    obtain ⟨hi, hlen, hjs⟩ := h
    rw [length_append] at hlen
    exact ⟨hi, by omega, fun k hk => hjs k (mem_append_left _ hk)⟩

theorem IsLeaf.eq_of_prefix (h : IsLeaf a q) (hr : IsPath a r) (hq : q <+: r) : q = r := by
  obtain ⟨s, rfl⟩ := hq
  cases q with
  | nil => exact absurd h id
  | cons i js =>
    rw [cons_append] at hr
    obtain ⟨-, hlen, -⟩ := hr
    have hleaf := h.2.1
    rw [length_append] at hlen
    have hs : s.length = 0 := by omega
    rw [length_eq_zero_iff.mp hs, append_nil]

namespace Tree

def walk (t : Tree) : ℕ → List ℕ → ℕ
  | n, [] => n
  | n, j :: js => if n = 0 then 0 else t.walk (t.store n j) js

def val (t : Tree) : List ℕ → ℕ
  | [] => 0
  | i :: js => t.walk (t.data i) js

theorem walk_zero (t : Tree) (js : List ℕ) : t.walk 0 js = 0 := by
  cases js with
  | nil => rfl
  | cons j js => exact if_pos rfl

theorem walk_append (t : Tree) (n : ℕ) (js ks : List ℕ) :
    t.walk n (js ++ ks) = t.walk (t.walk n js) ks := by
  induction js generalizing n with
  | nil => rfl
  | cons j js ih =>
    by_cases hn : n = 0
    · rw [hn, walk_zero, walk_zero, walk_zero]
    · rw [cons_append, walk, if_neg hn, ih, walk, if_neg hn]

theorem val_append (t : Tree) (hq : q ≠ []) (js : List ℕ) :
    t.val (q ++ js) = t.walk (t.val q) js := by
  cases q with
  | nil => exact absurd rfl hq
  | cons i ks => exact walk_append t _ ks js

theorem val_snoc (t : Tree) (hq : q ≠ []) (j : ℕ) :
    t.val (q ++ [j]) = if t.val q = 0 then 0 else t.store (t.val q) j := val_append t hq [j]

theorem val_prefix (hq : q <+: r) (hne : q ≠ []) (h : t.val r ≠ 0) : t.val q ≠ 0 := by
  obtain ⟨s, rfl⟩ := hq
  intro hzero
  rw [val_append t hne, hzero, walk_zero] at h
  exact h rfl

theorem val_prefix_eq_zero (hq : q <+: r) (hne : q ≠ []) (h : t.val q = 0) : t.val r = 0 := by
  by_contra hr
  exact val_prefix hq hne hr h

def slotOf (t : Tree) : List ℕ → Slot
  | [] => .data 0
  | [i] => .data i
  | i :: j :: js => .entry (t.val (i :: (j :: js).dropLast)) ((j :: js).getLast (by simp))

theorem slotOf_snoc (t : Tree) (hq : q ≠ []) (j : ℕ) :
    t.slotOf (q ++ [j]) = .entry (t.val q) j := by
  cases q with
  | nil => exact absurd rfl hq
  | cons i js =>
    cases js with
    | nil => rfl
    | cons k ks =>
      change Slot.entry (t.val (i :: (k :: (ks ++ [j])).dropLast))
        ((k :: (ks ++ [j])).getLast _) = _
      congr 2
      · rw [← cons_append, dropLast_concat]
      · rw [getLast_cons (by simp), getLast_append_singleton]

def HasSlot (t : Tree) (q : List ℕ) : Prop := ∀ p j, p ≠ [] → q = p ++ [j] → t.val p ≠ 0

theorem read_slotOf (hne : q ≠ []) (hslot : t.HasSlot q) : t.read (t.slotOf q) = t.val q := by
  induction q using List.reverseRecOn with
  | nil => exact absurd rfl hne
  | append_singleton p j _ =>
    by_cases hp : p = []
    · rw [hp]
      rfl
    · rw [slotOf_snoc t hp, val_snoc t hp, if_neg (hslot p j hp rfl)]
      rfl

end Tree

def Sane (a : ℕ) (t : Tree) : Prop :=
  ∀ q r, IsPath a q → IsPath a r → t.val q ≠ 0 → t.val q = t.val r → q = r

def Unused (a : ℕ) (t : Tree) (x : ℕ) : Prop := ∀ q, IsPath a q → t.val q ≠ x

def Sets (a : ℕ) (t t' : Tree) (q : List ℕ) (x : ℕ) : Prop :=
  ∀ r, IsPath a r → t'.val r = if r = q then x else t.val r

section
variable (hsane : Sane a t) (hq : IsPath a q)
include hsane hq

theorem val_write_of_not_prefix (x : ℕ) (hr : IsPath a r) (hnot : ¬ q <+: r) :
    (t.write (t.slotOf q) x).val r = t.val r := by
  induction r using List.reverseRecOn with
  | nil => exact absurd hr id
  | append_singleton r' k ih =>
    by_cases hr' : r' = []
    · subst hr'
      cases q using List.reverseRecOn with
      | nil => exact absurd hq id
      | append_singleton p j =>
        by_cases hp : p = []
        · subst hp
          refine update_of_ne (fun heq => hnot ?_) _ _
          rw [heq]
        · rw [Tree.slotOf_snoc t hp]
          rfl
    · obtain ⟨hpath, hinner, hk⟩ := hr.init hr'
      have hsame := ih hpath fun hpre => hnot (hpre.trans (prefix_append r' [k]))
      rw [Tree.val_snoc _ hr', Tree.val_snoc _ hr', hsame]
      by_cases hzero : t.val r' = 0
      · rw [if_pos hzero, if_pos hzero]
      · rw [if_neg hzero, if_neg hzero]
        cases q using List.reverseRecOn with
        | nil => exact absurd hq id
        | append_singleton p j =>
          by_cases hp : p = []
          · subst hp
            rfl
          · rw [Tree.slotOf_snoc t hp]
            change update t.store (t.val p) (update (t.store (t.val p)) j x)
              (t.val r') k = _
            by_cases hbh : t.val r' = t.val p
            · obtain rfl := hsane r' p hpath (hq.init hp).1 hzero hbh
              rw [update_self]
              refine update_of_ne (fun heq => hnot ?_) _ _
              rw [heq]
            · rw [update_of_ne hbh]

theorem val_write_self (hslot : t.HasSlot q) (x : ℕ) : (t.write (t.slotOf q) x).val q = x := by
  cases q using List.reverseRecOn with
  | nil => exact absurd hq id
  | append_singleton p j =>
    by_cases hp : p = []
    · subst hp
      exact update_self ..
    · have hsame := val_write_of_not_prefix hsane hq x (hq.init hp).1 fun hpre => by
        have := hpre.length_le
        simp at this
      rw [Tree.val_snoc _ hp, hsame, if_neg (hslot p j hp rfl), Tree.slotOf_snoc t hp]
      change update t.store (t.val p) (update (t.store (t.val p)) j x)
        (t.val p) j = x
      rw [update_self, update_self]

omit hsane hq in
theorem val_below (hq : q ≠ []) (hzero : ∀ j < a, t.store (t.val q) j = 0) (hr : IsPath a r)
    (hpre : q <+: r) (hne : r ≠ q) : t.val r = 0 := by
  obtain ⟨s, rfl⟩ := hpre
  cases s with
  | nil => exact absurd (append_nil q) hne
  | cons j js =>
    have hj : j < a := by
      cases q with
      | nil => exact absurd rfl hq
      | cons i ks =>
        exact hr.2.2 j (by simp)
    rw [Tree.val_append t hq, Tree.walk, hzero j hj, Tree.walk_zero, ite_self]

theorem sets_fill (hslot : t.HasSlot q) (hempty : t.val q = 0) (hunused : Unused a t x)
    (hzero : ∀ j < a, t.store x j = 0) : Sets a t (t.write (t.slotOf q) x) q x := by
  intro r hr
  have hself := val_write_self hsane hq hslot x
  by_cases hrq : r = q
  · rw [hrq, if_pos rfl, hself]
  · rw [if_neg hrq]
    by_cases hpre : q <+: r
    · rw [Tree.val_prefix_eq_zero hpre hq.ne_nil hempty]
      refine val_below hq.ne_nil (fun j hj => ?_) hr hpre hrq
      rw [hself]
      -- the write is in another block, for `x` is in no slot
      cases q using List.reverseRecOn with
      | nil => exact absurd hq id
      | append_singleton p k =>
        by_cases hp : p = []
        · subst hp
          exact hzero j hj
        · rw [Tree.slotOf_snoc t hp]
          change update t.store (t.val p) _ x j = 0
          rw [update_of_ne fun heq => hunused p (hq.init hp).1 heq.symm]
          exact hzero j hj
    · exact val_write_of_not_prefix hsane hq x hr hpre

theorem sets_clear (hslot : t.HasSlot q) (hbelow : ∀ j, IsPath a (q ++ [j]) → t.val (q ++ [j]) = 0)
    : Sets a t (t.write (t.slotOf q) 0) q 0 := by
  intro r hr
  have hself := val_write_self hsane hq hslot 0
  by_cases hrq : r = q
  · rw [hrq, if_pos rfl, hself]
  · rw [if_neg hrq]
    by_cases hpre : q <+: r
    · rw [Tree.val_prefix_eq_zero hpre hq.ne_nil hself]
      obtain ⟨s, rfl⟩ := hpre
      cases s with
      | nil => exact absurd (append_nil q) hrq
      | cons j js =>
        have hfirst : q ++ [j] <+: q ++ j :: js := ⟨js, by simp⟩
        exact (Tree.val_prefix_eq_zero hfirst (by simp)
          (hbelow j (hr.of_prefix hfirst (by simp)))).symm
    · exact val_write_of_not_prefix hsane hq 0 hr hpre

end

theorem Sets.sane_fill (h : Sets a t t' q x) (hsane : Sane a t) (hunused : Unused a t x) :
    Sane a t' := by
  intro r s hr hs hne heq
  rw [h r hr] at hne heq
  rw [h s hs] at heq
  by_cases hrq : r = q
  · by_cases hsq : s = q
    · rw [hrq, hsq]
    · rw [if_pos hrq, if_neg hsq] at heq
      exact absurd heq.symm (hunused s hs)
  · by_cases hsq : s = q
    · rw [if_neg hrq, if_pos hsq] at heq
      exact absurd heq (hunused r hr)
    · rw [if_neg hrq] at hne
      rw [if_neg hrq, if_neg hsq] at heq
      exact hsane r s hr hs hne heq

theorem Sets.sane_clear (h : Sets a t t' q 0) (hsane : Sane a t) : Sane a t' := by
  intro r s hr hs hne heq
  rw [h r hr] at hne heq
  rw [h s hs] at heq
  by_cases hrq : r = q
  · rw [if_pos hrq] at hne
    exact absurd rfl hne
  · rw [if_neg hrq] at hne heq
    by_cases hsq : s = q
    · rw [if_pos hsq] at heq
      exact absurd heq hne
    · rw [if_neg hsq] at heq
      exact hsane r s hr hs hne heq

end LinuxKernel.Ext2Tree
