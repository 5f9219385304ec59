import Mathlib.Tactic

/-!
# Doubly linked lists and rings

Which elements the links visit is a list.  The lemmas say what a change of the links does to the
list; the new links are given by their values at the elements of the list only, so that they can
be used whatever else is changed.
-/

namespace LinuxKernel.DoublyLinked
open List

variable {α : Type*} {f g f' g' : α → Option α} {head : Option α} {l l1 l2 : List α} {a b : α}

def Adj (f g : α → Option α) (a b : α) : Prop := f a = some b ∧ g b = some a

/-- From `head` on, the links `f` forward and `g` back visit `l` and end on both sides. -/
structure Chained (head : Option α) (f g : α → Option α) (l : List α) : Prop where
  head : l.head? = head
  adj : l.IsChain (Adj f g)
  first : ∀ a ∈ l.head?, g a = none
  last : ∀ a ∈ l.getLast?, f a = none
  nodup : l.Nodup

theorem chained_nil (f g : α → Option α) : Chained none f g [] :=
  ⟨rfl, List.IsChain.nil, by simp, by simp, nodup_nil⟩

theorem Chained.congr (h : Chained head f g l) (hf : ∀ a ∈ l, f' a = f a)
    (hg : ∀ a ∈ l, g' a = g a) : Chained head f' g' l := by
  refine ⟨h.head, ?_, ?_, ?_, h.nodup⟩
  · refine h.adj.imp_of_mem_imp fun x y hx hy hadj => ?_
    exact ⟨(hf x hx).trans hadj.1, (hg y hy).trans hadj.2⟩
  · intro a ha
    rw [hg a (mem_of_mem_head? ha)]
    exact h.first a ha
  · intro a ha
    rw [hf a (mem_of_getLast? ha)]
    exact h.last a ha

section
variable (h : Chained head f g (l1 ++ a :: l2))
include h

theorem Chained.prev_eq : g a = l1.getLast? := by
  have hsplit := isChain_append.mp h.adj
  cases hlast : l1.getLast? with
  | none =>
    rw [List.getLast?_eq_none_iff] at hlast
    exact h.first a (by simp [hlast])
  | some b => exact (hsplit.2.2 b hlast a rfl).2

theorem Chained.next_eq : f a = l2.head? := by
  have hsplit := isChain_cons.mp (isChain_append.mp h.adj).2.1
  cases hhead : l2.head? with
  | none =>
    rw [List.head?_eq_none_iff] at hhead
    exact h.last a (by simp [hhead])
  | some b => exact (hsplit.1 b hhead).1

omit h in
theorem Chained.push [DecidableEq α] (h : Chained head f g l) (ha : a ∉ l) (hfa : f' a = head)
    (hga : g' a = none)
    (hf : ∀ b ∈ l, f' b = f b) (hg : ∀ b ∈ l, g' b = if head = some b then some a else g b) :
    Chained (some a) f' g' (a :: l) := by
  refine ⟨rfl, ?_, ?_, ?_, nodup_cons.mpr ⟨ha, h.nodup⟩⟩
  · rw [isChain_cons]
    constructor
    · intro b hb
      have hhead : head = some b := h.head.symm.trans hb
      exact ⟨hfa.trans hhead, by rw [hg b (mem_of_mem_head? hb), if_pos hhead]⟩
    · refine h.adj.imp_of_mem_imp fun x y hx hy hadj => ⟨(hf x hx).trans hadj.1, ?_⟩
      have hne : head ≠ some y := by
        intro heq
        have hnone := h.first y (h.head.trans heq)
        rw [hadj.2] at hnone
        exact absurd hnone (by simp)
      rw [hg y hy, if_neg hne]
      exact hadj.2
  · intro b hb
    obtain rfl : a = b := by simpa using hb
    exact hga
  · intro b hb
    cases l with
    | nil =>
      obtain rfl : a = b := by simpa using hb
      rw [hfa, ← h.head]
      rfl
    | cons c l =>
      rw [hf b (mem_of_getLast? hb)]
      exact h.last b hb

theorem Chained.remove [DecidableEq α]
    (hf : ∀ b ∈ l1 ++ l2, f' b = if g a = some b then f a else f b)
    (hg : ∀ b ∈ l1 ++ l2, g' b = if f a = some b then g a else g b) :
    Chained (if g a = none then f a else head) f' g' (l1 ++ l2) := by
  have hprev := h.prev_eq
  have hnext := h.next_eq
  obtain ⟨hchain1, hrest, hjoin⟩ := isChain_append.mp h.adj
  obtain ⟨hjoin2, hchain2⟩ := isChain_cons.mp hrest
  have hnodup := h.nodup
  rw [nodup_append, nodup_cons] at hnodup
  obtain ⟨hnodup1, ⟨ha2, hnodup2⟩, hdisjoint⟩ := hnodup
  have ha1 : a ∉ l1 := fun hmem => hdisjoint a hmem a (mem_cons_self ..) rfl
  have hsep : ∀ x ∈ l1, ∀ y ∈ l2, x ≠ y := fun x hx y hy =>
    hdisjoint x hx y (mem_cons_of_mem _ hy)
  -- the links of elements that are not beside `a`
  have hg1 : ∀ x ∈ l1, g' x = g x := by
    intro x hx
    rw [hg x (mem_append_left _ hx), if_neg]
    intro heq
    rw [hnext] at heq
    exact hsep x hx x (mem_of_mem_head? heq) rfl
  have hf2 : ∀ x ∈ l2, f' x = f x := by
    intro x hx
    rw [hf x (mem_append_right _ hx), if_neg]
    intro heq
    rw [hprev] at heq
    exact hsep x (mem_of_getLast? heq) x hx rfl
  refine ⟨?_, ?_, ?_, ?_, ?_⟩
  · cases l1 with
    | nil =>
      have hnone : g a = none := hprev
      rw [if_pos hnone]
      exact hnext.symm
    | cons c l1 =>
      rw [if_neg (by rw [hprev]; simp), ← h.head]
      rfl
  · rw [isChain_append]
    refine ⟨?_, ?_, ?_⟩
    · refine hchain1.imp_of_mem_imp fun x y hx hy hadj => ⟨?_, (hg1 y hy).trans hadj.2⟩
      rw [hf x (mem_append_left _ hx), if_neg, hadj.1]
      intro heq
      rw [hprev] at heq
      have hfx := (hjoin x heq a rfl).1
      rw [hadj.1] at hfx
      exact ha1 (Option.some.inj hfx ▸ hy)
    · refine hchain2.imp_of_mem_imp fun x y hx hy hadj => ⟨(hf2 x hx).trans hadj.1, ?_⟩
      rw [hg y (mem_append_right _ hy), if_neg, hadj.2]
      intro heq
      rw [hnext] at heq
      have hgy := (hjoin2 y heq).2
      rw [hadj.2] at hgy
      exact ha2 (Option.some.inj hgy ▸ hx)
    · intro x hx y hy
      have hga : g a = some x := hprev.trans hx
      have hfa : f a = some y := hnext.trans hy
      constructor
      · rw [hf x (mem_append_left _ (mem_of_getLast? hx)), if_pos hga, hfa]
      · rw [hg y (mem_append_right _ (mem_of_mem_head? hy)), if_pos hfa, hga]
  · intro x hx
    cases l1 with
    | nil =>
      have hfa : f a = some x := hnext.trans hx
      rw [hg x (mem_of_mem_head? hx), if_pos hfa]
      exact hprev
    | cons c l1 =>
      obtain rfl : c = x := by simpa using hx
      rw [hg1 c (mem_cons_self ..)]
      exact h.first c rfl
  · intro x hx
    cases hl2 : l2.getLast? with
    | none =>
      rw [List.getLast?_eq_none_iff] at hl2
      subst hl2
      rw [append_nil] at hx
      have hga : g a = some x := hprev.trans hx
      rw [hf x (mem_append_left _ (mem_of_getLast? hx)), if_pos hga]
      exact hnext
    | some y =>
      have hxy : x = y := by
        rw [List.getLast?_append, hl2] at hx
        simpa using hx.symm
      subst hxy
      rw [hf2 x (mem_of_getLast? hl2)]
      refine h.last x ?_
      rw [List.getLast?_append, List.getLast?_cons, hl2]
      simp
  · rw [nodup_append]
    exact ⟨hnodup1, hnodup2, hsep⟩

end

structure Ring (a : α) (next prev : α → α) (l : List α) : Prop where
  adj : (a :: l ++ [a]).IsChain fun x y => next x = y ∧ prev y = x
  nodup : (a :: l).Nodup

section Ring

variable {next prev next' prev' : α → α} {p : α}

theorem Ring.getLast?_eq (h : Ring a next prev l) : (a :: l).getLast? = some (prev a) := by
  obtain ⟨-, -, hjoin⟩ := isChain_append.mp h.adj
  cases hlast : (a :: l).getLast? with
  | none => simp at hlast
  | some x =>
    rw [(hjoin x hlast a rfl).2]

theorem Ring.push [DecidableEq α] (h : Ring a next prev l) (hp : p ∉ a :: l) (hnp : next' p = a)
    (hpp : prev' p = prev a) (hn : ∀ x ∈ a :: l, next' x = if x = prev a then p else next x)
    (hv : ∀ x ∈ a :: l, prev' x = if x = a then p else prev x) :
    Ring a next' prev' (l ++ [p]) := by
  obtain ⟨hchain, -, hjoin⟩ := isChain_append.mp h.adj
  have hlast := h.getLast?_eq
  have hmem : a ∈ a :: l := mem_cons_self ..
  constructor
  · have hlist : a :: (l ++ [p]) ++ [a] = (a :: l) ++ [p, a] := by simp
    rw [hlist, isChain_append]
    refine ⟨?_, ?_, ?_⟩
    · refine hchain.imp_of_mem_tail_imp fun x y hx hy hadj => ?_
      have hya : y ≠ a := by
        rintro rfl
        exact (nodup_cons.mp h.nodup).1 hy
      have hxa : x ≠ prev a := by
        rintro rfl
        have := (hjoin _ hlast a rfl).1
        exact hya (hadj.1.symm.trans this)
      rw [hn x hx, if_neg hxa, hv y (mem_of_mem_tail hy), if_neg hya]
      exact hadj
    · rw [isChain_pair]
      exact ⟨hnp, by rw [hv a hmem, if_pos rfl]⟩
    · intro x hx y hy
      obtain rfl : p = y := by simpa using hy
      obtain rfl : prev a = x := by
        rw [hlast] at hx
        simpa using hx
      exact ⟨by rw [hn _ (mem_of_getLast? hlast), if_pos rfl], hpp⟩
  · rw [← cons_append, nodup_append]
    refine ⟨h.nodup, nodup_singleton p, ?_⟩
    intro x hx y hy
    obtain rfl : y = p := by simpa using hy
    rintro rfl
    exact hp hx

theorem Ring.remove [DecidableEq α] (h : Ring a next prev (l1 ++ p :: l2))
    (hn : ∀ x ∈ a :: (l1 ++ l2), next' x = if x = prev p then next p else next x)
    (hv : ∀ x ∈ a :: (l1 ++ l2), prev' x = if x = next p then prev p else prev x) :
    Ring a next' prev' (l1 ++ l2) := by
  have hlist : a :: (l1 ++ p :: l2) ++ [a] = (a :: l1) ++ p :: (l2 ++ [a]) := by simp
  have hadj := h.adj
  rw [hlist, isChain_append] at hadj
  obtain ⟨hchain1, hrest, hprev⟩ := hadj
  obtain ⟨hnext, hchain2⟩ := isChain_cons.mp hrest
  have hnodup := h.nodup
  rw [← cons_append, nodup_append] at hnodup
  obtain ⟨hnodup1, hrest', hdisjoint⟩ := hnodup
  obtain ⟨hp2, hnodup2⟩ := nodup_cons.mp hrest'
  have hp1 : p ∉ a :: l1 := fun hmem => hdisjoint p hmem p (mem_cons_self ..) rfl
  have hpa : p ≠ a := fun heq => hp1 (heq ▸ mem_cons_self ..)
  have hpB : p ∉ l2 ++ [a] := by
    intro hmem
    rcases mem_append.mp hmem with hmem | hmem
    · exact hp2 hmem
    · exact hpa (by simpa using hmem)
  -- the neighbours of `p`
  obtain ⟨x, hx⟩ : ∃ x, (a :: l1).getLast? = some x := by
    cases hlast : (a :: l1).getLast? with
    | none => simp at hlast
    | some x => exact ⟨x, rfl⟩
  obtain ⟨y, hy⟩ : ∃ y, (l2 ++ [a]).head? = some y := by
    cases hhead : (l2 ++ [a]).head? with
    | none => simp at hhead
    | some y => exact ⟨y, rfl⟩
  obtain ⟨hnx, hpx⟩ := hprev x hx p rfl
  obtain ⟨hny, hpy⟩ := hnext y hy
  have hmem1 : ∀ z ∈ a :: l1, z ∈ a :: (l1 ++ l2) := by
    intro z hz
    exact mem_append_left _ hz
  have hmem2 : ∀ z ∈ l2 ++ [a], z ∈ a :: (l1 ++ l2) := by
    intro z hz
    rcases mem_append.mp hz with hz | hz
    · simp [hz]
    · simp [mem_singleton.mp hz]
  -- links between elements that stay
  have hkeep : ∀ u v, u ≠ p → v ≠ p → u ∈ a :: (l1 ++ l2) → v ∈ a :: (l1 ++ l2) →
      next u = v ∧ prev v = u → next' u = v ∧ prev' v = u := by
    intro u v hu hv' hmu hmv huv
    have hux : u ≠ prev p := by
      rw [hpx]
      rintro rfl
      exact hv' (huv.1.symm.trans hnx)
    have hvy : v ≠ next p := by
      rw [hny]
      rintro rfl
      exact hu (huv.2.symm.trans hpy)
    rw [hn u hmu, if_neg hux, hv v hmv, if_neg hvy]
    exact huv
  constructor
  · have hlist' : a :: (l1 ++ l2) ++ [a] = (a :: l1) ++ (l2 ++ [a]) := by simp
    rw [hlist', isChain_append]
    refine ⟨?_, ?_, ?_⟩
    · refine hchain1.imp_of_mem_imp fun u v hu hv' huv => ?_
      exact hkeep u v (fun h => hp1 (h ▸ hu)) (fun h => hp1 (h ▸ hv')) (hmem1 u hu)
        (hmem1 v hv') huv
    · refine hchain2.imp_of_mem_imp fun u v hu hv' huv => ?_
      exact hkeep u v (fun h => hpB (h ▸ hu)) (fun h => hpB (h ▸ hv')) (hmem2 u hu)
        (hmem2 v hv') huv
    · intro u hu v hv'
      obtain rfl : x = u := by
        rw [hx] at hu
        simpa using hu
      obtain rfl : y = v := by
        rw [hy] at hv'
        simpa using hv'
      constructor
      · rw [hn x (hmem1 x (mem_of_getLast? hx)), if_pos hpx.symm, hny]
      · rw [hv y (hmem2 y (mem_of_mem_head? hy)), if_pos hny.symm, hpx]
  · rw [← cons_append, nodup_append]
    exact ⟨hnodup1, hnodup2, fun u hu v hv' => hdisjoint u hu v (mem_cons_of_mem _ hv')⟩

theorem Ring.congr (h : Ring a next prev l) (hn : ∀ x ∈ a :: l, next' x = next x)
    (hv : ∀ x ∈ a :: l, prev' x = prev x) : Ring a next' prev' l := by
  refine ⟨h.adj.imp_of_mem_imp fun x y hx hy hadj => ?_, h.nodup⟩
  have hmem : ∀ z ∈ a :: l ++ [a], z ∈ a :: l := by
    intro z hz
    rcases mem_append.mp hz with hz | hz
    · exact hz
    · rw [mem_singleton.mp hz]
      exact mem_cons_self ..
  rw [hn x (hmem x hx), hv y (hmem y hy)]
  exact hadj

theorem Ring.rotate (h : Ring a next prev (l1 ++ b :: l2)) : Ring b next prev (l2 ++ a :: l1) := by
  have hlist : a :: (l1 ++ b :: l2) ++ [a] = (a :: l1) ++ b :: (l2 ++ [a]) := by simp
  have hlist' : b :: (l2 ++ a :: l1) ++ [b] = (b :: l2) ++ a :: (l1 ++ [b]) := by simp
  have hadj := h.adj
  rw [hlist, isChain_split] at hadj
  constructor
  · rw [hlist', isChain_split]
    exact ⟨hadj.2, hadj.1⟩
  · have hperm : (b :: l2 ++ a :: l1).Perm (a :: l1 ++ b :: l2) := perm_append_comm
    exact hperm.nodup_iff.mpr h.nodup

end Ring

def Ringed (next prev : α → α) : List α → Prop
  | [] => True
  | a :: l => Ring a next prev l

section Ringed

variable {next prev next' prev' : α → α} {p : α}

theorem Ringed.nodup (h : Ringed next prev l) : l.Nodup := by
  cases l with
  | nil => exact nodup_nil
  | cons a l => exact Ring.nodup h

theorem Ringed.congr (h : Ringed next prev l) (hn : ∀ x ∈ l, next' x = next x)
    (hv : ∀ x ∈ l, prev' x = prev x) : Ringed next' prev' l := by
  cases l with
  | nil => trivial
  | cons a l => exact Ring.congr h hn hv

theorem Ringed.rotate (h : Ringed next prev (l1 ++ l2)) : Ringed next prev (l2 ++ l1) := by
  cases l1 with
  | nil =>
    rw [append_nil]
    exact h
  | cons a l1 =>
    cases l2 with
    | nil =>
      rw [append_nil] at h
      exact h
    | cons b l2 => exact Ring.rotate h

theorem Ringed.insert [DecidableEq α] (h : Ringed next prev (l1 ++ a :: l2))
    (hp : p ∉ l1 ++ a :: l2) (hnp : next' p = a) (hpp : prev' p = prev a)
    (hn : ∀ x ∈ l1 ++ a :: l2, next' x = if x = prev a then p else next x)
    (hv : ∀ x ∈ l1 ++ a :: l2, prev' x = if x = a then p else prev x) :
    Ringed next' prev' (l1 ++ p :: a :: l2) := by
  have hring : Ring a next prev (l2 ++ l1) := h.rotate
  have hmem : ∀ x, x ∈ a :: (l2 ++ l1) → x ∈ l1 ++ a :: l2 := by
    intro x hx
    exact mem_append.mpr (mem_append.mp hx).symm
  have hpush : Ringed next' prev' ((a :: l2) ++ (l1 ++ [p])) := by
    rw [← append_assoc]
    exact Ring.push hring (fun hx => hp (hmem p hx)) hnp hpp (fun x hx => hn x (hmem x hx))
      fun x hx => hv x (hmem x hx)
  have hback := hpush.rotate
  rw [append_assoc] at hback
  exact hback

theorem Ringed.remove [DecidableEq α] (h : Ringed next prev (l1 ++ p :: l2))
    (hn : ∀ x ∈ l1 ++ l2, next' x = if x = prev p then next p else next x)
    (hv : ∀ x ∈ l1 ++ l2, prev' x = if x = next p then prev p else prev x) :
    Ringed next' prev' (l1 ++ l2) := by
  cases l2 with
  | nil =>
    cases l1 with
    | nil => trivial
    | cons a l1 => exact Ring.remove h hn hv
  | cons b l2 =>
    have hring : Ring b next prev ((l2 ++ l1) ++ p :: []) := by
      have hrotated : Ringed next prev ((l1 ++ [p]) ++ b :: l2) := by
        rw [append_assoc]
        exact h
      have := hrotated.rotate
      rw [← append_assoc] at this
      exact this
    have hmem : ∀ x, x ∈ b :: ((l2 ++ l1) ++ []) → x ∈ l1 ++ b :: l2 := by
      intro x hx
      rw [append_nil, ← cons_append] at hx
      exact mem_append.mpr (mem_append.mp hx).symm
    have hremoved : Ringed next' prev' ((b :: l2) ++ l1) := by
      have := Ring.remove hring (fun x hx => hn x (hmem x hx)) fun x hx => hv x (hmem x hx)
      rw [append_nil] at this
      exact this
    exact hremoved.rotate

theorem Ringed.next_first (h : Ringed next prev (a :: b :: l)) : next a = b ∧ prev b = a :=
  (isChain_cons_cons.mp (Ring.adj h)).1

theorem Ringed.next_single (h : Ringed next prev [a]) : next a = a ∧ prev a = a :=
  (isChain_cons_cons.mp (Ring.adj h)).1

theorem Ringed.neighbours (h : Ringed next prev l) (ha : a ∈ l) :
    prev a ∈ l ∧ next (prev a) = a ∧ next a ∈ l ∧ prev (next a) = a := by
  obtain ⟨l1, l2, rfl⟩ := append_of_mem ha
  have hring : Ring a next prev (l2 ++ l1) := h.rotate
  have hmem : ∀ x, x ∈ a :: (l2 ++ l1) → x ∈ l1 ++ a :: l2 := by
    intro x hx
    exact mem_append.mpr (mem_append.mp hx).symm
  obtain ⟨-, -, hjoin⟩ := isChain_append.mp hring.adj
  have hlast := hring.getLast?_eq
  refine ⟨hmem _ (mem_of_getLast? hlast), (hjoin _ hlast a rfl).1, ?_⟩
  cases hrest : l2 ++ l1 with
  | nil =>
    rw [hrest] at hring
    obtain ⟨hnext, hprev⟩ := Ringed.next_single hring
    rw [hnext]
    exact ⟨ha, hprev⟩
  | cons b l =>
    rw [hrest] at hring hmem
    obtain ⟨hnext, hprev⟩ := Ringed.next_first hring
    rw [hnext]
    exact ⟨hmem b (mem_cons_of_mem _ (mem_cons_self ..)), hprev⟩

end Ringed

end LinuxKernel.DoublyLinked
