import Mathlib.Data.List.Chain

/-!
# Circular lists

A list in memory whose elements are linked in a circle, with a mark at its last element, and the
two ways in which an element is brought to its front.
-/

namespace LinuxKernel.CircularList
open Function List

variable {α : Type} {next next' : α → α} {last a c d : α} {l pre post : List α}

/-- The links go through the list and from its last element to the first. -/
structure Circle (next : α → α) (last : α) (l : List α) : Prop where
  chain : (last :: l).IsChain fun a b => next a = b
  last : l.getLast? = some last
  nodup : l.Nodup

theorem isChain_congr (h : l.IsChain fun a b => next a = b)
    (hsame : ∀ x ∈ l.dropLast, next' x = next x) : l.IsChain fun a b => next' a = b := by
  induction l with
  | nil => exact .nil
  | cons a l ih =>
    cases l with
    | nil => exact .singleton a
    | cons b l =>
      obtain ⟨hab, hl⟩ := isChain_cons_cons.1 h
      refine isChain_cons_cons.2 ⟨?_, ih hl fun x hx => hsame x (mem_cons_of_mem _ hx)⟩
      rw [hsame a mem_cons_self, hab]

theorem Circle.rotateTo (h : Circle next last (pre ++ a :: post)) :
    Circle next a (post ++ pre ++ [a]) := by
  have hperm : (pre ++ a :: post).Perm (post ++ pre ++ [a]) :=
    perm_middle.trans ((perm_append_comm.cons a).trans (perm_append_singleton a _).symm)
  refine ⟨?_, List.getLast?_concat, hperm.nodup_iff.mp h.nodup⟩
  have hchain : ((last :: pre) ++ a :: post).IsChain fun a b => next a = b := h.chain
  rcases eq_nil_or_concat' post with rfl | ⟨init, b, rfl⟩
  · obtain rfl : a = last := by simpa using h.last
    simpa using hchain
  · have hlast := h.last
    rw [← cons_append, ← append_assoc, List.getLast?_concat] at hlast
    obtain rfl := Option.some.inj hlast
    obtain ⟨hfront, hback⟩ := isChain_split.mp hchain
    have hall : ((a :: init) ++ b :: (pre ++ [a])).IsChain fun a b => next a = b :=
      isChain_split.mpr ⟨by simpa using hback, hfront⟩
    simpa using hall

theorem Circle.rotate (h : Circle next last (pre ++ [a, last])) :
    Circle next a (last :: (pre ++ [a])) :=
  h.rotateTo

theorem Circle.insert [DecidableEq α] (h : Circle next c (l ++ [c])) (ha : a ∉ l ++ [c]) :
    Circle (update (update next a (next c)) c a) c (a :: (l ++ [c])) := by
  have hnodup := h.nodup
  have hca : a ≠ c := fun heq => ha (by simp [heq])
  rw [nodup_append] at hnodup
  refine ⟨?_, by simp [List.getLast?_cons], nodup_cons.mpr ⟨ha, h.nodup⟩⟩
  obtain ⟨hfirst, hchain⟩ := isChain_cons.mp h.chain
  refine isChain_cons_cons.mpr ⟨update_self .., isChain_cons.mpr ⟨fun x hx => ?_, ?_⟩⟩
  · rw [update_of_ne hca, update_self]
    exact hfirst x hx
  · refine isChain_congr hchain fun x hx => ?_
    rw [dropLast_concat] at hx
    rw [update_of_ne (hnodup.2.2 x hx c (by simp)), update_of_ne]
    exact fun heq => ha (by simp [← heq, hx])

theorem Circle.drop [DecidableEq α] (h : Circle next a (l ++ [d] ++ [a])) (x : α) :
    Circle (update (update next d (next a)) a x) d (l ++ [d]) := by
  have hnodup := h.nodup
  rw [nodup_append] at hnodup
  obtain ⟨hl, -, hapart⟩ := hnodup
  have hda : d ≠ a := hapart d (by simp) a (by simp)
  obtain ⟨hfirst, hchain⟩ := isChain_cons.mp h.chain
  refine ⟨isChain_cons.mpr ⟨fun y hy => ?_, ?_⟩, List.getLast?_concat, hl⟩
  · rw [update_of_ne hda, update_self]
    exact hfirst y (by simpa [List.head?_append] using hy)
  · refine isChain_congr hchain.left_of_append fun y hy => ?_
    rw [dropLast_concat] at hy
    rw [update_of_ne (hapart y (by simp [hy]) a (by simp)), update_of_ne]
    exact (nodup_append.mp hl).2.2 y hy d (by simp)

theorem Circle.moveFront [DecidableEq α] (h : Circle next last (pre ++ a :: c :: d :: post)) :
    Circle (update (update (update next a (next c)) c (next last))
      last c) last (c :: (pre ++ a :: d :: post)) := by
  obtain ⟨init, hinit⟩ : ∃ init, d :: post = init ++ [last] := by
    refine List.getLast?_eq_some_iff.mp ?_
    have := h.last
    simpa [List.getLast?_append] using this
  have hnodup := h.nodup
  rw [append_cons] at h hnodup
  rw [hinit] at h hnodup
  have hal : last ≠ a := fun heq => by simp [heq, nodup_append] at hnodup
  have hcl : last ≠ c := fun heq => by simp [heq, nodup_append] at hnodup
  have hc : c ∉ pre ++ [a] ++ init ++ [last] := by
    have hmiddle := (nodup_cons.mp (perm_middle.nodup_iff.mp hnodup)).1
    simpa using hmiddle
  -- `c` goes out, and in again behind the last element
  have hout := h.rotateTo
  rw [← append_assoc] at hout
  have hback := hout.drop (next last)
  rw [append_assoc, append_assoc, singleton_append] at hback
  have hin := hback.rotateTo.insert hc
  rw [update_of_ne hcl, update_of_ne hal, update_idem] at hin
  rw [hinit]
  simpa using hin

end LinuxKernel.CircularList
