import Mathlib.Tactic

/-!
# Delta-encoded lists

A list that is sorted by a number can keep, with each element, only the difference to
the element before.  `decode` gives the numbers back, and inserting and erasing in the
encoded list are inserting and erasing in the decoded one.

`StableSorts c a` says that `c` is `a` sorted by the number, equal numbers in the order
of `a`.
-/

namespace LinuxKernel.DeltaList
open List

variable {α : Type}

def decode : ℕ → List (α × ℕ) → List (α × ℕ)
  | _, [] => []
  | s, (a, d) :: l => (a, s + d) :: decode (s + d) l

def insertAfter (x : α × ℕ) : List (α × ℕ) → List (α × ℕ)
  | [] => [x]
  | y :: l => if x.2 < y.2 then x :: y :: l else y :: insertAfter x l

def insert (a : α) : ℕ → List (α × ℕ) → List (α × ℕ)
  | n, [] => [(a, n)]
  | n, (b, d) :: l => if n < d then (a, n) :: (b, d - n) :: l else (b, d) :: insert a (n - d) l

def raise (n : ℕ) : List (α × ℕ) → List (α × ℕ)
  | [] => []
  | (b, d) :: l => (b, d + n) :: l

def erase [DecidableEq α] (a : α) : List (α × ℕ) → List (α × ℕ)
  | [] => []
  | (b, d) :: l => if b = a then raise d l else (b, d) :: erase a l

theorem decode_keys (s : ℕ) (l : List (α × ℕ)) : (decode s l).map Prod.fst = l.map Prod.fst := by
  induction l generalizing s with
  | nil => rfl
  | cons x l ih =>
    unfold decode
    rw [map_cons, map_cons, ih]

variable {l : List (α × ℕ)} {x : α × ℕ}

theorem decode_insert (a : α) (s n : ℕ) (l : List (α × ℕ)) :
    decode s (insert a n l) = insertAfter (a, s + n) (decode s l) := by
  induction l generalizing s n with
  | nil => rfl
  | cons x l ih =>
    obtain ⟨b, d⟩ := x
    unfold insert
    by_cases hlt : n < d
    · have hsum : s + n + (d - n) = s + d := by omega
      rw [if_pos hlt]
      simp only [decode, insertAfter, hsum]
      rw [if_pos (by omega)]
    · have hsum : s + d + (n - d) = s + n := by omega
      rw [if_neg hlt]
      simp only [decode, insertAfter, ih, hsum]
      rw [if_neg (by omega)]

theorem decode_raise (s n : ℕ) (l : List (α × ℕ)) : decode s (raise n l) = decode (s + n) l := by
  cases l with
  | nil => rfl
  | cons x l =>
    have hsum : s + (x.2 + n) = s + n + x.2 := by omega
    simp only [raise, decode, hsum]

theorem decode_erase [DecidableEq α] (a : α) (s : ℕ) (l : List (α × ℕ))
    (hnodup : (l.map Prod.fst).Nodup) :
    decode s (erase a l) = (decode s l).filter fun x => x.1 ≠ a := by
  induction l generalizing s with
  | nil => rfl
  | cons x l ih =>
    obtain ⟨b, d⟩ := x
    rw [map_cons, nodup_cons] at hnodup
    unfold erase
    by_cases heq : b = a
    · have hrest : (decode (s + d) l).filter (fun x => x.1 ≠ a) = decode (s + d) l := by
        rw [filter_eq_self]
        intro x hx
        have hkey := mem_map_of_mem (f := Prod.fst) hx
        rw [decode_keys] at hkey
        rw [decide_eq_true_eq]
        intro hxa
        rw [hxa, ← heq] at hkey
        exact hnodup.1 hkey
      rw [if_pos heq, decode_raise]
      simp only [decode]
      rw [filter_cons_of_neg (by simpa using heq), hrest]
    · rw [if_neg heq]
      simp only [decode]
      rw [filter_cons_of_pos (by simpa using heq), ih _ hnodup.2]

theorem decode_pred (s : ℕ) (a : α) {d : ℕ} (hd : 0 < d) (l : List (α × ℕ)) :
    decode s ((a, d - 1) :: l) = (decode s ((a, d) :: l)).map fun x => (x.1, x.2 - 1) := by
  have hshift : ∀ (l : List (α × ℕ)) (m : ℕ), 0 < m →
      decode (m - 1) l = (decode m l).map fun x => (x.1, x.2 - 1) := by
    intro l
    induction l with
    | nil =>
      intro m _
      rfl
    | cons x l ih =>
      intro m hm
      have hsum : m - 1 + x.2 = m + x.2 - 1 := by omega
      simp only [decode, map_cons, hsum]
      rw [ih (m + x.2) (by omega)]
  have hsum : s + (d - 1) = s + d - 1 := by omega
  simp only [decode, map_cons, hsum]
  rw [hshift l (s + d) (by omega)]

theorem mem_insertAfter {y : α × ℕ} : y ∈ insertAfter x l ↔ y = x ∨ y ∈ l := by
  induction l with
  | nil => simp [insertAfter]
  | cons z l ih =>
    unfold insertAfter
    split_ifs
    · exact mem_cons
    · rw [mem_cons, ih, mem_cons]
      tauto

theorem insertAfter_sorted
    (h : l.Pairwise fun x y => x.2 ≤ y.2) :
    (insertAfter x l).Pairwise fun x y => x.2 ≤ y.2 := by
  induction l with
  | nil => exact pairwise_singleton _ _
  | cons y l ih =>
    rw [pairwise_cons] at h
    unfold insertAfter
    split_ifs with hlt
    · apply List.Pairwise.cons
      · intro z hz
        rcases mem_cons.mp hz with rfl | hz
        · exact hlt.le
        · exact hlt.le.trans (h.1 z hz)
      · exact pairwise_cons.mpr h
    · apply List.Pairwise.cons
      · intro z hz
        rcases mem_insertAfter.mp hz with rfl | hz
        · omega
        · exact h.1 z hz
      · exact ih h.2

theorem filter_insertAfter
    (h : l.Pairwise fun x y => x.2 ≤ y.2) (n : ℕ) :
    (insertAfter x l).filter (fun y => y.2 = n) =
      l.filter (fun y => y.2 = n) ++ [x].filter fun y => y.2 = n := by
  induction l with
  | nil => rfl
  | cons y l ih =>
    rw [pairwise_cons] at h
    unfold insertAfter
    split_ifs with hlt
    · by_cases hn : x.2 = n
      · -- Everything from `y` on is larger.
        have hnone : (y :: l).filter (fun z => z.2 = n) = [] := by
          rw [filter_eq_nil_iff]
          intro z hz
          rw [decide_eq_true_eq]
          rcases mem_cons.mp hz with rfl | hz
          · omega
          · have := h.1 z hz
            omega
        rw [filter_cons_of_pos (by simpa using hn), hnone]
        simp [hn]
      · simp [hn]
    · rw [filter_cons, filter_cons, ih h.2]
      split_ifs <;> rfl

/-- `c` is `a` sorted by the number, equal numbers in the order of `a`. -/
structure StableSorts (c a : List (α × ℕ)) : Prop where
  sorted : c.Pairwise fun x y => x.2 ≤ y.2
  stable : ∀ n, c.filter (fun x => x.2 = n) = a.filter fun x => x.2 = n

section StableSorts

variable {c a : List (α × ℕ)} (h : StableSorts c a)

include h

theorem StableSorts.mem_iff (x : α × ℕ) : x ∈ c ↔ x ∈ a := by
  have hiff : ∀ l : List (α × ℕ), x ∈ l ↔ x ∈ l.filter fun y => y.2 = x.2 := by
    intro l
    simp
  rw [hiff c, hiff a, h.stable]

theorem StableSorts.insert (x : α × ℕ) : StableSorts (insertAfter x c) (a ++ [x]) := by
  refine ⟨insertAfter_sorted h.sorted, ?_⟩
  intro n
  rw [filter_insertAfter h.sorted, filter_append, h.stable]

theorem StableSorts.filter (p : α × ℕ → Bool) : StableSorts (c.filter p) (a.filter p) := by
  refine ⟨h.sorted.filter p, ?_⟩
  intro n
  have hcomm : ∀ l : List (α × ℕ), (l.filter p).filter (fun x => x.2 = n) =
      (l.filter fun x => x.2 = n).filter p := by
    intro l
    rw [filter_filter, filter_filter]
    congr 1
    funext x
    exact Bool.and_comm _ _
  rw [hcomm, hcomm, h.stable]

theorem StableSorts.pred (hpos : ∀ x ∈ c, 0 < x.2) :
    StableSorts (c.map fun x => (x.1, x.2 - 1)) (a.map fun x => (x.1, x.2 - 1)) := by
  have hpos' : ∀ x ∈ a, 0 < x.2 := fun x hx => hpos x ((h.mem_iff x).mpr hx)
  refine ⟨?_, ?_⟩
  · rw [pairwise_map]
    apply h.sorted.imp
    intro x y hle
    omega
  · intro n
    have hmap : ∀ l : List (α × ℕ), (∀ x ∈ l, 0 < x.2) →
        (l.map fun x => (x.1, x.2 - 1)).filter (fun x => x.2 = n) =
          (l.filter fun x => x.2 = n + 1).map fun x => (x.1, x.2 - 1) := by
      intro l hl
      rw [filter_map]
      congr 1
      apply filter_congr
      intro x hx
      have := hl x hx
      simp only [Function.comp_apply, decide_eq_decide]
      omega
    rw [hmap c hpos, hmap a hpos', h.stable]

theorem StableSorts.head (hc : c = x :: l) : (a.filter fun y => y.2 = x.2).head? = some x := by
  rw [← h.stable, hc, filter_cons_of_pos (by simp)]
  rfl

theorem StableSorts.head_le (hc : c = x :: l) : ∀ y ∈ a, x.2 ≤ y.2 := by
  intro y hy
  have hsorted := h.sorted
  have hmem := (h.mem_iff y).mpr hy
  rw [hc] at hmem hsorted
  rw [pairwise_cons] at hsorted
  rcases mem_cons.mp hmem with rfl | hmem
  · exact Nat.le_refl _
  · exact hsorted.1 y hmem

end StableSorts

theorem stableSorts_nil : StableSorts ([] : List (α × ℕ)) [] := ⟨List.Pairwise.nil, fun _ => rfl⟩

end LinuxKernel.DeltaList
