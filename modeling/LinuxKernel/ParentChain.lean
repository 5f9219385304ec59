import Mathlib.Tactic

/-!
# Chains of parents

Every element has one parent, and a root is its own.  The elements form a tree when the chain of
parents of each of them reaches the root; the lemmas say when that survives a change of parents.
-/

namespace LinuxKernel.ParentChain

variable {α : Type*} {f g : α → α} {P : α → Prop} {r x y p : α}

def Reaches (f : α → α) (r x : α) : Prop := ∃ n, f^[n] x = r

theorem Reaches.refl (f : α → α) (r : α) : Reaches f r r := ⟨0, rfl⟩

theorem Reaches.head (h : Reaches f r (f x)) : Reaches f r x := by
  obtain ⟨n, hn⟩ := h
  exact ⟨n + 1, hn⟩

theorem Reaches.closed (h : Reaches f y x) (hP : ∀ a, P a → P (f a)) (hx : P x) : P y := by
  obtain ⟨n, rfl⟩ := h
  induction n generalizing x with
  | zero => exact hx
  | succ n ih => exact ih (hP x hx)

section
variable (h : Reaches f r x)
include h

theorem Reaches.last (hne : x ≠ r) : ∃ y, Reaches f y x ∧ y ≠ r ∧ f y = r := by
  obtain ⟨n, hn⟩ := h
  induction n generalizing x with
  | zero => exact absurd hn hne
  | succ n ih =>
    by_cases hx : f x = r
    · exact ⟨x, Reaches.refl f x, hne, hx⟩
    · obtain ⟨y, hy, hyr⟩ := ih hx hn
      exact ⟨y, hy.head, hyr⟩

theorem Reaches.avoid (hp : ¬Reaches f p x) (hg : ∀ a, a ≠ p → g a = f a) : Reaches g r x := by
  obtain ⟨n, hn⟩ := h
  induction n generalizing x with
  | zero => exact ⟨0, hn⟩
  | succ n ih =>
    have hx : x ≠ p := fun heq => hp ⟨0, heq⟩
    refine Reaches.head ?_
    rw [hg x hx]
    exact ih (fun hr => hp hr.head) hn

theorem Reaches.redirect (hg : ∀ a, g a = f a ∨ Reaches g r (g a)) : Reaches g r x := by
  obtain ⟨n, hn⟩ := h
  induction n generalizing x with
  | zero => exact ⟨0, hn⟩
  | succ n ih =>
    refine Reaches.head ?_
    rcases hg x with heq | hr
    · rw [heq]
      exact ih hn
    · exact hr

theorem Reaches.move (hq : Reaches f r y) (hp : ¬Reaches f p y) (hgp : g p = y)
    (hg : ∀ a, a ≠ p → g a = f a) : Reaches g r x := by
  refine h.redirect fun a => ?_
  by_cases ha : a = p
  · rw [ha, hgp]
    exact Or.inr (hq.avoid hp hg)
  · exact Or.inl (hg a ha)

end

end LinuxKernel.ParentChain
