import Mathlib.Tactic

/-!
# Chains through a table of links

Every element of the table is free, the end of a chain, or has a link to the next element of its
chain.  A chain is the list of the elements visited from a link on; it is finite, so it has no
element twice.
-/

namespace LinuxKernel.LinkChain
open List

inductive Link (α : Type*)
  | free
  | eof
  | link (a : α)
deriving DecidableEq

variable {α : Type*} {next next' : α → Link α} {v : Link α} {l l' l1 l2 : List α} {a : α}

/-- From the link `v` on, the elements of `l` are visited, and then the chain ends. -/
inductive Leads (next : α → Link α) : Link α → List α → Prop
  | nil : Leads next .eof []
  | cons {a : α} {l : List α} : Leads next (next a) l → Leads next (.link a) (a :: l)

theorem Leads.eq_eof (h : Leads next v []) : v = .eof := by
  cases h
  rfl

theorem Leads.eq_link (h : Leads next v (a :: l)) : v = .link a := by
  cases h
  rfl

theorem Leads.unique (h : Leads next v l) (h' : Leads next v l') : l = l' := by
  induction h generalizing l' with
  | nil =>
    cases h'
    rfl
  | cons _ ih =>
    cases h' with
    | cons hrest => rw [ih hrest]

theorem Leads.rest (h : Leads next v (l1 ++ a :: l2)) : Leads next (next a) l2 := by
  induction l1 generalizing v with
  | nil =>
    cases h with
    | cons hrest => exact hrest
  | cons b l1 ih =>
    cases h with
    | cons hrest => exact ih hrest

theorem Leads.nodup (h : Leads next v l) : l.Nodup := by
  induction h with
  | nil => exact nodup_nil
  | @cons a l hrest ih =>
    refine nodup_cons.mpr ⟨fun hmem => ?_, ih⟩
    obtain ⟨l1, l2, rfl⟩ := append_of_mem hmem
    have hlen := congrArg List.length (hrest.unique hrest.rest)
    simp at hlen
    omega

theorem Leads.congr (h : Leads next v l) (heq : ∀ a ∈ l, next' a = next a) : Leads next' v l := by
  induction h with
  | nil => exact Leads.nil
  | @cons a l _ ih =>
    refine Leads.cons ?_
    rw [heq a (mem_cons_self ..)]
    exact ih fun b hb => heq b (mem_cons_of_mem _ hb)

theorem Leads.ne_free (h : Leads next v l) (ha : a ∈ l) : next a ≠ .free := by
  obtain ⟨l1, l2, rfl⟩ := append_of_mem ha
  intro hfree
  have hrest := h.rest
  rw [hfree] at hrest
  cases hrest

theorem Leads.replace (h : Leads next v (l1 ++ a :: l2)) (heq : ∀ b ∈ l1, next' b = next b)
    (h' : Leads next' (next' a) l') : Leads next' v (l1 ++ a :: l') := by
  induction l1 generalizing v with
  | nil =>
    cases h with
    | cons _ => exact Leads.cons h'
  | cons b l1 ih =>
    cases h with
    | cons hrest =>
      refine Leads.cons ?_
      rw [heq b (mem_cons_self ..)]
      exact ih hrest fun c hc => heq c (mem_cons_of_mem _ hc)

def follow (next : α → Link α) : Link α → ℕ → Option α
  | .link a, 0 => some a
  | .link a, k + 1 => follow next (next a) k
  | _, _ => none

theorem Leads.follow_eq (h : Leads next v l) (k : ℕ) : follow next v k = l[k]? := by
  induction h generalizing k with
  | nil => cases k <;> rfl
  | cons _ ih =>
    cases k with
    | zero => rfl
    | succ k => exact ih k

end LinuxKernel.LinkChain
