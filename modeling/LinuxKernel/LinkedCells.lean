import Mathlib.Data.List.Basic

/-!
# Lists linked through the cells of a store

A free list is threaded through the first word of the free cells themselves.
`Linked` says which cells the links visit; the lemmas give pushing, popping
and what a store to other cells leaves alone.
-/

namespace LinuxKernel
open Function List

variable {α : Type*} {null a : α} {mem : α → α} {cells : List α}

def Linked (null : α) (mem : α → α) : α → List α → Prop
  | a, [] => a = null
  | a, x :: cells => a = x ∧ x ≠ null ∧ Linked null mem (mem x) cells

theorem Linked.congr {mem' : α → α} (hlink : Linked null mem a cells)
    (heq : ∀ x ∈ cells, mem' x = mem x) : Linked null mem' a cells := by
  induction cells generalizing a with
  | nil => exact hlink
  | cons x cells ih =>
    obtain ⟨ha, hx, htail⟩ := hlink
    refine ⟨ha, hx, ?_⟩
    rw [heq x mem_cons_self]
    exact ih htail fun y hy => heq y (mem_cons_of_mem _ hy)

theorem Linked.pop (hlink : Linked null mem a cells) (ha : a ≠ null) :
    ∃ rest, cells = a :: rest ∧ Linked null mem (mem a) rest := by
  cases cells with
  | nil => exact absurd hlink ha
  | cons x rest =>
    obtain ⟨rfl, _, htail⟩ := hlink
    exact ⟨rest, rfl, htail⟩

theorem Linked.eq_nil (hlink : Linked null mem null cells) : cells = [] := by
  cases cells with
  | nil => rfl
  | cons x cells => exact absurd hlink.1.symm hlink.2.1

theorem Linked.push [DecidableEq α] (hlink : Linked null mem a cells)
    {x : α} (hx : x ≠ null) (hmem : x ∉ cells) :
    Linked null (update mem x a) x (x :: cells) := by
  refine ⟨rfl, hx, ?_⟩
  rw [update_self]
  apply hlink.congr
  intro y hy
  have hyx : y ≠ x := fun h => hmem (h ▸ hy)
  simp [hyx]

def walk [DecidableEq α] (null : α) (mem : α → α) (p : α → Bool) : ℕ → α → α
  | 0, _ => null
  | n + 1, a => if a = null then null else if p a then a else walk null mem p n (mem a)

def foldLinks [DecidableEq α] {β : Type*} (null : α) (mem : α → α) (f : β → α → β) : ℕ → β → α → β
  | 0, b, _ => b
  | n + 1, b, a => if a = null then b else foldLinks null mem f n (f b a) (mem a)

section
variable (hlink : Linked null mem a cells)
include hlink

theorem Linked.walk_eq [DecidableEq α] (p : α → Bool) {n : ℕ} (hn : cells.length ≤ n) :
    walk null mem p n a = (cells.find? p).getD null := by
  induction cells generalizing a n with
  | nil =>
    cases n with
    | zero => rfl
    | succ n => simp [walk, show a = null from hlink]
  | cons x cells ih =>
    obtain ⟨ha, hx, htail⟩ := hlink
    cases n with
    | zero => simp at hn
    | succ n =>
      have hn' : cells.length ≤ n := by simpa using hn
      rw [walk, ha, if_neg hx, List.find?_cons]
      cases hp : p x with
      | true => simp
      | false =>
        exact ih htail hn'

theorem Linked.foldLinks_eq [DecidableEq α] {β : Type*} (f : β → α → β) (b : β) {n : ℕ}
    (hn : cells.length ≤ n) : foldLinks null mem f n b a = cells.foldl f b := by
  induction cells generalizing a b n with
  | nil =>
    cases n with
    | zero => rfl
    | succ n => simp [foldLinks, show a = null from hlink]
  | cons x cells ih =>
    obtain ⟨ha, hx, htail⟩ := hlink
    cases n with
    | zero => simp at hn
    | succ n =>
      have hn' : cells.length ≤ n := by simpa using hn
      rw [foldLinks, ha, if_neg hx, foldl_cons]
      exact ih htail (f b x) hn'

theorem Linked.ne_null {x : α} (hx : x ∈ cells) : x ≠ null := by
  induction cells generalizing a with
  | nil => simp at hx
  | cons y cells ih =>
    obtain ⟨_, hy, htail⟩ := hlink
    rcases mem_cons.mp hx with heq | hmem
    · rw [heq]
      exact hy
    · exact ih htail hmem

end

theorem Linked.snoc [DecidableEq α] {y : α} (hlink : Linked null mem a (cells ++ [y]))
    (hnodup : (cells ++ [y]).Nodup) {x : α} (hx : x ≠ null) (hmem : x ∉ cells ++ [y])
    (hlast : mem x = null) :
    Linked null (update mem y x) a (cells ++ [y] ++ [x]) := by
  induction cells generalizing a with
  | nil =>
    obtain ⟨ha, hy, _⟩ := hlink
    have hxy : x ≠ y := by
      intro h
      rw [h] at hmem
      simp at hmem
    refine ⟨ha, hy, ?_⟩
    rw [update_self]
    refine ⟨rfl, hx, ?_⟩
    rw [update_of_ne hxy]
    exact hlast
  | cons z cells ih =>
    obtain ⟨ha, hz, htail⟩ := hlink
    obtain ⟨hnot, hnodup'⟩ := nodup_cons.mp hnodup
    have hzy : z ≠ y := by
      intro h
      rw [h] at hnot
      simp at hnot
    refine ⟨ha, hz, ?_⟩
    rw [update_of_ne hzy]
    apply ih htail hnodup'
    intro h
    exact hmem (mem_cons_of_mem z h)

theorem Linked.remove [DecidableEq α] {xs zs : List α} {x y : α}
    (hlink : Linked null mem a (xs ++ y :: x :: zs)) (hnodup : (xs ++ y :: x :: zs).Nodup) :
    Linked null (update mem y (mem x)) a (xs ++ y :: zs) := by
  induction xs generalizing a with
  | nil =>
    obtain ⟨ha, hy, hyx, _, htail⟩ := hlink
    obtain ⟨hnot, _⟩ := nodup_cons.mp hnodup
    refine ⟨ha, hy, ?_⟩
    rw [update_self]
    apply htail.congr
    intro z hz
    apply update_of_ne
    intro h
    rw [h] at hz
    exact hnot (mem_cons_of_mem x hz)
  | cons w xs ih =>
    obtain ⟨ha, hw, htail⟩ := hlink
    obtain ⟨hnot, hnodup'⟩ := nodup_cons.mp hnodup
    have hwy : w ≠ y := by
      intro h
      rw [h] at hnot
      simp at hnot
    refine ⟨ha, hw, ?_⟩
    rw [update_of_ne hwy]
    exact ih htail hnodup'

end LinuxKernel
