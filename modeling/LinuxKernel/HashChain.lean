import Mathlib.Tactic

/-!
# Hash tables with chains

A table of chains: entry `a` belongs on the chain `hash (key a)`.  New entries go to the
front of their chain, a change or a removal takes the first entry with the key.
-/

namespace LinuxKernel.HashChain
open Function List

universe u v w

section Chain

variable {α : Type u}

def modifyFirst (p : α → Bool) (f : α → α) : List α → List α
  | [] => []
  | a :: rest => if p a then f a :: rest else a :: modifyFirst p f rest

theorem mem_modifyFirst {p : α → Bool} {f : α → α} {l : List α} {b : α}
    (hb : b ∈ modifyFirst p f l) : b ∈ l ∨ ∃ a ∈ l, p a ∧ b = f a := by
  induction l with
  | nil => simp [modifyFirst] at hb
  | cons a rest ih =>
    unfold modifyFirst at hb
    split at hb
    · rename_i ha
      rcases mem_cons.1 hb with rfl | hb
      · exact .inr ⟨a, mem_cons_self, ha, rfl⟩
      · exact .inl (mem_cons_of_mem _ hb)
    · rcases mem_cons.1 hb with rfl | hb
      · exact .inl mem_cons_self
      · rcases ih hb with h | ⟨c, hc, hp, rfl⟩
        · exact .inl (mem_cons_of_mem _ h)
        · exact .inr ⟨c, mem_cons_of_mem _ hc, hp, rfl⟩

theorem map_modifyFirst {κ : Type v} {key : α → κ} {p : α → Bool} {f : α → α}
    (hf : ∀ a, p a → key (f a) = key a) (l : List α) :
    (modifyFirst p f l).map key = l.map key := by
  induction l with
  | nil => rfl
  | cons a rest ih =>
    unfold modifyFirst
    split
    · rename_i ha
      simp [hf a ha]
    · simp [ih]

theorem modifyFirst_of_find?_eq_none {p : α → Bool} {f : α → α} {l : List α}
    (hnone : l.find? p = none) : modifyFirst p f l = l := by
  induction l with
  | nil => rfl
  | cons a rest ih =>
    rw [List.find?_cons] at hnone
    split at hnone
    · cases hnone
    · rename_i ha
      simp [modifyFirst, ha, ih hnone]

section
variable {p : α → Bool} {l : List α} {a : α} (hfind : l.find? p = some a)
include hfind

theorem find?_modifyFirst {f : α → α} (hf : p (f a)) :
    (modifyFirst p f l).find? p = some (f a) := by
  induction l with
  | nil => cases hfind
  | cons c rest ih =>
    rw [List.find?_cons] at hfind
    unfold modifyFirst
    split at hfind
    · rename_i hc
      cases hfind
      simp [hc, hf]
    · rename_i hc
      simp [hc, ih hfind]

omit hfind in
theorem find?_modifyFirst_other {p p' : α → Bool} {f : α → α} {l : List α}
    (hp : ∀ a, p a → p' a = false) (hf : ∀ a, p a → p' (f a) = false) :
    (modifyFirst p f l).find? p' = l.find? p' := by
  induction l with
  | nil => rfl
  | cons a rest ih =>
    unfold modifyFirst
    split
    · rename_i ha
      simp [hp a ha, hf a ha]
    · rw [List.find?_cons, List.find?_cons, ih]

omit hfind in
theorem find?_eraseP_other {p p' : α → Bool} {l : List α} (hp : ∀ a, p a → p' a = false) :
    (l.eraseP p).find? p' = l.find? p' := by
  induction l with
  | nil => rfl
  | cons a rest ih =>
    rw [eraseP_cons]
    cases ha : p a with
    | true => simp [hp a ha]
    | false => simp only [cond_false, List.find?_cons, ih]

theorem countP_modifyFirst {q : α → Bool} {f : α → α} :
    (modifyFirst p f l).countP q + (if q a then 1 else 0) =
      l.countP q + (if q (f a) then 1 else 0) := by
  induction l with
  | nil => cases hfind
  | cons c rest ih =>
    rw [List.find?_cons] at hfind
    unfold modifyFirst
    split at hfind
    · rename_i hc
      cases hfind
      simp only [hc, if_true, countP_cons]
      omega
    · rename_i hc
      have := ih hfind
      simp only [hc, Bool.false_eq_true, if_false, countP_cons]
      omega

theorem countP_eraseP {q : α → Bool} :
    (l.eraseP p).countP q + (if q a then 1 else 0) = l.countP q := by
  induction l with
  | nil => cases hfind
  | cons c rest ih =>
    rw [List.find?_cons] at hfind
    rw [eraseP_cons]
    split at hfind
    · rename_i hc
      cases hfind
      simp only [hc, cond_true, countP_cons]
    · rename_i hc
      have := ih hfind
      simp only [hc, cond_false, countP_cons]
      omega

end

end Chain

section Table

variable {α : Type u} {κ : Type v} {ι : Type w} [DecidableEq κ]
variable (key : α → κ) (hash : κ → ι)

def find (t : ι → List α) (k : κ) : Option α := (t (hash k)).find? (key · = k)

section

variable [DecidableEq ι]

def push (t : ι → List α) (a : α) : ι → List α := update t (hash (key a)) (a :: t (hash (key a)))

def modify (t : ι → List α) (k : κ) (f : α → α) : ι → List α :=
  update t (hash k) (modifyFirst (key · = k) f (t (hash k)))

def erase (t : ι → List α) (k : κ) : ι → List α :=
  update t (hash k) ((t (hash k)).eraseP (key · = k))

end

/-- Every entry is on the chain of its key, and no key has two entries. -/
structure Wf (t : ι → List α) : Prop where
  placed : ∀ i, ∀ a ∈ t i, hash (key a) = i
  unique : ∀ i, ((t i).map key).Nodup

def count [Fintype ι] (q : α → Bool) (t : ι → List α) : ℕ := ∑ i, (t i).countP q

variable {key hash} {t : ι → List α} {k : κ} {a b : α} {f : α → α}

theorem find_mem (h : find key hash t k = some a) : a ∈ t (hash k) ∧ key a = k := by
  have hp := List.find?_some h
  exact ⟨mem_of_find?_eq_some h, by simpa using hp⟩

theorem find_eq_none (h : find key hash t k = none) : ∀ a ∈ t (hash k), key a ≠ k := by
  intro a ha
  simpa using List.find?_eq_none.1 h a ha

variable [DecidableEq ι]

section
variable (ht : Wf key hash t)
include ht

omit [DecidableEq κ] in
theorem Wf.update {l : List α} (hplaced : ∀ c ∈ l, hash (key c) = hash k)
    (hunique : (l.map key).Nodup) : Wf key hash (update t (hash k) l) := by
  constructor
  · intro i c hc
    by_cases hi : i = hash k
    · subst hi
      rw [update_self] at hc
      exact hplaced c hc
    · rw [update_of_ne hi] at hc
      exact ht.placed i c hc
  · intro i
    by_cases hi : i = hash k
    · subst hi
      rwa [update_self]
    · rw [update_of_ne hi]
      exact ht.unique i

theorem Wf.push (hnew : find key hash t (key a) = none) : Wf key hash (push key hash t a) := by
  apply ht.update (k := key a)
  · intro c hc
    rcases mem_cons.1 hc with rfl | hc
    · rfl
    · exact ht.placed _ c hc
  · rw [map_cons, nodup_cons]
    refine ⟨?_, ht.unique _⟩
    intro hmem
    obtain ⟨c, hc, hkey⟩ := mem_map.1 hmem
    exact find_eq_none hnew c hc hkey

theorem Wf.modify (hf : ∀ a, key (f a) = key a) : Wf key hash (modify key hash t k f) := by
  apply ht.update
  · intro c hc
    rcases mem_modifyFirst hc with hc | ⟨d, hd, -, rfl⟩
    · exact ht.placed _ c hc
    · rw [hf d]
      exact ht.placed _ d hd
  · rw [map_modifyFirst (fun a _ => hf a)]
    exact ht.unique _

theorem Wf.erase : Wf key hash (erase key hash t k) := by
  apply ht.update
  · intro c hc
    exact ht.placed _ c (mem_of_mem_eraseP hc)
  · exact (ht.unique _).sublist (eraseP_sublist.map key)

end

theorem find_push_self : find key hash (push key hash t a) (key a) = some a := by
  simp [find, push]

theorem find_push_of_ne (hk : key a ≠ k) :
    find key hash (push key hash t a) k = find key hash t k := by
  unfold find push
  by_cases hi : hash k = hash (key a)
  · rw [hi, update_self]
    simp [hk]
  · rw [update_of_ne hi]

theorem find_modify_self (hfind : find key hash t k = some a) (hf : key (f a) = key a) :
    find key hash (modify key hash t k f) k = some (f a) := by
  have hkey := (find_mem hfind).2
  unfold find modify
  rw [update_self]
  exact find?_modifyFirst hfind (by simp [hf, hkey])

theorem modify_of_find_eq_none (hnone : find key hash t k = none) : modify key hash t k f = t := by
  unfold modify
  rw [modifyFirst_of_find?_eq_none hnone, update_eq_self]

theorem find_modify_of_ne (hf : ∀ a, key (f a) = key a) {k' : κ} (hk : k' ≠ k) :
    find key hash (modify key hash t k f) k' = find key hash t k' := by
  unfold find modify
  by_cases hi : hash k' = hash k
  · rw [hi, update_self]
    apply find?_modifyFirst_other
    · intro a ha
      simp only [decide_eq_true_eq] at ha
      simp [ha, hk.symm]
    · intro a ha
      simp only [decide_eq_true_eq] at ha
      simp [hf, ha, hk.symm]
  · rw [update_of_ne hi]

theorem find_erase_of_ne (t : ι → List α) {k' : κ} (hk : k' ≠ k) :
    find key hash (erase key hash t k) k' = find key hash t k' := by
  unfold find erase
  by_cases hi : hash k' = hash k
  · rw [hi, update_self]
    apply find?_eraseP_other
    intro a ha
    simp only [decide_eq_true_eq] at ha
    simp [ha, hk.symm]
  · rw [update_of_ne hi]

theorem Wf.find_erase_self (ht : Wf key hash t) :
    find key hash (HashChain.erase key hash t k) k = none := by
  cases hfind : find key hash (HashChain.erase key hash t k) k with
  | none => rfl
  | some b =>
    exfalso
    obtain ⟨hb, hkey⟩ := find_mem hfind
    unfold HashChain.erase at hb
    rw [update_self] at hb
    -- with one entry of the key there were two, the one taken out and this one
    obtain ⟨c, l1, l2, hl1, hc, hchain, herase⟩ := exists_of_eraseP
      (p := fun a => decide (key a = k)) (mem_of_mem_eraseP hb) (by simp [hkey])
    have hunique := ht.unique (hash k)
    rw [hchain, map_append, map_cons] at hunique
    rw [herase] at hb
    have hnot : k ∉ (l1 ++ l2).map key := by
      have hcount := nodup_middle.1 hunique
      rw [nodup_cons, ← map_append] at hcount
      have hck : key c = k := by simpa using hc
      rw [← hck]
      exact hcount.1
    exact hnot (hkey ▸ mem_map_of_mem hb)

section Count

variable [Fintype ι] {q : α → Bool}

omit [DecidableEq κ] in
theorem count_update {l : List α} {i : ι} :
    count q (update t i l) + (t i).countP q = count q t + l.countP q := by
  have hrest : ∑ j ∈ Finset.univ.erase i, (update t i l j).countP q =
      ∑ j ∈ Finset.univ.erase i, (t j).countP q := by
    apply Finset.sum_congr rfl
    intro j hj
    rw [update_of_ne (Finset.ne_of_mem_erase hj)]
  have hnew := Finset.sum_erase_add Finset.univ
    (fun j => (update t i l j).countP q) (Finset.mem_univ i)
  have hold := Finset.sum_erase_add Finset.univ (fun j => (t j).countP q) (Finset.mem_univ i)
  simp only [update_self] at hnew
  unfold count
  omega

omit [DecidableEq κ] in
theorem count_push (key : α → κ) (hash : κ → ι) (a : α) :
    count q (push key hash t a) = count q t + (if q a then 1 else 0) := by
  have := count_update (t := t) (q := q) (l := a :: t (hash (key a))) (i := hash (key a))
  rw [countP_cons] at this
  unfold push
  omega

theorem count_modify (hfind : find key hash t k = some a) :
    count q (modify key hash t k f) + (if q a then 1 else 0) =
      count q t + (if q (f a) then 1 else 0) := by
  have hsum := count_update (t := t) (q := q)
    (l := modifyFirst (key · = k) f (t (hash k))) (i := hash k)
  have hchain := countP_modifyFirst (q := q) (f := f) hfind
  unfold modify
  omega

theorem count_erase (hfind : find key hash t k = some a) :
    count q (erase key hash t k) + (if q a then 1 else 0) = count q t := by
  have hsum := count_update (t := t) (q := q)
    (l := (t (hash k)).eraseP (key · = k)) (i := hash k)
  have hchain := countP_eraseP (q := q) hfind
  unfold erase
  omega

end Count

end Table

end LinuxKernel.HashChain
