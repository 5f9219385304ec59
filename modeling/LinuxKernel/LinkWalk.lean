import LinuxKernel.LinkChain

/-!
# Walks along the links of a table that may be damaged

A walk follows the links from an element on until it finds the end of a chain or an element that is
free.  Where the elements with a link are finitely many, it goes on for ever if and only if it comes
to an element twice.  A walk that frees the elements behind it always stops.
-/

namespace LinuxKernel.LinkChain
open Function

variable {α : Type*} {next next' : α → Link α} {v : Link α} {l : List α} {a b : α} {i j k n : ℕ}

inductive Dangles (next : α → Link α) : Link α → Prop
  | free : Dangles next .free
  | link {a : α} : Dangles next (next a) → Dangles next (.link a)

def WellFormed (next : α → Link α) (v : Link α) : Prop := ∃ l, Leads next v l

def Repeats (next : α → Link α) (v : Link α) : Prop :=
  ∃ i j a, i < j ∧ follow next v i = some a ∧ follow next v j = some a

def Passes (next : α → Link α) (v : Link α) (a : α) : Prop := ∃ k, follow next v k = some a

/-! ## Elements that are reached -/

theorem follow_eof (k : ℕ) : follow next .eof k = none := by cases k <;> rfl

theorem follow_free (k : ℕ) : follow next .free k = none := by cases k <;> rfl

theorem follow_eq_link (h : follow next v k = some b) : ∃ a, v = .link a := by
  cases v with
  | free => exact absurd h (by simp [follow_free])
  | eof => exact absurd h (by simp [follow_eof])
  | link a => exact ⟨a, rfl⟩

theorem follow_add (h : follow next v i = some a) (j : ℕ) :
    follow next v (i + j) = follow next (.link a) j := by
  induction i generalizing v with
  | zero =>
    obtain ⟨b, rfl⟩ := follow_eq_link h
    obtain rfl := Option.some.inj h
    rw [Nat.zero_add]
  | succ i ih =>
    obtain ⟨b, rfl⟩ := follow_eq_link h
    rw [Nat.succ_add]
    exact ih h

theorem follow_none_of_le (h : follow next v i = none) (hij : i ≤ j) : follow next v j = none := by
  induction i generalizing v j with
  | zero =>
    cases v with
    | free => exact follow_free _
    | eof => exact follow_eof _
    | link a => exact absurd h (by simp [follow])
  | succ i ih =>
    obtain ⟨j, rfl⟩ := Nat.exists_eq_succ_of_ne_zero (show j ≠ 0 by omega)
    cases v with
    | free => exact follow_free _
    | eof => exact follow_eof _
    | link a =>
      change follow next (next a) j = none
      exact ih h (Nat.le_of_succ_le_succ hij)

theorem follow_congr (h : ∀ a b, next' a = .link b ↔ next a = .link b) (v : Link α) (k : ℕ) :
    follow next' v k = follow next v k := by
  induction k generalizing v with
  | zero => cases v <;> rfl
  | succ k ih =>
    cases v with
    | free => rfl
    | eof => rfl
    | link a =>
      change follow next' (next' a) k = follow next (next a) k
      cases hv : next a with
      | link b => rw [(h a b).mpr hv, ih]
      | free =>
        cases hv' : next' a with
        | link b => exact absurd ((h a b).mp hv') (by simp [hv])
        | free => rw [follow_free, follow_free]
        | eof => rw [follow_free, follow_eof]
      | eof =>
        cases hv' : next' a with
        | link b => exact absurd ((h a b).mp hv') (by simp [hv])
        | free => rw [follow_free, follow_eof]
        | eof => rw [follow_eof, follow_eof]

theorem Leads.passes_iff (h : Leads next v l) : Passes next v a ↔ a ∈ l := by
  unfold Passes
  rw [List.mem_iff_getElem?]
  simp only [h.follow_eq]

theorem wellFormed_follow (h : follow next v k = some a) :
    WellFormed next v ↔ WellFormed next (.link a) := by
  induction k generalizing v with
  | zero =>
    obtain ⟨b, rfl⟩ := follow_eq_link h
    obtain rfl := Option.some.inj h
    exact Iff.rfl
  | succ k ih =>
    obtain ⟨b, rfl⟩ := follow_eq_link h
    have hrest : follow next (next b) k = some a := h
    rw [← ih hrest]
    constructor
    · rintro ⟨l, hl⟩
      cases hl with
      | @cons _ l hl => exact ⟨l, hl⟩
    · rintro ⟨l, hl⟩
      exact ⟨b :: l, .cons hl⟩

theorem dangles_link_iff :
    Dangles next (.link a) ↔ ∃ b, Passes next (.link a) b ∧ next b = .free := by
  constructor
  · intro h
    generalize hv : Link.link a = v at h
    induction h generalizing a with
    | free => cases hv
    | @link c hrest ih =>
      obtain rfl : a = c := Link.link.inj hv
      cases hnext : next a with
      | free => exact ⟨a, ⟨0, rfl⟩, hnext⟩
      | eof =>
        rw [hnext] at hrest
        cases hrest
      | link c =>
        obtain ⟨b, ⟨k, hk⟩, hb⟩ := ih hnext.symm
        exact ⟨b, ⟨k + 1, hk⟩, hb⟩
  · rintro ⟨b, ⟨k, hk⟩, hb⟩
    induction k generalizing a with
    | zero =>
      obtain rfl := Option.some.inj hk
      refine .link ?_
      rw [hb]
      exact .free
    | succ k ih =>
      change follow next (next a) k = some b at hk
      obtain ⟨c, hc⟩ := follow_eq_link hk
      refine .link ?_
      rw [hc] at hk ⊢
      exact ih hk

theorem Leads.not_repeats (h : Leads next v l) : ¬ Repeats next v := by
  rintro ⟨i, j, a, hij, hi, hj⟩
  rw [h.follow_eq] at hi hj
  have heq := (List.getElem?_inj (List.getElem?_eq_some_iff.mp hi).1 h.nodup).mp (hi.trans hj.symm)
  omega

theorem Leads.not_dangles (h : Leads next v l) : ¬ Dangles next v := by
  intro hd
  induction h with
  | nil => cases hd
  | cons _ ih =>
    cases hd with
    | link hd => exact ih hd

theorem Repeats.follow_ne_none (h : Repeats next v) (k : ℕ) : follow next v k ≠ none := by
  obtain ⟨i, j, a, hij, hi, hj⟩ := h
  induction k using Nat.strong_induction_on with
  | _ k ih =>
    by_cases hk : k ≤ j
    · intro hnone
      rw [follow_none_of_le hnone hk] at hj
      cases hj
    · have heq : follow next v k = follow next v (i + (k - j)) := by
        rw [show k = j + (k - j) by omega, follow_add hj, follow_add hi]
        congr 1
        omega
      rw [heq]
      exact ih _ (by omega)

theorem Repeats.not_dangles (h : Repeats next (.link a)) : ¬ Dangles next (.link a) := by
  intro hd
  obtain ⟨b, ⟨k, hk⟩, hb⟩ := dangles_link_iff.mp hd
  refine h.follow_ne_none (k + 1) ?_
  rw [follow_add hk]
  change follow next (next b) 0 = none
  rw [hb]
  rfl

theorem wellFormed_or_dangles_or_repeats {S : Finset α}
    (hS : ∀ a b, next a = .link b → a ∈ S) (a : α) :
    WellFormed next (.link a) ∨ Dangles next (.link a) ∨ Repeats next (.link a) := by
  -- a chain that goes on for ever has an element twice
  by_cases hforever : ∀ k, ∃ b, follow next (.link a) k = some b
  · choose f hf using hforever
    have hmem : ∀ k, f k ∈ S := by
      intro k
      have hnext := hf (k + 1)
      rw [follow_add (hf k)] at hnext
      obtain ⟨b, hb⟩ := follow_eq_link (show follow next (next (f k)) 0 = _ from hnext)
      exact hS _ b hb
    obtain ⟨i, j, hij, heq⟩ := Finite.exists_ne_map_eq_of_infinite
      (fun k => (⟨f k, hmem k⟩ : S))
    have heq' : f i = f j := congrArg Subtype.val heq
    rcases Nat.lt_or_gt_of_ne hij with hlt | hlt
    · exact .inr (.inr ⟨i, j, f i, hlt, hf i, heq' ▸ hf j⟩)
    · exact .inr (.inr ⟨j, i, f j, hlt, hf j, heq' ▸ hf i⟩)
  · push Not at hforever
    obtain ⟨k, hk⟩ := hforever
    have hends : ∀ k v, (∀ b, follow next v k ≠ some b) → WellFormed next v ∨ Dangles next v := by
      intro k
      induction k with
      | zero =>
        intro v hv
        cases v with
        | free => exact .inr .free
        | eof => exact .inl ⟨[], .nil⟩
        | link b => exact absurd rfl (hv b)
      | succ k ih =>
        intro v hv
        cases v with
        | free => exact .inr .free
        | eof => exact .inl ⟨[], .nil⟩
        | link b =>
          rcases ih (next b) hv with ⟨l, hl⟩ | hd
          · exact .inl ⟨b :: l, .cons hl⟩
          · exact .inr (.link hd)
    rcases hends k _ hk with h | h
    · exact .inl h
    · exact .inr (.inl h)

/-- The walk from `a` on, for at most `n` elements; `true` when it came to a free element. -/
def walk (next : α → Link α) : ℕ → α → Option Bool
  | 0, _ => none
  | n + 1, a =>
    match next a with
    | .free => some true
    | .eof => some false
    | .link b => walk next n b

theorem walk_succ (next : α → Link α) (n : ℕ) (a : α) : walk next (n + 1) a =
    match next a with
    | .free => some true
    | .eof => some false
    | .link b => walk next n b := rfl

theorem walk_false_iff : (∃ n, walk next n a = some false) ↔ WellFormed next (.link a) := by
  constructor
  · rintro ⟨n, hn⟩
    induction n generalizing a with
    | zero => cases hn
    | succ n ih =>
      rw [walk_succ] at hn
      cases hnext : next a with
      | free =>
        rw [hnext] at hn
        cases hn
      | eof => exact ⟨[a], .cons (hnext ▸ .nil)⟩
      | link b =>
        rw [hnext] at hn
        obtain ⟨l, hl⟩ := ih hn
        exact ⟨a :: l, .cons (hnext ▸ hl)⟩
  · rintro ⟨l, hl⟩
    generalize hv : Link.link a = v at hl
    induction hl generalizing a with
    | nil => cases hv
    | @cons c l hrest ih =>
      obtain rfl : a = c := Link.link.inj hv
      cases hnext : next a with
      | free =>
        rw [hnext] at hrest
        cases hrest
      | eof => exact ⟨1, by rw [walk_succ, hnext]⟩
      | link b =>
        obtain ⟨n, hn⟩ := ih hnext.symm
        exact ⟨n + 1, by rw [walk_succ, hnext]; exact hn⟩

theorem walk_true_iff : (∃ n, walk next n a = some true) ↔ Dangles next (.link a) := by
  constructor
  · rintro ⟨n, hn⟩
    induction n generalizing a with
    | zero => cases hn
    | succ n ih =>
      rw [walk_succ] at hn
      cases hnext : next a with
      | free => exact .link (hnext ▸ .free)
      | eof =>
        rw [hnext] at hn
        cases hn
      | link b =>
        rw [hnext] at hn
        exact .link (hnext ▸ ih hn)
  · intro h
    generalize hv : Link.link a = v at h
    induction h generalizing a with
    | free => cases hv
    | @link c hrest ih =>
      obtain rfl : a = c := Link.link.inj hv
      cases hnext : next a with
      | free => exact ⟨1, by rw [walk_succ, hnext]⟩
      | eof =>
        rw [hnext] at hrest
        cases hrest
      | link b =>
        obtain ⟨n, hn⟩ := ih hnext.symm
        exact ⟨n + 1, by rw [walk_succ, hnext]; exact hn⟩

theorem walk_ends_iff {S : Finset α} (hS : ∀ a b, next a = .link b → a ∈ S) (a : α) :
    (∃ n r, walk next n a = some r) ↔ ¬ Repeats next (.link a) := by
  constructor
  · rintro ⟨n, r, hr⟩ hrep
    cases r with
    | false =>
      obtain ⟨l, hl⟩ := walk_false_iff.mp ⟨n, hr⟩
      exact hl.not_repeats hrep
    | true => exact hrep.not_dangles (walk_true_iff.mp ⟨n, hr⟩)
  · intro hrep
    rcases wellFormed_or_dangles_or_repeats hS a with h | h | h
    · obtain ⟨n, hn⟩ := walk_false_iff.mpr h
      exact ⟨n, false, hn⟩
    · obtain ⟨n, hn⟩ := walk_true_iff.mpr h
      exact ⟨n, true, hn⟩
    · exact absurd h hrep

theorem walk_reports {r : Bool} (h : walk next n a = some r) :
    r = true ↔ ¬ WellFormed next (.link a) := by
  cases r with
  | false => simpa using walk_false_iff.mp ⟨n, h⟩
  | true =>
    refine iff_of_true rfl ?_
    rintro ⟨l, hl⟩
    exact hl.not_dangles (walk_true_iff.mp ⟨n, h⟩)

theorem walk_ok_iff {S : Finset α}
    (hS : ∀ a b, next' a = .link b → a ∈ S) :
    (∃ n r, walk next' n a = some r ∧ (¬ WellFormed next (.link a) → r = true)) ↔
      ¬ Repeats next' (.link a) ∧ (¬ WellFormed next (.link a) → ¬ WellFormed next' (.link a)) := by
  rw [← walk_ends_iff hS]
  constructor
  · rintro ⟨n, r, hr, hreport⟩
    exact ⟨⟨n, r, hr⟩, fun hmal => (walk_reports hr).mp (hreport hmal)⟩
  · rintro ⟨⟨n, r, hr⟩, hreport⟩
    exact ⟨n, r, hr, fun hmal => (walk_reports hr).mpr (hreport hmal)⟩

section

variable [DecidableEq α] {x : α}

theorem wellFormed_update_eof :
    WellFormed (update next x .eof) v ↔ WellFormed next v ∨ Passes next v x := by
  constructor
  · rintro ⟨l, hl⟩
    induction hl with
    | nil => exact .inl ⟨[], .nil⟩
    | @cons a l hrest ih =>
      by_cases hax : a = x
      · exact .inr ⟨0, by rw [hax]; rfl⟩
      · rw [update_of_ne hax] at ih
        rcases ih with ⟨l', hl'⟩ | ⟨k, hk⟩
        · exact .inl ⟨a :: l', .cons hl'⟩
        · exact .inr ⟨k + 1, hk⟩
  · have hend : WellFormed (update next x .eof) (.link x) :=
      ⟨[x], .cons (by rw [update_self]; exact .nil)⟩
    rintro (⟨l, hl⟩ | ⟨k, hk⟩)
    · induction hl with
      | nil => exact ⟨[], .nil⟩
      | @cons a l hrest ih =>
        by_cases hax : a = x
        · rw [hax]
          exact hend
        · obtain ⟨l', hl'⟩ := ih
          refine ⟨a :: l', .cons ?_⟩
          rwa [update_of_ne hax]
    · induction k generalizing v with
      | zero =>
        obtain ⟨a, rfl⟩ := follow_eq_link hk
        obtain rfl := Option.some.inj hk
        exact hend
      | succ k ih =>
        obtain ⟨a, rfl⟩ := follow_eq_link hk
        by_cases hax : a = x
        · rw [hax]
          exact hend
        · obtain ⟨l', hl'⟩ := ih hk
          refine ⟨a :: l', .cons ?_⟩
          rwa [update_of_ne hax]

theorem repeats_update_eof (hx : next x = .free) :
    Repeats (update next x .eof) v ↔ Repeats next v := by
  have hfollow : ∀ k, follow (update next x .eof) v k = follow next v k := by
    refine follow_congr (fun a b => ?_) v
    by_cases hax : a = x
    · rw [hax, update_self, hx]
      simp
    · rw [update_of_ne hax]
  unfold Repeats
  simp only [hfollow]

theorem wellFormed_update_free (hx : next x = .link b) :
    WellFormed (update next x .free) (.link b) ↔ WellFormed next (.link x) := by
  constructor
  · rintro ⟨l, hl⟩
    refine ⟨x :: l, .cons ?_⟩
    rw [hx]
    refine hl.congr fun a ha => ?_
    have hax : a ≠ x := by
      rintro rfl
      exact hl.ne_free ha (update_self ..)
    rw [update_of_ne hax]
  · rintro ⟨l, hl⟩
    have hnodup := hl.nodup
    cases hl with
    | @cons _ l hrest =>
      rw [hx] at hrest
      refine ⟨l, hrest.congr fun a ha => ?_⟩
      have hax : a ≠ x := by
        rintro rfl
        exact (List.nodup_cons.mp hnodup).1 ha
      rw [update_of_ne hax]

def freeWalk : ℕ → (α → Link α) → α → Option Bool
  | 0, _, _ => none
  | n + 1, next, a =>
    match next a with
    | .free => some true
    | .eof => some false
    | .link b => freeWalk n (update next a .free) b

theorem freeWalk_reports {r : Bool} (h : freeWalk n next a = some r) :
    r = true ↔ ¬ WellFormed next (.link a) := by
  induction n generalizing next a with
  | zero => cases h
  | succ n ih =>
    rw [freeWalk] at h
    cases hnext : next a with
    | free =>
      rw [hnext] at h
      obtain rfl := Option.some.inj h
      refine iff_of_true rfl ?_
      rintro ⟨l, hl⟩
      exact hl.not_dangles (.link (hnext ▸ .free))
    | eof =>
      rw [hnext] at h
      obtain rfl := Option.some.inj h
      simpa using ⟨[a], .cons (hnext ▸ .nil)⟩
    | link b =>
      rw [hnext] at h
      exact (ih h).trans (not_congr (wellFormed_update_free hnext))

theorem freeWalk_ends {S : Finset α} (hS : ∀ a b, next a = .link b → a ∈ S)
    (hn : (S.filter fun a => next a ≠ .free).card < n) (a : α) :
    ∃ r, freeWalk n next a = some r := by
  induction n generalizing next a with
  | zero => omega
  | succ n ih =>
    rw [freeWalk]
    cases hnext : next a with
    | free => exact ⟨true, rfl⟩
    | eof => exact ⟨false, rfl⟩
    | link b =>
      have ha : a ∈ S.filter fun c => next c ≠ .free :=
        Finset.mem_filter.mpr ⟨hS a b hnext, by simp [hnext]⟩
      have hless : (S.filter fun c => update next a .free c ≠ .free).card <
          (S.filter fun c => next c ≠ .free).card := by
        refine Finset.card_lt_card (Finset.ssubset_iff_subset_ne.mpr ⟨?_, ?_⟩)
        · intro c hc
          obtain ⟨hcS, hcne⟩ := Finset.mem_filter.mp hc
          by_cases hca : c = a
          · exact absurd (hca ▸ update_self ..) hcne
          · rw [update_of_ne hca] at hcne
            exact Finset.mem_filter.mpr ⟨hcS, hcne⟩
        · intro heq
          rw [← heq] at ha
          exact (Finset.mem_filter.mp ha).2 (update_self ..)
      have hS' : ∀ c e, update next a .free c = .link e → c ∈ S := by
        intro c e hc
        by_cases hca : c = a
        · rw [hca, update_self] at hc
          cases hc
        · rw [update_of_ne hca] at hc
          exact hS c e hc
      exact ih hS' (by omega) b

end

end LinuxKernel.LinkChain
