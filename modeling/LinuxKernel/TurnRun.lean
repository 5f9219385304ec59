import Mathlib.Data.List.Basic

/-!
# Loops that leave a trace

A turn of a loop leaves some events and gives the next state or the result.  When a measure falls
with every turn, the loop ends, and its trace has the events of the states that it comes to.
-/

namespace LinuxKernel.TurnRun

variable {σ ι ρ : Type*}

def run (turn : σ → List ι × (σ ⊕ ρ)) : ℕ → σ → List ι × Option ρ
  | 0, _ => ([], none)
  | n + 1, s =>
    match (turn s).2 with
    | .inl s' => ((turn s).1 ++ (run turn n s').1, (run turn n s').2)
    | .inr r => ((turn s).1, some r)

inductive Comes (turn : σ → List ι × (σ ⊕ ρ)) (s : σ) : σ → Prop
  | start : Comes turn s s
  | turn {s' s'' : σ} (h : Comes turn s s') (hturn : (turn s').2 = .inl s'') : Comes turn s s''

variable {turn : σ → List ι × (σ ⊕ ρ)} {s s' s'' : σ} {n : ℕ} {x : ι}

theorem Comes.head (hturn : (turn s).2 = .inl s') (h : Comes turn s' s'') : Comes turn s s'' := by
  induction h with
  | start => exact .turn .start hturn
  | turn _ hlast ih => exact .turn ih hlast

theorem comes_iff :
    Comes turn s s'' ↔ s = s'' ∨ ∃ s', (turn s).2 = .inl s' ∧ Comes turn s' s'' := by
  constructor
  · intro h
    induction h with
    | start => exact .inl rfl
    | turn h hturn ih =>
      rcases ih with rfl | ⟨s', hfirst, hrest⟩
      · exact .inr ⟨_, hturn, .start⟩
      · exact .inr ⟨s', hfirst, .turn hrest hturn⟩
  · rintro (rfl | ⟨s', hturn, h⟩)
    · exact .start
    · exact h.head hturn

theorem Comes.invariant {P : σ → Prop} (h : Comes turn s s') (hs : P s)
    (hkeep : ∀ s s', P s → (turn s).2 = .inl s' → P s') : P s' := by
  induction h with
  | start => exact hs
  | turn _ hturn ih => exact hkeep _ _ ih hturn

theorem run_spec {P : σ → Prop} (measure : σ → ℕ) (hs : P s)
    (hkeep : ∀ s s', P s → (turn s).2 = .inl s' → P s' ∧ measure s' < measure s)
    (hn : measure s < n) :
    (∃ r, (run turn n s).2 = some r) ∧
      ∀ x, x ∈ (run turn n s).1 ↔ ∃ s', Comes turn s s' ∧ x ∈ (turn s').1 := by
  induction n generalizing s with
  | zero => omega
  | succ n ih =>
    rw [run]
    cases hturn : (turn s).2 with
    | inr r =>
      refine ⟨⟨r, rfl⟩, fun x => ⟨fun hx => ⟨s, .start, hx⟩, ?_⟩⟩
      rintro ⟨s', hcomes, hx⟩
      rcases comes_iff.mp hcomes with rfl | ⟨s'', hnext, -⟩
      · exact hx
      · rw [hturn] at hnext
        exact absurd hnext (by simp)
    | inl s1 =>
      obtain ⟨hkeep', hlt⟩ := hkeep s s1 hs hturn
      obtain ⟨hends, htrace⟩ := ih hkeep' (by omega)
      refine ⟨hends, fun x => ?_⟩
      rw [List.mem_append, htrace]
      constructor
      · rintro (hx | ⟨s', hcomes, hx⟩)
        · exact ⟨s, .start, hx⟩
        · exact ⟨s', hcomes.head hturn, hx⟩
      · rintro ⟨s', hcomes, hx⟩
        rcases comes_iff.mp hcomes with rfl | ⟨s'', hnext, hrest⟩
        · exact .inl hx
        · rw [hturn] at hnext
          obtain rfl := Sum.inl.inj hnext
          exact .inr ⟨s', hrest, hx⟩

end LinuxKernel.TurnRun
