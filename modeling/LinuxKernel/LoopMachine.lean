import Mathlib.Tactic.Common

/-!
# Loops written with jumps

A loop is a function that takes its state to the next one or to a result.  A
result that is reached satisfies what an invariant says of it, and a loop that an
invariant keeps going never ends.
-/

namespace LinuxKernel.LoopMachine

universe u v

variable {State : Type u} {Result : Type v} (step : State → State ⊕ Result)

def runFor : ℕ → State → State ⊕ Result
  | 0, x => .inl x
  | n + 1, x =>
    match step x with
    | .inl y => runFor n y
    | .inr r => .inr r

def Returns (x : State) (r : Result) : Prop := ∃ n, runFor step n x = .inr r

inductive Leads (Q : State → Prop) : State → Prop where
  | here {x : State} (hQ : Q x) : Leads Q x
  | ends {x : State} {r : Result} (hstep : step x = .inr r) : Leads Q x
  | go {x y : State} (hstep : step x = .inl y) (hnext : Leads Q y) : Leads Q x

variable {step}

variable {x : State} {r : Result}

theorem Returns.of_step {y : State} (hstep : step x = .inl y)
    (h : Returns step y r) : Returns step x r := by
  obtain ⟨n, hn⟩ := h
  refine ⟨n + 1, ?_⟩
  unfold runFor
  rw [hstep]
  exact hn

theorem Returns.of_end (hstep : step x = .inr r) : Returns step x r := by
  refine ⟨1, ?_⟩
  unfold runFor
  rw [hstep]

theorem Leads.trans {P Q : State → Prop} (h : Leads step P x)
    (hPQ : ∀ y, P y → Leads step Q y) : Leads step Q x := by
  induction h with
  | here hP => exact hPQ _ hP
  | ends hstep => exact Leads.ends hstep
  | go hstep _ ih => exact Leads.go hstep ih

theorem Leads.returns {Q : State → Prop} (h : Leads step Q x)
    (hQ : ∀ y, Q y → ∃ r, Returns step y r) : ∃ r, Returns step x r := by
  induction h with
  | here hQx => exact hQ _ hQx
  | ends hstep => exact ⟨_, Returns.of_end hstep⟩
  | go hstep _ ih =>
    obtain ⟨r, hr⟩ := ih
    exact ⟨r, hr.of_step hstep⟩

theorem not_returns {I : State → Prop} (hstep : ∀ x, I x → ∃ y, step x = .inl y ∧ I y) (hx : I x)
    (r : Result) : ¬Returns step x r := by
  rintro ⟨n, hn⟩
  induction n generalizing x with
  | zero => simp [runFor] at hn
  | succ n ih =>
    obtain ⟨y, hy, hI⟩ := hstep x hx
    unfold runFor at hn
    rw [hy] at hn
    exact ih hI hn

theorem Returns.result {I : State → Prop} {P : Result → Prop}
    (hstep : ∀ x y, I x → step x = .inl y → I y) (hend : ∀ x r, I x → step x = .inr r → P r)
    (hx : I x) (h : Returns step x r) : P r := by
  obtain ⟨n, hn⟩ := h
  induction n generalizing x with
  | zero => simp [runFor] at hn
  | succ n ih =>
    unfold runFor at hn
    cases hnext : step x with
    | inl y =>
      rw [hnext] at hn
      exact ih (hstep x y hx hnext) hn
    | inr r' =>
      rw [hnext, Sum.inr.injEq] at hn
      rw [← hn]
      exact hend x r' hx hnext

end LinuxKernel.LoopMachine
