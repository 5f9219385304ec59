import Mathlib.Data.List.Basic

/-!
# Lists whose equal keys stand together

A list of keys is contiguous when a key that occurs again occurs again at
once.  Scanning such a list for a key and stopping at the first entry behind
it therefore visits every occurrence, and replacing the run of one key by
another run of it keeps the property.
-/

namespace LinuxKernel
open List

variable {κ : Type*}

def Contiguous : List κ → Prop
  | [] => True
  | k :: keys => (k ∈ keys → keys.head? = some k) ∧ Contiguous keys

theorem Contiguous.of_append_right {front keys : List κ}
    (hkeys : Contiguous (front ++ keys)) : Contiguous keys := by
  induction front with
  | nil => exact hkeys
  | cons j front ih => exact ih hkeys.2

theorem Contiguous.notMem_of_run {k : κ} {run post : List κ}
    (hkeys : Contiguous (run ++ post)) (hrun : ∀ j ∈ run, j = k)
    (hne : run ≠ []) (hhead : post.head? ≠ some k) : k ∉ post := by
  induction run with
  | nil => exact absurd rfl hne
  | cons j run ih =>
    have hj : j = k := hrun j mem_cons_self
    subst hj
    cases run with
    | nil =>
      intro hmem
      exact hhead (hkeys.1 hmem)
    | cons i run =>
      apply ih hkeys.2
      · intro x hx
        exact hrun x (mem_cons_of_mem _ hx)
      · simp

theorem Contiguous.run_append {k : κ} {run post : List κ}
    (hpost : Contiguous post) (hrun : ∀ j ∈ run, j = k) (hk : k ∉ post) :
    Contiguous (run ++ post) := by
  induction run with
  | nil => exact hpost
  | cons j run ih =>
    have hj : j = k := hrun j mem_cons_self
    have htail : ∀ i ∈ run, i = k := fun i hi =>
      hrun i (mem_cons_of_mem _ hi)
    subst hj
    refine ⟨?_, ih htail⟩
    intro hmem
    cases run with
    | nil => exact absurd hmem hk
    | cons i run =>
      have hi : i = j := htail i mem_cons_self
      simp [hi]

theorem Contiguous.replaceRun {k : κ} {pre run run' post : List κ}
    (hkeys : Contiguous (pre ++ (run ++ post)))
    (hpre : k ∉ pre) (hrun : ∀ j ∈ run, j = k) (hpost : k ∉ post)
    (hrun' : ∀ j ∈ run', j = k) (hempty : run = [] → post = []) :
    Contiguous (pre ++ (run' ++ post)) := by
  induction pre with
  | nil =>
    have hpostKeys : Contiguous post := by
      apply Contiguous.of_append_right
      exact hkeys
    exact hpostKeys.run_append hrun' hpost
  | cons j pre ih =>
    have hjk : j ≠ k := fun heq => hpre (heq ▸ mem_cons_self)
    refine ⟨?_, ih hkeys.2 fun hmem => hpre (mem_cons_of_mem _ hmem)⟩
    intro hmem
    change j ∈ pre ++ (run' ++ post) at hmem
    have hjrun' : j ∉ run' := fun hj => hjk (hrun' j hj)
    have hold : j ∈ pre ++ (run ++ post) := by
      simp only [mem_append] at hmem ⊢
      tauto
    have hhead := hkeys.1 hold
    cases pre with
    | cons i pre => simpa using hhead
    | nil =>
      -- the head of the old run would have to be `j`
      cases run with
      | cons i run =>
        have hi : i = j := by simpa using hhead
        exact absurd (hi ▸ hrun i mem_cons_self) hjk
      | nil =>
        rw [hempty rfl] at hmem
        exact absurd (by simpa using hmem) hjrun'

end LinuxKernel
