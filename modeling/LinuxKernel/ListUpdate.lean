import Mathlib.Tactic

/-!
# Lists of which one entry changes

Tables that are lists, changed at one index.
-/

namespace LinuxKernel.ListUpdate

theorem sum_map_set {α : Type*} (f : α → ℤ) {l : List α} {i : ℕ} {p : α} (q : α)
    (hp : l[i]? = some p) : ((l.set i q).map f).sum = (l.map f).sum - f p + f q := by
  induction l generalizing i with
  | nil => cases hp
  | cons x rest ih =>
    cases i with
    | zero =>
      obtain rfl : x = p := Option.some.inj hp
      simp only [List.set_cons_zero, List.map_cons, List.sum_cons]
      omega
    | succ i =>
      simp only [List.set_cons_succ, List.map_cons, List.sum_cons, ih hp]
      omega

theorem modify_eq_set_of_getElem? {α : Type*} (f : α → α) {l : List α} {i : ℕ} {p : α}
    (hp : l[i]? = some p) : l.modify i f = l.set i (f p) := by
  induction l generalizing i with
  | nil => cases hp
  | cons x rest ih =>
    cases i with
    | zero =>
      obtain rfl : x = p := Option.some.inj hp
      simp
    | succ i => simp [ih hp]

end LinuxKernel.ListUpdate
