import Mathlib.Tactic

/-!
# Line ends of two characters

Text in which a line ends with one character, and the form of it in which that character has
another one before it.  The form is written into pieces of any length, which may part a line end.
-/

namespace LinuxKernel.LineEnds
open List

variable {β : Type*} [DecidableEq β] {cr lf b : β} {u v l out rest : List β} {n : ℕ}

def encode (cr lf : β) : List β → List β
  | [] => []
  | b :: bs => if b = lf then cr :: lf :: encode cr lf bs else b :: encode cr lf bs

def decode (cr : β) (l : List β) : List β := l.filter fun b => b ≠ cr

@[simp]
theorem encode_nil (cr lf : β) : encode cr lf [] = [] := rfl

theorem encode_cons_lf (cr lf : β) (l : List β) :
    encode cr lf (lf :: l) = cr :: lf :: encode cr lf l := if_pos rfl

theorem encode_cons_of_ne (cr : β) (h : b ≠ lf) (l : List β) :
    encode cr lf (b :: l) = b :: encode cr lf l := if_neg h

@[simp]
theorem encode_append (cr lf : β) (u v : List β) :
    encode cr lf (u ++ v) = encode cr lf u ++ encode cr lf v := by
  induction u with
  | nil => rfl
  | cons b u ih =>
    by_cases hb : b = lf
    · subst hb
      rw [cons_append, encode_cons_lf, encode_cons_lf, ih]
      rfl
    · rw [cons_append, encode_cons_of_ne cr hb, encode_cons_of_ne cr hb, ih]
      rfl

@[simp]
theorem decode_append (cr : β) (u v : List β) :
    decode cr (u ++ v) = decode cr u ++ decode cr v := filter_append ..

@[simp]
theorem decode_nil (cr : β) : decode cr ([] : List β) = [] := rfl

theorem decode_cons_self (cr : β) (l : List β) : decode cr (cr :: l) = decode cr l := by
  simp [decode]

theorem decode_cons_of_ne (h : b ≠ cr) (l : List β) : decode cr (b :: l) = b :: decode cr l := by
  simp [decode, h]

theorem decode_encode (hne : lf ≠ cr) (h : cr ∉ l) : decode cr (encode cr lf l) = l := by
  induction l with
  | nil => rfl
  | cons b l ih =>
    have hb : b ≠ cr := fun heq => h (heq ▸ mem_cons_self)
    have hl : cr ∉ l := fun hmem => h (mem_cons_of_mem b hmem)
    by_cases hlf : b = lf
    · subst hlf
      rw [encode_cons_lf, decode_cons_self, decode_cons_of_ne hne, ih hl]
    · rw [encode_cons_of_ne cr hlf, decode_cons_of_ne hb, ih hl]

theorem mem_encode (h : b ∈ encode cr lf l) : b = cr ∨ b ∈ l := by
  induction l with
  | nil => exact absurd h (not_mem_nil)
  | cons a l ih =>
    by_cases ha : a = lf
    · subst ha
      rw [encode_cons_lf, mem_cons, mem_cons] at h
      rcases h with h | h | h
      · exact .inl h
      · exact .inr (h ▸ mem_cons_self)
      · exact (ih h).imp_right (mem_cons_of_mem a)
    · rw [encode_cons_of_ne cr ha, mem_cons] at h
      rcases h with h | h
      · exact .inr (h ▸ mem_cons_self)
      · exact (ih h).imp_right (mem_cons_of_mem a)

theorem getLast?_encode (hne : lf ≠ cr) (h : cr ∉ l) : (encode cr lf l).getLast? ≠ some cr := by
  induction l using List.reverseRecOn with
  | nil => simp
  | append_singleton l b ih =>
    have hb : b ≠ cr := fun heq => h (by simp [heq])
    by_cases hlf : b = lf
    · subst hlf
      simp [encode_cons_lf, hne]
    · simp [encode_cons_of_ne cr hlf, hb]

theorem length_encode_le (cr lf : β) (l : List β) : (encode cr lf l).length ≤ 2 * l.length := by
  induction l with
  | nil => exact Nat.zero_le _
  | cons b l ih =>
    rw [encode]
    split_ifs <;> simp <;> omega

theorem encode_replicate_of_ne (cr : β) (h : b ≠ lf) (n : ℕ) :
    encode cr lf (List.replicate n b) = List.replicate n b := by
  induction n with
  | zero => rfl
  | succ n ih => rw [replicate_succ, encode_cons_of_ne cr h, ih]

theorem encode_eq_nil (h : encode cr lf l = []) : l = [] := by
  cases l with
  | nil => rfl
  | cons b l =>
    rw [encode] at h
    split_ifs at h

theorem decode_drop_ne_nil (hlast : l.getLast? ≠ some cr) (hn : n < l.length) :
    decode cr (l.drop n) ≠ [] := by
  have hsame : (l.drop n).getLast? = l.getLast? := by
    rw [List.getLast?_drop, if_neg (by omega)]
  cases hdrop : (l.drop n).getLast? with
  | none =>
    rw [List.getLast?_eq_none_iff, drop_eq_nil_iff] at hdrop
    omega
  | some b =>
    obtain ⟨init, hinit⟩ := List.getLast?_eq_some_iff.mp hdrop
    have hb : b ≠ cr := by
      rintro rfl
      exact hlast (hsame.symm.trans hdrop)
    rw [hinit, decode_append, decode_cons_of_ne hb]
    simp

theorem length_encode_ne_succ (huv : u ++ lf :: v = l) (hl : rest ++ out = l) :
    (encode cr lf rest).length ≠ (encode cr lf u).length + 1 := by
  rw [← hl] at huv
  rcases append_eq_append_iff.mp huv with ⟨mid, hrest, htail⟩ | ⟨mid, hu, -⟩
  · cases mid with
    | nil =>
      rw [hrest]
      simp
    | cons b mid =>
      obtain rfl : lf = b := (List.cons.inj htail).1
      rw [hrest, encode_append, encode_cons_lf]
      simp
  · rw [hu, encode_append, length_append]
    omega

end LinuxKernel.LineEnds
