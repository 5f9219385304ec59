import LinuxKernel.TtyRun

/-!
# A full queue without a line

When the secondary queue is full, `copy_to_cooked` looks at no character, and without a line no
process goes into the loop of `read_chan`.
-/

namespace LinuxKernel.TtyInput

variable {s : TtyStruct} {t : Termios} {before : ℤ → Bool} {orphaned : Bool} {c : Byte}

def Wedged (s : TtyStruct) : Prop := s.left = 0 ∧ s.canonData = 0

/-! ## Room -/

def Termios.errorPuts (t : Termios) (error : ℕ) : ℕ :=
  if error = TTY_BREAK then
    if t.ignbrk then 0 else if t.brkint then 0 else if t.parmrk then 3 else 1
  else if error = TTY_OVERRUN then 0
  else if t.ignpar then 0
  else if t.parmrk then 3 else 1

abbrev TtyStruct.Erases (s : TtyStruct) (before : ℤ → Bool) (t : Termios) (c : Byte) : Prop :=
  s.lnext = false ∧ ∃ x ∈ t.mapInput before s.lnext c,
    Is x t.erase ∨ Is x t.kill ∨ (Is x t.werase ∧ t.iexten)

abbrev TtyStruct.StoreRoom (s : TtyStruct) (t : Termios) (c : ℤ) : Prop :=
  s.canonData = (if s.Delimits t c then -1 else 0) → (if s.Doubled t c then 2 else 1) < s.left

abbrev TtyStruct.ReceivedRoom (s : TtyStruct) (before : ℤ → Bool) (t : Termios) (orphaned : Bool)
    (c : Byte) : Prop :=
  if s.charError ≠ 0 then s.canonData = 0 → t.errorPuts s.charError < s.left
  else
    (s.Erases before t c → s.offset s.canonHead ≤ s.offset s.head) ∧
      ∀ x ∈ (s.examine before t orphaned c).2, (s.examine before t orphaned c).1.StoreRoom t x

/-- The condition on a step: while there is no line, a character leaves room behind it; nothing
is erased behind the tail; the queue is not full when the last line is counted. -/
def StepRoom (before : ℤ → Bool) (s : TtyStruct) : Event → Prop
  | .received t orphaned c specialFlag =>
    s.left ≠ 0 → specialFlag = false → s.ReceivedRoom before t orphaned c
  | .count => s.counting = true → s.canonData ≤ 1 → s.left ≠ 0
  | _ => True

instance (before : ℤ → Bool) (s : TtyStruct) : (e : Event) → Decidable (StepRoom before s e)
  | .received t orphaned c specialFlag =>
    inferInstanceAs (Decidable (s.left ≠ 0 → specialFlag = false →
      s.ReceivedRoom before t orphaned c))
  | .count => inferInstanceAs (Decidable (s.counting = true → s.canonData ≤ 1 → s.left ≠ 0))
  | .flush | .readChan _ _ | .take _ => .isTrue trivial

def RunRoom (before : ℤ → Bool) (s : TtyStruct) : List Event → Prop
  | [] => True
  | e :: es => StepRoom before s e ∧ RunRoom before (step before s e) es

instance RunRoom.decide (before : ℤ → Bool) (s : TtyStruct) :
    (es : List Event) → Decidable (RunRoom before s es)
  | [] => .isTrue trivial
  | e :: es =>
    have := RunRoom.decide before (step before s e) es
    inferInstanceAs (Decidable (StepRoom before s e ∧ RunRoom before (step before s e) es))

/-! ## Rounds of `copy_to_cooked` -/

theorem puts_room (l : List Byte) (k : ℤ) (h : s.canonData = k → l.length < s.left)
    (hdata : (l.foldl TtyStruct.put s).canonData = k) : (l.foldl TtyStruct.put s).left ≠ 0 := by
  induction l generalizing s with
  | nil =>
    have hroom := h hdata
    exact Nat.ne_zero_of_lt hroom
  | cons c l ih =>
    refine ih (fun hput => ?_) hdata
    rw [(put_rest c).2] at hput
    have hroom := h hput
    rw [List.length_cons] at hroom
    have hleft := put_left c (s := s) (by omega)
    omega

theorem not_wedged_of_left (h : s.left ≠ 0) : ¬Wedged s := fun hw => h hw.1

theorem errorChar_not_wedged (h : s.canonData = 0 → t.errorPuts s.charError < s.left) :
    ¬Wedged (s.errorChar t c) := by
  obtain ⟨s', hs'⟩ : ∃ s', s' = { s with charError := 0 } := ⟨_, rfl⟩
  have hputs : ∀ l : List Byte, (s.canonData = 0 → l.length < s.left) →
      ¬Wedged (l.foldl TtyStruct.put s') := by
    intro l hroom hw
    refine puts_room l 0 ?_ hw.2 hw.1
    rw [hs']
    exact hroom
  unfold Termios.errorPuts at h
  unfold TtyStruct.errorChar
  rw [← hs']
  dsimp only
  split_ifs at h ⊢
  · exact hputs [] h
  · exact hputs [] h
  · exact hputs [255, 0, 0] h
  · exact hputs [0] h
  · exact hputs [] h
  · exact hputs [] h
  · exact hputs [255, 0, c] h
  · exact hputs [0] h

theorem delimit_rest (d : Byte) :
    (s.delimit d).left = (s.put d).left ∧ (s.delimit d).canonData = (s.put d).canonData + 1 := by
  unfold TtyStruct.delimit TtyStruct.put
  dsimp only
  split <;> exact ⟨rfl, rfl⟩

theorem store_not_wedged {x : ℤ} (h : s.StoreRoom t x) : ¬Wedged (s.store t x) := by
  obtain ⟨l, hl, hlength⟩ : ∃ l : List Byte,
      (if s.Doubled t x then s.put (BitVec.ofInt 8 x) else s) = l.foldl TtyStruct.put s ∧
        l.length + 1 = if s.Doubled t x then 2 else 1 := by
    split
    · exact ⟨[_], rfl, rfl⟩
    · exact ⟨[], rfl, rfl⟩
  unfold TtyStruct.StoreRoom at h
  rw [← hlength] at h
  have hputs : ∀ (d : Byte) (k : ℤ), (s.canonData = k → l.length + 1 < s.left) →
      ((l.foldl TtyStruct.put s).put d).canonData = k →
        ((l.foldl TtyStruct.put s).put d).left ≠ 0 := by
    intro d k hroom
    have hroom' := puts_room (s := s) (l ++ [d]) k (by rwa [List.length_append])
    rwa [List.foldl_append] at hroom'
  unfold TtyStruct.store
  rw [hl]
  rintro ⟨hleft, hdata⟩
  dsimp only at hleft hdata
  split at h
  · rename_i hdelimits
    simp only [if_pos hdelimits] at hleft hdata
    obtain ⟨hsame, hcount⟩ := delimit_rest (s := l.foldl TtyStruct.put s)
      (BitVec.ofInt 8 (if Is x t.eof then DISABLED_CHAR else x))
    exact hputs _ (-1) h (by have := hcount.symm.trans hdata; omega) (hsame.symm.trans hleft)
  · rename_i hdelimits
    simp only [if_neg hdelimits] at hleft hdata
    exact hputs _ 0 h hdata hleft

theorem left_add_offset (s : TtyStruct) : s.left + s.offset s.head = 1023 := by
  unfold TtyStruct.left TtyStruct.offset
  omega

theorem eraser_left (h : s.offset s.canonHead ≤ s.offset s.head) (t : Termios) (c : ℤ) :
    s.left ≤ (s.eraser t c).left := by
  have herase := eraseOk_of_le h t c
  have hfewer := herase.fewer
  have hbefore := left_add_offset s
  have hafter := left_add_offset (s.eraser t c)
  unfold TtyStruct.offset at *
  rw [herase.tail] at hafter
  omega

theorem isig_left (s : TtyStruct) (t : Termios) : s.left ≤ (s.isig t).left := by
  have hbefore := left_add_offset s
  unfold TtyStruct.isig
  split
  · exact le_rfl
  · change s.left ≤ 1023
    omega

theorem special_left {x : ℤ} {s' : TtyStruct} (hs' : s.special t orphaned x = some s')
    (h : s.lnext = false → (Is x t.erase ∨ Is x t.kill ∨ (Is x t.werase ∧ t.iexten)) →
      s.offset s.canonHead ≤ s.offset s.head) : s.left ≤ s'.left := by
  unfold TtyStruct.special at hs'
  split_ifs at hs' with hlnext herase
  · obtain rfl := Option.some.inj hs'
    exact eraser_left (h (by simpa using hlnext) herase) t x
  all_goals obtain rfl := Option.some.inj hs'
  all_goals first | exact le_rfl | exact isig_left s t

theorem received_not_wedged (hleft : s.left ≠ 0) (h : s.ReceivedRoom before t orphaned c) :
    ¬Wedged (s.copyToCooked before t orphaned c false) := by
  unfold TtyStruct.ReceivedRoom at h
  unfold TtyStruct.copyToCooked
  rw [if_neg hleft, if_neg Bool.false_ne_true]
  split_ifs at h ⊢ with herror
  · exact errorChar_not_wedged h
  · obtain ⟨herases, hstore⟩ := h
    unfold TtyStruct.Erases at herases
    unfold TtyStruct.examine at hstore ⊢
    cases hmap : t.mapInput before s.lnext c with
    | none => exact not_wedged_of_left hleft
    | some x =>
      rw [hmap] at herases hstore
      dsimp only at hstore ⊢
      obtain ⟨s1, hs1, hsame, hkeeps⟩ : ∃ s1,
          s1 = (if x = DISABLED_CHAR then { s with lnext := true } else s) ∧ s1.left = s.left ∧
            (s1.lnext = false → (Is x t.erase ∨ Is x t.kill ∨ (Is x t.werase ∧ t.iexten)) →
              s1.offset s1.canonHead ≤ s1.offset s1.head) := by
        refine ⟨_, rfl, ?_⟩
        split
        · exact ⟨rfl, fun hlnext => Bool.noConfusion hlnext⟩
        · exact ⟨rfl, fun hlnext herase => herases ⟨hlnext, x, rfl, herase⟩⟩
      rw [← hs1] at hstore ⊢
      cases hspecial : s1.special t orphaned x with
      | none =>
        rw [hspecial] at hstore
        exact store_not_wedged (hstore x rfl)
      | some s' =>
        have hle := special_left hspecial hkeeps
        exact not_wedged_of_left (by dsimp only; omega)

theorem taken_left {a b : Fin 1024} (h : a ≠ b) : (b + 1 - a - 1).val ≠ 0 := by omega

theorem take_not_wedged {p : ℕ} (h : ¬Wedged s) : ¬Wedged (s.take p) := by
  unfold TtyStruct.take
  split
  · exact h
  · split
    · exact h
    · rename_i hne
      have hroom := taken_left hne
      dsimp only
      split_ifs
      all_goals first | exact h | exact not_wedged_of_left hroom

theorem step_not_wedged (h : ¬Wedged s) {e : Event} (he : StepRoom before s e) :
    ¬Wedged (step before s e) := by
  cases e with
  | received t orphaned c specialFlag =>
    by_cases hleft : s.left = 0
    · rwa [show step before s (.received t orphaned c specialFlag) = s from if_pos hleft]
    · cases specialFlag with
      | true =>
        dsimp only [step]
        unfold TtyStruct.copyToCooked
        rw [if_neg hleft, if_pos rfl]
        exact not_wedged_of_left hleft
      | false => exact received_not_wedged hleft (he hleft rfl)
  | flush => exact not_wedged_of_left (Nat.succ_ne_zero 1022)
  | readChan p nr =>
    dsimp only [step]
    unfold TtyStruct.readChan
    split_ifs <;> exact h
  | take p =>
    dsimp only [step]
    split
    · exact take_not_wedged h
    · exact h
  | count =>
    dsimp only [step]
    split
    · rename_i hcounting
      rintro ⟨hleft, hdata⟩
      unfold TtyStruct.count at hdata
      dsimp only at hdata
      exact he hcounting (by split_ifs at hdata <;> omega) hleft
    · exact h

end LinuxKernel.TtyInput
