import LinuxKernel.TtyCanon

/-!
# Reading lines, and runs

A reader takes the characters of a line one after the other.  Between two of them the line may
go: a signal flushes it, or another reader takes the rest of it.
-/

namespace LinuxKernel.TtyInput
open Function

variable {s : TtyStruct} {before : ℤ → Bool} {p : ℕ}

theorem Inv.behead (h : Inv s) (hne : s.tail ≠ s.canonHead)
    (hflag : s.secondaryFlags s.tail = false) : Inv { s with tail := s.tail + 1 } := by
  have hcanon := val_sub_succ (Ne.symm hne)
  have hhead := h.head
  simp only [TtyStruct.offset] at hhead
  have hhead' : s.head ≠ s.tail := ne_of_val_sub_lt (a := s.tail) (c := s.tail) (by
    omega)
  refine { h with head := ?_, behind := ?_, last := ?_ }
  · simp only [TtyStruct.offset]
    omega
  · intro i hi
    have hi' : i ≠ s.tail := by
      rintro rfl
      rw [hflag] at hi
      cases hi
    have hlt := h.behind i hi
    have hback := val_sub_succ hi'
    simp only [TtyStruct.offset] at hlt ⊢
    omega
  · right
    exact h.last.resolve_left (Ne.symm hne)

theorem Inv.endLine (h : Inv s) (hflag : s.secondaryFlags s.tail = true) (canonData : ℤ)
    (counting : Bool) (hdata : counting = false → canonData + 1 = s.marked.card)
    (htaken : counting = true → canonData = s.marked.card) :
    Inv { s with
      secondaryFlags := update s.secondaryFlags s.tail false
      tail := s.tail + 1, canonData := canonData, counting := counting } := by
  have hmem : s.tail ∈ s.marked := mem_marked.2 hflag
  have hlt := h.behind s.tail hflag
  have hhead := h.head
  simp only [TtyStruct.offset] at hlt hhead
  have hcanon' : s.canonHead ≠ s.tail := ne_of_val_sub_lt hlt
  have hhead' : s.head ≠ s.tail := ne_of_val_sub_lt (hlt.trans_le hhead)
  have hnext := val_sub_succ hhead'
  have hmarked : TtyStruct.marked { s with
      secondaryFlags := update s.secondaryFlags s.tail false
      tail := s.tail + 1, canonData := canonData, counting := counting } =
        s.marked.erase s.tail := by
    ext i
    simp only [Finset.mem_erase, mem_marked]
    by_cases hi : i = s.tail
    · subst hi
      simp
    · simp [hi]
  have hcard := Finset.card_erase_add_one hmem
  refine ⟨?_, ?_, ?_, ?_, ?_⟩
  · simp only [TtyStruct.offset]
    omega
  · intro i hi
    have hmem' := mem_marked.2 hi
    rw [hmarked, Finset.mem_erase, mem_marked] at hmem'
    have hlt' := h.behind i hmem'.2
    have hback := val_sub_succ hmem'.1
    simp only [TtyStruct.offset] at hlt' ⊢
    omega
  · by_cases hone : s.canonHead = s.tail + 1
    · exact .inl hone
    · right
      have hne : s.canonHead - 1 ≠ s.tail := by
        intro heq
        exact hone (eq_succ_of_pred heq)
      dsimp only
      rw [update_of_ne hne]
      exact h.last.resolve_left hcanon'
  · intro hcounting
    rw [hmarked]
    have := hdata hcounting
    dsimp only
    omega
  · intro hcounting
    rw [hmarked]
    have := htaken hcounting
    dsimp only
    omega

theorem Inv.leave (h : Inv s) (p : ℕ) : Inv (s.leave p) := h.congr rfl rfl rfl rfl rfl rfl

def TtyStruct.TakeOk (s : TtyStruct) (p : ℕ) : Prop :=
  ∀ nr ∈ s.reading p, nr ≠ 0 → s.head ≠ s.tail → s.tail ≠ s.canonHead

instance (s : TtyStruct) (p : ℕ) : Decidable (s.TakeOk p) :=
  inferInstanceAs (Decidable (∀ nr ∈ s.reading p, nr ≠ 0 → s.head ≠ s.tail → s.tail ≠ s.canonHead))

theorem Inv.take (h : Inv s) (hcounting : s.counting = false) (hok : s.TakeOk p) :
    Inv (s.take p) := by
  unfold TtyStruct.take
  split
  · exact h
  · rename_i nr hreading
    split
    · exact h.leave p
    · rename_i hempty
      have hdata := h.data hcounting
      cases hflag : s.secondaryFlags s.tail with
      | true =>
        split
        · -- there is no more room
          rw [if_pos rfl]
          split
          · have hended := h.endLine hflag (s.canonData - 1) s.counting (fun _ => by omega)
              fun hc => absurd (hcounting.symm.trans hc) (by simp)
            exact hended.leave p
          · have hback : update (update s.secondaryFlags s.tail false) s.tail
                true = s.secondaryFlags := by
              rw [update_idem, Function.update_eq_self_iff, hflag]
            rw [hback]
            exact h.leave p
        · have hended := h.endLine hflag s.canonData true (fun hc => absurd hc (by simp))
            fun _ => hdata
          exact hended.leave p
      | false =>
        have hsame : update s.secondaryFlags s.tail false = s.secondaryFlags := by
          rw [Function.update_eq_self_iff, hflag]
        rw [hsame]
        split
        · exact h.leave p
        · rename_i hnr
          have hne := hok nr hreading hnr hempty
          exact (h.behead hne hflag).congr rfl rfl rfl rfl rfl rfl

theorem Inv.count (h : Inv s) (hcounting : s.counting = true) : Inv s.count := by
  refine { h with data := ?_, taken := ?_ }
  · intro _
    change (if s.canonData - 1 < 0 then 0 else s.canonData - 1) = (s.marked.card : ℤ)
    rcases h.taken hcounting with hdata | ⟨hdata, hcard⟩
    · omega
    · rw [hdata, if_pos (by omega), hcard]
      rfl
  · intro hc
    cases hc

/-! ## Runs -/

/-- The condition on a step: a delimiter finds room, and no flush comes between the taking of a
delimiter and its count with a new line after it; the line that a reader is in the middle of is
still there. -/
def StepOk (before : ℤ → Bool) (s : TtyStruct) : Event → Prop
  | .received t orphaned c specialFlag =>
    s.left ≠ 0 → specialFlag = false → s.charError = 0 → s.ReceivedOk before t orphaned c
  | .take p => s.counting = false → s.TakeOk p
  | _ => True

instance (before : ℤ → Bool) (s : TtyStruct) : (e : Event) → Decidable (StepOk before s e)
  | .received t orphaned c specialFlag =>
    inferInstanceAs (Decidable (s.left ≠ 0 → specialFlag = false → s.charError = 0 →
      s.ReceivedOk before t orphaned c))
  | .take p => inferInstanceAs (Decidable (s.counting = false → s.TakeOk p))
  | .flush | .readChan _ _ | .count => .isTrue trivial

theorem Inv.next (h : Inv s) {e : Event} (he : StepOk before s e) : Inv (step before s e) := by
  cases e with
  | received t orphaned c specialFlag => exact h.copyToCooked he
  | flush => exact Inv.flushInput s
  | readChan p nr =>
    dsimp only [step]
    split
    · unfold TtyStruct.readChan
      split
      · exact h.congr rfl rfl rfl rfl rfl rfl
      · exact h
    · exact h
  | take p =>
    dsimp only [step]
    split
    · rename_i hcounting
      exact h.take hcounting (he hcounting)
    · exact h
  | count =>
    dsimp only [step]
    split
    · rename_i hcounting
      exact h.count hcounting
    · exact h

def RunOk (before : ℤ → Bool) (s : TtyStruct) : List Event → Prop
  | [] => True
  | e :: es => StepOk before s e ∧ RunOk before (step before s e) es

instance RunOk.decide (before : ℤ → Bool) (s : TtyStruct) :
    (es : List Event) → Decidable (RunOk before s es)
  | [] => .isTrue trivial
  | e :: es =>
    have := RunOk.decide before (step before s e) es
    inferInstanceAs (Decidable (StepOk before s e ∧ RunOk before (step before s e) es))

theorem Inv.reached (h : Inv s) {es : List Event} (hes : RunOk before s es) :
    Inv (run before s es) := by
  induction es generalizing s with
  | nil => exact h
  | cons e es ih => exact ih (h.next hes.1) hes.2

theorem opened_inv : Inv opened := Inv.flushInput opened

/-- In every state of a run whose steps meet the condition the bookkeeping is right, and no
character before `canon_head` can be erased. -/
theorem run_canonOk (before : ℤ → Bool) {es : List Event} (hes : RunOk before opened es) :
    CanonOk (run before opened es) ∧
      ∀ t c, EraseOk (run before opened es) ((run before opened es).eraser t c) := by
  have h := opened_inv.reached hes
  exact ⟨h.canonOk, h.eraseOk⟩

def initTermios : Termios where
  ignbrk := false
  brkint := false
  ignpar := false
  parmrk := false
  istrip := false
  inlcr := false
  igncr := false
  icrnl := true
  iuclc := false
  ixon := true
  ixany := false
  isig := true
  iexten := true
  echo := true
  echok := true
  echoke := true
  noflsh := false
  intr := 3
  quit := 28
  erase := 127
  kill := 21
  eof := 4
  start := 17
  stop := 19
  susp := 26
  eol := 0
  reprint := 18
  werase := 23
  lnext := 22
  eol2 := 0

def markTermios : Termios := { initTermios with parmrk := true, eol := 255 }

def received (c : Byte) : Event := .received initTermios false c false

def lineRun : List Event :=
  [received 97, received 98, received 10, .readChan 1 10, .take 1, received 99, received 100,
    .take 1, received 127, .take 1, received 10, .count]

theorem run_canonOk_lineRun :
    (run (fun _ => false) opened lineRun).canonData = 1 ∧
      CanonOk (run (fun _ => false) opened lineRun) ∧
        ∀ t c, EraseOk (run (fun _ => false) opened lineRun)
          ((run (fun _ => false) opened lineRun).eraser t c) :=
  ⟨by decide +kernel, run_canonOk (fun _ => false) (by decide +kernel)⟩

def fullRun : List Event :=
  List.replicate 1022 (received 97) ++ [.received markTermios false 255 false]

/-- A reader is in the middle of a line when a signal flushes it, and goes on with what is typed
after that. -/
def lateRun : List Event :=
  [received 97, received 98, received 10, .readChan 1 10, .take 1, received 3, received 120,
    .take 1]

/-- Between the end of the section under `cli` and the count a signal flushes the queue, and a
new line comes. -/
def windowRun : List Event :=
  [received 97, received 10, .readChan 1 10, .take 1, .take 1, received 3, received 10, .count]

set_option maxRecDepth 10000 in
theorem fullRun_lateRun_windowRun_not_canonOk :
    ¬CanonOk (run (fun _ => false) opened fullRun) ∧
      ¬CanonOk (run (fun _ => false) opened lateRun) ∧
        ¬CanonOk (run (fun _ => false) opened windowRun) := by
  refine ⟨?_, ?_, ?_⟩
  · intro h
    exact absurd (h.outside 1023 (by decide +kernel)) (by decide +kernel)
  · intro h
    exact absurd (h.none (by decide +kernel)) (by decide +kernel)
  · intro h
    exact absurd (h.data (by decide +kernel)) (by decide +kernel)

end LinuxKernel.TtyInput
