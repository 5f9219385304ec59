import LinuxKernel.TtyModel

/-!
# The bookkeeping of lines

`canon_data` counts the delimiters in the secondary queue, `secondary_flags` marks them and
`canon_head` is behind the last one.  The positions are measured from the tail of the queue.
-/

namespace LinuxKernel.TtyInput

variable {s : TtyStruct} {t : Termios} {before : ℤ → Bool}

/-! ## Positions around the queue -/

section Positions

variable {a b c : Fin 1024}

theorem val_succ_sub (h : a + 1 ≠ b) : (a + 1 - b).val = (a - b).val + 1 := by omega

theorem val_sub_succ (h : a ≠ b) : (a - (b + 1)).val + 1 = (a - b).val := by omega

theorem ne_of_val_sub_lt (h : (a - c).val < (b - c).val) : b ≠ c := by omega

theorem eq_of_val_sub (h : (a - c).val = (b - c).val) : a = b := by omega

theorem eq_of_val_sub_le (h : (a - b).val ≤ (b - b).val) : a = b := by omega

theorem eq_succ_of_pred (h : a - 1 = b) : a = b + 1 := by omega

theorem succ_pred (a : Fin 1024) : a + 1 - 1 = a := by omega

theorem left_eq (h : a + 1 ≠ b) : (b - (a + 1) - 1).val + 1 = (b - a - 1).val := by omega

theorem ne_of_left (h : (b - a - 1).val ≠ 0) : a + 1 ≠ b := by omega

end Positions

def TtyStruct.offset (s : TtyStruct) (i : Index) : ℕ := (i - s.tail).val

def TtyStruct.marked (s : TtyStruct) : Finset Index :=
  Finset.univ.filter fun i => s.secondaryFlags i = true

def TtyStruct.lines (s : TtyStruct) : Finset Index :=
  Finset.univ.filter fun i => s.offset i < s.offset s.head ∧ s.secondaryFlags i = true

structure CanonOk (s : TtyStruct) : Prop where
  data : s.counting = false → s.canonData = s.lines.card
  outside : ∀ i, s.secondaryFlags i = true → s.offset i < s.offset s.head
  behind : ∀ i, s.secondaryFlags i = true → s.offset i < s.offset s.canonHead
  last : (∃ i, s.secondaryFlags i = true) → s.secondaryFlags (s.canonHead - 1) = true
  none : (∀ i, s.secondaryFlags i = false) → s.canonHead = s.tail

structure EraseOk (s s' : TtyStruct) : Prop where
  buf : s'.buf = s.buf
  tail : s'.tail = s.tail
  flags : s'.secondaryFlags = s.secondaryFlags
  canonHead : s'.canonHead = s.canonHead
  kept : s.offset s.canonHead ≤ s.offset s'.head
  fewer : s.offset s'.head ≤ s.offset s.head

/-- While a delimiter is taken and not counted, `canon_data` is one more than the delimiters, or
the queue has been flushed. -/
structure Inv (s : TtyStruct) : Prop where
  head : s.offset s.canonHead ≤ s.offset s.head
  behind : ∀ i, s.secondaryFlags i = true → s.offset i < s.offset s.canonHead
  last : s.canonHead = s.tail ∨ s.secondaryFlags (s.canonHead - 1) = true
  data : s.counting = false → s.canonData = s.marked.card
  taken : s.counting = true → s.canonData = s.marked.card + 1 ∨ s.canonData = 0 ∧ s.marked.card = 0

theorem mem_marked {i : Index} : i ∈ s.marked ↔ s.secondaryFlags i = true := by
  simp [TtyStruct.marked]

theorem Inv.canonOk (h : Inv s) : CanonOk s := by
  have houtside : ∀ i, s.secondaryFlags i = true → s.offset i < s.offset s.head := by
    intro i hi
    exact (h.behind i hi).trans_le h.head
  refine ⟨?_, houtside, h.behind, ?_, ?_⟩
  · intro hcounting
    have hlines : s.lines = s.marked := by
      ext i
      simp only [TtyStruct.lines, Finset.mem_filter, Finset.mem_univ, true_and, mem_marked]
      exact ⟨fun hi => hi.2, fun hi => ⟨houtside i hi, hi⟩⟩
    rw [hlines]
    exact h.data hcounting
  · rintro ⟨i, hi⟩
    apply h.last.resolve_left
    intro heq
    have hlt := h.behind i hi
    rw [heq] at hlt
    simp [TtyStruct.offset] at hlt
  · intro hnone
    apply h.last.resolve_right
    rw [hnone]
    simp

theorem Inv.put (h : Inv s) (c : Byte) : Inv (s.put c) := by
  unfold TtyStruct.put
  split
  · exact h
  · rename_i hroom
    have hnext := val_succ_sub hroom
    have hhead := h.head
    refine { h with head := ?_ }
    simp only [TtyStruct.offset] at hhead ⊢
    omega

theorem Inv.congr {s' : TtyStruct} (h : Inv s) (hhead : s'.head = s.head)
    (htail : s'.tail = s.tail) (hflags : s'.secondaryFlags = s.secondaryFlags)
    (hdata : s'.canonData = s.canonData) (hcanon : s'.canonHead = s.canonHead)
    (hcounting : s'.counting = s.counting) : Inv s' := by
  have hoffset : ∀ i, s'.offset i = s.offset i := by
    intro i
    simp only [TtyStruct.offset, htail]
  have hmarked : s'.marked = s.marked := by
    simp only [TtyStruct.marked, hflags]
  refine ⟨?_, ?_, ?_, ?_, ?_⟩
  · rw [hoffset, hoffset, hhead, hcanon]
    exact h.head
  · intro i
    rw [hoffset, hoffset, hflags, hcanon]
    exact h.behind i
  · rw [hcanon, htail, hflags]
    exact h.last
  · rw [hcounting, hdata, hmarked]
    exact h.data
  · rw [hcounting, hdata, hmarked]
    exact h.taken

theorem Inv.delimit (h : Inv s) (c : Byte) (hroom : s.head + 1 ≠ s.tail)
    (hdata : s.counting = true → s.canonData ≠ 0) : Inv (s.delimit c) := by
  have hnew : s.head ∉ s.marked := by
    intro hmem
    have := h.behind _ (mem_marked.1 hmem)
    exact absurd (this.trans_le h.head) (lt_irrefl _)
  have hmarked : (s.delimit c).marked = insert s.head s.marked := by
    ext i
    simp only [Finset.mem_insert, mem_marked, TtyStruct.delimit, TtyStruct.put, if_neg hroom]
    by_cases hi : i = s.head
    · subst hi
      simp
    · simp [hi]
  have hcard : (s.delimit c).marked.card = s.marked.card + 1 := by
    rw [hmarked, Finset.card_insert_of_notMem hnew]
  have hnext := val_succ_sub hroom
  have hhead := h.head
  refine ⟨?_, ?_, ?_, ?_, ?_⟩
  · simp only [TtyStruct.delimit, le_refl]
  · intro i hi
    have hmem := mem_marked.2 hi
    rw [hmarked, Finset.mem_insert] at hmem
    simp only [TtyStruct.delimit, TtyStruct.put, if_neg hroom, TtyStruct.offset] at hhead ⊢
    rcases hmem with rfl | hmem
    · omega
    · have hlt := h.behind i (mem_marked.1 hmem)
      simp only [TtyStruct.offset] at hlt
      omega
  · right
    simp only [TtyStruct.delimit, TtyStruct.put, if_neg hroom, succ_pred]
    exact Function.update_self ..
  · intro hcounting
    rw [hcard]
    simp only [TtyStruct.delimit, TtyStruct.put, if_neg hroom] at hcounting ⊢
    rw [h.data hcounting]
    rfl
  · intro hcounting
    rw [hcard]
    simp only [TtyStruct.delimit, TtyStruct.put, if_neg hroom] at hcounting ⊢
    rcases h.taken hcounting with heq | ⟨hzero, -⟩
    · left
      rw [heq]
      rfl
    · exact absurd hzero (hdata hcounting)

theorem left_ne_zero (h : s.left ≠ 0) : s.head + 1 ≠ s.tail := ne_of_left h

theorem put_left (c : Byte) (h : s.left ≠ 0) : (s.put c).left + 1 = s.left := by
  have hroom := left_ne_zero h
  unfold TtyStruct.put
  rw [if_neg hroom]
  exact left_eq hroom

theorem eraseLoop_between (killType : KillType) (canonHead tail : Index) (buf : Index → Byte)
    (n seenAlnums : ℕ) (head : Index) (h : (canonHead - tail).val ≤ (head - tail).val) :
    (canonHead - tail).val ≤ (eraseLoop killType canonHead buf n seenAlnums head - tail).val ∧
      (eraseLoop killType canonHead buf n seenAlnums head - tail).val ≤ (head - tail).val := by
  induction n generalizing seenAlnums head with
  | zero => exact ⟨h, le_rfl⟩
  | succ n ih =>
    unfold eraseLoop
    split
    · exact ⟨h, le_rfl⟩
    · rename_i hne
      have hne' : head ≠ tail := by
        rintro rfl
        exact hne (eq_of_val_sub_le h).symm
      have hlt : (canonHead - tail).val ≠ (head - tail).val := by
        intro heq
        exact hne (eq_of_val_sub heq).symm
      dsimp only
      split
      · exact ⟨h, le_rfl⟩
      · split
        · omega
        · have hrest := ih
            (if killType = .werase ∧
              (isalnum (buf (head - 1)) || decide (buf (head - 1) = 95)) = true
              then seenAlnums + 1 else seenAlnums) (head - 1) (by omega)
          exact ⟨hrest.1, hrest.2.trans (by omega)⟩

theorem eraseOk_of_le (h : s.offset s.canonHead ≤ s.offset s.head) (t : Termios) (c : ℤ) :
    EraseOk s (s.eraser t c) := by
  have hloop : ∀ killType, EraseOk s
      { s with head := eraseLoop killType s.canonHead s.buf 1024 0 s.head } := by
    intro killType
    obtain ⟨hkept, hfewer⟩ :=
      eraseLoop_between killType s.canonHead s.tail s.buf 1024 0 s.head h
    exact ⟨rfl, rfl, rfl, rfl, hkept, hfewer⟩
  have hkill : EraseOk s { s with head := s.canonHead } := ⟨rfl, rfl, rfl, rfl, le_rfl, h⟩
  unfold TtyStruct.eraser
  split
  · exact ⟨rfl, rfl, rfl, rfl, h, le_rfl⟩
  · split
    · exact hloop .erase
    · split
      · exact hloop .werase
      · split
        · exact hkill
        · split
          · exact hkill
          · exact hloop .kill

theorem Inv.eraseOk (h : Inv s) (t : Termios) (c : ℤ) : EraseOk s (s.eraser t c) :=
  eraseOk_of_le h.head t c

theorem eraser_rest (t : Termios) (c : ℤ) :
    (s.eraser t c).canonData = s.canonData ∧ (s.eraser t c).counting = s.counting := by
  unfold TtyStruct.eraser
  split_ifs <;> exact ⟨rfl, rfl⟩

theorem Inv.eraser (h : Inv s) (t : Termios) (c : ℤ) : Inv (s.eraser t c) := by
  have herase := h.eraseOk t c
  obtain ⟨hdata, hcounting⟩ := eraser_rest (s := s) t c
  have hmoved : Inv { s with head := (s.eraser t c).head } := { h with head := herase.kept }
  exact hmoved.congr rfl herase.tail herase.flags hdata herase.canonHead hcounting

/-! ## `copy_to_cooked` -/

theorem Inv.flushInput (s : TtyStruct) : Inv s.flushInput := by
  have hmarked : s.flushInput.marked = ∅ := by
    ext i
    simp [mem_marked, TtyStruct.flushInput]
  refine ⟨le_rfl, ?_, .inl rfl, ?_, ?_⟩
  · intro i hi
    cases hi
  · intro _
    rw [hmarked]
    rfl
  · intro _
    rw [hmarked]
    exact .inr ⟨rfl, rfl⟩

theorem Inv.isig (h : Inv s) (t : Termios) : Inv (s.isig t) := by
  unfold TtyStruct.isig
  split
  · exact h
  · exact Inv.flushInput s

theorem Inv.errorChar (h : Inv s) (t : Termios) (c : Byte) : Inv (s.errorChar t c) := by
  have hclear : Inv { s with charError := 0 } := h.congr rfl rfl rfl rfl rfl rfl
  unfold TtyStruct.errorChar
  dsimp only
  split
  · split
    · exact hclear
    · split
      · exact hclear
      · split
        · exact ((hclear.put _).put _).put _
        · exact hclear.put _
  · split
    · exact hclear
    · split
      · exact hclear
      · split
        · exact ((hclear.put _).put _).put _
        · exact hclear.put _

theorem Inv.special (h : Inv s) {orphaned : Bool} {c : ℤ} {s' : TtyStruct}
    (hs' : s.special t orphaned c = some s') : Inv s' := by
  unfold TtyStruct.special at hs'
  split at hs'
  · cases hs'
  · split at hs'
    · cases hs'
      exact h.eraser t c
    · split at hs'
      · cases hs'
        exact h.congr rfl rfl rfl rfl rfl rfl
      · split at hs'
        · cases hs'
          exact h
        · split at hs'
          · cases hs'
            exact h.congr rfl rfl rfl rfl rfl rfl
          · split at hs'
            · cases hs'
              exact h.congr rfl rfl rfl rfl rfl rfl
            · split at hs'
              · cases hs'
                exact h.isig t
              · split at hs'
                · cases hs'
                  exact h.isig t
                · split at hs'
                  · cases hs'
                    split
                    · exact h
                    · exact h.isig t
                  · cases hs'

/-- There is room for the delimiter, and no flush has come between the taking of a delimiter and
its count. -/
def TtyStruct.StoreOk (s : TtyStruct) (t : Termios) (c : ℤ) : Prop :=
  s.Delimits t c → (s.Doubled t c → 2 ≤ s.left) ∧ (s.counting = true → s.canonData ≠ 0)

instance (s : TtyStruct) (t : Termios) (c : ℤ) : Decidable (s.StoreOk t c) :=
  inferInstanceAs (Decidable (s.Delimits t c →
    (s.Doubled t c → 2 ≤ s.left) ∧ (s.counting = true → s.canonData ≠ 0)))

theorem put_rest (c : Byte) :
    (s.put c).counting = s.counting ∧ (s.put c).canonData = s.canonData := by
  unfold TtyStruct.put
  split <;> exact ⟨rfl, rfl⟩

theorem Inv.store (h : Inv s) {c : ℤ} (hleft : s.left ≠ 0) (hok : s.StoreOk t c) :
    Inv (s.store t c) := by
  -- the character that goes before a doubled one
  obtain ⟨s1, hs1, hinv, hroom, hcounting, hdata⟩ : ∃ s1,
      s1 = (if s.Doubled t c then s.put (BitVec.ofInt 8 c) else s) ∧ Inv s1 ∧
        (s.Delimits t c → s1.left ≠ 0) ∧ s1.counting = s.counting ∧ s1.canonData = s.canonData := by
    refine ⟨_, rfl, ?_⟩
    split
    · rename_i hdoubled
      refine ⟨h.put _, ?_, (put_rest _).1, (put_rest _).2⟩
      intro hdelimits
      have hput := put_left (BitVec.ofInt 8 c) hleft
      have htwo := (hok hdelimits).1 hdoubled
      omega
    · exact ⟨h, fun _ => hleft, rfl, rfl⟩
  unfold TtyStruct.store
  rw [← hs1]
  split
  · rename_i hdelimits
    refine (hinv.delimit _ (left_ne_zero (hroom hdelimits)) ?_).congr rfl rfl rfl rfl rfl rfl
    rw [hcounting, hdata]
    exact (hok hdelimits).2
  · exact (hinv.put _).congr rfl rfl rfl rfl rfl rfl

theorem Inv.examine (h : Inv s) (before : ℤ → Bool) (t : Termios) (orphaned : Bool) (c : Byte) :
    Inv (s.examine before t orphaned c).1 ∧
      ((s.examine before t orphaned c).2 ≠ none →
        (s.examine before t orphaned c).1.left = s.left) := by
  unfold TtyStruct.examine
  split
  · exact ⟨h, fun hne => absurd rfl hne⟩
  · rename_i c' _
    have hlnext : Inv (if c' = DISABLED_CHAR then { s with lnext := true } else s) := by
      split
      · exact h.congr rfl rfl rfl rfl rfl rfl
      · exact h
    dsimp only
    split
    · rename_i hspecial
      exact ⟨hlnext.special hspecial, fun hne => absurd rfl hne⟩
    · refine ⟨hlnext, fun _ => ?_⟩
      split <;> rfl

def TtyStruct.ReceivedOk (s : TtyStruct) (before : ℤ → Bool) (t : Termios) (orphaned : Bool)
    (c : Byte) : Prop :=
  ∀ x ∈ (s.examine before t orphaned c).2, (s.examine before t orphaned c).1.StoreOk t x

instance (s : TtyStruct) (before : ℤ → Bool) (t : Termios) (orphaned : Bool) (c : Byte) :
    Decidable (s.ReceivedOk before t orphaned c) :=
  inferInstanceAs (Decidable (∀ x ∈ (s.examine before t orphaned c).2,
    (s.examine before t orphaned c).1.StoreOk t x))

theorem Inv.copyToCooked (h : Inv s) {orphaned specialFlag : Bool} {c : Byte}
    (hok : s.left ≠ 0 → specialFlag = false → s.charError = 0 → s.ReceivedOk before t orphaned c) :
    Inv (s.copyToCooked before t orphaned c specialFlag) := by
  unfold TtyStruct.copyToCooked
  split
  · exact h
  · rename_i hleft
    split
    · exact h.congr rfl rfl rfl rfl rfl rfl
    · rename_i hflag
      split
      · exact h.errorChar t c
      · rename_i herror
        have hstore := hok hleft (by simpa using hflag) (by simpa using herror)
        unfold TtyStruct.ReceivedOk at hstore
        obtain ⟨hinv, hsame⟩ := h.examine before t orphaned c
        generalize s.examine before t orphaned c = x at hstore hinv hsame
        obtain ⟨s', x⟩ := x
        cases x with
        | none => exact hinv
        | some c' =>
          apply hinv.store
          · rw [hsame (by simp)]
            exact hleft
          · exact hstore c' rfl

end LinuxKernel.TtyInput
