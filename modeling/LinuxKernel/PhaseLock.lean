import Mathlib.Tactic

/-!
# The phase-lock loop of the clock

`second_overflow` of `kernel/sched.c` for a `time_offset` that `sys_adjtimex` has set.  A `long`
has 32 bits; a second in which a product or a shift does not fit has no result.
-/

namespace LinuxKernel.PhaseLock

def HZ : ℤ := 100
def SHIFT_HZ : ℕ := 7
def SHIFT_KG : ℕ := 8
def SHIFT_KF : ℕ := 20
def MAXTC : ℕ := 6
def SHIFT_SCALE : ℕ := 24
def SHIFT_UPDATE : ℕ := SHIFT_KG + MAXTC
def MAXFREQ : ℤ := 100
def CLOCK_TICK_RATE : ℤ := 1193180
def CLOCK_TICK_FACTOR : ℤ := 20
def LATCH : ℤ := (CLOCK_TICK_RATE + HZ / 2) / HZ

def FINETUNE : ℤ :=
  (LATCH * HZ - CLOCK_TICK_RATE) * 2 ^ SHIFT_HZ * (1000000 / CLOCK_TICK_FACTOR) /
    (CLOCK_TICK_RATE / CLOCK_TICK_FACTOR) * 2 ^ (SHIFT_SCALE - SHIFT_HZ) / HZ

def long (x : ℤ) : Option ℤ := if -2 ^ 31 ≤ x ∧ x < 2 ^ 31 then some x else none

structure Clock where
  timeOffset : ℤ
  timeAdj : ℤ

def drift (timeFreq : ℤ) : ℤ := timeFreq / 2 ^ (SHIFT_KF + SHIFT_HZ - SHIFT_SCALE) + FINETUNE

def secondOverflow (timeConstant : ℕ) (timeFreq : ℤ) (c : Clock) : Option Clock := do
  let (timeOffset, timeAdj) ←
    if c.timeOffset < 0 then do
      let ltemp := -(c.timeOffset + 1) / 2 ^ (SHIFT_KG + timeConstant) + 1
      let timeAdj ← long (ltemp * 2 ^ (SHIFT_SCALE - SHIFT_HZ - SHIFT_UPDATE))
      let product ← long (timeAdj * HZ)
      pure (c.timeOffset + product / 2 ^ (SHIFT_SCALE - SHIFT_UPDATE), -timeAdj)
    else if 0 < c.timeOffset then do
      let ltemp := (c.timeOffset - 1) / 2 ^ (SHIFT_KG + timeConstant) + 1
      let timeAdj ← long (ltemp * 2 ^ (SHIFT_SCALE - SHIFT_HZ - SHIFT_UPDATE))
      let product ← long (timeAdj * HZ)
      pure (c.timeOffset - product / 2 ^ (SHIFT_SCALE - SHIFT_UPDATE), timeAdj)
    else pure (c.timeOffset, 0)
  let timeAdj ← long (timeAdj + drift timeFreq)
  pure ⟨timeOffset, timeAdj⟩

def seconds (timeConstant : ℕ) (timeFreq : ℤ) : ℕ → Clock → Option Clock
  | 0, c => some c
  | n + 1, c => (secondOverflow timeConstant timeFreq c).bind (seconds timeConstant timeFreq n)

def adjOffset (offset : ℤ) : Option ℤ :=
  if offset ≤ -2 ^ (31 - SHIFT_UPDATE) ∨ 2 ^ (31 - SHIFT_UPDATE) ≤ offset then none
  else some (offset * 2 ^ SHIFT_UPDATE)

def gain (tc : ℕ) (x : ℤ) : ℤ := (|x| - 1) / 2 ^ (SHIFT_KG + tc) + 1

def Nearer (x y : ℤ) : Prop := 0 < x ∧ 0 ≤ y ∧ y < x ∨ x < 0 ∧ y ≤ 0 ∧ x < y

/-- What leaves the offset is what `HZ` ticks add to `time_phase` for it. -/
def Exact (timeFreq x : ℤ) (c : Clock) : Prop :=
  (x - c.timeOffset) * 2 ^ (SHIFT_SCALE - SHIFT_UPDATE) = HZ * (c.timeAdj - drift timeFreq)

variable {tc : ℕ} {timeFreq : ℤ} {c c' : Clock}

theorem gain_pos (tc : ℕ) {x : ℤ} (hx : x ≠ 0) : 1 ≤ gain tc x := by
  have habs := abs_pos.mpr hx
  have hdiv : 0 ≤ (|x| - 1) / 2 ^ (SHIFT_KG + tc) := Int.ediv_nonneg (by omega) (by positivity)
  unfold gain
  omega

theorem long_of_bounds {x : ℤ} (hlow : -2 ^ 31 ≤ x) (hhigh : x < 2 ^ 31) : long x = some x :=
  if_pos ⟨hlow, hhigh⟩

theorem long_eq_none {x : ℤ} (hx : 2 ^ 31 ≤ x) : long x = none := if_neg fun h => by omega

/-- The products of a second, and the rest of it when they fit. -/
theorem products_eq {l : ℤ} (hl : 1 ≤ l) (f : ℤ → ℤ → Option Clock) :
    ((long (l * 2 ^ (SHIFT_SCALE - SHIFT_HZ - SHIFT_UPDATE))).bind fun timeAdj =>
        (long (timeAdj * HZ)).bind fun product => f timeAdj product) =
      if l ≤ 2684354 then f (l * 8) (l * 800) else none := by
  have h3 : (2 : ℤ) ^ (SHIFT_SCALE - SHIFT_HZ - SHIFT_UPDATE) = 8 := rfl
  have hHZ : HZ = 100 := rfl
  rw [h3, hHZ]
  split
  · rw [long_of_bounds (by omega) (by omega), Option.bind_some,
      long_of_bounds (by omega) (by omega), Option.bind_some, mul_assoc]
    rfl
  · by_cases hfits : l * 8 < 2 ^ 31
    · rw [long_of_bounds (by omega) hfits, Option.bind_some, long_eq_none (by omega),
        Option.bind_none]
    · rw [long_eq_none (by omega), Option.bind_none]

theorem secondOverflow_eq (hfreq : |timeFreq| ≤ MAXFREQ * 2 ^ SHIFT_KF) (hx : c.timeOffset ≠ 0) :
    secondOverflow tc timeFreq c =
      if gain tc c.timeOffset ≤ 2684354 then
        some ⟨c.timeOffset - c.timeOffset.sign * (gain tc c.timeOffset * 800 / 1024),
          c.timeOffset.sign * (gain tc c.timeOffset * 8) + drift timeFreq⟩
      else none := by
  have hg := gain_pos tc hx
  have hdrift : |drift timeFreq| ≤ 20000000 := by
    have hfine : FINETUNE = 2811494 := by decide
    unfold drift
    rw [hfine, abs_le]
    change |timeFreq| ≤ 104857600 at hfreq
    rw [abs_le] at hfreq
    change _ ≤ timeFreq / 8 + _ ∧ timeFreq / 8 + _ ≤ _
    omega
  rw [abs_le] at hdrift
  unfold secondOverflow
  rcases lt_or_gt_of_ne hx with hneg | hpos
  · have hgain : -(c.timeOffset + 1) / 2 ^ (SHIFT_KG + tc) + 1 = gain tc c.timeOffset := by
      unfold gain
      rw [abs_of_neg hneg, neg_add']
    simp only [if_pos hneg, hgain, Option.bind_eq_bind, Option.pure_def, Option.bind_some]
    rw [products_eq hg, Int.sign_eq_neg_one_of_neg hneg, neg_one_mul, neg_one_mul, sub_neg_eq_add]
    split
    · rw [long_of_bounds (by omega) (by omega), Option.bind_some]
      rfl
    · rfl
  · have hgain : (c.timeOffset - 1) / 2 ^ (SHIFT_KG + tc) + 1 = gain tc c.timeOffset := by
      unfold gain
      rw [abs_of_pos hpos]
    simp only [if_neg hpos.not_gt, if_pos hpos, hgain, Option.bind_eq_bind, Option.pure_def,
      Option.bind_some]
    rw [products_eq hg, Int.sign_eq_one_of_pos hpos, one_mul, one_mul]
    split
    · rw [long_of_bounds (by omega) (by omega), Option.bind_some]
      rfl
    · rfl

/-- A second moves the offset when the offset is more than one unit of `ltemp`, by the phase that
`HZ` ticks add when `ltemp` is a multiple of 32. -/
theorem secondOverflow_spec (hfreq : |timeFreq| ≤ MAXFREQ * 2 ^ SHIFT_KF) (hx : c.timeOffset ≠ 0)
    (hc : secondOverflow tc timeFreq c = some c') :
    (Nearer c.timeOffset c'.timeOffset ↔ 2 ^ (SHIFT_KG + tc) < |c.timeOffset|) ∧
      (Exact timeFreq c.timeOffset c' ↔ 32 ∣ gain tc c.timeOffset) ∧ c'.timeOffset ≠ 0 := by
  have hg := gain_pos tc hx
  have hpow : (256 : ℤ) ≤ 2 ^ (SHIFT_KG + tc) := by
    have : (2 : ℤ) ^ 8 ≤ 2 ^ (SHIFT_KG + tc) := pow_le_pow_right₀ (by norm_num)
      (Nat.le_add_right ..)
    exact this
  have hunit : 2 ^ (SHIFT_KG + tc) < |c.timeOffset| ↔ 2 ≤ gain tc c.timeOffset := by
    unfold gain
    rw [show ∀ q : ℤ, 2 ≤ q + 1 ↔ 1 ≤ q from fun q => by omega, Int.le_ediv_iff_mul_le (by omega)]
    omega
  -- `gain` is more than 2 ^ 8 times smaller than the offset, so the step does not reach 0
  have hless : 256 * (gain tc c.timeOffset - 1) < |c.timeOffset| := by
    have hmul := Int.ediv_mul_le (|c.timeOffset| - 1) (b := 2 ^ (SHIFT_KG + tc)) (by omega)
    have hle := mul_le_mul_of_nonneg_left hpow (show 0 ≤ gain tc c.timeOffset - 1 by omega)
    unfold gain at hle ⊢
    rw [add_sub_cancel_right] at hle ⊢
    omega
  rw [secondOverflow_eq hfreq hx] at hc
  split at hc
  · obtain rfl := Option.some.inj hc
    rw [hunit]
    generalize gain tc c.timeOffset = l at *
    unfold Nearer Exact
    have h10 : (2 : ℤ) ^ (SHIFT_SCALE - SHIFT_UPDATE) = 1024 := rfl
    have hHZ : HZ = 100 := rfl
    rw [h10, hHZ]
    rcases lt_or_gt_of_ne hx with hneg | hpos
    · rw [abs_of_neg hneg] at hless
      simp only [Int.sign_eq_neg_one_of_neg hneg]
      omega
    · rw [abs_of_pos hpos] at hless
      simp only [Int.sign_eq_one_of_pos hpos]
      omega
  · cases hc

theorem seconds_ne_zero (hfreq : |timeFreq| ≤ MAXFREQ * 2 ^ SHIFT_KF) {n : ℕ}
    (hx : c.timeOffset ≠ 0) (hc : seconds tc timeFreq n c = some c') : c'.timeOffset ≠ 0 := by
  induction n generalizing c with
  | zero =>
    obtain rfl := Option.some.inj hc
    exact hx
  | succ n ih =>
    obtain ⟨c1, hc1, hrest⟩ := Option.bind_eq_some_iff.mp hc
    exact ih (secondOverflow_spec hfreq hx hc1).2.2 hrest

/-- In every second of a run from an offset that `sys_adjtimex` accepts: the products fit when
`ltemp` is at most 2684354, the offset moves when it is more than a unit of `ltemp`, by the phase
added when `ltemp` is a multiple of 32.  The offset is never 0 unless it is from the start. -/
theorem converges_iff (tc : ℕ) {timeFreq offset x : ℤ} (hfreq : |timeFreq| ≤ MAXFREQ * 2 ^ SHIFT_KF)
    (hx : adjOffset offset = some x) (timeAdj : ℤ) :
    (∀ n c, seconds tc timeFreq n ⟨x, timeAdj⟩ = some c → c.timeOffset ≠ 0 →
      ((secondOverflow tc timeFreq c).isSome ↔ gain tc c.timeOffset ≤ 2684354) ∧
      ∀ c', secondOverflow tc timeFreq c = some c' →
        (Nearer c.timeOffset c'.timeOffset ↔ 2 ^ (SHIFT_KG + tc) < |c.timeOffset|) ∧
        (Exact timeFreq c.timeOffset c' ↔ 32 ∣ gain tc c.timeOffset)) ∧
    ((∃ n c, seconds tc timeFreq n ⟨x, timeAdj⟩ = some c ∧ c.timeOffset = 0) ↔ offset = 0) := by
  refine ⟨fun n c _ hne => ⟨?_, fun c' hc' => ?_⟩, fun ⟨n, c, hc, hzero⟩ => ?_, ?_⟩
  · rw [secondOverflow_eq hfreq hne]
    split <;> simp [*]
  · obtain ⟨hmoves, hexact, -⟩ := secondOverflow_spec hfreq hne hc'
    exact ⟨hmoves, hexact⟩
  · by_contra hne
    refine seconds_ne_zero hfreq (c := ⟨x, timeAdj⟩) ?_ hc hzero
    unfold adjOffset at hx
    split at hx
    · cases hx
    · rw [← Option.some.inj hx]
      exact mul_ne_zero hne (by norm_num)
  · rintro rfl
    exact ⟨0, ⟨x, timeAdj⟩, rfl, (Option.some.inj hx).symm⟩

theorem converges_iff_millisecond :
    let c0 : Clock := ⟨16384000, 0⟩
    (∀ n c, seconds 0 0 n c0 = some c → c.timeOffset ≠ 0 →
      ((secondOverflow 0 0 c).isSome ↔ gain 0 c.timeOffset ≤ 2684354) ∧
      ∀ c', secondOverflow 0 0 c = some c' →
        (Nearer c.timeOffset c'.timeOffset ↔ 2 ^ (SHIFT_KG + 0) < |c.timeOffset|) ∧
        (Exact 0 c.timeOffset c' ↔ 32 ∣ gain 0 c.timeOffset)) ∧
    ((∃ n c, seconds 0 0 n c0 = some c ∧ c.timeOffset = 0) ↔ (1000 : ℤ) = 0) :=
  converges_iff 0 (by decide) (by decide) 0

/-- The product overflows for the largest offset that is accepted.  An offset of 1 us, with a time
constant of 6, stays where it is. -/
theorem offsets_stay :
    adjOffset 131071 = some 2147467264 ∧ (secondOverflow 0 0 ⟨2147467264, 0⟩).isNone ∧
      adjOffset 1 = some 16384 ∧
        (secondOverflow 6 0 ⟨16384, 0⟩).map Clock.timeOffset = some 16384 := by
  decide +kernel

end LinuxKernel.PhaseLock
