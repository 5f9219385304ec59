import LinuxKernel.DosTimeModel

/-!
# Time stamps of MS-DOS

A day from 1980 on is the start of its year and a day of the year, and a day of the year is the
start of its month and a day of the month.  The two conversions are inverse to each other while the
seconds fit into an `int`.
-/

namespace LinuxKernel.DosTime

section Words

theorem tdiv_of_nonpos {a : ℤ} (b : ℤ) (ha : a ≤ 0) : a.tdiv b = -(-a / b) := by
  have hneg : (-a).tdiv b = -a / b := Int.tdiv_eq_ediv_of_nonneg (by omega)
  rw [← hneg, Int.neg_tdiv, neg_neg]

theorem dayN_table (stray : ℤ → ℤ) {i : ℕ} (hi : i < 16) : dayN stray i = dayTable.getD i 0 := by
  unfold dayN
  rw [if_pos ⟨by omega, by omega⟩, Int.toNat_natCast]

theorem dayN_range (stray : ℤ → ℤ) {i : ℤ} (h0 : 0 ≤ i) (hi : i < 16) :
    0 ≤ dayN stray i ∧ dayN stray i ≤ 334 := by
  have htable : ∀ k < 16, 0 ≤ dayTable.getD k 0 ∧ dayTable.getD k 0 ≤ 334 := by decide
  lift i to ℕ using h0
  have hk : i < 16 := by exact_mod_cast hi
  rw [dayN_table stray hk]
  exact htable i hk

end Words

theorem yearStart_nonneg {year : ℤ} (h : 0 ≤ year) :
    yearStart year = (year + 3) / 4 + 365 * year := by
  unfold yearStart
  rw [Int.tdiv_eq_ediv_of_nonneg (by omega)]

theorem yearOf_eq {day year : ℤ} (hyear : 0 ≤ year) (hbound : year ≤ 1000)
    (hfirst : yearStart year ≤ day) (hlast : day < yearStart (year + 1)) : yearOf day = year := by
  rw [yearStart_nonneg hyear] at hfirst
  rw [yearStart_nonneg (by omega)] at hlast
  have hdiv : day.tdiv 365 = day / 365 := Int.tdiv_eq_ediv_of_nonneg (by omega)
  unfold yearOf
  rw [hdiv, yearStart_nonneg (by omega)]
  split <;> omega

theorem exists_year {day : ℤ} (h : 0 ≤ day) (hbound : day ≤ 365000) :
    ∃ year : ℕ, yearStart year ≤ day ∧ day < yearStart (year + 1) := by
  have hcase : (day / 365 + 3) / 4 + 365 * (day / 365) ≤ day ∨
      day < (day / 365 + 3) / 4 + 365 * (day / 365) := by omega
  rcases hcase with hle | hlt
  · refine ⟨(day / 365).toNat, ?_, ?_⟩
    · rw [yearStart_nonneg (by omega)]
      omega
    · rw [yearStart_nonneg (by omega)]
      omega
  · refine ⟨(day / 365 - 1).toNat, ?_, ?_⟩
    · rw [yearStart_nonneg (by omega)]
      omega
    · rw [yearStart_nonneg (by omega)]
      omega

/-! ## Months -/

def monthDays (year month : ℕ) : ℕ :=
  if month = 2 then if year % 4 = 0 ∧ year ≠ 120 then 29 else 28
  else if month = 4 ∨ month = 6 ∨ month = 9 ∨ month = 11 then 30 else 31

def dayOfYear (year month day : ℕ) : ℤ :=
  (day : ℤ) - 1 + dayTable.getD (month - 1) 0 + if year % 4 = 0 ∧ 3 ≤ month then 1 else 0

def leapClass (year : ℤ) : ℕ := if year % 4 = 0 then 0 else 1

theorem leapClass_mod (year : ℤ) : leapClass year % 4 = 0 ↔ year % 4 = 0 := by
  unfold leapClass
  split_ifs with h
  · exact iff_of_true rfl h
  · exact iff_of_false (by decide) h

theorem monthOf_leapClass (year day : ℤ) : monthOf year day = monthOf (leapClass year) day := by
  have h : (leapClass year : ℤ) % 4 = 0 ↔ year % 4 = 0 := by
    have hmod := leapClass_mod year
    omega
  unfold monthOf
  simp only [ne_eq, h]

theorem dayOfYear_leapClass (year month day : ℕ) :
    dayOfYear year month day = dayOfYear (leapClass year) month day := by
  have h : leapClass year % 4 = 0 ↔ year % 4 = 0 := by
    rw [leapClass_mod]
    omega
  unfold dayOfYear
  simp only [h]

theorem monthDays_leapClass (year month : ℕ) :
    monthDays year month ≤ monthDays (leapClass year) month := by
  unfold monthDays leapClass
  split_ifs <;> omega

theorem leapClass_lt (year : ℤ) : leapClass year < 2 := by
  unfold leapClass
  split_ifs <;> omega

theorem yearStart_succ (year : ℕ) :
    yearStart (year + 1) - yearStart year = if leapClass year = 0 then 366 else 365 := by
  have h := leapClass_mod year
  have hlt := leapClass_lt year
  rw [yearStart_nonneg (by omega), yearStart_nonneg (by omega)]
  split_ifs <;> omega

theorem monthOf_spec (year : ℕ) (k : ℤ) (h0 : 0 ≤ k)
    (hk : k < yearStart (year + 1) - yearStart year) :
    ∃ month day : ℕ, (monthOf year k).2 = month ∧
      (monthOf year k).1 = day + dayTable.getD (month - 1) 0 - 1 ∧
      1 ≤ month ∧ month ≤ 12 ∧ 1 ≤ day ∧ day ≤ 31 ∧ dayOfYear year month day = k := by
  have htable : ∀ r : ℕ, r < 2 → ∀ k : ℕ, k < (if r = 0 then 366 else 365) →
      1 ≤ (monthOf r k).2 ∧ (monthOf r k).2 ≤ 12 ∧
        1 ≤ (monthOf r k).1 - dayTable.getD ((monthOf r k).2 - 1) 0 + 1 ∧
        (monthOf r k).1 - dayTable.getD ((monthOf r k).2 - 1) 0 + 1 ≤ 31 ∧
        (monthOf r k).1 + (if r % 4 = 0 ∧ 3 ≤ (monthOf r k).2 then 1 else 0) = k := by
    decide +kernel
  rw [yearStart_succ] at hk
  lift k to ℕ using h0
  obtain ⟨h1, h2, h3, h4, h5⟩ :=
    htable (leapClass year) (leapClass_lt year) k (by split_ifs at hk ⊢ <;> omega)
  rw [← monthOf_leapClass] at h1 h2 h3 h4 h5
  refine ⟨(monthOf year k).2,
    ((monthOf year k).1 - dayTable.getD ((monthOf year k).2 - 1) 0 + 1).toNat, rfl, ?_, h1, h2,
    by omega, by omega, ?_⟩
  · omega
  · rw [dayOfYear_leapClass]
    unfold dayOfYear
    omega

theorem monthOf_dayOfYear {year month day : ℕ} (hmonth : 1 ≤ month) (hmonths : month ≤ 12)
    (hday : 1 ≤ day) (hdays : day ≤ monthDays year month) :
    0 ≤ dayOfYear year month day ∧
    dayOfYear year month day < yearStart (year + 1) - yearStart year ∧
    monthOf year (dayOfYear year month day) =
      ((day : ℤ) + dayTable.getD (month - 1) 0 - 1, month) := by
  have hrange : ∀ r : ℕ, r < 2 → ∀ m : ℕ, m < 13 → ∀ d : ℕ, d < 32 →
      1 ≤ m ∧ 1 ≤ d ∧ d ≤ monthDays r m →
      0 ≤ dayOfYear r m d ∧ dayOfYear r m d < (if r = 0 then 366 else 365) := by
    decide +kernel
  have htable : ∀ r : ℕ, r < 2 → ∀ m : ℕ, m < 13 → ∀ d : ℕ, d < 32 →
      1 ≤ m ∧ 1 ≤ d ∧ d ≤ monthDays r m →
      (monthOf r (dayOfYear r m d)).2 = m ∧
        (monthOf r (dayOfYear r m d)).1 = (d : ℤ) + dayTable.getD (m - 1) 0 - 1 := by
    decide +kernel
  have hlt : day < 32 := by
    unfold monthDays at hdays
    split_ifs at hdays <;> omega
  have hvalid := And.intro hmonth (And.intro hday (hdays.trans (monthDays_leapClass year month)))
  have hclass := leapClass_lt year
  obtain ⟨h1, h2⟩ := hrange (leapClass year) hclass month (by omega) day hlt hvalid
  obtain ⟨h3, h4⟩ := htable (leapClass year) hclass month (by omega) day hlt hvalid
  rw [yearStart_succ, monthOf_leapClass, dayOfYear_leapClass]
  exact ⟨h1, h2, Prod.ext h4 h3⟩

/-! ## Both words -/

section

variable (stray : ℤ → ℤ) {tz l t : ℤ} {time date year month day : ℕ}

theorem seconds_eq (stray : ℤ → ℤ) (time year : ℕ) (hmonth : 1 ≤ month) (hmonths : month ≤ 12)
    (hday : day < 32) :
    seconds stray time (day + 32 * month + 512 * year) =
      (time % 32 : ℕ) * 2 + 60 * (time / 32 % 64 : ℕ) + (time / 2048 : ℕ) * 3600 +
        86400 * (yearStart year + dayOfYear year month day + 3652) := by
  have hyear : (day + 32 * month + 512 * year) / 512 = year := by omega
  have hfield : (day + 32 * month + 512 * year) / 32 % 16 = month := by omega
  have hrest : (day + 32 * month + 512 * year) % 32 = day := by omega
  have hindex : ((month : ℕ) : ℤ) - 1 = ((month - 1 : ℕ) : ℤ) := by omega
  unfold seconds monthIndex dayOfYear
  dsimp only
  rw [hyear, hfield, hrest, hindex, dayN_table stray (by omega), yearStart_nonneg (by omega)]
  split_ifs <;> omega

theorem timeWord_nonneg (h : 0 ≤ l) :
    timeWord l = (l % 60 / 2 + l / 60 % 60 * 32 + l / 3600 % 24 * 2048).toNat := by
  unfold timeWord
  rw [Int.tmod_eq_emod_of_nonneg h, Int.tdiv_eq_ediv_of_nonneg (a := l % 60) (by omega),
    Int.tdiv_eq_ediv_of_nonneg h, Int.tdiv_eq_ediv_of_nonneg h,
    Int.tmod_eq_emod_of_nonneg (a := l / 60) (by omega),
    Int.tmod_eq_emod_of_nonneg (a := l / 3600) (by omega), Int.emod_eq_of_lt (by omega) (by omega)]

theorem dateWord_eq (hl : 0 ≤ l) (hyear : year < 128)
    (hday : l / 86400 = yearStart year + dayOfYear year month day + 3652)
    (hmonths : 1 ≤ month ∧ month ≤ 12) (hdays : 1 ≤ day ∧ day ≤ 31)
    (h0 : 0 ≤ dayOfYear year month day)
    (hk : dayOfYear year month day < yearStart (year + 1) - yearStart year)
    (hm : monthOf year (dayOfYear year month day) =
      ((day : ℤ) + dayTable.getD (month - 1) 0 - 1, month)) :
    dateWord stray l = day + 32 * month + 512 * year := by
  have hindex : ((month : ℕ) : ℤ) - 1 = ((month - 1 : ℕ) : ℤ) := by omega
  have hnumber : l.tdiv 86400 - 3652 = yearStart year + dayOfYear year month day := by
    rw [Int.tdiv_eq_ediv_of_nonneg hl]
    omega
  have hyearOf : yearOf (yearStart year + dayOfYear year month day) = year :=
    yearOf_eq (by omega) (by omega) (by omega) (by omega)
  have hrest : yearStart year + dayOfYear year month day - yearStart year =
      dayOfYear year month day := by omega
  unfold dateWord
  simp only [hnumber, hyearOf, hrest, hm]
  rw [hindex, dayN_table stray (by omega)]
  omega

theorem seconds_words (hlow : 315532800 ≤ l) (hhigh : l < 2147483648) :
    seconds stray (timeWord l) (dateWord stray l) = l - l % 2 := by
  obtain ⟨year, hfirst, hlast⟩ := exists_year (show 0 ≤ l / 86400 - 3652 by omega) (by omega)
  have hyear : year < 128 := by
    rw [yearStart_nonneg (by omega)] at hfirst
    omega
  obtain ⟨month, day, hm, hd, hmonth, hmonths, hday, hdays, hdoy⟩ :=
    monthOf_spec year (l / 86400 - 3652 - yearStart year) (by omega) (by omega)
  have hword : dateWord stray l = day + 32 * month + 512 * year := by
    apply dateWord_eq stray (by omega) hyear (by omega) ⟨hmonth, hmonths⟩ ⟨hday, hdays⟩
    · omega
    · omega
    · rw [hdoy]
      exact Prod.ext hd hm
  rw [hword, seconds_eq stray _ _ hmonth hmonths (by omega), timeWord_nonneg (by omega)]
  omega

structure Valid (time date : ℕ) : Prop where
  second : time % 32 < 30
  minute : time / 32 % 64 < 60
  hour : time / 2048 < 24
  year : date / 512 < 128
  month : 1 ≤ date / 32 % 16
  months : date / 32 % 16 ≤ 12
  day : 1 ≤ date % 32
  days : date % 32 ≤ monthDays (date / 512) (date / 32 % 16)

section
variable (h : Valid time date)
include h

theorem Valid.seconds_eq :
    seconds stray time date =
      (time % 32 : ℕ) * 2 + 60 * (time / 32 % 64 : ℕ) + (time / 2048 : ℕ) * 3600 +
        86400 * (yearStart (date / 512 : ℕ) +
          dayOfYear (date / 512) (date / 32 % 16) (date % 32) + 3652) := by
  have hdate : date = date % 32 + 32 * (date / 32 % 16) + 512 * (date / 512) := by omega
  have heq := DosTime.seconds_eq stray time (date / 512) h.month h.months
    (show date % 32 < 32 by omega)
  rwa [← hdate] at heq

theorem Valid.seconds_ge : 315532800 ≤ seconds stray time date := by
  have hdoy := (monthOf_dayOfYear h.month h.months h.day h.days).1
  rw [h.seconds_eq, yearStart_nonneg (by omega)]
  omega

theorem Valid.words_seconds :
    timeWord (seconds stray time date) = time ∧
      dateWord stray (seconds stray time date) = date := by
  have hlow := h.seconds_ge stray
  have heq := h.seconds_eq stray
  obtain ⟨h0, hk, hm⟩ := monthOf_dayOfYear h.month h.months h.day h.days
  have hsecond := h.second
  have hminute := h.minute
  have hhour := h.hour
  constructor
  · rw [timeWord_nonneg (by omega), heq]
    omega
  · have hdays : date % 32 ≤ 31 := by omega
    have hword := dateWord_eq stray (l := seconds stray time date) (by omega) h.year
      (by omega) ⟨h.month, h.months⟩ ⟨h.day, hdays⟩ h0 hk hm
    omega

end

theorem yearStart_before (year : ℤ) (hlow : -100 ≤ year) (hhigh : year ≤ 0) :
    365 * year + year / 4 ≤ yearStart year ∧ yearStart year ≤ 365 * year := by
  unfold yearStart
  rcases le_total 0 (year + 3) with hpos | hneg
  · rw [Int.tdiv_eq_ediv_of_nonneg hpos]
    omega
  · rw [tdiv_of_nonpos 4 hneg]
    omega

theorem yearOf_before {d : ℤ} (hlow : -30000 ≤ d) (hhigh : d < 0) :
    365 * yearOf d ≤ d + 25 ∧ -100 ≤ yearOf d ∧ yearOf d < 0 ∧
      0 ≤ d - yearStart (yearOf d) ∧ d - yearStart (yearOf d) < 400 := by
  have hdiv : d.tdiv 365 = -(-d / 365) := tdiv_of_nonpos 365 (by omega)
  have hstart := yearStart_before (-(-d / 365)) (by omega) (by omega)
  have hstart' := yearStart_before (-(-d / 365) - 1) (by omega) (by omega)
  unfold yearOf
  rw [hdiv]
  split <;> omega

theorem dateWord_before (hlow : -2147483648 ≤ l) (hhigh : l < 315532800) :
    ∃ fields : ℕ, 32 ≤ fields ∧ fields < 512 ∧ (yearOf (l.tdiv 86400 - 3652) + 128).toNat * 512 +
      fields = dateWord stray l := by
  have htable : ∀ r : ℕ, r < 2 → ∀ k : ℕ, k < 400 →
      1 ≤ (monthOf r k).2 ∧ (monthOf r k).2 ≤ 12 ∧
        0 ≤ (monthOf r k).1 - dayTable.getD ((monthOf r k).2 - 1) 0 ∧
        (monthOf r k).1 - dayTable.getD ((monthOf r k).2 - 1) 0 ≤ 100 := by
    decide +kernel
  have hday : -30000 ≤ l.tdiv 86400 - 3652 ∧ l.tdiv 86400 - 3652 < 0 := by
    rcases le_total 0 l with hpos | hneg
    · rw [Int.tdiv_eq_ediv_of_nonneg hpos]
      omega
    · rw [tdiv_of_nonpos 86400 hneg]
      omega
  obtain ⟨-, hyear, hneg, hrest, hrests⟩ := yearOf_before hday.1 hday.2
  unfold dateWord
  dsimp only
  generalize yearOf (l.tdiv 86400 - 3652) = y at *
  generalize hk : l.tdiv 86400 - 3652 - yearStart y = k at *
  lift k to ℕ using hrest
  obtain ⟨h1, h2, h3, h4⟩ := htable (leapClass y) (leapClass_lt y) k (by omega)
  rw [← monthOf_leapClass] at h1 h2 h3 h4
  generalize monthOf y k = m at *
  have hindex : (m.2 : ℤ) - 1 = ((m.2 - 1 : ℕ) : ℤ) := by omega
  rw [hindex, dayN_table stray (by omega)]
  generalize m.1 - dayTable.getD (m.2 - 1) 0 = n at *
  refine ⟨(n + 1 + m.2 * 32).toNat, ?_, ?_, ?_⟩ <;> omega

theorem seconds_before (hlow : -2147483648 ≤ l) (hhigh : l < 315532800) :
    l < seconds stray (timeWord l) (dateWord stray l) ∧
      seconds stray (timeWord l) (dateWord stray l) < l + 4294967296 - 1 := by
  obtain ⟨fields, hmin, hmax, hword⟩ := dateWord_before stray hlow hhigh
  have hday : -30000 ≤ l.tdiv 86400 - 3652 ∧ l.tdiv 86400 - 3652 < 0 ∧
      86400 * l.tdiv 86400 ≤ l + 86400 := by
    rcases le_total 0 l with hpos | hneg
    · rw [Int.tdiv_eq_ediv_of_nonneg hpos]
      omega
    · rw [tdiv_of_nonpos 86400 hneg]
      omega
  obtain ⟨hyear, hyears, hneg, -, -⟩ := yearOf_before hday.1 hday.2.1
  rw [← hword]
  generalize yearOf (l.tdiv 86400 - 3652) = y at *
  unfold seconds monthIndex
  dsimp only
  have h1 : ((y + 128).toNat * 512 + fields) / 512 = (y + 128).toNat := by omega
  have h2 : ((y + 128).toNat * 512 + fields) / 32 % 16 = fields / 32 := by omega
  have h3 : ((y + 128).toNat * 512 + fields) % 32 = fields % 32 := by omega
  obtain ⟨hd0, hd1⟩ := dayN_range stray (i := (fields / 32 : ℕ) - 1) (by omega) (by omega)
  have htime : timeWord l < 65536 := by
    unfold timeWord
    omega
  rw [h1, h2, h3]
  split_ifs <;> omega

/-! ## The two conversions -/

theorem wrap_emod (x : ℤ) : wrap x % 4294967296 = x % 4294967296 := by
  unfold wrap
  omega

theorem localDate_range (tz t : ℤ) :
    -2147483648 ≤ localDate tz t ∧ localDate tz t < 2147483648 := by
  unfold localDate wrap
  omega

theorem localDate_emod (tz t : ℤ) : localDate tz t % 4294967296 = (t - tz * 60) % 4294967296 := by
  have h1 := wrap_emod (t - wrap (tz * 60))
  have h2 := wrap_emod (tz * 60)
  unfold localDate
  omega

theorem dateDos2unix_emod (tz : ℤ) (stray : ℤ → ℤ) (time date : ℕ) :
    dateDos2unix tz stray time date % 4294967296 =
      (seconds stray time date + tz * 60) % 4294967296 := by
  have h1 := wrap_emod (wrap (seconds stray time date) + wrap (tz * 60))
  have h2 := wrap_emod (seconds stray time date)
  have h3 := wrap_emod (tz * 60)
  unfold dateDos2unix
  omega

theorem dateDos2unix_range (tz : ℤ) (stray : ℤ → ℤ) (time date : ℕ) :
    -2147483648 ≤ dateDos2unix tz stray time date ∧
      dateDos2unix tz stray time date < 2147483648 := by
  unfold dateDos2unix wrap
  omega

def UnixRoundTrips (tz : ℤ) (stray : ℤ → ℤ) (t : ℤ) : Prop :=
  315532800 ≤ t - tz * 60 →
    dateDos2unix tz stray (dateUnix2dos tz stray t).1 (dateUnix2dos tz stray t).2 = t - t % 2

def DosRoundTrips (tz : ℤ) (stray : ℤ → ℤ) (time date : ℕ) : Prop :=
  Valid time date → dateUnix2dos tz stray (dateDos2unix tz stray time date) = (time, date)

def MonthInTable (date : ℕ) : Prop := 0 ≤ monthIndex date ∧ monthIndex date < 16

theorem unixRoundTrips_iff (stray : ℤ → ℤ) (tz : ℤ) (hlow : -2147483648 ≤ t)
    (hhigh : t < 2147483648) :
    UnixRoundTrips tz stray t ↔ (315532800 ≤ t - tz * 60 → 315532800 ≤ localDate tz t) := by
  obtain ⟨hmin, hmax⟩ := localDate_range tz t
  have hmod := localDate_emod tz t
  have hrange := dateDos2unix_range tz stray (timeWord (localDate tz t))
    (dateWord stray (localDate tz t))
  have hsum := dateDos2unix_emod tz stray (timeWord (localDate tz t))
    (dateWord stray (localDate tz t))
  unfold UnixRoundTrips dateUnix2dos
  dsimp only
  apply imp_congr_right
  intro hcalendar
  constructor
  · intro heq
    by_contra hbefore
    obtain ⟨hmore, hless⟩ := seconds_before stray hmin (by omega)
    -- the difference of the two is even, positive and less than the range of an `int`
    omega
  · intro hafter
    rw [seconds_words stray hafter hmax] at hsum
    omega

theorem dosRoundTrips_iff (stray : ℤ → ℤ) (tz : ℤ) (time date : ℕ) :
    DosRoundTrips tz stray time date ↔
      (Valid time date → seconds stray time date < 2147483648) := by
  apply imp_congr_right
  intro hvalid
  obtain ⟨htime, hdate⟩ := hvalid.words_seconds stray
  have hge := hvalid.seconds_ge stray
  obtain ⟨hmin, hmax⟩ := localDate_range tz (dateDos2unix tz stray time date)
  have hmod := localDate_emod tz (dateDos2unix tz stray time date)
  have hsum := dateDos2unix_emod tz stray time date
  unfold dateUnix2dos
  constructor
  · intro heq
    obtain ⟨htime', hdate'⟩ := Prod.mk.inj heq
    rcases lt_or_ge (localDate tz (dateDos2unix tz stray time date)) 315532800 with hbefore | hafter
    · obtain ⟨hmore, hless⟩ := seconds_before stray hmin hbefore
      rw [htime', hdate'] at hmore hless
      omega
    · have hwords := seconds_words stray hafter hmax
      rw [htime', hdate'] at hwords
      omega
  · intro hfits
    have hlocal : localDate tz (dateDos2unix tz stray time date) = seconds stray time date := by
      omega
    rw [hlocal, htime, hdate]

theorem monthInTable_iff (date : ℕ) : MonthInTable date ↔ date / 32 % 16 ≠ 0 := by
  unfold MonthInTable monthIndex
  omega

/-- The conversions are inverse to each other, and read their table, for a time whose local time
does not overflow an `int`, a date whose seconds do not, and a word that has a month. -/
theorem conversions_iff (stray : ℤ → ℤ) (tz : ℤ) (hlow : -2147483648 ≤ t) (hhigh : t < 2147483648)
    (time date : ℕ) :
    UnixRoundTrips tz stray t ∧ DosRoundTrips tz stray time date ∧ MonthInTable date ↔
      (315532800 ≤ t - tz * 60 → 315532800 ≤ localDate tz t) ∧
        (Valid time date → seconds stray time date < 2147483648) ∧ date / 32 % 16 ≠ 0 := by
  rw [unixRoundTrips_iff stray tz hlow hhigh, dosRoundTrips_iff, monthInTable_iff]

/-- At 1994, in Europe, and for 29 February 1980. -/
theorem conversions_leap_day :
    UnixRoundTrips (-60) (fun _ => 0) 763606861 ∧ DosRoundTrips (-60) (fun _ => 0) 0 93 ∧
      MonthInTable 93 := by
  refine (conversions_iff (fun _ => 0) (-60) (t := 763606861) (by decide) (by decide) 0 93).mpr
    ⟨?_, ?_, ?_⟩
  · exact fun _ => by decide
  · exact fun _ => by decide
  · decide

/-- The last hour before the end of the `int`, east of Greenwich, a date of the year 2040, and the
word 0, which has no month. -/
theorem conversions_overflow :
    ¬ UnixRoundTrips (-60) (fun _ => 0) 2147483647 ∧ ¬ DosRoundTrips 0 (fun _ => 0) 0 30753 ∧
      ¬ MonthInTable 0 := by
  refine ⟨?_, ?_, ?_⟩
  · unfold UnixRoundTrips
    decide
  · intro h
    have hvalid : Valid 0 30753 := by constructor <;> decide
    exact absurd (h hvalid) (by decide)
  · unfold MonthInTable
    decide

end

end LinuxKernel.DosTime
