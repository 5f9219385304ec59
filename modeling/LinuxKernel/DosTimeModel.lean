import Mathlib.Tactic

/-!
# Dates of MS-DOS

The two conversions of `fs/msdos/misc.c` between the seconds since 1970 and the pair of 16-bit
words of a directory entry.
-/

namespace LinuxKernel.DosTime

def wrap (x : ℤ) : ℤ := (x + 2147483648) % 4294967296 - 2147483648

def dayTable : List ℤ := [0, 31, 59, 90, 120, 151, 181, 212, 243, 273, 304, 334, 0, 0, 0, 0]

def dayN (stray : ℤ → ℤ) (i : ℤ) : ℤ := if 0 ≤ i ∧ i < 16 then dayTable.getD i.toNat 0 else stray i

def monthIndex (date : ℕ) : ℤ := (date / 32 % 16 : ℕ) - 1

def seconds (stray : ℤ → ℤ) (time date : ℕ) : ℤ :=
  let month := monthIndex date
  let year : ℤ := (date / 512 : ℕ)
  (time % 32 : ℕ) * 2 + 60 * (time / 32 % 64 : ℕ) + (time / 2048 : ℕ) * 3600 + 86400 *
    ((date % 32 : ℕ) - 1 + dayN stray month + year / 4 + year * 365 -
      (if year % 4 = 0 ∧ month < 2 then 1 else 0) + 3653)

def dateDos2unix (tz : ℤ) (stray : ℤ → ℤ) (time date : ℕ) : ℤ :=
  wrap (wrap (seconds stray time date) + wrap (tz * 60))

def yearStart (year : ℤ) : ℤ := (year + 3).tdiv 4 + 365 * year

def yearOf (day : ℤ) : ℤ :=
  if yearStart (day.tdiv 365) > day then day.tdiv 365 - 1 else day.tdiv 365

def monthOf (year day : ℤ) : ℤ × ℕ :=
  if day = 59 ∧ year % 4 = 0 then (day, 2)
  else
    let nlDay := if year % 4 ≠ 0 ∨ day ≤ 59 then day else day - 1
    (nlDay, (dayTable.take 12).findIdx fun n => nlDay < n)

def timeWord (unixDate : ℤ) : ℕ :=
  (((unixDate.tmod 60).tdiv 2 + (unixDate.tdiv 60).tmod 60 * 32 +
    (unixDate.tdiv 3600).tmod 24 * 2048) % 65536).toNat

def dateWord (stray : ℤ → ℤ) (unixDate : ℤ) : ℕ :=
  let day := unixDate.tdiv 86400 - 3652
  let year := yearOf day
  let m := monthOf year (day - yearStart year)
  ((m.1 - dayN stray (m.2 - 1) + 1 + m.2 * 32 + year * 512) % 65536).toNat

def localDate (tz unixDate : ℤ) : ℤ := wrap (unixDate - wrap (tz * 60))

def dateUnix2dos (tz : ℤ) (stray : ℤ → ℤ) (unixDate : ℤ) : ℕ × ℕ :=
  (timeWord (localDate tz unixDate), dateWord stray (localDate tz unixDate))

end LinuxKernel.DosTime
