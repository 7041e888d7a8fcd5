/-
The calendar as `gmtime` and `timegm` have it: the Gregorian calendar without leap seconds, counted from 1970, with
`time_t` as a number without bound. Years start in March here, so that the leap day is the last day of one.
-/
import Mathlib.Algebra.Ring.Int.Defs
import Mathlib.Algebra.Ring.Nat
import Mathlib.Data.Int.Basic

namespace CTime

/-- `struct tm`, in its conventions: `year` counts from 1900, `mon` from 0. -/
structure Tm where
  year : Int
  mon : Int
  mday : Int
  hour : Int
  min : Int
  sec : Int
  deriving DecidableEq, Repr

/-- The day of a date, counted from 1970-01-01. -/
def daysFromCivil (y m d : Int) : Int :=
  let y := if m ≤ 2 then y - 1 else y
  let yoe := y % 400
  let doy := (153 * (if m > 2 then m - 3 else m + 9) + 2) / 5 + d - 1
  y / 400 * 146097 + (yoe * 365 + yoe / 4 - yoe / 100 + doy) - 719468

/-- `timegm`: the fields may be out of their ranges. -/
def timegm (tm : Tm) : Int :=
  (daysFromCivil (tm.year + 1900 + tm.mon / 12) (tm.mon % 12 + 1) 1 + tm.mday - 1) * 86400 + tm.hour * 3600 + tm.min * 60 + tm.sec

/-- The date of a day: the year, the month from 1 and the day from 1. -/
def civilFromDays (days : Int) : Int × Int × Int :=
  let z := days + 719468
  let era := z / 146097
  let doe := z % 146097
  let cent := min 3 (doe / 36524)
  let quad := (doe - cent * 36524) / 1461
  let doq := (doe - cent * 36524) % 1461
  let yr := min 3 (doq / 365)
  let doy := doq - yr * 365
  let mp := (5 * doy + 2) / 153
  let y := era * 400 + 100 * cent + 4 * quad + yr
  (if mp < 10 then y else y + 1, if mp < 10 then mp + 3 else mp - 9, doy - (153 * mp + 2) / 5 + 1)

/-- `gmtime`, which fails where the year does not fit into an `int`. -/
def gmtime (t : Int) : Option Tm :=
  let date := civilFromDays (t / 86400)
  let rem := t % 86400
  if -2 ^ 31 ≤ date.1 - 1900 ∧ date.1 - 1900 < 2 ^ 31 then
    some ⟨date.1 - 1900, date.2.1 - 1, date.2.2, rem / 3600, rem % 3600 / 60, rem % 60⟩
  else none

theorem civil_month (days : Int) : 1 ≤ (civilFromDays days).2.1 ∧ (civilFromDays days).2.1 ≤ 12 := by
  unfold civilFromDays
  dsimp only
  split <;> omega

theorem civil_day (days : Int) : 1 ≤ (civilFromDays days).2.2 ∧ (civilFromDays days).2.2 ≤ 31 := by
  unfold civilFromDays
  dsimp only
  omega

/-- The day of a date in a year of an era, in terms of its centuries, its groups of four years and its years. -/
theorem daysFromCivil_parts {era cent quad yr mp d : Int} (hcent : 0 ≤ cent ∧ cent ≤ 3) (hquad : 0 ≤ quad ∧ quad ≤ 24)
    (hyr : 0 ≤ yr ∧ yr ≤ 3) (hmp : 0 ≤ mp ∧ mp ≤ 11) :
    daysFromCivil (if mp < 10 then era * 400 + 100 * cent + 4 * quad + yr else era * 400 + 100 * cent + 4 * quad + yr + 1)
        (if mp < 10 then mp + 3 else mp - 9) d =
      era * 146097 + 36524 * cent + 1461 * quad + 365 * yr + (153 * mp + 2) / 5 + d - 1 - 719468 := by
  unfold daysFromCivil
  have hyear : ∀ y : Int, y = era * 400 + 100 * cent + 4 * quad + yr → y % 400 = 100 * cent + 4 * quad + yr ∧ y / 400 = era := by
    omega
  by_cases hm : mp < 10
  · rw [if_pos hm, if_pos hm]
    obtain ⟨hmod, hdiv⟩ := hyear _ rfl
    simp only [if_neg (show ¬ mp + 3 ≤ 2 by omega), if_pos (show mp + 3 > 2 by omega), hmod, hdiv]
    omega
  · rw [if_neg hm, if_neg hm]
    obtain ⟨hmod, hdiv⟩ := hyear (era * 400 + 100 * cent + 4 * quad + yr + 1 - 1) (by omega)
    simp only [if_pos (show mp - 9 ≤ 2 by omega), if_neg (show ¬ mp - 9 > 2 by omega), hmod, hdiv]
    omega

theorem daysFromCivil_civil (days : Int) :
    daysFromCivil (civilFromDays days).1 (civilFromDays days).2.1 (civilFromDays days).2.2 = days := by
  unfold civilFromDays
  dsimp only
  rw [daysFromCivil_parts (by omega) (by omega) (by omega) (by omega)]
  omega

/-- `timegm` takes back the time that `gmtime` broke down. -/
theorem timegm_gmtime {t : Int} {tm : Tm} (h : gmtime t = some tm) : timegm tm = t := by
  unfold gmtime at h
  dsimp only at h
  split at h
  case isFalse => cases h
  case isTrue =>
    cases h
    obtain ⟨hm₁, hm₂⟩ := civil_month (t / 86400)
    have hday := daysFromCivil_civil (t / 86400)
    have hfirst : ∀ y m d : Int, daysFromCivil y m d = daysFromCivil y m 1 + d - 1 := by
      intro y m d
      unfold daysFromCivil
      dsimp only
      omega
    unfold timegm
    dsimp only
    generalize (civilFromDays (t / 86400)).1 = y, (civilFromDays (t / 86400)).2.1 = m, (civilFromDays (t / 86400)).2.2 = d at *
    rw [show y - 1900 + 1900 + (m - 1) / 12 = y by omega, show (m - 1) % 12 + 1 = m by omega]
    rw [hfirst] at hday
    omega

end CTime
