import Mathlib.Tactic.IntervalCases
import Mathlib.Tactic.Lift
import Xyberos.Durable.Journal

/-!
# Xyberos.Durable.Calendar — the dates of the journal's days

The proleptic Gregorian calendar of `datetime`: ordinals (`toOrdinal`), which order dates as their fields do, and
`civil`, which is their inverse.
-/

set_option autoImplicit false

namespace Xyberos.Durable

/-! ## Dates -/

/-- `_is_leap`. -/
def IsLeap (year : ℤ) : Prop := year % 4 = 0 ∧ (year % 100 ≠ 0 ∨ year % 400 = 0)

instance (year : ℤ) : Decidable (IsLeap year) := inferInstanceAs (Decidable (_ ∧ _))

/-- The days of a month in a year that is a leap year or not. -/
def monthLength (leap : Bool) (month : ℕ) : ℤ :=
  if month = 2 ∧ leap then 29 else [0, 31, 28, 31, 30, 31, 30, 31, 31, 30, 31, 30, 31].getD month 0

/-- The days before a month in a year that is a leap year or not. -/
def monthStart (leap : Bool) (month : ℕ) : ℤ :=
  [0, 0, 31, 59, 90, 120, 151, 181, 212, 243, 273, 304, 334].getD month 0 + if 2 < month ∧ leap then 1 else 0

/-- `_days_in_month`. -/
def daysInMonth (year month : ℤ) : ℤ := monthLength (IsLeap year) month.toNat

/-- `_days_before_year`. -/
def daysBeforeYear (year : ℤ) : ℤ := (year - 1) * 365 + (year - 1) / 4 - (year - 1) / 100 + (year - 1) / 400

/-- `_days_before_month`. -/
def daysBeforeMonth (year month : ℤ) : ℤ := monthStart (IsLeap year) month.toNat

/-- `_ymd2ord`: `date(1, 1, 1)` is day 1. -/
def toOrdinal (year month day : ℤ) : ℤ := daysBeforeYear year + daysBeforeMonth year month + day

/-- The month and the day exist. -/
structure IsDate (year month day : ℤ) : Prop where
  month_pos : 1 ≤ month
  month_le : month ≤ 12
  day_pos : 1 ≤ day
  day_le : day ≤ daysInMonth year month

instance (year month day : ℤ) : Decidable (IsDate year month day) :=
  decidable_of_iff (1 ≤ month ∧ month ≤ 12 ∧ 1 ≤ day ∧ day ≤ daysInMonth year month)
    ⟨fun h => ⟨h.1, h.2.1, h.2.2.1, h.2.2.2⟩, fun h => ⟨h.1, h.2, h.3, h.4⟩⟩

/-! ## Ordinals -/

theorem monthStart_add_le :
    ∀ leap : Bool, ∀ later ≤ 12, ∀ month < later, 1 ≤ month →
      monthStart leap month + monthLength leap month ≤ monthStart leap later := by
  decide

theorem monthStart_add_le_year :
    ∀ leap : Bool, ∀ month ≤ 12, 1 ≤ month →
      0 ≤ monthStart leap month ∧ monthStart leap month + monthLength leap month ≤ 365 + if leap then 1 else 0 := by
  decide

theorem daysBeforeYear_succ (year : ℤ) :
    daysBeforeYear (year + 1) = daysBeforeYear year + 365 + if IsLeap year then 1 else 0 := by
  unfold daysBeforeYear IsLeap
  split_ifs with h <;> omega

theorem daysBeforeYear_mono {y y' : ℤ} (h : y ≤ y') : daysBeforeYear y ≤ daysBeforeYear y' := by
  unfold daysBeforeYear
  omega

variable {y m d y' m' d' : ℤ}

theorem IsDate.month_nat (h : IsDate y m d) : 1 ≤ m.toNat ∧ m.toNat ≤ 12 := by
  have := h.month_pos
  have := h.month_le
  omega

/-- A date falls in its year. -/
theorem IsDate.toOrdinal_bounds (h : IsDate y m d) :
    daysBeforeYear y < toOrdinal y m d ∧ toOrdinal y m d ≤ daysBeforeYear (y + 1) := by
  obtain ⟨hpos, hle⟩ := h.month_nat
  obtain ⟨hstart, hend⟩ := monthStart_add_le_year (IsLeap y) m.toNat hle hpos
  have hday := h.day_le
  have hfirst := h.day_pos
  rw [daysBeforeYear_succ]
  simp only [decide_eq_true_eq] at hend
  unfold toOrdinal daysBeforeMonth
  unfold daysInMonth at hday
  omega

theorem toOrdinal_lt (h : IsDate y m d) (h' : IsDate y' m' d')
    (hlt : y < y' ∨ y = y' ∧ (m < m' ∨ m = m' ∧ d < d')) : toOrdinal y m d < toOrdinal y' m' d' := by
  rcases hlt with hy | ⟨rfl, hm | ⟨rfl, hd⟩⟩
  · have hin := h.toOrdinal_bounds.2
    have hnext : daysBeforeYear (y + 1) ≤ daysBeforeYear y' := daysBeforeYear_mono (by omega)
    have hin' := h'.toOrdinal_bounds.1
    omega
  · obtain ⟨hpos, _⟩ := h.month_nat
    obtain ⟨_, hle⟩ := h'.month_nat
    have hmonths := monthStart_add_le (IsLeap y) m'.toNat hle m.toNat (by have := h.month_pos; omega) hpos
    have hday := h.day_le
    have hfirst := h'.day_pos
    unfold toOrdinal daysBeforeMonth
    unfold daysInMonth at hday
    omega
  · unfold toOrdinal
    omega

/-- Ordinals order dates as their fields do. -/
theorem toOrdinal_lt_iff (h : IsDate y m d) (h' : IsDate y' m' d') :
    toOrdinal y m d < toOrdinal y' m' d' ↔ y < y' ∨ y = y' ∧ (m < m' ∨ m = m' ∧ d < d') := by
  constructor
  · intro hlt
    by_contra hnot
    by_cases heq : y = y' ∧ m = m' ∧ d = d'
    · obtain ⟨rfl, rfl, rfl⟩ := heq
      exact lt_irrefl _ hlt
    · have := toOrdinal_lt h' h (by omega)
      omega
  · exact toOrdinal_lt h h'

/-! ## `civil` -/

/-- The days of the years before `year` of an era that begins with March. -/
def marchYears (year : ℤ) : ℤ := 365 * year + year / 4 - year / 100 + year / 400

/-- Days of an era without its leap days. -/
def leapless (day : ℤ) : ℤ := day - day / 1460 + day / 36524 - day / 146096

theorem leapless_mono {a b : ℤ} (hab : a ≤ b) : leapless a ≤ leapless b := by
  unfold leapless
  have h4 : b / 1460 - a / 1460 ≤ b - a := by omega
  have h100 : b / 146096 - a / 146096 ≤ b / 36524 - a / 36524 := by omega
  omega

theorem leapless_marchYears :
    ∀ year : ℕ, year < 400 → 365 * (year : ℤ) ≤ leapless (marchYears year) ∧
      leapless (marchYears (year + 1) - 1) < 365 * (year + 1) := by
  decide +kernel

/-- The year of the era a day falls in. -/
theorem marchYears_le (day : ℤ) (h0 : 0 ≤ day) (h1 : day ≤ 146096) :
    0 ≤ leapless day / 365 ∧ leapless day / 365 < 400 ∧ marchYears (leapless day / 365) ≤ day ∧
      day < marchYears (leapless day / 365 + 1) := by
  have hlow : 0 ≤ leapless day := leapless_mono h0
  have hhigh : leapless day ≤ leapless 146096 := leapless_mono h1
  have hlast : leapless 146096 = 145999 := by decide
  obtain ⟨year, hyear⟩ := Int.eq_ofNat_of_zero_le (show 0 ≤ leapless day / 365 by omega)
  have hlt : year < 400 := by omega
  obtain ⟨hstart, hend⟩ := leapless_marchYears year hlt
  rw [hyear]
  refine ⟨by omega, by omega, ?_, ?_⟩
  · by_contra hnot
    -- the day before the year starts still counts to the year before
    obtain ⟨prev, rfl⟩ : ∃ prev, year = prev + 1 := by
      refine ⟨year - 1, ?_⟩
      by_contra h
      obtain rfl : year = 0 := by omega
      exact hnot h0
    have hbefore := (leapless_marchYears prev (by omega)).2
    push_cast at hyear hnot
    have hmono : leapless day ≤ leapless (marchYears (prev + 1) - 1) :=
      leapless_mono (by omega)
    omega
  · by_contra hnot
    by_cases hlast' : year = 399
    · subst hlast'
      have : marchYears ((399 : ℕ) + 1) = 146097 := by decide
      omega
    · have hnext := (leapless_marchYears (year + 1) (by omega)).1
      push_cast at hnext
      have hmono : leapless (marchYears (year + 1)) ≤ leapless day :=
        leapless_mono (by omega)
      omega

/-- The month of a day of a year that begins with March. -/
def marchMonth (doy : ℤ) : ℤ := if (5 * doy + 2) / 153 < 10 then (5 * doy + 2) / 153 + 3 else (5 * doy + 2) / 153 - 9

/-- The day in its month of a day of a year that begins with March. -/
def marchDay (doy : ℤ) : ℤ := doy - (153 * ((5 * doy + 2) / 153) + 2) / 5 + 1

theorem march_day_month :
    ∀ doy : ℕ, doy < 366 →
      1 ≤ marchMonth doy ∧ marchMonth doy ≤ 12 ∧ 1 ≤ marchDay doy ∧
      (marchMonth doy ≤ 2 → monthStart false (marchMonth doy).toNat + marchDay doy = doy - 305) ∧
      (2 < marchMonth doy → monthStart false (marchMonth doy).toNat + marchDay doy = doy + 60) ∧
      (marchDay doy ≤ monthLength false (marchMonth doy).toNat ∨
        doy = 365 ∧ marchMonth doy = 2 ∧ marchDay doy = 29) := by
  intro doy hdoy
  unfold marchMonth marchDay
  obtain ⟨p, hp⟩ : ∃ p : ℤ, p = (5 * (doy : ℤ) + 2) / 153 := ⟨_, rfl⟩
  have hlow : 0 ≤ p := by omega
  have hhigh : p ≤ 11 := by omega
  rw [← hp]
  -- one case for each month
  interval_cases p <;> simp [monthStart, monthLength] <;> omega

theorem monthStart_leap {leap : Bool} {month : ℕ} (h : 2 < month) :
    monthStart leap month = monthStart false month + if leap then 1 else 0 := by
  unfold monthStart
  cases leap <;> simp [h]

theorem monthStart_early {leap : Bool} {month : ℕ} (h : month ≤ 2) :
    monthStart leap month = monthStart false month := by
  have hnot : ¬ 2 < month := by omega
  simp [monthStart, hnot]

theorem monthLength_false_le (leap : Bool) (month : ℕ) : monthLength false month ≤ monthLength leap month := by
  unfold monthLength
  by_cases h : month = 2
  · subst h
    cases leap <;> decide
  · simp [h]

theorem marchYears_eq (year : ℤ) : marchYears year = daysBeforeYear (year + 1) := by
  unfold marchYears daysBeforeYear
  omega

/-- The year and the day of the year, both from March on, which `civil` goes by. -/
theorem civil_eq (day : ℤ) :
    ∃ year doy, 0 ≤ doy ∧ day + 719468 = marchYears year + doy ∧ doy < marchYears (year + 1) - marchYears year ∧
      civil day = (year + (if marchMonth doy ≤ 2 then 1 else 0), marchMonth doy, marchDay doy) := by
  set era := (day + 719468) / 146097 with hera
  set doe := day + 719468 - era * 146097 with hdoe
  set yoe := leapless doe / 365 with hyoe
  obtain ⟨hy0, hy400, hstart, hend⟩ := marchYears_le doe (by omega) (by omega)
  rw [← hyoe] at hy0 hy400 hstart hend
  have hera400 : marchYears (yoe + era * 400) = marchYears yoe + era * 146097 := by
    unfold marchYears
    omega
  have hnext : marchYears (yoe + era * 400 + 1) = marchYears (yoe + 1) + era * 146097 := by
    unfold marchYears
    omega
  have hdoy : doe - (365 * yoe + yoe / 4 - yoe / 100) = doe - marchYears yoe := by
    unfold marchYears
    omega
  refine ⟨yoe + era * 400, doe - marchYears yoe, by omega, by omega, by omega, ?_⟩
  rw [← hdoy]
  rfl

theorem isDate_civil (day : ℤ) : IsDate (civil day).1 (civil day).2.1 (civil day).2.2 := by
  obtain ⟨year, doy, hpos, -, hlt, heq⟩ := civil_eq day
  rw [marchYears_eq (year + 1), marchYears_eq year, daysBeforeYear_succ] at hlt
  lift doy to ℕ using hpos
  have hlt366 : doy < 366 := by
    split_ifs at hlt <;> omega
  obtain ⟨hm1, hm12, hd1, -, -, hlen⟩ := march_day_month doy hlt366
  rw [heq]
  refine ⟨hm1, hm12, hd1, ?_⟩
  show marchDay doy ≤ monthLength _ (marchMonth doy).toNat
  rcases hlen with hlen | ⟨rfl, hmonth, hday⟩
  · exact hlen.trans (monthLength_false_le _ _)
  · -- the 366th day is the 29th of February, and only a leap year has it
    have hleap : IsLeap (year + 1) := by
      by_contra hnot
      rw [if_neg hnot] at hlt
      omega
    rw [hmonth, hday]
    simp [monthLength, hleap]

/-- `civil` is `date.fromordinal`. -/
theorem toOrdinal_civil (day : ℤ) :
    toOrdinal (civil day).1 (civil day).2.1 (civil day).2.2 = day + 719163 := by
  obtain ⟨year, doy, hpos, hday, hlt, heq⟩ := civil_eq day
  rw [marchYears_eq (year + 1), marchYears_eq year, daysBeforeYear_succ] at hlt
  rw [marchYears_eq] at hday
  lift doy to ℕ using hpos
  have hlt366 : doy < 366 := by
    split_ifs at hlt <;> omega
  obtain ⟨hm1, -, -, hearly, hlate, -⟩ := march_day_month doy hlt366
  rw [heq]
  show daysBeforeYear (year + _) + monthStart _ (marchMonth doy).toNat + marchDay doy = _
  by_cases h : marchMonth doy ≤ 2
  · have hsum := hearly h
    rw [if_pos h, monthStart_early (by omega)]
    omega
  · have hsum := hlate (by omega)
    have hyear := daysBeforeYear_succ year
    rw [if_neg h, monthStart_leap (by omega), add_zero]
    simp only [decide_eq_true_eq]
    omega

end Xyberos.Durable
