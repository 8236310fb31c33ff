import Mathlib.Data.List.Permutation
import Mathlib.Data.String.Basic
import Xyberos.Base.Decimal
import Xyberos.Durable.Calendar

/-!
# Xyberos.Durable.Timestamps — the journal's timestamps as texts

`to_iso` and `from_iso` of `durable/journal.py` on aware datetimes, and the statements of `durable/store.py` which
compare or sort timestamps, over the type of their columns.  The texts of two instants compare as the instants do
(`toIso_lt_toIso`), and so does every such statement.  SQLite compares texts by their bytes, which for ASCII is by
characters.
-/

set_option autoImplicit false

namespace Xyberos.Durable

/-! ## Aware datetimes -/

/-- A UTC value of the years 1 to 9999. -/
def InRange (moment : ℤ) : Prop := -62135596800000000 ≤ moment ∧ moment ≤ 253402300799999999

instance (moment : ℤ) : Decidable (InRange moment) := inferInstanceAs (Decidable (_ ∧ _))

/-- The fields of a `datetime`, and its `utcoffset()`, are within their bounds. -/
structure IsDateTime (year month day hour minute second microsecond utcoffset : ℤ) : Prop where
  year_mem : 1 ≤ year ∧ year ≤ 9999
  date : IsDate year month day
  hour_mem : 0 ≤ hour ∧ hour < 24
  minute_mem : 0 ≤ minute ∧ minute < 60
  second_mem : 0 ≤ second ∧ second < 60
  microsecond_mem : 0 ≤ microsecond ∧ microsecond < 1000000
  utcoffset_mem : -86400000000 < utcoffset ∧ utcoffset < 86400000000

instance (year month day hour minute second microsecond utcoffset : ℤ) :
    Decidable (IsDateTime year month day hour minute second microsecond utcoffset) :=
  decidable_of_iff ((1 ≤ year ∧ year ≤ 9999) ∧ IsDate year month day ∧ (0 ≤ hour ∧ hour < 24) ∧
      (0 ≤ minute ∧ minute < 60) ∧ (0 ≤ second ∧ second < 60) ∧ (0 ≤ microsecond ∧ microsecond < 1000000) ∧
      -86400000000 < utcoffset ∧ utcoffset < 86400000000)
    ⟨fun h => ⟨h.1, h.2.1, h.2.2.1, h.2.2.2.1, h.2.2.2.2.1, h.2.2.2.2.2.1, h.2.2.2.2.2.2⟩,
      fun h => ⟨h.1, h.2, h.3, h.4, h.5, h.6, h.7⟩⟩

/-- An aware `datetime`: the fields on its own clock, and its `utcoffset()`. -/
structure DateTime where
  year : ℤ
  month : ℤ
  day : ℤ
  hour : ℤ
  minute : ℤ
  second : ℤ
  microsecond : ℤ
  utcoffset : ℤ
  valid : IsDateTime year month day hour minute second microsecond utcoffset

namespace DateTime

/-- The instant an aware `datetime` is: its own clock less its offset. -/
def instant (a : DateTime) : ℤ :=
  ((toOrdinal a.year a.month a.day - 719163) * 86400 + a.hour * 3600 + a.minute * 60 + a.second) * 1000000 +
    a.microsecond - a.utcoffset

end DateTime

theorem year_civil {moment : ℤ} (h : InRange moment) :
    1 ≤ (civil (moment / 1000000 / 86400)).1 ∧ (civil (moment / 1000000 / 86400)).1 ≤ 9999 := by
  have hbounds := (isDate_civil (moment / 1000000 / 86400)).toOrdinal_bounds
  rw [toOrdinal_civil] at hbounds
  unfold InRange at h
  constructor
  · by_contra hnot
    have : daysBeforeYear ((civil (moment / 1000000 / 86400)).1 + 1) ≤ daysBeforeYear 1 :=
      daysBeforeYear_mono (by omega)
    have : daysBeforeYear 1 = 0 := by decide
    omega
  · by_contra hnot
    have : daysBeforeYear 10000 ≤ daysBeforeYear (civil (moment / 1000000 / 86400)).1 :=
      daysBeforeYear_mono (by omega)
    have : daysBeforeYear 10000 = 3652059 := by decide
    omega

theorem isDateTime_civil {moment : ℤ} (h : InRange moment) :
    IsDateTime (civil (moment / 1000000 / 86400)).1 (civil (moment / 1000000 / 86400)).2.1
      (civil (moment / 1000000 / 86400)).2.2 (moment / 1000000 % 86400 / 3600) (moment / 1000000 % 3600 / 60)
      (moment / 1000000 % 60) (moment % 1000000) 0 := by
  refine ⟨year_civil h, isDate_civil _, ?_, ?_, ?_, ?_, ?_⟩ <;> omega

namespace DateTime

/-- The `datetime` of an instant in `timezone.utc`. -/
def utc (moment : ℤ) (h : InRange moment) : DateTime where
  year := (civil (moment / 1000000 / 86400)).1
  month := (civil (moment / 1000000 / 86400)).2.1
  day := (civil (moment / 1000000 / 86400)).2.2
  hour := moment / 1000000 % 86400 / 3600
  minute := moment / 1000000 % 3600 / 60
  second := moment / 1000000 % 60
  microsecond := moment % 1000000
  utcoffset := 0
  valid := isDateTime_civil h

@[simp] theorem instant_utc {moment : ℤ} (h : InRange moment) : (utc moment h).instant = moment := by
  show ((toOrdinal (civil _).1 (civil _).2.1 (civil _).2.2 - 719163) * 86400 + _ + _ + _) * 1000000 + _ - 0 = moment
  rw [toOrdinal_civil]
  show ((moment / 1000000 / 86400 + 719163 - 719163) * 86400 + moment / 1000000 % 86400 / 3600 * 3600 +
    moment / 1000000 % 3600 / 60 * 60 + moment / 1000000 % 60) * 1000000 + moment % 1000000 - 0 = moment
  omega

/-- `moment.astimezone(timezone.utc)`. -/
def astimezone (moment : DateTime) : Except Exc DateTime :=
  if h : InRange moment.instant then .ok (utc moment.instant h)
  else .error (overflowError "date value out of range")

/-- `_format_offset`. -/
def formatOffset (offset : Duration) : String :=
  let off := if offset < 0 then -offset else offset
  (if offset < 0 then "-" else "+") ++ padded 2 (off / 3600000000) ++ ":" ++ padded 2 (off % 3600000000 / 60000000) ++
    if off % 60000000 = 0 then "" else
      ":" ++ padded 2 (off % 60000000 / 1000000) ++
        if off % 1000000 = 0 then "" else "." ++ padded 6 (off % 1000000)

/-- `moment.isoformat(timespec="microseconds")`. -/
def isoformat (moment : DateTime) : String :=
  padded 4 moment.year ++ "-" ++ padded 2 moment.month ++ "-" ++ padded 2 moment.day ++ "T" ++ padded 2 moment.hour ++
    ":" ++ padded 2 moment.minute ++ ":" ++ padded 2 moment.second ++ "." ++ padded 6 moment.microsecond ++
    formatOffset moment.utcoffset

/-- `to_iso`. -/
def toIso (moment : DateTime) : Except Exc String := do
  let utc ← moment.astimezone
  return utc.isoformat

end DateTime

/-! ## The texts -/

theorem toList_pushn (s : String) (c : Char) (n : ℕ) : (s.pushn c n).toList = s.toList ++ List.replicate n c := by
  rw [String.pushn_eq_repeat_push]
  induction n with
  | zero => simp [Nat.repeat]
  | succ n ih => rw [Nat.repeat, String.toList_push, ih, List.append_assoc, List.replicate_succ']

theorem toList_padded {width : ℕ} {n : ℤ} (hw : 0 < width) (h : n.toNat < 10 ^ width) :
    (padded width n).toList = decimal width n.toNat := by
  have hdigits : (toString n.toNat).toList = Nat.toDigits 10 n.toNat := Nat.toList_repr
  rw [padded, String.toList_append, toList_pushn, ← String.length_toList, hdigits]
  exact replicate_append_toDigits hw h

/-- The fields of `isoformat(timespec="microseconds")` in UTC, and the texts behind them. -/
def isoFields : List (ℕ × List Char) :=
  [(4, ['-']), (2, ['-']), (2, ['T']), (2, [':']), (2, [':']), (2, ['.']), (6, ['+', '0', '0', ':', '0', '0'])]

namespace DateTime

/-- The numbers in the text of a datetime. -/
def numbers (a : DateTime) : List ℕ :=
  [a.year.toNat, a.month.toNat, a.day.toNat, a.hour.toNat, a.minute.toNat, a.second.toNat, a.microsecond.toNat]

theorem day_le (a : DateTime) : a.day ≤ 31 := by
  have hlength : ∀ leap : Bool, ∀ month ≤ 12, monthLength leap month ≤ 31 := by decide
  exact a.valid.date.day_le.trans (hlength _ _ a.valid.date.month_nat.2)

theorem fits_numbers (a : DateTime) : Fits isoFields a.numbers := by
  obtain ⟨hyear, hdate, hhour, hminute, hsecond, hmicro, -⟩ := a.valid
  have hmonth := hdate.month_le
  have hday := a.day_le
  simp only [isoFields, numbers, Fits, List.forall₂_cons, List.Forall₂.nil, and_true]
  omega

theorem formatOffset_zero : formatOffset 0 = "+00:00" := by decide +kernel

/-- The text of a datetime in UTC. -/
theorem toList_isoformat (a : DateTime) (h : a.utcoffset = 0) : a.isoformat.toList = record isoFields a.numbers := by
  have hfits := a.fits_numbers
  simp only [isoFields, numbers, Fits, List.forall₂_cons, List.Forall₂.nil, and_true] at hfits
  obtain ⟨hyear, hmonth, hday, hhour, hminute, hsecond, hmicro⟩ := hfits
  simp only [isoformat, h, formatOffset_zero, String.toList_append, toList_padded, hyear, hmonth, hday, hhour, hminute, hsecond,
    hmicro, Nat.ofNat_pos, isoFields, numbers, record]
  simp

/-- The clock of a day in microseconds. -/
def clock (a : DateTime) : ℤ := (a.hour * 3600 + a.minute * 60 + a.second) * 1000000 + a.microsecond

theorem clock_bounds (a : DateTime) : 0 ≤ a.clock ∧ a.clock < 86400000000 := by
  obtain ⟨-, -, hhour, hminute, hsecond, hmicro, -⟩ := a.valid
  unfold clock
  omega

theorem clock_lt_clock (a b : DateTime) :
    a.clock < b.clock ↔ a.hour < b.hour ∨ a.hour = b.hour ∧ (a.minute < b.minute ∨ a.minute = b.minute ∧
      (a.second < b.second ∨ a.second = b.second ∧ a.microsecond < b.microsecond)) := by
  obtain ⟨-, -, -, hminute, hsecond, hmicro, -⟩ := a.valid
  obtain ⟨-, -, -, hminute', hsecond', hmicro', -⟩ := b.valid
  unfold clock
  omega

theorem instant_eq (a : DateTime) :
    a.instant = (toOrdinal a.year a.month a.day - 719163) * 86400000000 + a.clock - a.utcoffset := by
  unfold instant clock
  omega

/-- On one offset, instants compare as dates and then as clocks. -/
theorem instant_lt_instant {a b : DateTime} (h : a.utcoffset = b.utcoffset) :
    a.instant < b.instant ↔ toOrdinal a.year a.month a.day < toOrdinal b.year b.month b.day ∨
      toOrdinal a.year a.month a.day = toOrdinal b.year b.month b.day ∧ a.clock < b.clock := by
  have hclock := a.clock_bounds
  have hclock' := b.clock_bounds
  rw [instant_eq, instant_eq, h]
  omega

theorem toOrdinal_eq_iff (a b : DateTime) :
    toOrdinal a.year a.month a.day = toOrdinal b.year b.month b.day ↔
      a.year = b.year ∧ a.month = b.month ∧ a.day = b.day := by
  have hlt := toOrdinal_lt_iff a.valid.date b.valid.date
  have hgt := toOrdinal_lt_iff b.valid.date a.valid.date
  omega

theorem toNat_lt_and_eq {m n : ℤ} (hm : 0 ≤ m) (hn : 0 ≤ n) :
    (m.toNat < n.toNat ↔ m < n) ∧ (m.toNat = n.toNat ↔ m = n) := by
  omega

theorem clock_numbers_lt (a b : DateTime) :
    [a.hour.toNat, a.minute.toNat, a.second.toNat, a.microsecond.toNat] <
      [b.hour.toNat, b.minute.toNat, b.second.toNat, b.microsecond.toNat] ↔ a.clock < b.clock := by
  obtain ⟨-, -, hhour, hminute, hsecond, hmicro, -⟩ := a.valid
  obtain ⟨-, -, hhour', hminute', hsecond', hmicro', -⟩ := b.valid
  simp only [List.cons_lt_cons_iff, List.not_lt_nil, and_false, or_false, toNat_lt_and_eq hhour.1 hhour'.1,
    toNat_lt_and_eq hminute.1 hminute'.1, toNat_lt_and_eq hsecond.1 hsecond'.1, toNat_lt_and_eq hmicro.1 hmicro'.1]
  exact (clock_lt_clock a b).symm

/-- On one offset, the numbers order datetimes as their instants do. -/
theorem numbers_lt_numbers {a b : DateTime} (h : a.utcoffset = b.utcoffset) :
    a.numbers < b.numbers ↔ a.instant < b.instant := by
  obtain ⟨hyear, hdate, -⟩ := a.valid
  obtain ⟨hyear', hdate', -⟩ := b.valid
  have hmonth := hdate.month_pos
  have hmonth' := hdate'.month_pos
  have hday := hdate.day_pos
  have hday' := hdate'.day_pos
  rw [instant_lt_instant h, toOrdinal_lt_iff hdate hdate', toOrdinal_eq_iff, ← clock_numbers_lt]
  show [_, _, _] ++ [_, _, _, _] < [_, _, _] ++ [_, _, _, _] ↔ _
  refine Iff.trans (append_lt_append _ _ (by rfl)) ?_
  refine or_congr ?_ (and_congr_left fun _ => ?_)
  · simp only [List.cons_lt_cons_iff, List.not_lt_nil, and_false, or_false]
    omega
  · simp only [List.cons.injEq, and_true]
    omega

theorem isoformat_utc {moment : ℤ} (h : InRange moment) : (utc moment h).isoformat = Durable.toIso moment := by
  show _ ++ formatOffset 0 = _
  rw [formatOffset_zero]
  rfl

theorem toIso_eq {a : DateTime} (h : InRange a.instant) : a.toIso = .ok (Durable.toIso a.instant) := by
  rw [toIso, astimezone, dif_pos h, ← isoformat_utc h]
  rfl

end DateTime

theorem toList_toIso {moment : ℤ} (h : InRange moment) :
    (toIso moment).toList = record isoFields (DateTime.utc moment h).numbers := by
  rw [← DateTime.isoformat_utc h, DateTime.toList_isoformat _ rfl]

/-- Texts compare as instants. -/
theorem toIso_lt_toIso {a b : ℤ} (ha : InRange a) (hb : InRange b) : toIso a < toIso b ↔ a < b := by
  rw [String.lt_iff_toList_lt, toList_toIso ha, toList_toIso hb,
    record_lt_record (DateTime.fits_numbers _) (DateTime.fits_numbers _),
    DateTime.numbers_lt_numbers (a := .utc a ha) (b := .utc b hb) rfl,
    DateTime.instant_utc, DateTime.instant_utc]

theorem toIso_le_toIso {a b : ℤ} (ha : InRange a) (hb : InRange b) : toIso a ≤ toIso b ↔ a ≤ b := by
  rw [← not_lt, toIso_lt_toIso hb ha, not_lt]

theorem toIso_inj {a b : ℤ} (ha : InRange a) (hb : InRange b) : toIso a = toIso b ↔ a = b := by
  rw [le_antisymm_iff, toIso_le_toIso ha hb, toIso_le_toIso hb ha, ← le_antisymm_iff]

/-- `±HH:MM[:SS[.ffffff]]`, in microseconds. -/
def readOffset (text : List Char) : Option Duration := do
  let sign ← match text.head? with
    | some '+' => some 1
    | some '-' => some (-1)
    | _ => none
  let (hhmm, text) ← readRecord [(2, [':']), (2, [])] text.tail
  let minutes : ℤ := hhmm[0]! * 60 + hhmm[1]!
  if text = [] then return sign * (minutes * 60000000)
  else
    let (ss, text) ← readRecord [(2, [])] (← if text.head? = some ':' then some text.tail else none)
    if text = [] then return sign * (minutes * 60000000 + ss[0]! * 1000000)
    else
      let (ff, text) ← readRecord [(6, [])] (← if text.head? = some '.' then some text.tail else none)
      guard (text = [])
      return sign * (minutes * 60000000 + ss[0]! * 1000000 + ff[0]!)

/-- `from_iso`: `datetime.fromisoformat` of the texts `isoformat(timespec="microseconds")` writes, with any character
between date and time; `none` where no date and time has these fields. -/
def fromIso (value : String) : Option DateTime := do
  let (date, rest) ← readRecord [(4, ['-']), (2, ['-']), (2, [])] value.toList
  guard (rest ≠ [])
  let (time, rest) ← readRecord [(2, [':']), (2, [':']), (2, ['.']), (6, [])] rest.tail
  let offset ← readOffset rest
  if h : IsDateTime date[0]! date[1]! date[2]! time[0]! time[1]! time[2]! time[3]! offset then
    some ⟨_, _, _, _, _, _, _, _, h⟩
  else none

theorem record_isoFields (a : DateTime) :
    record isoFields a.numbers =
      record [(4, ['-']), (2, ['-']), (2, [])] [a.year.toNat, a.month.toNat, a.day.toNat] ++
        'T' :: (record [(2, [':']), (2, [':']), (2, ['.']), (6, [])]
          [a.hour.toNat, a.minute.toNat, a.second.toNat, a.microsecond.toNat] ++ ['+', '0', '0', ':', '0', '0']) := by
  simp [isoFields, DateTime.numbers, record]

/-- The text of a datetime in UTC reads back. -/
theorem fromIso_isoformat (a : DateTime) (h : a.utcoffset = 0) : fromIso a.isoformat = some a := by
  have htext := a.toList_isoformat h
  have hfits := a.fits_numbers
  simp only [isoFields, DateTime.numbers, Fits, List.forall₂_cons, List.Forall₂.nil, and_true] at hfits
  obtain ⟨hyear, hmonth, hday, hhour, hminute, hsecond, hmicro⟩ := hfits
  have hdate : Fits [(4, ['-']), (2, ['-']), (2, [])] [a.year.toNat, a.month.toNat, a.day.toNat] :=
    .cons hyear (.cons hmonth (.cons hday .nil))
  have htime : Fits [(2, [':']), (2, [':']), (2, ['.']), (6, [])]
      [a.hour.toNat, a.minute.toNat, a.second.toNat, a.microsecond.toNat] :=
    .cons hhour (.cons hminute (.cons hsecond (.cons hmicro .nil)))
  have hzone : readOffset ['+', '0', '0', ':', '0', '0'] = some 0 := by decide +kernel
  rw [fromIso, htext, record_isoFields, readRecord_record hdate]
  simp only [Option.bind_eq_bind, Option.bind_some, List.tail_cons, readRecord_record htime, hzone]
  obtain ⟨year, month, day, hour, minute, second, microsecond, utcoffset, hvalid⟩ := a
  obtain rfl : utcoffset = 0 := h
  obtain ⟨hy, ⟨hm, -, hd, -⟩, hh, hmi, hs, hus, -⟩ := id hvalid
  have hcast : ∀ {n : ℤ}, 0 ≤ n → (n.toNat : ℤ) = n := Int.toNat_of_nonneg
  simp [hcast (show 0 ≤ year by omega), hcast (show 0 ≤ month by omega), hcast (show 0 ≤ day by omega), hcast hh.1,
    hcast hmi.1, hcast hs.1, hcast hus.1, hvalid]

theorem fromIso_toIso {moment : ℤ} (h : InRange moment) : fromIso (toIso moment) = some (DateTime.utc moment h) := by
  rw [← DateTime.isoformat_utc h]
  exact fromIso_isoformat _ rfl

/-! ## The statements -/

/-- What the statements compare of a row of `worker_leases`; `T` is what a timestamp column holds. -/
structure LeaseColumns (T : Type) where
  owner : String
  fence : ℕ
  expiresAt : T

/-- What the statements compare of an execution: its own row, its retry's `due_at` and its lease. -/
structure Columns (T : Type) where
  executionId : String
  status : ExecutionStatus
  cancellationRequested : Bool
  submittedAt : T
  deadlineAt : Option T
  dueAt : Option T
  lease : Option (LeaseColumns T)

/-- The conditions on timestamps in the store's statements. -/
inductive Condition
  /-- `_LEASE_GUARD`, and the `WHERE` of `renew_lease` and `release_lease`. -/
  | guard (owner : String) (fence : ℕ)
  /-- No lease with `expires_at > :now`: the `UPDATE` of `claim_next`, and `request_cancellation`. -/
  | unleased
  /-- The candidate `SELECT` of `claim_next`. -/
  | eligible
  /-- `expire_deadlines`. -/
  | overdue
  /-- `expired_leases` and `stats`. -/
  | expired

/-- The `ORDER BY` clauses on timestamps. -/
inductive Order
  /-- `submitted_at` in `claim_next`. -/
  | submitted
  /-- `submitted_at DESC, execution_id DESC` in `list_executions`. -/
  | newest
  /-- `submitted_at, execution_id` in `oldest_non_terminal`. -/
  | oldest
  /-- `l.expires_at` in `expired_leases`. -/
  | expiry

variable {T : Type} [LinearOrder T]

def Condition.Holds (now : T) : Condition → Columns T → Prop
  | .guard owner fence, c => ∃ l ∈ c.lease, l.owner = owner ∧ l.fence = fence ∧ now < l.expiresAt
  | .unleased, c => ¬ ∃ l ∈ c.lease, now < l.expiresAt
  | .eligible, c =>
    (c.cancellationRequested = false ∨ c.status = .running) ∧ (∀ d ∈ c.deadlineAt, now < d) ∧
    ((c.status ∈ [ExecutionStatus.pending, .retrying] ∧ ∀ d ∈ c.dueAt, d ≤ now) ∨
      (c.status = .running ∧ ∀ l ∈ c.lease, l.expiresAt ≤ now))
  | .overdue, c => ¬ c.status.IsTerminal ∧ ∃ d ∈ c.deadlineAt, d ≤ now
  | .expired, c => c.status = .running ∧ ∃ l ∈ c.lease, l.expiresAt ≤ now

def Order.Le : Order → Columns T → Columns T → Prop
  | .submitted, c, d => c.submittedAt ≤ d.submittedAt
  | .newest, c, d => d.submittedAt < c.submittedAt ∨ d.submittedAt = c.submittedAt ∧ d.executionId ≤ c.executionId
  | .oldest, c, d => c.submittedAt < d.submittedAt ∨ c.submittedAt = d.submittedAt ∧ c.executionId ≤ d.executionId
  | .expiry, c, d => ∀ l ∈ c.lease, ∀ m ∈ d.lease, l.expiresAt ≤ m.expiresAt

open Classical in
/-- `result` answers a `SELECT` of `rows` under the condition, in the order; ties may stand either way. -/
def Selects (condition : Condition) (order : Order) (now : T) (rows result : List (Columns T)) : Prop :=
  result.Perm (rows.filter fun c => condition.Holds now c) ∧ result.Pairwise order.Le

namespace Columns

variable {S : Type} [LinearOrder S]

/-- The columns with another rendering of timestamps. -/
def map (f : T → S) (c : Columns T) : Columns S where
  executionId := c.executionId
  status := c.status
  cancellationRequested := c.cancellationRequested
  submittedAt := f c.submittedAt
  deadlineAt := c.deadlineAt.map f
  dueAt := c.dueAt.map f
  lease := c.lease.map fun l => ⟨l.owner, l.fence, f l.expiresAt⟩

/-- Every timestamp of the columns has a property. -/
structure All (p : T → Prop) (c : Columns T) : Prop where
  submittedAt : p c.submittedAt
  deadlineAt : ∀ d ∈ c.deadlineAt, p d
  dueAt : ∀ d ∈ c.dueAt, p d
  lease : ∀ l ∈ c.lease, p l.expiresAt

end Columns

section rendering

variable {S : Type} [LinearOrder S] {f : T → S} {p : T → Prop}

/-- A rendering keeps the order of what satisfies `p`. -/
def Renders (f : T → S) (p : T → Prop) : Prop := ∀ x y, p x → p y → (f x < f y ↔ x < y)

theorem Renders.le (h : Renders f p) {x y : T} (hx : p x) (hy : p y) : f x ≤ f y ↔ x ≤ y := by
  rw [← not_lt, h y x hy hx, not_lt]

theorem Renders.eq (h : Renders f p) {x y : T} (hx : p x) (hy : p y) : f x = f y ↔ x = y := by
  rw [le_antisymm_iff, h.le hx hy, h.le hy hx, ← le_antisymm_iff]

/-- Every condition decides on the rendering as on the timestamps. -/
theorem Condition.holds_map (h : Renders f p) (condition : Condition) {now : T} {c : Columns T} (hnow : p now)
    (hc : c.All p) : condition.Holds (f now) (c.map f) ↔ condition.Holds now c := by
  obtain ⟨-, hdeadline, hdue, hlease⟩ := hc
  cases condition with
  | guard owner fence =>
    simp only [Holds, Columns.map, Option.mem_def, Option.map_eq_some_iff, exists_exists_and_eq_and]
    refine exists_congr fun l => and_congr_right fun hl => ?_
    rw [h _ _ hnow (hlease l hl)]
  | unleased =>
    simp only [Holds, Columns.map, Option.mem_def, Option.map_eq_some_iff, exists_exists_and_eq_and]
    refine not_congr (exists_congr fun l => and_congr_right fun hl => ?_)
    rw [h _ _ hnow (hlease l hl)]
  | eligible =>
    simp only [Holds, Columns.map, Option.mem_def, Option.map_eq_some_iff, forall_exists_index, and_imp,
      forall_apply_eq_imp_iff₂]
    refine and_congr_right fun _ => and_congr ?_ (or_congr (and_congr_right fun _ => ?_) (and_congr_right fun _ => ?_))
    · exact forall₂_congr fun d hd => h _ _ hnow (hdeadline d hd)
    · exact forall₂_congr fun d hd => h.le (hdue d hd) hnow
    · exact forall₂_congr fun l hl => h.le (hlease l hl) hnow
  | overdue =>
    simp only [Holds, Columns.map, Option.mem_def, Option.map_eq_some_iff, exists_exists_and_eq_and]
    refine and_congr_right fun _ => exists_congr fun d => and_congr_right fun hd => ?_
    exact h.le (hdeadline d hd) hnow
  | expired =>
    simp only [Holds, Columns.map, Option.mem_def, Option.map_eq_some_iff, exists_exists_and_eq_and]
    refine and_congr_right fun _ => exists_congr fun l => and_congr_right fun hl => ?_
    exact h.le (hlease l hl) hnow

/-- Every order sorts the rendering as the timestamps. -/
theorem Order.le_map (h : Renders f p) (order : Order) {c d : Columns T} (hc : c.All p) (hd : d.All p) :
    order.Le (c.map f) (d.map f) ↔ order.Le c d := by
  cases order with
  | submitted => exact h.le hc.submittedAt hd.submittedAt
  | newest =>
    show _ < _ ∨ _ = _ ∧ _ ↔ _
    rw [Columns.map, Columns.map, h _ _ hd.submittedAt hc.submittedAt, h.eq hd.submittedAt hc.submittedAt]
    rfl
  | oldest =>
    show _ < _ ∨ _ = _ ∧ _ ↔ _
    rw [Columns.map, Columns.map, h _ _ hc.submittedAt hd.submittedAt, h.eq hc.submittedAt hd.submittedAt]
    rfl
  | expiry =>
    simp only [Le, Columns.map, Option.mem_def, Option.map_eq_some_iff, forall_exists_index, and_imp,
      forall_apply_eq_imp_iff₂]
    exact forall₂_congr fun l hl => forall₂_congr fun m hm => h.le (hc.lease l hl) (hd.lease m hm)

/-- A statement answers on the renderings what it answers on the timestamps. -/
theorem selects_map (h : Renders f p) (condition : Condition) (order : Order) {now : T} {rows : List (Columns T)}
    (hnow : p now) (hrows : ∀ c ∈ rows, c.All p) (result : List (Columns S)) :
    Selects condition order (f now) (rows.map (Columns.map f)) result ↔
      ∃ answer, Selects condition order now rows answer ∧ result = answer.map (Columns.map f) := by
  classical
  have hfilter : (rows.map (Columns.map f)).filter (fun c => condition.Holds (f now) c) =
      (rows.filter fun c => condition.Holds now c).map (Columns.map f) := by
    rw [List.filter_map]
    refine congrArg _ (List.filter_congr fun c hc => ?_)
    simp only [Function.comp_apply, condition.holds_map h hnow (hrows c hc)]
  have hsorted : ∀ {answer : List (Columns T)}, answer.Perm (rows.filter fun c => condition.Holds now c) →
      ((answer.map (Columns.map f)).Pairwise order.Le ↔ answer.Pairwise order.Le) := by
    intro answer hperm
    have hmem : ∀ c ∈ answer, c.All p := fun c hc => hrows c (List.mem_filter.mp (hperm.mem_iff.mp hc)).1
    rw [List.pairwise_map]
    constructor
    · intro hle
      exact hle.imp_of_mem fun hc hd => (order.le_map h (hmem _ hc) (hmem _ hd)).mp
    · intro hle
      exact hle.imp_of_mem fun hc hd => (order.le_map h (hmem _ hc) (hmem _ hd)).mpr
  unfold Selects
  rw [hfilter]
  constructor
  · rintro ⟨hperm, hle⟩
    rw [← List.mem_permutations, ← List.map_permutations, List.mem_map] at hperm
    obtain ⟨answer, hanswer, rfl⟩ := hperm
    rw [List.mem_permutations] at hanswer
    exact ⟨answer, ⟨hanswer, (hsorted hanswer).mp hle⟩, rfl⟩
  · rintro ⟨answer, ⟨hperm, hle⟩, rfl⟩
    exact ⟨hperm.map _, (hsorted hperm).mpr hle⟩

end rendering

theorem renders_toIso : Renders toIso InRange := fun _ _ => toIso_lt_toIso

/-! ## The journal's rows -/

/-- What the statements see of an execution of the journal. -/
def Journal.columns (j : Journal) (executionId : String) (row : ExecutionRow) : Columns Instant where
  executionId := executionId
  status := row.status
  cancellationRequested := row.cancellationRequestedAt.isSome
  submittedAt := row.submittedAt
  deadlineAt := row.deadlineAt
  dueAt := (j.retries.get? executionId).map RetryRow.dueAt
  lease := (j.leases.get? executionId).map fun l => ⟨l.owner, l.fence, l.expiresAt⟩

theorem Journal.leaseGuard_columns {V : Type} (j : Journal) (claim : Claim V) (now : Instant) (row : ExecutionRow) :
    (Condition.guard claim.owner claim.fence).Holds now (j.columns claim.executionId row) ↔
      j.LeaseGuard claim now := by
  simp [Condition.Holds, Journal.columns, Journal.LeaseGuard]

theorem Journal.unleased_columns (j : Journal) (executionId : String) (now : Instant) (row : ExecutionRow) :
    Condition.unleased.Holds now (j.columns executionId row) ↔ j.Unleased executionId now := by
  simp [Condition.Holds, Journal.columns, Journal.Unleased]

theorem Journal.eligible_columns (j : Journal) (executionId : String) (now : Instant) (row : ExecutionRow) :
    Condition.eligible.Holds now (j.columns executionId row) ↔ j.Eligible now executionId row := by
  simp [Condition.Holds, Journal.columns, Journal.Eligible, Journal.Unleased]

/-- The texts of timestamps compare as their instants, equal texts are equal instants, a text reads back as its
instant, and every condition and order of the store's statements decides on the texts as on the instants. -/
theorem texts_decide (a b : DateTime) (rows : List (Columns Instant)) (now : Instant) (ha : InRange a.instant)
    (hb : InRange b.instant) (hrows : ∀ c ∈ rows, c.All InRange) (hnow : InRange now) :
    (∃ s t, a.toIso = .ok s ∧ b.toIso = .ok t ∧ (s < t ↔ a.instant < b.instant) ∧ (s = t ↔ a.instant = b.instant) ∧
      ∃ back, fromIso s = some back ∧ back.instant = a.instant) ∧
    (∀ condition : Condition, ∀ c ∈ rows,
      condition.Holds (toIso now) (c.map toIso) ↔ condition.Holds now c) ∧
    (∀ order : Order, ∀ c ∈ rows, ∀ d ∈ rows, order.Le (c.map toIso) (d.map toIso) ↔ order.Le c d) ∧
    ∀ (condition : Condition) (order : Order) (result : List (Columns String)),
      Selects condition order (toIso now) (rows.map (Columns.map toIso)) result ↔
        ∃ answer, Selects condition order now rows answer ∧ result = answer.map (Columns.map toIso) := by
  refine ⟨⟨_, _, DateTime.toIso_eq ha, DateTime.toIso_eq hb, toIso_lt_toIso ha hb, toIso_inj ha hb, _,
    fromIso_toIso ha, DateTime.instant_utc ha⟩, ?_, ?_, ?_⟩
  · intro condition c hc
    exact condition.holds_map renders_toIso hnow (hrows c hc)
  · intro order c hc d hd
    exact order.le_map renders_toIso (hrows c hc) (hrows d hd)
  · intro condition order result
    exact selects_map renders_toIso condition order hnow hrows result

/-- Before midnight of a leap day in Kathmandu is before that afternoon in New York. -/
theorem texts_decide_leapDay :
    ∃ a b : DateTime, a.instant < b.instant ∧ a.hour > b.hour ∧
      ∃ s t, a.toIso = .ok s ∧ b.toIso = .ok t ∧ s < t := by
  let a : DateTime := ⟨2024, 2, 29, 23, 59, 59, 999999, 20700000000, by decide +kernel⟩
  let b : DateTime := ⟨2024, 2, 29, 13, 30, 0, 0, -18000000000, by decide +kernel⟩
  have hlt : a.instant < b.instant := by decide +kernel
  obtain ⟨⟨s, t, hs, ht, hst, -⟩, -⟩ := texts_decide a b [⟨"e1", .pending, false, a.instant, none, none, none⟩] 0
    (by decide +kernel) (by decide +kernel)
    (by
      intro c hc
      obtain rfl := List.mem_singleton.mp hc
      exact ⟨by decide +kernel, nofun, nofun, nofun⟩)
    (by decide)
  exact ⟨a, b, hlt, by decide +kernel, s, t, hs, ht, hst.mpr hlt⟩

end Xyberos.Durable
