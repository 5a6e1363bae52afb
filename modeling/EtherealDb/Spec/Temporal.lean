import EtherealDb.Spec.Binary
import EtherealDb.Text.Calendar
import EtherealDb.Text.Checked

/-!
# Days and instants without overflow

What `text_to_binary` computes for a date, a time and a timestamp, twice more: over all
integers (`Temporal.value`), and step by step with overflow checks (`Temporal.checked`,
as a build with such checks runs the source, and with a check on the cast to `i32`).
-/

namespace EtherealDb.Pg

open Str Calendar Checked

/-- The types whose texts are days or instants. -/
inductive Temporal where
  | date | time | timestamp
  deriving DecidableEq, Repr

def Temporal.wire : Temporal → WireType
  | .date => .date
  | .time => .time
  | .timestamp => .timestamp

/-- The bytes of a cell. -/
def Temporal.width : Temporal → ℕ
  | .date => 4
  | .time | .timestamp => 8

/-- The extreme that stands for a text that does not parse. -/
def Temporal.maximum : Temporal → ℤ
  | .date => 2 ^ 31 - 1
  | .time | .timestamp => 2 ^ 63 - 1

/-! ## Over all integers -/

/-- The number of a day, from 1970-01-01 on, of any year, month and day: a year counted from
March, the days of its months in groups of five, and the day. -/
def civilDay (y : ℤ) (m d : ℕ) : ℤ :=
  let march := if m ≤ 2 then y - 1 else y
  -- 719468 days lie before 1970-01-01, and a month begins with its day 1
  let mp := if 2 < m then m - 3 else m + 9
  yearStart (march + 1) + ((153 * mp + 2) / 5 : ℕ) + d - 719469

/-- The fields of a date that parses. -/
structure Ymd where
  y : ℤ
  m : ℕ
  d : ℕ

/-- The fields of a time that parses. -/
structure Hms where
  h : ℤ
  m : ℤ
  s : ℤ

/-- The fields that `parse_ymd` reads, by their values. -/
def ymd (text : Str) : Option Ymd :=
  (parseYmd text).map fun (y, m, d) => ⟨y.toInt, m.toNat, d.toNat⟩

/-- The fields that `parse_hms` reads, by their values. -/
def hms (text : Str) : Option Hms :=
  (parseHms text).map fun (h, m, s) => ⟨h.toInt, m.toInt, s.toInt⟩

/-- The fields that `parse_timestamp` reads. -/
def stamp (text : Str) : Option (Ymd × Hms) :=
  match text.dropWhile (· ≠ ' ') with
  | [] => none
  | _ :: time => do return (← ymd (text.takeWhile (· ≠ ' ')), ← hms time)

/-- The number of a date's day. -/
def Ymd.day (f : Ymd) : ℤ := civilDay f.y f.m f.d

/-- The seconds that a time counts. -/
def Hms.seconds (f : Hms) : ℤ := f.h * 3600 + f.m * 60 + f.s

/-- The exact value of a text's fields: days or microseconds in the epoch of Postgres. -/
def Temporal.value (k : Temporal) (text : Str) : Option ℤ :=
  match k with
  | .date => (ymd text).map fun f => f.day - 10957
  | .time => (hms text).map fun f => f.seconds * 1000000
  | .timestamp =>
    (stamp text).map fun f => (f.1.day * 86400 + f.2.seconds - 946684800) * 1000000

/-! ## With overflow checks -/

/-- An `i64`. -/
def i64 (x : ℤ) : Option ℤ := fit (2 ^ 63) x

/-- An `i32`. -/
def i32 (x : ℤ) : Option ℤ := fit (2 ^ 31) x

/-- `days_from_civil`. A division by a positive constant cannot overflow. -/
def checkedDaysFromCivil (y : ℤ) (m d : ℕ) : Option ℤ := do
  let y ← (if m ≤ 2 then i64 (y - 1) else some y)
  let shifted ← (if 0 ≤ y then some y else i64 (y - 399))
  let era := shifted.tdiv 400
  let start ← i64 (era * 400)
  let yoe ← i64 (y - start)
  let month ← (if 2 < (m : ℤ) then i64 (m - 3) else i64 (m + 9))
  let months ← i64 (153 * month)
  let months ← i64 (months + 2)
  let doy ← i64 (months.tdiv 5 + d)
  let doy ← i64 (doy - 1)
  let doe ← i64 (yoe * 365)
  let doe ← i64 (doe + yoe.tdiv 4)
  let doe ← i64 (doe - yoe.tdiv 100)
  let doe ← i64 (doe + doy)
  let days ← i64 (era * 146097)
  let days ← i64 (days + doe)
  i64 (days - 719468)

/-- The `Date` arm of `text_to_binary`, for a text that parses. -/
def checkedDate (f : Ymd) : Option ℤ := do
  let days ← checkedDaysFromCivil f.y f.m f.d
  let days ← i64 (days - 10957)
  i32 days

/-- The `Time` arm. -/
def checkedTime (f : Hms) : Option ℤ := do
  let hours ← i64 (f.h * 3600)
  let minutes ← i64 (f.m * 60)
  let sum ← i64 (hours + minutes)
  let sum ← i64 (sum + f.s)
  i64 (sum * 1000000)

/-- `parse_timestamp`. -/
def checkedTimestamp (f : Ymd × Hms) : Option ℤ := do
  let days ← checkedDaysFromCivil f.1.y f.1.m f.1.d
  let days ← i64 (days * 86400)
  let hours ← i64 (f.2.h * 3600)
  let sum ← i64 (days + hours)
  let minutes ← i64 (f.2.m * 60)
  let sum ← i64 (sum + minutes)
  let sum ← i64 (sum + f.2.s)
  let secs ← i64 (sum - 946684800)
  i64 (secs * 1000000)

/-- The value that `text_to_binary` writes; `none` when an operation overflows or a cast
loses something. -/
def Temporal.checked (k : Temporal) (text : Str) : Option ℤ :=
  match k with
  | .date => ((ymd text).map checkedDate).getD (some k.maximum)
  | .time => ((hms text).map checkedTime).getD (some k.maximum)
  | .timestamp => ((stamp text).map checkedTimestamp).getD (some k.maximum)

/-! ## What encoding is to do -/

/-- Nothing overflows, and the bytes are those of the exact value, or of the maximum for a
text that does not parse. -/
def Temporal.Exact (k : Temporal) (text : Str) : Prop :=
  k.checked text = some ((k.value text).getD k.maximum) ∧
    textToBinary k.wire text = beInt k.width ((k.value text).getD k.maximum)

/-- The texts whose fields are small enough: those that do not parse, and those of which
the day is an `i32`, or the products and the sums that lead to the instant are `i64`s. -/
def Temporal.Small (k : Temporal) (text : Str) : Prop :=
  match k with
  | .date => ∀ f, ymd text = some f → Within (2 ^ 31) (f.day - 10957)
  | .time => ∀ f, hms text = some f → Within (2 ^ 63) (f.h * 3600) ∧ Within (2 ^ 63) (f.m * 60) ∧
      Within (2 ^ 63) (f.h * 3600 + f.m * 60) ∧ Within (2 ^ 63) (f.seconds * 1000000)
  | .timestamp => ∀ f, stamp text = some f → Within (2 ^ 63) (f.1.day * 86400) ∧
      Within (2 ^ 63) (f.2.h * 3600) ∧ Within (2 ^ 63) (f.1.day * 86400 + f.2.h * 3600) ∧
      Within (2 ^ 63) (f.2.m * 60) ∧
      Within (2 ^ 63) (f.1.day * 86400 + f.2.h * 3600 + f.2.m * 60) ∧
      Within (2 ^ 63) ((f.1.day * 86400 + f.2.seconds - 946684800) * 1000000)

end EtherealDb.Pg
