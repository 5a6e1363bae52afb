import Mathlib.Algebra.Order.Ring.Int
import Mathlib.Tactic.Common

/-!
# The Gregorian calendar

The proleptic calendar over all years: dates that are valid by construction, the day after
a date, and the number of a day, counted from the first day of year 1.

* `number_next`: the next day has the next number.
* `number_injective`: **a day's number determines its date.**
-/

namespace EtherealDb.Calendar

/-- The leap rule. -/
def isLeap (y : ℤ) : Bool := y % 4 = 0 ∧ (y % 100 ≠ 0 ∨ y % 400 = 0)

/-- The days of a month. -/
def monthLength (y : ℤ) (m : ℕ) : ℕ :=
  if m = 2 then (if isLeap y then 29 else 28)
  else if m = 4 ∨ m = 6 ∨ m = 9 ∨ m = 11 then 30
  else 31

/-- A date of the calendar. -/
@[ext] structure Date where
  year : ℤ
  month : ℕ
  day : ℕ
  month_mem : 1 ≤ month ∧ month ≤ 12
  day_mem : 1 ≤ day ∧ day ≤ monthLength year month

theorem monthLength_mem (y : ℤ) (m : ℕ) : 28 ≤ monthLength y m ∧ monthLength y m ≤ 31 := by
  unfold monthLength
  split_ifs <;> omega

/-- The day after. -/
def Date.next (d : Date) : Date :=
  if hd : d.day < monthLength d.year d.month then
    ⟨d.year, d.month, d.day + 1, d.month_mem, by omega, hd⟩
  else if hm : d.month < 12 then
    ⟨d.year, d.month + 1, 1, by omega, le_rfl, by have := monthLength_mem d.year (d.month + 1); omega⟩
  else ⟨d.year + 1, 1, 1, by omega, le_rfl, by have := monthLength_mem (d.year + 1) 1; omega⟩

/-! ## Day numbers -/

/-- The days of the years before a year, from year 1 on. -/
def yearStart (y : ℤ) : ℤ := 365 * (y - 1) + (y - 1) / 4 - (y - 1) / 100 + (y - 1) / 400

/-- The days of the months before a month. -/
def monthStart (y : ℤ) : ℕ → ℕ
  | 0 => 0
  | 1 => 0
  | m + 2 => monthStart y (m + 1) + monthLength y (m + 1)

/-- The number of a day. -/
def Date.number (d : Date) : ℤ := yearStart d.year + monthStart d.year d.month + d.day - 1

theorem isLeap_iff (y : ℤ) : isLeap y ↔ y % 4 = 0 ∧ (y % 100 ≠ 0 ∨ y % 400 = 0) := by
  simp [isLeap]

theorem yearStart_succ (y : ℤ) : yearStart (y + 1) = yearStart y + if isLeap y then 366 else 365 := by
  have hleap := isLeap_iff y
  have hy : y + 1 - 1 = y := by omega
  unfold yearStart
  rw [hy]
  split_ifs with h
  · have hrule := hleap.1 h
    omega
  · have hrule : ¬(y % 4 = 0 ∧ (y % 100 ≠ 0 ∨ y % 400 = 0)) := fun hc => h (hleap.2 hc)
    omega

/-- The months of a year take its days. -/
theorem monthStart_last (y : ℤ) :
    monthStart y 12 + monthLength y 12 = if isLeap y then 366 else 365 := by
  by_cases h : isLeap y <;> simp [monthStart, monthLength, h]

/-- **The next day has the next number.** -/
theorem number_next (d : Date) : d.next.number = d.number + 1 := by
  have hday := d.day_mem
  have hmonth := d.month_mem
  unfold Date.next Date.number
  split_ifs with hd hm
  · push_cast
    omega
  · -- the first day of the next month
    have hstart : monthStart d.year (d.month + 1) =
        monthStart d.year d.month + monthLength d.year d.month := by
      obtain ⟨m, hm⟩ : ∃ m, d.month = m + 1 := ⟨d.month - 1, by omega⟩
      rw [hm, monthStart]
    dsimp only
    rw [hstart]
    push_cast
    omega
  · -- the first day of the next year
    have hdec : d.month = 12 := by omega
    have hlast := monthStart_last d.year
    have hyear := yearStart_succ d.year
    have hfirst : monthStart (d.year + 1) 1 = 0 := rfl
    rw [hdec] at hd ⊢
    rw [hdec] at hday
    dsimp only
    rw [hyear, hfirst]
    split_ifs at hlast ⊢ <;> push_cast <;> omega

/-! ## Dates by number -/

theorem yearStart_mono {y y' : ℤ} (h : y ≤ y') : yearStart y ≤ yearStart y' := by
  have hcent : ∀ a : ℤ, a / 100 = a / 4 / 25 := by omega
  unfold yearStart
  rw [hcent (y - 1), hcent (y' - 1)]
  omega

theorem monthStart_mono {y : ℤ} {m m' : ℕ} (h : m < m') (hm : 1 ≤ m) :
    monthStart y m + monthLength y m ≤ monthStart y m' := by
  induction m' with
  | zero => omega
  | succ k ih =>
    obtain ⟨j, rfl⟩ : ∃ j, k = j + 1 := ⟨k - 1, by omega⟩
    rw [monthStart]
    rcases Nat.lt_or_ge m (j + 1) with hlt | hge
    · have := ih hlt
      omega
    · obtain rfl : m = j + 1 := by omega
      exact le_rfl

/-- A day's number lies in its year. -/
theorem number_mem_year (d : Date) :
    yearStart d.year ≤ d.number ∧ d.number < yearStart (d.year + 1) := by
  have hday := d.day_mem
  have hmonth := d.month_mem
  have hlast := monthStart_last d.year
  have hbound : monthStart d.year d.month + monthLength d.year d.month ≤
      monthStart d.year 12 + monthLength d.year 12 := by
    rcases Nat.lt_or_ge d.month 12 with hlt | hge
    · have := monthStart_mono (y := d.year) hlt hmonth.1
      omega
    · rw [show d.month = 12 by omega]
  rw [yearStart_succ]
  unfold Date.number
  split_ifs at hlast ⊢ <;> omega

/-- **A day's number determines its date.** -/
theorem number_injective {d e : Date} (h : d.number = e.number) : d = e := by
  have hd := number_mem_year d
  have he := number_mem_year e
  have hyear : d.year = e.year := by
    rcases lt_trichotomy d.year e.year with hlt | heq | hgt
    · have := yearStart_mono (show d.year + 1 ≤ e.year from hlt)
      omega
    · exact heq
    · have := yearStart_mono (show e.year + 1 ≤ d.year from hgt)
      omega
  have hdd := d.day_mem
  have hed := e.day_mem
  unfold Date.number at h
  rw [hyear] at h hdd
  have hmonth : d.month = e.month := by
    rcases lt_trichotomy d.month e.month with hlt | heq | hgt
    · have := monthStart_mono (y := e.year) hlt d.month_mem.1
      omega
    · exact heq
    · have := monthStart_mono (y := e.year) hgt e.month_mem.1
      omega
  rw [hmonth] at h
  exact Date.ext hyear hmonth (by omega)

/-! ## The time of day -/

/-- A time of day, to the second. -/
@[ext] structure Time where
  hour : ℕ
  minute : ℕ
  second : ℕ
  hour_lt : hour < 24
  minute_lt : minute < 60
  second_lt : second < 60

/-- The seconds since midnight. -/
def Time.seconds (t : Time) : ℕ := t.hour * 3600 + t.minute * 60 + t.second

theorem seconds_lt (t : Time) : t.seconds < 86400 := by
  have hh := t.hour_lt
  have hm := t.minute_lt
  have hs := t.second_lt
  unfold Time.seconds
  omega

/-- **Times are as many as the seconds of a day.** -/
theorem seconds_injective {t u : Time} (h : t.seconds = u.seconds) : t = u := by
  have htm := t.minute_lt
  have hts := t.second_lt
  have hum := u.minute_lt
  have hus := u.second_lt
  unfold Time.seconds at h
  have hhour : t.hour = u.hour := by omega
  have hminute : t.minute = u.minute := by omega
  exact Time.ext hhour hminute (by omega)

/-- The time of a number of seconds after midnight. -/
def Time.ofSeconds (s : ℕ) (h : s < 86400) : Time :=
  ⟨s / 3600, s % 3600 / 60, s % 60, by omega, by omega, by omega⟩

theorem seconds_ofSeconds (s : ℕ) (h : s < 86400) : (Time.ofSeconds s h).seconds = s := by
  unfold Time.seconds Time.ofSeconds
  dsimp only
  omega

end EtherealDb.Calendar
