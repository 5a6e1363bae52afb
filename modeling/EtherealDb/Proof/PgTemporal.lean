import EtherealDb.Proof.Civil
import EtherealDb.Proof.Literals
import EtherealDb.Spec.Temporal

/-!
# Days and instants that overflow

Years, hours and seconds are any `i64`s that a text spells, and a month or a day any `u32`.

* `checkedDaysFromCivil_eq_some`: what `days_from_civil` needs, and what it gives.
* `temporal_exact_iff`: **the encoding of a day or an instant is exact when its fields are
  small enough**, and then only.
-/

namespace EtherealDb.Pg

open Str Calendar Checked

/-! ## Days -/

/-- A date's fields and the parts that `days_from_civil` cuts them into: the year from March
on, the month and the day of such a year, and the day of the era. -/
structure Era (y : ℤ) (m d : ℕ) (march doe : ℤ) (mp : ℕ) : Prop where
  year : march = if m ≤ 2 then y - 1 else y
  month : mp = if 2 < m then m - 3 else m + 9
  day : doe = march % 400 * 365 + march % 400 / 4 - march % 400 / 100 +
    ((153 * (mp : ℤ) + 2) / 5 + d - 1)

theorem exists_era (y : ℤ) (m d : ℕ) : ∃ march doe mp, Era y m d march doe mp :=
  ⟨_, _, _, rfl, rfl, rfl⟩

variable {y march doe : ℤ} {m d mp : ℕ}

/-- A day is a day of its era. -/
theorem day_era (h : Era y m d march doe mp) :
    civilDay y m d = march / 400 * 146097 + doe - 719468 := by
  unfold civilDay
  dsimp only
  rw [← h.year, ← h.month, yearStart_era, h.day]
  push_cast
  omega

/-- **Of a date of the calendar** it is the day. -/
theorem civilDay_date (date : Date) :
    civilDay date.year date.month date.day = date.number - unixDay := by
  obtain ⟨march, doe, mp, h⟩ := exists_era date.year date.month date.day
  rw [day_era h, number_era date h.year h.month rfl, h.day]

/-- The steps of `days_from_civil` that can overflow. -/
def Steps (march doe : ℤ) : Prop :=
  Within (2 ^ 63) (march / 400 * 146097) ∧ Within (2 ^ 63) (march / 400 * 146097 + doe) ∧
    Within (2 ^ 63) (march / 400 * 146097 + doe - 719468)

theorem checkedDaysFromCivil_eq_some (h : Era y m d march doe mp) (hy : Within (2 ^ 63) y)
    (hm : m < 2 ^ 32) (hd : d < 2 ^ 32) {v : ℤ} :
    checkedDaysFromCivil y m d = some v ↔ Steps march doe ∧ civilDay y m d = v := by
  -- the three branches are steps of a chain
  have hmarch : (if m ≤ 2 then i64 (y - 1) else some y) = i64 march := by
    rw [h.year]
    split_ifs
    · rfl
    · exact (fit_of hy).symm
  have hmonth : (if 2 < (m : ℤ) then i64 (m - 3) else i64 (m + 9)) = i64 mp := by
    rw [h.month]
    by_cases hlate : 2 < m
    · rw [if_pos (by omega), if_pos hlate, Nat.cast_sub (by omega)]
      rfl
    · rw [if_neg (by omega), if_neg hlate]
      rfl
  have hshift (hfits : Within (2 ^ 63) march) :
      (if 0 ≤ march then some march else i64 (march - 399)) =
        i64 (if 0 ≤ march then march else march - 399) := by
    split_ifs
    · exact (fit_of hfits).symm
    · rfl
  have hera : (if 0 ≤ march then march else march - 399).tdiv 400 = march / 400 :=
    tdiv_floor (k := 400) (by decide) march
  have hmp := h.month
  have hdoe := h.day
  obtain ⟨s, hs⟩ : ∃ s, s = (153 * (mp : ℤ) + 2) / 5 := ⟨_, rfl⟩
  have hmonths : (153 * (mp : ℤ) + 2).tdiv 5 = s := by
    rw [hs, Int.tdiv_eq_ediv_of_nonneg (by omega)]
  have hyoe : march - march / 400 * 400 = march % 400 := by omega
  have hfour : (march % 400).tdiv 4 = march % 400 / 4 := Int.tdiv_eq_ediv_of_nonneg (by omega)
  have hcent : (march % 400).tdiv 100 = march % 400 / 100 :=
    Int.tdiv_eq_ediv_of_nonneg (by omega)
  have hmp' : mp < 2 ^ 33 := by split_ifs at hmp <;> omega
  -- a month and a day are `u32`s, so the steps up to `doe` fit
  rw [← hs] at hdoe
  rw [day_era h]
  unfold checkedDaysFromCivil
  rw [hmarch, hmonth, Option.bind_eq_bind, i64, bind_fit]
  constructor
  · rintro ⟨hfits, hrest⟩
    rw [hshift hfits] at hrest
    simp only [i64, bind_fit, fit_eq_some, hera, hmonths, hyoe, hfour, hcent, ← hdoe] at hrest
    obtain ⟨-, -, -, -, -, -, -, -, -, -, -, -, hdays, hsum, hlast, hv⟩ := hrest
    exact ⟨⟨hdays, hsum, hlast⟩, hv⟩
  · rintro ⟨⟨hdays, hsum, hlast⟩, hv⟩
    have hfits : Within (2 ^ 63) march := by
      unfold Within at hdays ⊢
      omega
    refine ⟨hfits, ?_⟩
    rw [hshift hfits]
    simp only [i64, bind_fit, fit_eq_some, hera, hmonths, hyoe, hfour, hcent, ← hdoe]
    refine ⟨?_, ?_, ?_, ?_, ?_, ?_, ?_, ?_, ?_, ?_, ?_, ?_, hdays, hsum, hlast, hv⟩ <;>
      unfold Within at * <;> omega

/-- A day that is far from the ends of an `i64` is computed without overflow. -/
theorem steps_era (h : Era y m d march doe mp) (hm : m < 2 ^ 32) (hd : d < 2 ^ 32)
    (hday : Within (2 ^ 62) (civilDay y m d)) : Steps march doe := by
  have hmp := h.month
  have hdoe := h.day
  have hmp' : mp < 2 ^ 33 := by split_ifs at hmp <;> omega
  rw [day_era h] at hday
  unfold Within at hday
  refine ⟨?_, ?_, ?_⟩ <;> unfold Within <;> omega

/-- Without overflow `days_from_civil` gives the day. -/
theorem toInt_era {y : Int64} {m d : UInt32} (h : Era y.toInt m.toNat d.toNat march doe mp)
    (hsteps : Steps march doe) :
    (daysFromCivil y m d).toInt = civilDay y.toInt m.toNat d.toNat := by
  obtain ⟨hera, hsum, hlast⟩ := hsteps
  rw [day_era h]
  exact daysFromCivil_era h.year h.month rfl h.day hera hsum hlast.1

/-! ## Fields -/

/-- The fields that a date can have. -/
structure Ymd.InRange (f : Ymd) : Prop where
  year : Within (2 ^ 63) f.y
  month : f.m < 2 ^ 32
  day : f.d < 2 ^ 32

theorem fits_toInt (x : Int64) : Within (2 ^ 63) x.toInt := ⟨x.le_toInt, x.toInt_lt⟩

theorem ymd_inRange {text : Str} {f : Ymd} (h : ymd text = some f) : f.InRange := by
  obtain ⟨⟨y, m, d⟩, -, rfl⟩ := Option.map_eq_some_iff.1 h
  exact ⟨fits_toInt y, m.toNat_lt, d.toNat_lt⟩

variable {f : Ymd} {v : ℤ}

/-- A chain that starts with a day. -/
theorem bind_days (h : f.InRange) {g : ℤ → Option ℤ}
    (hg : ∀ x, g x = some v → Within (2 ^ 62) x) :
    (checkedDaysFromCivil f.y f.m f.d).bind g = some v ↔ g f.day = some v := by
  obtain ⟨march, doe, mp, hera⟩ := exists_era f.y f.m f.d
  rw [Option.bind_eq_some_iff]
  constructor
  · rintro ⟨x, hx, hgx⟩
    obtain ⟨-, rfl⟩ := (checkedDaysFromCivil_eq_some hera h.year h.month h.day).1 hx
    exact hgx
  · intro hgx
    -- what is left of the chain holds the day far from the ends
    have hsteps := steps_era hera h.month h.day (hg _ hgx)
    exact ⟨_, (checkedDaysFromCivil_eq_some hera h.year h.month h.day).2 ⟨hsteps, rfl⟩, hgx⟩

theorem checkedDate_eq_some (h : f.InRange) :
    checkedDate f = some v ↔ Within (2 ^ 31) (f.day - 10957) ∧ f.day - 10957 = v := by
  unfold checkedDate
  rw [Option.bind_eq_bind, bind_days h]
  · simp only [i64, i32, bind_fit, fit_eq_some]
    constructor
    · exact fun h => h.2
    · refine fun h => ⟨?_, h⟩
      obtain ⟨h, -⟩ := h
      unfold Within at h ⊢
      omega
  · intro x hx
    simp only [i64, i32, bind_fit, fit_eq_some] at hx
    obtain ⟨-, hx, -⟩ := hx
    unfold Within at hx ⊢
    omega

theorem checkedTime_eq_some {f : Hms} : checkedTime f = some v ↔
    (Within (2 ^ 63) (f.h * 3600) ∧ Within (2 ^ 63) (f.m * 60) ∧
      Within (2 ^ 63) (f.h * 3600 + f.m * 60) ∧ Within (2 ^ 63) (f.seconds * 1000000)) ∧
      f.seconds * 1000000 = v := by
  unfold checkedTime Hms.seconds
  simp only [Option.bind_eq_bind, i64, bind_fit, fit_eq_some]
  constructor
  · rintro ⟨hh, hm, hsum, -, hlast, hv⟩
    exact ⟨⟨hh, hm, hsum, hlast⟩, hv⟩
  · rintro ⟨⟨hh, hm, hsum, hlast⟩, hv⟩
    refine ⟨hh, hm, hsum, ?_, hlast, hv⟩
    unfold Within at hlast ⊢
    omega

theorem checkedTimestamp_eq_some {f : Ymd × Hms} (h : f.1.InRange) :
    checkedTimestamp f = some v ↔
      (Within (2 ^ 63) (f.1.day * 86400) ∧
      Within (2 ^ 63) (f.2.h * 3600) ∧ Within (2 ^ 63) (f.1.day * 86400 + f.2.h * 3600) ∧
      Within (2 ^ 63) (f.2.m * 60) ∧
      Within (2 ^ 63) (f.1.day * 86400 + f.2.h * 3600 + f.2.m * 60) ∧
      Within (2 ^ 63) ((f.1.day * 86400 + f.2.seconds - 946684800) * 1000000)) ∧
      (f.1.day * 86400 + f.2.seconds - 946684800) * 1000000 = v := by
  obtain ⟨date, time⟩ := f
  have hsum : date.day * 86400 + time.seconds =
      date.day * 86400 + time.h * 3600 + time.m * 60 + time.s := by
    unfold Hms.seconds
    omega
  unfold checkedTimestamp
  dsimp only at h ⊢
  rw [Option.bind_eq_bind, bind_days h, hsum]
  · simp only [i64, bind_fit, fit_eq_some]
    constructor
    · rintro ⟨hday, hh, hdh, hm, hdhm, -, -, hlast, hv⟩
      exact ⟨⟨hday, hh, hdh, hm, hdhm, hlast⟩, hv⟩
    · rintro ⟨⟨hday, hh, hdh, hm, hdhm, hlast⟩, hv⟩
      refine ⟨hday, hh, hdh, hm, hdhm, ?_, ?_, hlast, hv⟩ <;> unfold Within at hlast ⊢ <;> omega
  · intro x hx
    simp only [i64, bind_fit] at hx
    obtain ⟨hx, -⟩ := hx
    unfold Within at hx ⊢
    omega

/-! ## Bytes -/

/-- A day in machine integers. -/
theorem day_toInt {y : Int64} {m d : UInt32}
    (hfits : Within (2 ^ 62) (civilDay y.toInt m.toNat d.toNat)) :
    (daysFromCivil y m d).toInt = civilDay y.toInt m.toNat d.toNat := by
  obtain ⟨march, doe, mp, hera⟩ := exists_era y.toInt m.toNat d.toNat
  exact toInt_era hera (steps_era hera m.toNat_lt d.toNat_lt hfits)

/-- Microseconds of a day in machine integers: only what is left at the end has to fit. -/
theorem hms_toInt {h m s : Int64} {x : ℤ}
    (hx : (h.toInt * 3600 + m.toInt * 60 + s.toInt) * 1000000 = x)
    (hfits : Within (2 ^ 63) x) : ((h * 3600 + m * 60 + s) * 1000000).toInt = x := by
  have h60 : Int64.toInt 60 = 60 := rfl
  have h3600 : Int64.toInt 3600 = 3600 := rfl
  have hmicro : Int64.toInt 1000000 = 1000000 := rfl
  -- wrapping on the way is wrapping at the end
  simp only [Int64.toInt_add, Int64.toInt_mul, h60, h3600, hmicro, Int.bmod_add_bmod,
    Int.add_bmod_bmod, Int.bmod_mul_bmod, hx]
  exact bmod_self hfits.1 hfits.2

/-- Microseconds of an instant in machine integers. -/
theorem stamp_toInt {a h m s : Int64} {x : ℤ}
    (hx : (a.toInt * 86400 + (h.toInt * 3600 + m.toInt * 60 + s.toInt) - 946684800) * 1000000 = x)
    (hfits : Within (2 ^ 63) x) :
    ((a * 86400 + h * 3600 + m * 60 + s - pgEpochOffsetSecs) * 1000000).toInt = x := by
  have h60 : Int64.toInt 60 = 60 := rfl
  have h3600 : Int64.toInt 3600 = 3600 := rfl
  have hday : Int64.toInt 86400 = 86400 := rfl
  have hmicro : Int64.toInt 1000000 = 1000000 := rfl
  have hoff : pgEpochOffsetSecs.toInt = 946684800 := rfl
  have hsum : (a.toInt * 86400 + h.toInt * 3600 + m.toInt * 60 + s.toInt - 946684800) * 1000000 =
      x := by omega
  simp only [Int64.toInt_add, Int64.toInt_sub, Int64.toInt_mul, h60, h3600, hday, hmicro, hoff,
    Int.bmod_add_bmod, Int.add_bmod_bmod, Int.bmod_mul_bmod, Int.bmod_sub_bmod, hsum]
  exact bmod_self hfits.1 hfits.2

theorem date_bytes {text : Str} {f : Ymd} (h : ymd text = some f)
    (hfits : Within (2 ^ 31) (f.day - 10957)) :
    textToBinary .date text = beInt 4 (f.day - 10957) := by
  obtain ⟨⟨y, m, d⟩, hparse, rfl⟩ := Option.map_eq_some_iff.1 h
  unfold Ymd.day at hfits ⊢
  dsimp only at hfits ⊢
  have hday : (daysFromCivil y m d).toInt = civilDay y.toInt m.toNat d.toNat := by
    refine day_toInt ?_
    unfold Within at hfits ⊢
    omega
  have hoff : pgEpochOffsetDays.toInt = 10957 := rfl
  have hvalue : (daysFromCivil y m d - pgEpochOffsetDays).toInt =
      civilDay y.toInt m.toNat d.toNat - 10957 := by
    unfold Within at hfits
    rw [Int64.toInt_sub, hday, hoff, bmod_self (by omega) (by omega)]
  rw [textToBinary, hparse]
  simp only [Option.map_some, Option.getD_some, hvalue]

theorem time_bytes {text : Str} {f : Hms} (htext : hms text = some f)
    (hfits : Within (2 ^ 63) (f.seconds * 1000000)) :
    textToBinary .time text = beInt 8 (f.seconds * 1000000) := by
  obtain ⟨⟨h, m, s⟩, hparse, rfl⟩ := Option.map_eq_some_iff.1 htext
  have hvalue := hms_toInt (h := h) (m := m) (s := s) rfl hfits
  rw [textToBinary, hparse]
  simp only [Option.map_some, Option.getD_some, hvalue]
  rfl

/-- A timestamp that parses has the fields of its two parts. -/
theorem parseTimestamp_stamp {text : Str} {f : Ymd × Hms} (htext : stamp text = some f) :
    ∃ (y : Int64) (m d : UInt32) (h mi s : Int64),
      f = (⟨y.toInt, m.toNat, d.toNat⟩, ⟨h.toInt, mi.toInt, s.toInt⟩) ∧
      parseTimestamp text = some ((daysFromCivil y m d * 86400 + h * 3600 + mi * 60 + s -
        pgEpochOffsetSecs) * 1000000) := by
  unfold stamp at htext
  split at htext
  · cases htext
  · rename_i time hcut
    obtain ⟨date, hdate, hrest⟩ := Option.bind_eq_some_iff.1 htext
    obtain ⟨clock, hclock, hf⟩ := Option.bind_eq_some_iff.1 hrest
    obtain ⟨⟨y, m, d⟩, hymd, rfl⟩ := Option.map_eq_some_iff.1 hdate
    obtain ⟨⟨h, mi, s⟩, hhms, rfl⟩ := Option.map_eq_some_iff.1 hclock
    refine ⟨y, m, d, h, mi, s, (Option.some.inj hf).symm, ?_⟩
    unfold parseTimestamp
    rw [hcut]
    simp only [hymd, hhms]
    rfl

theorem parseTimestamp_none {text : Str} (htext : stamp text = none) :
    parseTimestamp text = none := by
  unfold stamp at htext
  unfold parseTimestamp
  cases hcut : text.dropWhile (· ≠ ' ') with
  | nil => rfl
  | cons c time =>
    rw [hcut] at htext
    dsimp only at htext
    cases hymd : parseYmd (text.takeWhile (· ≠ ' ')) with
    | none => rfl
    | some p =>
      cases hhms : parseHms time with
      | none => simp [hhms]
      | some q =>
        unfold ymd hms at htext
        rw [hymd, hhms] at htext
        cases htext

theorem stamp_inRange {text : Str} {f : Ymd × Hms} (htext : stamp text = some f) :
    f.1.InRange := by
  obtain ⟨y, m, d, h, mi, s, rfl, -⟩ := parseTimestamp_stamp htext
  exact ⟨fits_toInt y, m.toNat_lt, d.toNat_lt⟩

theorem stamp_bytes {text : Str} {f : Ymd × Hms} (htext : stamp text = some f)
    (hday : Within (2 ^ 63) (f.1.day * 86400))
    (hfits : Within (2 ^ 63) ((f.1.day * 86400 + f.2.seconds - 946684800) * 1000000)) :
    textToBinary .timestamp text =
      beInt 8 ((f.1.day * 86400 + f.2.seconds - 946684800) * 1000000) := by
  obtain ⟨y, m, d, h, mi, s, rfl, hparse⟩ := parseTimestamp_stamp htext
  have hdays : (daysFromCivil y m d).toInt = civilDay y.toInt m.toNat d.toNat := by
    refine day_toInt ?_
    unfold Within Ymd.day at hday
    unfold Within
    dsimp only at hday
    omega
  have hvalue := stamp_toInt (a := daysFromCivil y m d) (h := h) (m := mi) (s := s) rfl
    (by rw [hdays]; exact hfits)
  rw [textToBinary, hparse, Option.map_some, Option.getD_some, hvalue, hdays]
  rfl

/-! ## The exact condition -/

theorem date_exact_iff (text : Str) : Temporal.date.Exact text ↔ Temporal.date.Small text := by
  unfold Temporal.Exact Temporal.Small Temporal.checked Temporal.value
  cases htext : ymd text with
  | none =>
    obtain hparse := Option.map_eq_none_iff.1 htext
    simp [Temporal.wire, Temporal.width, Temporal.maximum, textToBinary, hparse]
  | some f =>
    simp only [Option.map_some, Option.getD_some, checkedDate_eq_some (ymd_inRange htext)]
    constructor
    · rintro ⟨⟨hfits, -⟩, -⟩ g hg
      obtain rfl := Option.some.inj hg
      exact hfits
    · intro h
      exact ⟨⟨h f rfl, trivial⟩, date_bytes htext (h f rfl)⟩

theorem time_exact_iff (text : Str) : Temporal.time.Exact text ↔ Temporal.time.Small text := by
  unfold Temporal.Exact Temporal.Small Temporal.checked Temporal.value
  cases htext : hms text with
  | none =>
    obtain hparse := Option.map_eq_none_iff.1 htext
    simp [Temporal.wire, Temporal.width, Temporal.maximum, textToBinary, hparse]
  | some f =>
    simp only [Option.map_some, Option.getD_some, checkedTime_eq_some]
    constructor
    · rintro ⟨⟨hfits, -⟩, -⟩ g hg
      obtain rfl := Option.some.inj hg
      exact hfits
    · intro h
      exact ⟨⟨h f rfl, trivial⟩, time_bytes htext (h f rfl).2.2.2⟩

theorem stamp_exact_iff (text : Str) :
    Temporal.timestamp.Exact text ↔ Temporal.timestamp.Small text := by
  unfold Temporal.Exact Temporal.Small Temporal.checked Temporal.value
  cases htext : stamp text with
  | none =>
    simp [Temporal.wire, Temporal.width, Temporal.maximum, textToBinary, parseTimestamp_none htext]
  | some f =>
    simp only [Option.map_some, Option.getD_some, checkedTimestamp_eq_some (stamp_inRange htext)]
    constructor
    · rintro ⟨⟨hfits, -⟩, -⟩ g hg
      obtain rfl := Option.some.inj hg
      exact hfits
    · intro h
      obtain ⟨hday, -, -, -, -, hlast⟩ := h f rfl
      exact ⟨⟨h f rfl, trivial⟩, stamp_bytes htext hday hlast⟩

/-- A literal with a cast is a column of its own, and its text is the literal's content. -/
theorem extract_literal (t : SqlType) (s : Str) :
    (extract (selectItems [.expr (.literal s) (some t) none])).map ResultShape.columns =
      some [⟨unnamed, some t.wt, some (s, t.wt), false⟩] := by
  have hends : Ends Solid Solid (renderItems [.expr (.literal s) (some t) none]) :=
    ends_cast (.literal s) (some t)
  rw [extract_selectItems hends]
  rfl

/-- **Encoding is exact for small fields, and for them only.** Of every text of a date, a time
or a timestamp: no operation overflows, no cast loses anything and the bytes are those of the
exact value (of the maximum, if the text does not parse) when the fields that parse are
small. Every text is the literal of a query. -/
theorem temporal_exact_iff (k : Temporal) (text : Str) : (k.Exact text ↔ k.Small text) ∧
    ∀ t : SqlType, (extract (selectItems [.expr (.literal text) (some t) none])).map
      ResultShape.columns = some [⟨unnamed, some t.wt, some (text, t.wt), false⟩] := by
  refine ⟨?_, fun t => extract_literal t text⟩
  cases k with
  | date => exact date_exact_iff text
  | time => exact time_exact_iff text
  | timestamp => exact stamp_exact_iff text

/-- The day of a date in a far year does not fit an `i32`: another day is written. The
microseconds of many hours do not fit an `i64`. -/
theorem temporal_overflows :
    (Temporal.date.value "99999999-01-01" = some 36523519150 ∧
      textToBinary .date "99999999-01-01" = beInt 4 2163780782) ∧
      ¬Temporal.date.Exact "99999999-01-01" ∧ ¬Temporal.time.Exact "9999999999999999:00:00" ∧
      ¬Temporal.timestamp.Exact "999999-01-01 00:00:00" := by
  refine ⟨⟨by decide, by decide⟩, ?_, ?_, ?_⟩ <;> rintro ⟨h, -⟩ <;> revert h <;> decide

end EtherealDb.Pg
