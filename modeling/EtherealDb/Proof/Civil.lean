import EtherealDb.Spec.Generate
import EtherealDb.Text.Calendar

/-!
# Civil dates

The program's date arithmetic computes the Gregorian calendar.

* `civilFromDays_date`: **`civil_from_days` gives the date of every day number.**
* `daysFromCivil_number`: `days_from_civil` gives the number of a date, where its machine
  integers hold it.
-/

namespace EtherealDb

open Calendar

/-- The number of 1970-01-01. -/
def unixDay : ℤ := 719162

theorem unixDay_eq : (⟨1970, 1, 1, by decide, by decide⟩ : Date).number = unixDay := rfl

/-! ## From a day number -/

/-- A division that rounds down, by one that rounds towards zero. -/
theorem tdiv_floor {k : ℤ} (hk : 0 < k) (z : ℤ) :
    (if 0 ≤ z then z else z - (k - 1)).tdiv k = z / k := by
  split_ifs with h
  · exact Int.tdiv_eq_ediv_of_nonneg h
  · have hnonneg := Int.emod_nonneg z hk.ne'
    have hlt := Int.emod_lt_of_pos z hk
    have hsplit := Int.emod_add_mul_ediv z k
    have hneg : z - (k - 1) = -(k - 1 - z % k + k * -(z / k)) := by
      rw [Int.mul_neg]
      omega
    have hpos : 0 ≤ k - 1 - z % k + k * -(z / k) := by omega
    rw [hneg, Int.neg_tdiv, Int.tdiv_eq_ediv_of_nonneg hpos, Int.add_mul_ediv_left _ _ hk.ne',
      Int.ediv_eq_zero_of_lt (by omega) (by omega)]
    omega

/-- The century, the cycle of four years, the year and the day of a day of an era. -/
theorem split_doe {doe : ℕ} (h : doe < 146097) : ∃ c q a s, c ≤ 3 ∧ q ≤ 24 ∧ a ≤ 3 ∧ s ≤ 365 ∧
    (s = 365 → a = 3 ∧ (q < 24 ∨ c = 3)) ∧ doe = 36524 * c + 1461 * q + 365 * a + s := by
  obtain ⟨c, r, hc, hr, hdoe⟩ : ∃ c r, c ≤ 3 ∧ (r < 36524 ∨ r = 36524 ∧ c = 3) ∧
      doe = 36524 * c + r := by
    by_cases hlast : doe = 146096
    · exact ⟨3, 36524, by omega⟩
    · exact ⟨doe / 36524, doe % 36524, by omega⟩
  obtain ⟨q, t, hq, ht, hr'⟩ : ∃ q t, q ≤ 24 ∧ (t < 1460 ∨ t = 1460 ∧ (q < 24 ∨ c = 3)) ∧
      r = 1461 * q + t := ⟨r / 1461, r % 1461, by omega⟩
  by_cases hlast : t = 1460
  · exact ⟨c, q, 3, 365, by omega⟩
  · exact ⟨c, q, t / 365, t % 365, by omega⟩

/-- **The year of an era**, as the source computes it. -/
theorem yoe_eq {doe c q a s : ℕ} (hc : c ≤ 3) (hq : q ≤ 24) (ha : a ≤ 3) (hs : s ≤ 365)
    (hleap : s = 365 → a = 3 ∧ (q < 24 ∨ c = 3))
    (hdoe : doe = 36524 * c + 1461 * q + 365 * a + s) :
    (doe - doe / 1460 + doe / 36524 - doe / 146096) / 365 = 100 * c + 4 * q + a := by
  by_cases hlast : doe = 146096
  · subst hlast
    have hall : c = 3 ∧ q = 24 ∧ a = 3 := by omega
    omega
  · have hera : doe / 146096 = 0 := by omega
    have hcent : doe / 36524 = c := by omega
    have hcycle : doe / 1460 =
        25 * c + q + if 24 * c + q + 365 * a + s < 1460 then 0 else 1 := by
      split_ifs <;> omega
    rw [hera, hcent, hcycle]
    split_ifs <;> omega

/-- The day of a year that begins in March. -/
theorem doy_eq {doe c q a s yoe : ℕ} (hq : q ≤ 24) (ha : a ≤ 3)
    (hdoe : doe = 36524 * c + 1461 * q + 365 * a + s) (hyoe : yoe = 100 * c + 4 * q + a) :
    doe - (365 * yoe + yoe / 4 - yoe / 100) = s := by
  have hcent : yoe / 100 = c := by omega
  have hcycle : yoe / 4 = 25 * c + q := by omega
  omega

/-- The month and the day of a day of such a year, from January on: it is one of the next
calendar year. -/
theorem month_late (y : ℤ) {s mp m d : ℕ} (hlate : 306 ≤ s) (hs : s ≤ 365)
    (hleap : s = 365 → isLeap y) (hmp : mp = (5 * s + 2) / 153)
    (hm : m = if mp < 10 then mp + 3 else mp - 9) (hd : d = s - (153 * mp + 2) / 5 + 1) :
    (1 ≤ m ∧ m ≤ 2) ∧ (1 ≤ d ∧ d ≤ monthLength y m) ∧ monthStart y m + d = s - 305 := by
  have hcases : mp = 10 ∨ mp = 11 := by omega
  rcases hcases with rfl | rfl
  · obtain rfl : m = 1 := hm
    have hlen : monthLength y 1 = 31 := by simp [monthLength]
    have hstart : monthStart y 1 = 0 := rfl
    omega
  · obtain rfl : m = 2 := hm
    have hlen : monthLength y 2 = if isLeap y then 29 else 28 := by simp [monthLength]
    have hstart : monthStart y 2 = 31 := by simp [monthStart, monthLength]
    by_cases h : s = 365
    · rw [if_pos (hleap h)] at hlen
      omega
    · split_ifs at hlen <;> omega

/-- The months from March on. -/
theorem monthStart_march (y : ℤ) {mp : ℕ} (h : mp ≤ 9) :
    monthStart y (mp + 3) = (153 * mp + 2) / 5 + 59 + if isLeap y then 1 else 0 := by
  have hcases : mp = 0 ∨ mp = 1 ∨ mp = 2 ∨ mp = 3 ∨ mp = 4 ∨ mp = 5 ∨ mp = 6 ∨ mp = 7 ∨ mp = 8 ∨
      mp = 9 := by omega
  by_cases hleap : isLeap y <;>
    rcases hcases with rfl | rfl | rfl | rfl | rfl | rfl | rfl | rfl | rfl | rfl <;>
      simp [monthStart, monthLength, hleap]

/-- The month and the day before January: one of the same calendar year. -/
theorem month_early (y : ℤ) {s mp m d : ℕ} (hearly : s < 306) (hmp : mp = (5 * s + 2) / 153)
    (hm : m = if mp < 10 then mp + 3 else mp - 9) (hd : d = s - (153 * mp + 2) / 5 + 1) :
    (3 ≤ m ∧ m ≤ 12) ∧ (1 ≤ d ∧ d ≤ monthLength y m) ∧
      monthStart y m + d = s + 60 + if isLeap y then 1 else 0 := by
  have hlt : mp < 10 := by omega
  rw [if_pos hlt] at hm
  have hlen : monthLength y m = if mp % 5 = 1 ∨ mp % 5 = 3 then 30 else 31 := by
    have hcases : mp = 0 ∨ mp = 1 ∨ mp = 2 ∨ mp = 3 ∨ mp = 4 ∨ mp = 5 ∨ mp = 6 ∨ mp = 7 ∨ mp = 8 ∨
        mp = 9 := by omega
    subst hm
    rcases hcases with rfl | rfl | rfl | rfl | rfl | rfl | rfl | rfl | rfl | rfl <;>
      simp [monthLength]
  have hstart : monthStart y m = (153 * mp + 2) / 5 + 59 + if isLeap y then 1 else 0 := by
    rw [hm]
    exact monthStart_march y (by omega)
  rw [hlen, hstart]
  refine ⟨by omega, ⟨by omega, ?_⟩, by omega⟩
  split_ifs <;> omega

/-- A year that begins in March ends before the calendar year that it gives its last
months. -/
theorem yearStart_march {c q a : ℕ} {era y : ℤ} (hc : c ≤ 3) (hq : q ≤ 24) (ha : a ≤ 3)
    (hy : y = ((100 * c + 4 * q + a : ℕ) : ℤ) + era * 400) :
    yearStart (y + 1) = era * 146097 + (36524 * c + 1461 * q + 365 * a : ℕ) := by
  have h4 : y / 4 = 25 * c + q + 100 * era := by omega
  have h100 : y / 100 = c + 4 * era := by omega
  have h400 : y / 400 = era := by omega
  have hpred : y + 1 - 1 = y := by omega
  rw [yearStart, hpred, h4, h100, h400]
  omega

/-- Its last day is there in leap years. -/
theorem isLeap_march {c q a : ℕ} {era y : ℤ} (hq : q ≤ 24)
    (hy : y = ((100 * c + 4 * q + a : ℕ) : ℤ) + era * 400) (hleap : a = 3 ∧ (q < 24 ∨ c = 3)) :
    isLeap (y + 1) := by
  rw [isLeap_iff]
  omega

/-- The date of a day of such a year. -/
theorem date_of_march {y n : ℤ} {s mp m d : ℕ} (hs : s ≤ 365) (hleap : s = 365 → isLeap (y + 1))
    (hstart : yearStart (y + 1) = n) (hmp : mp = (5 * s + 2) / 153)
    (hm : m = if mp < 10 then mp + 3 else mp - 9) (hd : d = s - (153 * mp + 2) / 5 + 1) :
    ∃ date : Date, (y + (if m ≤ 2 then 1 else 0), m, d) = (date.year, date.month, date.day) ∧
      date.number = n + s - 306 := by
  by_cases hlate : 306 ≤ s
  · obtain ⟨hmonth, hday, hnum⟩ := month_late (y + 1) hlate hs hleap hmp hm hd
    refine ⟨⟨y + 1, m, d, by omega, hday⟩, by rw [if_pos hmonth.2], ?_⟩
    unfold Date.number
    dsimp only
    omega
  · obtain ⟨hmonth, hday, hnum⟩ := month_early y (by omega) hmp hm hd
    have hsame := yearStart_succ y
    refine ⟨⟨y, m, d, by omega, hday⟩, by rw [if_neg (by omega), add_zero], ?_⟩
    unfold Date.number
    dsimp only
    split_ifs at hsame hnum <;> omega

/-- **`civil_from_days` gives the date of every day number.** -/
theorem civilFromDays_date (z : ℤ) : ∃ date : Date,
    civilFromDays z = (date.year, date.month, date.day) ∧ date.number = z + unixDay := by
  have hera : 0 ≤ z + 719468 - (z + 719468) / 146097 * 146097 ∧
      z + 719468 - (z + 719468) / 146097 * 146097 < 146097 := by omega
  obtain ⟨doe, hdoe⟩ := Int.eq_ofNat_of_zero_le hera.1
  obtain ⟨c, q, a, s, hc, hq, ha, hs, hleap, hsplit⟩ := split_doe (show doe < 146097 by omega)
  have hstart : yearStart (((100 * c + 4 * q + a : ℕ) : ℤ) + (z + 719468) / 146097 * 400 + 1) =
      (z + 719468) / 146097 * 146097 + (36524 * c + 1461 * q + 365 * a : ℕ) :=
    yearStart_march hc hq ha rfl
  obtain ⟨date, hdate, hnumber⟩ := date_of_march hs
    (fun h => isLeap_march hq rfl (hleap h)) hstart rfl rfl rfl
  refine ⟨date, ?_, ?_⟩
  · unfold civilFromDays
    have hera (x : ℤ) : (if 0 ≤ x then x else x - 146096).tdiv 146097 = x / 146097 :=
      tdiv_floor (k := 146097) (by decide) x
    simp only [hera, hdoe, Int.toNat_natCast, yoe_eq hc hq ha hs hleap hsplit,
      doy_eq hq ha hsplit rfl]
    exact hdate
  · rw [hnumber]
    unfold unixDay
    omega

/-! ## Machine integers -/

/-- A result that fits does not wrap. -/
theorem bmod_self {x : ℤ} (hlo : -2 ^ 63 ≤ x) (hhi : x < 2 ^ 63) : x.bmod (2 ^ 64) = x :=
  Int.bmod_eq_of_le (by omega) (by omega)

/-- `as i64` of what fits. -/
theorem toInt_u64 {x : UInt64} {n : ℕ} (h : x.toNat = n) (hn : n < 2 ^ 63) :
    x.toInt64.toInt = n := by
  have hval : x.toInt64 = Int64.ofNat n := by
    rw [← UInt64.toInt64_ofNat']
    congr 1
    apply UInt64.toNat_inj.1
    rw [h, UInt64.toNat_ofNat', Nat.mod_eq_of_lt (by omega)]
  rw [hval, Int64.toInt_ofNat_of_lt hn]

/-- `as i64` of a `u32`. -/
theorem toInt_u32 (x : UInt32) : x.toUInt64.toInt64.toInt = x.toNat := by
  have hlt : x.toNat < 2 ^ 32 := x.toNat_lt
  exact toInt_u64 x.toNat_toUInt64 (by omega)

theorem toInt_ite {p q : Prop} [Decidable p] [Decidable q] {a b : Int64} {x y : ℤ} (hpq : p ↔ q)
    (ha : a.toInt = x) (hb : b.toInt = y) : (if p then a else b).toInt = if q then x else y := by
  by_cases h : q
  · rw [if_pos h, if_pos (hpq.2 h), ha]
  · rw [if_neg h, if_neg (fun hp => h (hpq.1 hp)), hb]

/-! ## To a day number -/

/-- The days before a date, counted from the March before it. -/
theorem number_march (date : Date) {y : ℤ} {mp : ℕ}
    (hy : y = if date.month ≤ 2 then date.year - 1 else date.year)
    (hmp : mp = if 2 < date.month then date.month - 3 else date.month + 9) :
    date.number = yearStart (y + 1) + ((153 * mp + 2) / 5 : ℕ) + date.day - 307 := by
  have hmonth := date.month_mem
  have hday := date.day_mem
  unfold Date.number
  by_cases hearly : 2 < date.month
  · rw [if_neg (by omega)] at hy
    rw [if_pos hearly] at hmp
    have hstart := monthStart_march date.year (show mp ≤ 9 by omega)
    rw [show mp + 3 = date.month by omega] at hstart
    have hnext := yearStart_succ date.year
    rw [hy, hnext, hstart]
    split_ifs <;> omega
  · rw [if_pos (by omega)] at hy
    rw [if_neg hearly] at hmp
    have hsame : y + 1 = date.year := by omega
    have hstart : monthStart date.year date.month = (153 * mp + 2) / 5 - 306 := by
      have hcases : date.month = 1 ∨ date.month = 2 := by omega
      rcases hcases with h | h
      · rw [h] at hmp ⊢
        rw [hmp]
        rfl
      · rw [h] at hmp ⊢
        rw [hmp]
        simp [monthStart, monthLength]
    rw [hsame, hstart]
    omega

/-- A division that rounds down, in machine integers. -/
theorem toInt_floor {a b k : Int64} {x c : ℤ} (ha : a.toInt = x) (hb : b.toInt = c - 1)
    (hk : k.toInt = c) (hc : 0 < c) (hlo : -2 ^ 63 ≤ x - (c - 1)) (hhi : x < 2 ^ 63)
    (hq : -2 ^ 63 ≤ x / c ∧ x / c < 2 ^ 63) :
    ((if 0 ≤ a then a else a - b) / k).toInt = x / c := by
  have hsign : 0 ≤ a ↔ 0 ≤ x := by
    rw [Int64.le_iff_toInt_le, ha]
    exact Iff.rfl
  have hround : (if 0 ≤ a then a else a - b).toInt = if 0 ≤ x then x else x - (c - 1) := by
    refine toInt_ite hsign ha ?_
    rw [Int64.toInt_sub, ha, hb, bmod_self hlo (by omega)]
  rw [Int64.toInt_div, hround, hk, tdiv_floor hc]
  exact bmod_self hq.1 hq.2

/-- The day of an era, in machine integers. -/
theorem toInt_doe {yoe doy : Int64} {r s : ℤ} (hr : yoe.toInt = r) (hs : doy.toInt = s)
    (hr' : 0 ≤ r ∧ r < 400) (hs' : -2 ^ 40 ≤ s ∧ s < 2 ^ 40) :
    (yoe * 365 + yoe / 4 - yoe / 100 + doy).toInt = r * 365 + r / 4 - r / 100 + s := by
  have h4 : Int64.toInt 4 = 4 := rfl
  have h100 : Int64.toInt 100 = 100 := rfl
  have h365 : Int64.toInt 365 = 365 := rfl
  have hfour : (yoe / 4).toInt = r / 4 := by
    rw [Int64.toInt_div, hr, h4, Int.tdiv_eq_ediv_of_nonneg hr'.1]
    exact bmod_self (by omega) (by omega)
  have hcent : (yoe / 100).toInt = r / 100 := by
    rw [Int64.toInt_div, hr, h100, Int.tdiv_eq_ediv_of_nonneg hr'.1]
    exact bmod_self (by omega) (by omega)
  simp (disch := omega) only [Int64.toInt_sub, Int64.toInt_add, Int64.toInt_mul, hr, hs, hfour,
    hcent, h365, bmod_self]

/-- The day of an era as a day number, in machine integers. -/
theorem toInt_day {e doe : Int64} {x n : ℤ} (he : e.toInt = x) (hdoe : doe.toInt = n)
    (hera : -2 ^ 63 ≤ x * 146097 ∧ x * 146097 < 2 ^ 63)
    (hsum : -2 ^ 63 ≤ x * 146097 + n ∧ x * 146097 + n < 2 ^ 63)
    (hlo : -2 ^ 63 ≤ x * 146097 + n - 719468) :
    (e * 146097 + doe - 719468).toInt = x * 146097 + n - 719468 := by
  have hdays : Int64.toInt 146097 = 146097 := rfl
  have hshift : Int64.toInt 719468 = 719468 := rfl
  simp (disch := omega) only [Int64.toInt_sub, Int64.toInt_add, Int64.toInt_mul, he, hdoe, hdays,
    hshift, bmod_self]

/-- The month from March on, in machine integers. -/
theorem toInt_march {m : Int64} {month mp : ℕ} (hm : m.toInt = month) (hmonth : month < 2 ^ 32)
    (hmp : mp = if 2 < month then month - 3 else month + 9) :
    (if 2 < m then m - 3 else m + 9).toInt = mp := by
  have h2 : Int64.toInt 2 = 2 := rfl
  have h3 : Int64.toInt 3 = 3 := rfl
  have h9 : Int64.toInt 9 = 9 := rfl
  have hlt : 2 < m ↔ 2 < month := by
    rw [Int64.lt_iff_toInt_lt, hm, h2]
    omega
  have hval : (mp : ℤ) = if 2 < month then (month : ℤ) - 3 else month + 9 := by
    rw [hmp]
    split_ifs <;> omega
  rw [hval]
  refine toInt_ite hlt ?_ ?_
  · rw [Int64.toInt_sub, hm, h3, bmod_self (by omega) (by omega)]
  · rw [Int64.toInt_add, hm, h9, bmod_self (by omega) (by omega)]

/-- The day of a year that begins in March, in machine integers. -/
theorem toInt_doy {f d : Int64} {mp day : ℕ} (hf : f.toInt = mp) (hd : d.toInt = day)
    (hmp : mp < 2 ^ 33) (hday : day < 2 ^ 32) :
    ((153 * f + 2) / 5 + d - 1).toInt = (153 * (mp : ℤ) + 2) / 5 + day - 1 := by
  have h1 : Int64.toInt 1 = 1 := rfl
  have h2 : Int64.toInt 2 = 2 := rfl
  have h5 : Int64.toInt 5 = 5 := rfl
  have h153 : Int64.toInt 153 = 153 := rfl
  simp (disch := omega) only [Int64.toInt_sub, Int64.toInt_add, Int64.toInt_mul, Int64.toInt_div,
    hf, hd, h1, h2, h5, h153, bmod_self, Int.tdiv_eq_ediv_of_nonneg]

/-- A day number on which no operation of the source wraps. -/
def Unwrapped (z : ℤ) : Prop := -2 ^ 63 ≤ z ∧ z + 719468 < 2 ^ 63

/-- The years of such days. -/
theorem year_bounds {date : Date} (h : Unwrapped (date.number - unixDay)) :
    -2 ^ 55 ≤ date.year ∧ date.year < 2 ^ 55 := by
  have hunix : unixDay = 719162 := rfl
  have hnum := number_mem_year date
  obtain ⟨hlo, hhi⟩ := h
  unfold yearStart at hnum
  omega

/-- The years before a year that is counted from March, by its era. -/
theorem yearStart_era (y : ℤ) : yearStart (y + 1) =
    y / 400 * 146097 + (y % 400 * 365 + y % 400 / 4 - y % 400 / 100) := by
  have hpred : y + 1 - 1 = y := by omega
  rw [yearStart, hpred]
  omega

/-- A day as a day of the era that its year, counted from March, is in. -/
theorem number_era (date : Date) {y s : ℤ} {mp : ℕ}
    (hy : y = if date.month ≤ 2 then date.year - 1 else date.year)
    (hmp : mp = if 2 < date.month then date.month - 3 else date.month + 9)
    (hs : s = (153 * (mp : ℤ) + 2) / 5 + date.day - 1) :
    date.number - unixDay =
      y / 400 * 146097 + (y % 400 * 365 + y % 400 / 4 - y % 400 / 100 + s) - 719468 := by
  rw [number_march date hy hmp, yearStart_era, unixDay, hs]
  push_cast
  omega

/-- **`days_from_civil` in integers**: the day of the era that the year, counted from March,
is in, where the machine integers hold it. The month and the day may be any. -/
theorem daysFromCivil_era {y : Int64} {m d : UInt32} {y₁ s n : ℤ} {mp : ℕ}
    (hy₁ : y₁ = if m.toNat ≤ 2 then y.toInt - 1 else y.toInt)
    (hmp : mp = if 2 < m.toNat then m.toNat - 3 else m.toNat + 9)
    (hs : s = (153 * (mp : ℤ) + 2) / 5 + d.toNat - 1)
    (hn : n = y₁ % 400 * 365 + y₁ % 400 / 4 - y₁ % 400 / 100 + s)
    (hera : -2 ^ 63 ≤ y₁ / 400 * 146097 ∧ y₁ / 400 * 146097 < 2 ^ 63)
    (hsum : -2 ^ 63 ≤ y₁ / 400 * 146097 + n ∧ y₁ / 400 * 146097 + n < 2 ^ 63)
    (hlo : -2 ^ 63 ≤ y₁ / 400 * 146097 + n - 719468) :
    (daysFromCivil y m d).toInt = y₁ / 400 * 146097 + n - 719468 := by
  have hmonth : m.toNat < 2 ^ 32 := m.toNat_lt
  have hday : d.toNat < 2 ^ 32 := d.toNat_lt
  have h400 : Int64.toInt 400 = 400 := rfl
  -- the year that begins in March, and its era
  obtain ⟨a, ha⟩ : ∃ a, a = if m ≤ 2 then y - 1 else y := ⟨_, rfl⟩
  have hyear : a.toInt = y₁ := by
    have h1 : Int64.toInt 1 = 1 := rfl
    have hle : m ≤ 2 ↔ m.toNat ≤ 2 := UInt32.le_iff_toNat_le
    rw [ha, hy₁]
    by_cases h : m.toNat ≤ 2
    · rw [if_pos h] at hy₁
      rw [if_pos (hle.2 h), if_pos h, Int64.toInt_sub, h1, bmod_self (by omega) (by omega)]
    · rw [if_neg (fun hm => h (hle.1 hm)), if_neg h]
  obtain ⟨e, he⟩ : ∃ e, e = (if 0 ≤ a then a else a - 399) / 400 := ⟨_, rfl⟩
  have hquot : e.toInt = y₁ / 400 := by
    rw [he]
    exact toInt_floor hyear rfl rfl (by decide) (by omega) (by omega) (by omega)
  have hyoe : (a - e * 400).toInt = y₁ % 400 := by
    have hmul : (e * 400).toInt = y₁ / 400 * 400 := by
      rw [Int64.toInt_mul, hquot, h400, bmod_self (by omega) (by omega)]
    rw [Int64.toInt_sub, hyear, hmul, bmod_self (by omega) (by omega)]
    omega
  -- the month from March on, and the day of that year
  have hmp' : mp < 2 ^ 33 := by split_ifs at hmp <;> omega
  have hdoy := toInt_doy (toInt_march (toInt_u32 m) hmonth hmp) (toInt_u32 d) hmp' hday
  rw [← hs] at hdoy
  have hdoe := toInt_doe hyoe hdoy (by omega) (by omega)
  rw [← hn] at hdoe
  have hvalue := toInt_day hquot hdoe hera hsum hlo
  unfold daysFromCivil
  simp only [← ha, ← he]
  exact hvalue

/-- **`days_from_civil` gives the number of a date**, where no operation wraps. -/
theorem daysFromCivil_number (date : Date) {y : Int64} {m d : UInt32}
    (hy : y.toInt = date.year) (hm : m.toNat = date.month) (hd : d.toNat = date.day)
    (hfits : Unwrapped (date.number - unixDay)) :
    (daysFromCivil y m d).toInt = date.number - unixDay := by
  have hmonth := date.month_mem
  have hday := date.day_mem
  have hlen := monthLength_mem date.year date.month
  obtain ⟨y₁, hy₁⟩ : ∃ x, x = if date.month ≤ 2 then date.year - 1 else date.year := ⟨_, rfl⟩
  obtain ⟨mp, hmp⟩ : ∃ x, x = if 2 < date.month then date.month - 3 else date.month + 9 := ⟨_, rfl⟩
  obtain ⟨s, hs⟩ : ∃ s : ℤ, s = (153 * (mp : ℤ) + 2) / 5 + date.day - 1 := ⟨_, rfl⟩
  have hmp' : mp ≤ 11 := by split_ifs at hmp <;> omega
  have hvalue := number_era date hy₁ hmp hs
  obtain ⟨hlo, hhi⟩ := hfits
  rw [hvalue] at hlo hhi ⊢
  rw [← hy, ← hm] at hy₁
  rw [← hm] at hmp
  rw [← hd] at hs
  exact daysFromCivil_era hy₁ hmp hs rfl (by omega) (by omega) hlo

end EtherealDb
