import EtherealDb.Proof.Civil

/-!
# Dates in machine integers

`civil_from_days` and `days_from_civil` on the day numbers on which they do not wrap.

* `civilFromDays64_eq`: no operation of `civil_from_days` wraps there.
* `proleptic`: **dates are the proleptic Gregorian calendar**, in both directions.
-/

namespace EtherealDb

open Calendar

/-! ## Unsigned arithmetic -/

/-- A difference that is no less than zero does not wrap. -/
theorem toNat_sub {a b : UInt64} {m n : ℕ} (ha : a.toNat = m) (hb : b.toNat = n) (h : n ≤ m) :
    (a - b).toNat = m - n := by
  rw [UInt64.toNat_sub_of_le, ha, hb]
  rw [UInt64.le_iff_toNat_le, ha, hb]
  exact h

/-- `as u64` of what is no less than zero. -/
theorem toNat_toUInt64 {x : Int64} {n : ℕ} (h : x.toInt = n) : x.toUInt64.toNat = n := by
  have hpos : 0 ≤ x := by
    rw [Int64.le_iff_toInt_le, h]
    exact Int.natCast_nonneg n
  rw [Int64.toNat_toUInt64_of_le hpos, ← Int64.toNat_toInt, h, Int.toNat_natCast]

/-- `as u32` of what fits. -/
theorem toNat_toUInt32 {x : UInt64} {n : ℕ} (h : x.toNat = n) (hn : n < 2 ^ 32) :
    x.toUInt32.toNat = n := by
  rw [UInt64.toNat_toUInt32, h, Nat.mod_eq_of_lt hn]

/-! ## One step at a time -/

/-- The year of an era, in machine integers. -/
theorem toNat_yoe {doe : UInt64} {n : ℕ} (hdoe : doe.toNat = n) (hn : n < 146097) :
    ((doe - doe / 1460 + doe / 36524 - doe / 146096) / 365).toNat =
      (n - n / 1460 + n / 36524 - n / 146096) / 365 := by
  have h1460 : UInt64.toNat 1460 = 1460 := rfl
  have h36524 : UInt64.toNat 36524 = 36524 := rfl
  have h146096 : UInt64.toNat 146096 = 146096 := rfl
  have h365 : UInt64.toNat 365 = 365 := rfl
  have hdiff : (doe - doe / 1460).toNat = n - n / 1460 :=
    toNat_sub hdoe (by rw [UInt64.toNat_div, hdoe, h1460]) (by omega)
  have hsum : (doe - doe / 1460 + doe / 36524).toNat = n - n / 1460 + n / 36524 := by
    rw [UInt64.toNat_add, hdiff, UInt64.toNat_div, hdoe, h36524, Nat.mod_eq_of_lt (by omega)]
  have hall : (doe - doe / 1460 + doe / 36524 - doe / 146096).toNat =
      n - n / 1460 + n / 36524 - n / 146096 :=
    toNat_sub hsum (by rw [UInt64.toNat_div, hdoe, h146096]) (by omega)
  rw [UInt64.toNat_div, hall, h365]

/-- The day of its year, in machine integers. -/
theorem toNat_doy {doe yoe : UInt64} {n r : ℕ} (hdoe : doe.toNat = n) (hyoe : yoe.toNat = r)
    (hr : r ≤ 400) (hle : 365 * r + r / 4 - r / 100 ≤ n) :
    (doe - (365 * yoe + yoe / 4 - yoe / 100)).toNat = n - (365 * r + r / 4 - r / 100) := by
  have h4 : UInt64.toNat 4 = 4 := rfl
  have h100 : UInt64.toNat 100 = 100 := rfl
  have h365 : UInt64.toNat 365 = 365 := rfl
  have hsum : (365 * yoe + yoe / 4).toNat = 365 * r + r / 4 := by
    rw [UInt64.toNat_add, UInt64.toNat_mul, UInt64.toNat_div, hyoe, h365, h4,
      Nat.mod_eq_of_lt (a := 365 * r) (by omega), Nat.mod_eq_of_lt (by omega)]
  exact toNat_sub hdoe
    (toNat_sub hsum (by rw [UInt64.toNat_div, hyoe, h100]) (by omega)) hle

/-- The month from March on, in machine integers. -/
theorem toNat_mp {doy : UInt64} {s : ℕ} (hdoy : doy.toNat = s) (hs : s ≤ 400) :
    ((5 * doy + 2) / 153).toNat = (5 * s + 2) / 153 := by
  have h2 : UInt64.toNat 2 = 2 := rfl
  have h5 : UInt64.toNat 5 = 5 := rfl
  have h153 : UInt64.toNat 153 = 153 := rfl
  rw [UInt64.toNat_div, UInt64.toNat_add, UInt64.toNat_mul, hdoy, h2, h5, h153,
    Nat.mod_eq_of_lt (a := 5 * s) (by omega), Nat.mod_eq_of_lt (by omega)]

/-- The day of the month, in machine integers. -/
theorem toNat_day {doy mp : UInt64} {s p : ℕ} (hdoy : doy.toNat = s) (hmp : mp.toNat = p)
    (hp : p = (5 * s + 2) / 153) (hs : s ≤ 400) :
    (doy - (153 * mp + 2) / 5 + 1).toUInt32.toNat = s - (153 * p + 2) / 5 + 1 := by
  have h1 : UInt64.toNat 1 = 1 := rfl
  have h2 : UInt64.toNat 2 = 2 := rfl
  have h5 : UInt64.toNat 5 = 5 := rfl
  have h153 : UInt64.toNat 153 = 153 := rfl
  have hstart : ((153 * mp + 2) / 5).toNat = (153 * p + 2) / 5 := by
    rw [UInt64.toNat_div, UInt64.toNat_add, UInt64.toNat_mul, hmp, h2, h5, h153,
      Nat.mod_eq_of_lt (a := 153 * p) (by omega), Nat.mod_eq_of_lt (by omega)]
  refine toNat_toUInt32 ?_ (by omega)
  rw [UInt64.toNat_add, toNat_sub hdoy hstart (by omega), h1, Nat.mod_eq_of_lt (by omega)]

/-- The month of the calendar year, in machine integers. -/
theorem toNat_month {mp : UInt64} {p : ℕ} (hmp : mp.toNat = p) (hp : p ≤ 20) :
    (if mp < 10 then mp + 3 else mp - 9).toUInt32.toNat = if p < 10 then p + 3 else p - 9 := by
  have h3 : UInt64.toNat 3 = 3 := rfl
  have h9 : UInt64.toNat 9 = 9 := rfl
  have h10 : UInt64.toNat 10 = 10 := rfl
  have hlt : mp < 10 ↔ p < 10 := by rw [UInt64.lt_iff_toNat_lt, hmp, h10]
  by_cases h : p < 10
  · rw [if_pos (hlt.2 h), if_pos h]
    refine toNat_toUInt32 ?_ (by omega)
    rw [UInt64.toNat_add, hmp, h3, Nat.mod_eq_of_lt (by omega)]
  · rw [if_neg (fun hm => h (hlt.1 hm)), if_neg h]
    exact toNat_toUInt32 (toNat_sub hmp h9 (by omega)) (by omega)

/-! ## Dates -/

/-- A year, a month and a day in machine integers. -/
structure Holds (p : Int64 × UInt32 × UInt32) (q : ℤ × ℕ × ℕ) : Prop where
  year : p.1.toInt = q.1
  month : p.2.1.toNat = q.2.1
  day : p.2.2.toNat = q.2.2

theorem Holds.unique {p p' : Int64 × UInt32 × UInt32} {q : ℤ × ℕ × ℕ} (h : Holds p q)
    (h' : Holds p' q) : p = p' :=
  Prod.ext (Int64.toInt_inj.1 (h.year.trans h'.year.symm))
    (Prod.ext (UInt32.toNat_inj.1 (h.month.trans h'.month.symm))
      (UInt32.toNat_inj.1 (h.day.trans h'.day.symm)))

/-- **No operation of `civil_from_days` wraps**: the machine integers hold what the integers
say. -/
theorem civilFromDays64_eq {z : Int64} (h : Unwrapped z.toInt) :
    Holds (civilFromDays64 z) (civilFromDays z.toInt) := by
  obtain ⟨hlo, hhi⟩ := h
  obtain ⟨x, hx⟩ : ∃ x, x = z.toInt + 719468 := ⟨_, rfl⟩
  have hshift : Int64.toInt 719468 = 719468 := rfl
  have h146097 : Int64.toInt 146097 = 146097 := rfl
  have h400 : Int64.toInt 400 = 400 := rfl
  have ha : (z + 719468).toInt = x := by
    rw [Int64.toInt_add, hshift, bmod_self (by omega) (by omega), hx]
  -- the era, and the day of the era
  obtain ⟨e, he⟩ : ∃ e, e = (if 0 ≤ z + 719468 then z + 719468 else z + 719468 - 146096) / 146097 :=
    ⟨_, rfl⟩
  have hera : e.toInt = x / 146097 := by
    rw [he]
    exact toInt_floor ha rfl rfl (by decide) (by omega) (by omega) (by omega)
  obtain ⟨n, hn⟩ := Int.eq_ofNat_of_zero_le (show 0 ≤ x - x / 146097 * 146097 by omega)
  obtain ⟨w, hw⟩ : ∃ w, w = (z + 719468 - e * 146097).toUInt64 := ⟨_, rfl⟩
  have hdoe : w.toNat = n := by
    rw [hw]
    refine toNat_toUInt64 ?_
    rw [Int64.toInt_sub, Int64.toInt_mul, ha, hera, h146097,
      bmod_self (x := x / 146097 * 146097) (by omega) (by omega), hn,
      bmod_self (by omega) (by omega)]
  obtain ⟨c, q, a, s, hc, hq, hacap, hs, hleap, hsplit⟩ := split_doe (show n < 146097 by omega)
  have hyoe' := yoe_eq hc hq hacap hs hleap hsplit
  have hdoy' := doy_eq hq hacap hsplit rfl
  have hstart : 365 * (100 * c + 4 * q + a) + (100 * c + 4 * q + a) / 4 -
      (100 * c + 4 * q + a) / 100 ≤ n := by
    have hcent : (100 * c + 4 * q + a) / 100 = c := by omega
    have hcycle : (100 * c + 4 * q + a) / 4 = 25 * c + q := by omega
    omega
  -- the year of the era, the day of the year, the month from March on and the month
  obtain ⟨yoe, hyoe⟩ : ∃ r, r = (w - w / 1460 + w / 36524 - w / 146096) / 365 := ⟨_, rfl⟩
  have hr : yoe.toNat = 100 * c + 4 * q + a := by
    rw [hyoe, toNat_yoe hdoe (by omega), hyoe']
  obtain ⟨doy, hdoy⟩ : ∃ s, s = w - (365 * yoe + yoe / 4 - yoe / 100) := ⟨_, rfl⟩
  have hs' : doy.toNat = s := by rw [hdoy, toNat_doy hdoe hr (by omega) hstart, hdoy']
  obtain ⟨mp, hmp⟩ : ∃ p, p = (5 * doy + 2) / 153 := ⟨_, rfl⟩
  obtain ⟨p, hp⟩ : ∃ p, p = (5 * s + 2) / 153 := ⟨_, rfl⟩
  have hp' : mp.toNat = p := by rw [hmp, toNat_mp hs' (by omega), hp]
  obtain ⟨m, hm⟩ : ∃ m, m = (if mp < 10 then mp + 3 else mp - 9).toUInt32 := ⟨_, rfl⟩
  obtain ⟨month, hmonth⟩ : ∃ m, m = if p < 10 then p + 3 else p - 9 := ⟨_, rfl⟩
  have hm' : m.toNat = month := by rw [hm, toNat_month hp' (by omega), hmonth]
  have hcivil : civilFromDays z.toInt = (((100 * c + 4 * q + a : ℕ) : ℤ) + x / 146097 * 400 +
      (if month ≤ 2 then 1 else 0), month, s - (153 * p + 2) / 5 + 1) := by
    have hfloor (x : ℤ) : (if 0 ≤ x then x else x - 146096).tdiv 146097 = x / 146097 :=
      tdiv_floor (k := 146097) (by decide) x
    unfold civilFromDays
    simp only [hfloor, ← hx, hn, Int.toNat_natCast, hyoe', hdoy', ← hp, ← hmonth]
  have hcivil64 : civilFromDays64 z = (yoe.toInt64 + e * 400 + (if m ≤ 2 then 1 else 0), m,
      (doy - (153 * mp + 2) / 5 + 1).toUInt32) := by
    unfold civilFromDays64
    simp only [← he, ← hw, ← hyoe, ← hdoy, ← hmp, ← hm]
  -- the last two months are in the next calendar year
  have hyear : (yoe.toInt64 + e * 400).toInt =
      ((100 * c + 4 * q + a : ℕ) : ℤ) + x / 146097 * 400 := by
    rw [Int64.toInt_add, toInt_u64 hr (by omega), Int64.toInt_mul, hera, h400,
      bmod_self (x := x / 146097 * 400) (by omega) (by omega), bmod_self (by omega) (by omega)]
  have hnext : (if m ≤ 2 then (1 : Int64) else 0).toInt = if month ≤ 2 then 1 else 0 :=
    toInt_ite (by rw [UInt32.le_iff_toNat_le, hm']; exact Iff.rfl) rfl rfl
  rw [hcivil, hcivil64]
  refine ⟨?_, hm', toNat_day hs' hp' hp (by omega)⟩
  dsimp only
  rw [Int64.toInt_add, hyear, hnext]
  refine bmod_self ?_ ?_ <;> split_ifs <;> omega

/-- A date of the calendar in machine integers. -/
def IsDate (p : Int64 × UInt32 × UInt32) (date : Date) : Prop :=
  Holds p (date.year, date.month, date.day)

theorem civilFromDays64_date {z : Int64} (h : Unwrapped z.toInt) :
    ∃ date, IsDate (civilFromDays64 z) date ∧ date.number = z.toInt + unixDay := by
  obtain ⟨date, hdate, hnumber⟩ := civilFromDays_date z.toInt
  have heq := civilFromDays64_eq h
  rw [hdate] at heq
  exact ⟨date, heq, hnumber⟩

/-- **Dates are the proleptic Gregorian calendar.** On the day numbers on which they do not
wrap, `civil_from_days` gives valid dates, one after the other from 1970-01-01 on, and
`days_from_civil` is its inverse. -/
theorem proleptic :
    civilFromDays64 0 = (1970, 1, 1) ∧
      (∀ z : Int64, Unwrapped z.toInt → ∃ date, IsDate (civilFromDays64 z) date ∧
        (Unwrapped (z.toInt + 1) → IsDate (civilFromDays64 (z + 1)) date.next) ∧
        daysFromCivil (civilFromDays64 z).1 (civilFromDays64 z).2.1 (civilFromDays64 z).2.2 = z) ∧
      ∀ (date : Date) (y : Int64) (m d : UInt32), IsDate (y, m, d) date →
        Unwrapped (date.number - unixDay) → civilFromDays64 (daysFromCivil y m d) = (y, m, d) := by
  refine ⟨by decide, ?_, ?_⟩
  · intro z hz
    obtain ⟨date, hdate, hnumber⟩ := civilFromDays64_date hz
    have hday : date.number - unixDay = z.toInt := by omega
    refine ⟨date, hdate, ?_, ?_⟩
    · intro hnext
      have hsucc : (z + 1).toInt = z.toInt + 1 := by
        have h1 : Int64.toInt 1 = 1 := rfl
        rw [Int64.toInt_add, h1, bmod_self hnext.1 (by have := hnext.2; omega)]
      obtain ⟨date', hdate', hnumber'⟩ := civilFromDays64_date (z := z + 1) (by rwa [hsucc])
      have heq : date' = date.next := number_injective (by rw [hnumber', number_next]; omega)
      rwa [← heq]
    · rw [← Int64.toInt_inj, ← hday]
      exact daysFromCivil_number date hdate.year hdate.month hdate.day (by rwa [hday])
  · intro date y m d hdate hfits
    have hnumber := daysFromCivil_number date hdate.year hdate.month hdate.day hfits
    obtain ⟨date', hdate', hnumber'⟩ := civilFromDays64_date (z := daysFromCivil y m d)
      (by rwa [hnumber])
    have heq : date' = date := number_injective (by rw [hnumber', hnumber, Int.sub_add_cancel])
    rw [heq] at hdate'
    exact Holds.unique hdate' hdate

end EtherealDb
