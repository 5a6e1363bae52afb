import EtherealDb.Text.Str
import Mathlib.Algebra.Order.Ring.Rat

/-!
# Numbers as text

How Rust prints and parses integers: `decimal` and `intText` print, `parseUnsigned`
and `parseSigned` are `str::parse` at a given range. Parsing what was printed gives
the number back (`parseUnsigned_decimal`, `parseSigned_decimal`).

`parseF64` is `str::parse::<f64>`, to the bits of the nearest double.
-/

namespace EtherealDb

open Str

/-! ## Printing -/

/-- A natural number in decimal. -/
def decimal (n : ℕ) : Str := Nat.toDigits 10 n

/-- An integer in decimal. -/
def intText (x : ℤ) : Str := if x < 0 then '-' :: decimal x.natAbs else decimal x.natAbs

/-- Text padded with zeros on the left to `w` characters. -/
def padZero (w : ℕ) (s : Str) : Str := List.replicate (w - s.length) '0' ++ s

/-- `{:0w}` of an integer: the sign counts in the width. -/
def padInt (w : ℕ) (x : ℤ) : Str :=
  if x < 0 then '-' :: padZero (w - 1) (decimal x.natAbs) else padZero w (decimal x.natAbs)

/-- `{:.p}` of a finite float: its exact value, rounded half to even. -/
def fixedText (p : ℕ) (q : ℚ) : Str :=
  let num := q.num.natAbs * 10 ^ p
  let lo := num / q.den
  let r := num % q.den
  let n := if 2 * r < q.den ∨ (2 * r = q.den ∧ lo % 2 = 0) then lo else lo + 1
  let body := decimal (n / 10 ^ p) ++ '.' :: padZero p (decimal (n % 10 ^ p))
  if q < 0 then '-' :: body else body

theorem isDigit_of_mem_decimal {n : ℕ} {c : Char} (h : c ∈ decimal n) : c.isDigit :=
  Nat.isDigit_of_mem_toDigits (by decide) (by decide) h

/-- Trimming keeps a decimal. -/
theorem trim_decimal (n : ℕ) : trim (decimal n) = decimal n := by
  refine trim_eq_self ?_
  intro c hc
  have h := (isDigit_iff c).1 (isDigit_of_mem_decimal hc)
  simp only [isWhitespace, Bool.or_eq_false_iff, Bool.and_eq_false_iff, decide_eq_false_iff_not,
    beq_eq_false_iff_ne]
  omega

theorem decimal_ne_nil (n : ℕ) : decimal n ≠ [] := Nat.toDigits_ne_nil

theorem decimal_digits (n : ℕ) : (decimal n).all Char.isDigit := by
  rw [List.all_eq_true]
  exact fun c hc => isDigit_of_mem_decimal hc

/-! ## Parsing -/

/-- A non-empty run of decimal digits. -/
def parseDigits (s : Str) : Option ℕ :=
  if s ≠ [] ∧ s.all Char.isDigit then some (Nat.ofDigitChars 10 s 0) else none

/-- `str::parse` at an unsigned type with values below `bound`. -/
def parseUnsigned (bound : ℕ) (s : Str) : Option ℕ :=
  (match s with
    | '+' :: r => parseDigits r
    | _ => parseDigits s).filter (· < bound)

/-- `str::parse` at a signed type with values in `-half ..< half`. -/
def parseSigned (half : ℕ) (s : Str) : Option ℤ :=
  match s with
  | '-' :: r => ((parseDigits r).filter (· ≤ half)).map fun n => -(n : ℤ)
  | '+' :: r => ((parseDigits r).filter (· < half)).map Nat.cast
  | _ => ((parseDigits s).filter (· < half)).map Nat.cast

theorem parseDigits_decimal (n : ℕ) : parseDigits (decimal n) = some n := by
  rw [parseDigits, if_pos ⟨decimal_ne_nil n, decimal_digits n⟩]
  exact congrArg some Nat.ofDigitChars_ten_toDigits

theorem isDigit_of_mem_padZero {w n : ℕ} {c : Char} (h : c ∈ padZero w (decimal n)) : c.isDigit := by
  rcases List.mem_append.1 h with h | h
  · rw [List.eq_of_mem_replicate h]
    rfl
  · exact isDigit_of_mem_decimal h

theorem padZero_ne_nil (w n : ℕ) : padZero w (decimal n) ≠ [] := by
  intro h
  exact decimal_ne_nil n (List.append_eq_nil_iff.1 h).2

theorem padZero_digits (w n : ℕ) : (padZero w (decimal n)).all Char.isDigit := by
  rw [List.all_eq_true]
  exact fun c hc => isDigit_of_mem_padZero hc

/-- Leading zeros do not change a number. -/
theorem parseDigits_padZero (w n : ℕ) : parseDigits (padZero w (decimal n)) = some n := by
  have hval : Nat.ofDigitChars 10 (padZero w (decimal n)) 0 = n := by
    rw [padZero, Nat.ofDigitChars_append, Nat.ofDigitChars_replicate_zero, Nat.mul_zero]
    exact Nat.ofDigitChars_ten_toDigits
  rw [parseDigits, if_pos ⟨padZero_ne_nil w n, padZero_digits w n⟩, hval]

/-- A number starts with a digit, so no sign is stripped from it. -/
theorem parseDigits_cons {c : Char} {r : Str} {n : ℕ} (h : parseDigits (c :: r) = some n) :
    c.isDigit := by
  unfold parseDigits at h
  split_ifs at h with hd
  exact List.all_eq_true.1 hd.2 c (by simp)

theorem decimal_cons {n : ℕ} {c : Char} {r : Str} (h : decimal n = c :: r) : c.isDigit :=
  isDigit_of_mem_decimal (n := n) (by rw [h]; exact List.mem_cons_self)

/-- A number is read when its type holds it. -/
theorem parseUnsigned_eq {s : Str} {n : ℕ} (hs : parseDigits s = some n) (bound : ℕ) :
    parseUnsigned bound s = if n < bound then some n else none := by
  unfold parseUnsigned
  split
  · exact absurd (parseDigits_cons hs) (by decide)
  · rw [hs]; simp [Option.filter]

theorem parseUnsigned_of_digits {s : Str} {n bound : ℕ} (hs : parseDigits s = some n)
    (h : n < bound) : parseUnsigned bound s = some n := by
  rw [parseUnsigned_eq hs, if_pos h]

theorem parseSigned_eq {s : Str} {n : ℕ} (hs : parseDigits s = some n) (half : ℕ) :
    parseSigned half s = if n < half then some (n : ℤ) else none := by
  unfold parseSigned
  split
  · exact absurd (parseDigits_cons hs) (by decide)
  · exact absurd (parseDigits_cons hs) (by decide)
  · rw [hs]
    by_cases h : n < half <;> simp [Option.filter, h]

theorem parseSigned_neg {s : Str} {n : ℕ} (hs : parseDigits s = some n) (half : ℕ) :
    parseSigned half ('-' :: s) = if n ≤ half then some (-(n : ℤ)) else none := by
  rw [parseSigned.eq_1, hs]
  by_cases h : n ≤ half <;> simp [Option.filter, h]

theorem parseSigned_of_digits {s : Str} {n half : ℕ} (hs : parseDigits s = some n)
    (h : n < half) : parseSigned half s = some (n : ℤ) := by
  rw [parseSigned_eq hs, if_pos h]

theorem parseUnsigned_decimal {n bound : ℕ} (h : n < bound) :
    parseUnsigned bound (decimal n) = some n := parseUnsigned_of_digits (parseDigits_decimal n) h

theorem parseSigned_decimal {n half : ℕ} (h : n < half) :
    parseSigned half (decimal n) = some (n : ℤ) := parseSigned_of_digits (parseDigits_decimal n) h

/-- **An integer is read back** when its type holds it. -/
theorem parseSigned_intText {half : ℕ} {x : ℤ} (hlo : -half ≤ x) (hhi : x < half) :
    parseSigned half (intText x) = some x := by
  unfold intText
  split_ifs with h
  · have hle : x.natAbs ≤ half := by omega
    have hneg : -(x.natAbs : ℤ) = x := by omega
    unfold parseSigned
    simp only [parseDigits_decimal, Option.filter_some, hle, decide_true, if_true]
    exact congrArg some hneg
  · have hnat : ((x.natAbs : ℕ) : ℤ) = x := by omega
    rw [parseSigned_decimal (by omega), hnat]

/-! ## Floats -/

/-- The double nearest to `num / den` (ties to even), as its bits without the sign. -/
def roundF64 (num den : ℕ) : ℕ :=
  if num = 0 then 0
  else
    let e₀ : ℤ := (Nat.log2 num : ℤ) - Nat.log2 den
    let below := if 0 ≤ e₀ then num < den * 2 ^ e₀.toNat else num * 2 ^ (-e₀).toNat < den
    let e : ℤ := max (if below then e₀ - 1 else e₀) (-1022)
    -- the significand counts units of `2 ^ (e - 52)`
    let k := 52 - e
    let a := if 0 ≤ k then num * 2 ^ k.toNat else num
    let b := if 0 ≤ k then den else den * 2 ^ (-k).toNat
    let lo := a / b
    let r := a % b
    let q := if 2 * r < b ∨ (2 * r = b ∧ lo % 2 = 0) then lo else lo + 1
    min ((e + 1022).toNat * 2 ^ 52 + q) 0x7FF0000000000000

/-- The bits of `f64::NAN`. -/
def nanBits : ℕ := 0x7FF8000000000000

/-- The exponent of a decimal float: nothing, or `e` with an optionally signed number. -/
def parseExponent (s : Str) : Option ℤ :=
  match s with
  | [] => some 0
  | c :: r =>
    if c.toLower = 'e' then
      match r with
      | '-' :: ds => (parseDigits ds).map fun n => -(n : ℤ)
      | '+' :: ds => (parseDigits ds).map Nat.cast
      | _ => (parseDigits r).map Nat.cast
    else none

/-- An unsigned float: `inf`, `infinity`, `nan` in any case, or a decimal number. -/
def parseF64Abs (s : Str) : Option ℕ :=
  if lower s = ("inf" : Str) ∨ lower s = ("infinity" : Str) then some 0x7FF0000000000000
  else if lower s = ("nan" : Str) then some nanBits
  else
    let ip := s.takeWhile Char.isDigit
    let r := s.dropWhile Char.isDigit
    let (fp, r) :=
      match r with
      | '.' :: r => (r.takeWhile Char.isDigit, r.dropWhile Char.isDigit)
      | _ => ([], r)
    if ip = [] ∧ fp = [] then none
    else
      (parseExponent r).map fun x : ℤ =>
        let m := Nat.ofDigitChars 10 (ip ++ fp) 0
        let y : ℤ := x - fp.length
        if 0 ≤ y then roundF64 (m * 10 ^ y.toNat) 1 else roundF64 m (10 ^ (-y).toNat)

/-- `str::parse::<f64>`, as the bits of the result. -/
def parseF64 (s : Str) : Option ℕ :=
  match s with
  | '-' :: r => (parseF64Abs r).map (· + 2 ^ 63)
  | '+' :: r => parseF64Abs r
  | _ => parseF64Abs s

end EtherealDb
