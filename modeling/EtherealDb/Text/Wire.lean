import EtherealDb.Text.Utf8

/-!
# Bytes on a wire

The classes of ASCII bytes, and integers in network order.

* `length_be`: the width of an integer does not depend on its value.
* `ascii_boundary`: an ASCII byte stands at a char boundary of the text it encodes.
-/

namespace EtherealDb

/-- `isize::MAX` on a 64-bit target: the largest allocation, in bytes. -/
def isizeMax : ℕ := 2 ^ 63 - 1

/-- `u8::is_ascii_whitespace`. -/
def isAsciiWhitespace (b : UInt8) : Bool := b = 32 || b = 9 || b = 10 || b = 12 || b = 13

/-- `u8::is_ascii_digit`. -/
def isAsciiDigit (b : UInt8) : Bool := 48 ≤ b && b ≤ 57

/-- `u8::is_ascii_alphanumeric`. -/
def isAsciiAlphanumeric (b : UInt8) : Bool :=
  isAsciiDigit b || (65 ≤ b && b ≤ 90) || (97 ≤ b && b ≤ 122)

/-- The value of a hexadecimal digit. -/
def hexValue (b : UInt8) : Option UInt8 :=
  if isAsciiDigit b then some (b - 48)
  else if 65 ≤ b && b ≤ 70 then some (b - 55)
  else if 97 ≤ b && b ≤ 102 then some (b - 87)
  else none

/-! ## Integers -/

/-- The last `w` bytes of a number, big end first. -/
def be : ℕ → ℕ → Bytes
  | 0, _ => []
  | w + 1, n => be w (n / 256) ++ [UInt8.ofNat n]

/-- The last `w` bytes of an integer in two's complement, big end first. -/
def beInt (w : ℕ) (x : ℤ) : Bytes := be w (x % 256 ^ w).toNat

@[simp] theorem length_be (w n : ℕ) : (be w n).length = w := by
  induction w generalizing n with
  | zero => rfl
  | succ w ih => simp [be, ih]

@[simp] theorem length_beInt (w : ℕ) (x : ℤ) : (beInt w x).length = w := length_be _ _

/-! ## Boundaries -/

namespace Utf8

/-- **An ASCII byte is a whole character**: the text up to it is a prefix. -/
theorem ascii_boundary {s : Str} {l r : Bytes} {b : UInt8} (hb : b.toNat < 128)
    (h : encode s = l ++ b :: r) :
    ∃ p q, s = p ++ q ∧ encode p = l ∧ encode q = b :: r := by
  induction s generalizing l with
  | nil => simp at h
  | cons c s ih =>
    rw [encode_cons] at h
    rcases List.append_eq_append_iff.1 h with ⟨m, hl, hm⟩ | ⟨m, hl, hm⟩
    · -- the byte is past the first character
      obtain ⟨p, q, rfl, hp, hq⟩ := ih hm
      exact ⟨c :: p, q, rfl, by rw [encode_cons, hp, hl], hq⟩
    · cases m with
      | nil =>
        refine ⟨[c], s, rfl, ?_, by simpa using hm.symm⟩
        rw [encode_cons, hl]
        simp
      | cons d m =>
        -- the byte is one of the first character, which is then ASCII
        obtain ⟨rfl, -⟩ := List.cons.inj hm
        by_cases hc : c.toNat < 128
        · rw [encode_ascii hc] at hl
          cases l with
          | nil => exact ⟨[], c :: s, rfl, rfl, h⟩
          | cons e l => simp at hl
        · have := encode_not_ascii (c := c) (by omega) b (by rw [hl]; simp)
          omega

end Utf8

end EtherealDb
