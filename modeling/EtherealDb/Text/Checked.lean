import Mathlib.Algebra.Order.Ring.Int
import Mathlib.Tactic.Common

/-!
# Arithmetic that must not overflow

Machine integers by their values. A step has the value that it has over all integers, and
`fit` keeps it only when the type holds it; `none` is an overflow, where a build with
overflow checks panics.

* `bind_fit`: **a chain of steps has a result when every value on the way fits.**
* `add`, `sub`: the operations of an unsigned type, by the values it holds.
-/

namespace EtherealDb.Checked

/-- The values of a signed type: from `-half` on and below `half`. -/
def Within (half x : ℤ) : Prop := -half ≤ x ∧ x < half

instance (half x : ℤ) : Decidable (Within half x) := inferInstanceAs (Decidable (_ ∧ _))

/-- A value, if the type holds it. -/
def fit (half x : ℤ) : Option ℤ := if Within half x then some x else none

variable {half x y : ℤ}

theorem fit_of (h : Within half x) : fit half x = some x := if_pos h

@[simp] theorem fit_eq_some : fit half x = some y ↔ Within half x ∧ x = y := by
  unfold fit
  split_ifs with h <;> simp [h]

/-- **A step of a chain**: its value fits, and the rest goes on from it. -/
@[simp] theorem bind_fit {α : Type*} {f : ℤ → Option α} {a : α} :
    (fit half x).bind f = some a ↔ Within half x ∧ f x = some a := by
  unfold fit
  split_ifs with h <;> simp [h]

/-! ## Unsigned types -/

/-- Addition in a type of the values below `bound`. -/
def add (bound a b : ℕ) : Option ℕ := if a + b < bound then some (a + b) else none

/-- Subtraction in an unsigned type. -/
def sub (a b : ℕ) : Option ℕ := if b ≤ a then some (a - b) else none

theorem add_of {bound a b : ℕ} (h : a + b < bound) : add bound a b = some (a + b) := if_pos h

theorem sub_of {a b : ℕ} (h : b ≤ a) : sub a b = some (a - b) := if_pos h

end EtherealDb.Checked
