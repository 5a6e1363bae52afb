import EtherealDb.Spec.Generate
import EtherealDb.Spec.Shape

/-!
# Parameter discovery

The `$n` placeholders of a statement and the types a client is told for them
(`paramTypes`). Both functions work on the bytes of the text; `none` is a panic. The
number after a `$` is a `usize` that wraps, as the release profile has it.
-/

namespace EtherealDb

open Str

/-- The operators that `nearby_column` looks past. -/
def isOperator (b : UInt8) : Bool :=
  b = 61 || b = 60 || b = 62 || b = 33 || b = 126 || b = 43 || b = 45 || b = 42 || b = 47

/-- The bytes of a dotted name. -/
def isNameByte (b : UInt8) : Bool := isAsciiAlphanumeric b || b = 95 || b = 46

/-- `while k > 0 && p(b[k - 1]) { k -= 1 }`. -/
def skipBack (p : UInt8 → Bool) (b : Bytes) : ℕ → ℕ
  | 0 => 0
  | k + 1 => if (b[k]?).any p then skipBack p b k else k + 1

/-- `nearby_column`: the name to the left of a placeholder, across one operator. -/
def nearbyColumn (sql : Str) (dollar : ℕ) : Option (Option Str) :=
  let b := Utf8.encode sql
  let k := skipBack isAsciiWhitespace b dollar
  -- one operator, of any length, and at least one
  let hadOp := 0 < k && (b[k - 1]?).any isOperator
  let stop := skipBack isAsciiWhitespace b (skipBack isOperator b k)
  if hadOp then
    let start := skipBack isNameByte b stop
    if start < stop then (slice sql start stop).map fun raw => some (rsplitNext '.' raw)
    else some none
  else some none

/-- The number in a run of digits. -/
def wrapNumber (digits : Bytes) : ℕ :=
  digits.foldl (fun num d => (num * 10 + (d.toNat - 48)) % 2 ^ 64) 0

/-- The loop of `param_types` from offset `i`: the offset and the number of each
placeholder. Every round moves on by a byte at least. -/
def placeholdersFrom (b : Bytes) : ℕ → ℕ → List (ℕ × ℕ)
  | 0, _ => []
  | fuel + 1, i =>
    if b[i]? = some 36 ∧ (b[i + 1]?).any isAsciiDigit then
      let digits := (b.drop (i + 1)).takeWhile isAsciiDigit
      let num := wrapNumber digits
      -- `$0` is passed over
      (if 1 ≤ num then [(i, num)] else []) ++ placeholdersFrom b fuel (i + 1 + digits.length)
    else placeholdersFrom b fuel (i + 1)

/-- The placeholders of a text. -/
def placeholders (sql : Str) : List (ℕ × ℕ) :=
  placeholdersFrom (Utf8.encode sql) (len sql) 0

/-- The type of a placeholder. -/
def placeholderType (sql : Str) (rules : Rules) (dollar : ℕ) : Option WireType :=
  (nearbyColumn sql dollar).map fun name =>
    (name.map fun n => wireType (inferWith n rules)).getD .text

/-- `vec![WireType::Text; max]`, a byte an entry, and the loop that fills it. -/
def fillTypes (memory : Memory) (found : List (ℕ × WireType)) : Option (List WireType) :=
  -- one list entry for each number up to the largest, used or not
  let most := (found.map Prod.fst).foldl max 0
  if memory.vector < most then none
  else some (found.foldl (fun out p => out.set (p.1 - 1) p.2) (List.replicate most .text))

/-- `param_types`. -/
def paramTypes (memory : Memory) (sql : Str) (rules : Rules) : Option (List WireType) := do
  let found ← (placeholders sql).mapM fun p =>
    (placeholderType sql rules p.1).map fun wt => (p.2, wt)
  fillTypes memory found

end EtherealDb
