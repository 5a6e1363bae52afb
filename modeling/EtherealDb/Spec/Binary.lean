import EtherealDb.Spec.Generate
import EtherealDb.Text.Wire

/-!
# Postgres types on the wire

The type identifiers a client is told (`oid`), and the binary encoding of a cell whose
text was generated or written in the query (`textToBinary`). A text that does not parse
becomes the type's fallback. Arithmetic is in the machine integers of the source
(release profile: it wraps).
-/

namespace EtherealDb.Pg

open Str

/-- `oid`. -/
def oid : WireType → ℕ
  | .bool => 16
  | .int8 => 20
  | .int4 => 23
  | .text => 25
  | .json => 114
  | .float8 => 701
  | .date => 1082
  | .time => 1083
  | .timestamp => 1114
  | .numeric => 1700
  | .uuid => 2950

/-- `PG_EPOCH_OFFSET_SECS`. -/
def pgEpochOffsetSecs : Int64 := 946684800

/-- `PG_EPOCH_OFFSET_DAYS`. -/
def pgEpochOffsetDays : Int64 := 10957

/-- `str::parse::<i64>`. -/
def parseI64 (s : Str) : Option Int64 := (parseSigned (2 ^ 63) s).map Int64.ofInt

/-- `str::parse::<u32>`. -/
def parseU32 (s : Str) : Option UInt32 := (parseUnsigned (2 ^ 32) s).map UInt32.ofNat

/-- `str::split`. -/
def splitOn (c : Char) (s : Str) : List Str := s.splitOnP (· == c)

/-- `parse_ymd`. -/
def parseYmd (s : Str) : Option (Int64 × UInt32 × UInt32) :=
  -- parts after the third are not looked at, and a leading minus makes an empty first part
  match splitOn '-' s with
  | y :: m :: d :: _ => do return (← parseI64 y, ← parseU32 m, ← parseU32 d)
  | _ => none

/-- `parse_hms`. -/
def parseHms (s : Str) : Option (Int64 × Int64 × Int64) :=
  match splitOn ':' s with
  | h :: m :: sec :: _ => do return (← parseI64 h, ← parseI64 m, ← parseI64 sec)
  | _ => none

/-- `parse_timestamp`. -/
def parseTimestamp (s : Str) : Option Int64 :=
  match s.dropWhile (· ≠ ' ') with
  | [] => none
  | _ :: time => do
    let (y, m, d) ← parseYmd (s.takeWhile (· ≠ ' '))
    let (h, mi, se) ← parseHms time
    let secs := daysFromCivil y m d * 86400 + h * 3600 + mi * 60 + se - pgEpochOffsetSecs
    return secs * 1000000

/-- The bytes that pairs of hexadecimal digits stand for. -/
def hexPairs : List UInt8 → Bytes
  | hi :: lo :: r => (hi * 16 + lo) :: hexPairs r
  | [hi] => [hi * 16]
  | [] => []

/-- `text_to_binary`. -/
def textToBinary (wt : WireType) (text : Str) : Bytes :=
  match wt with
  | .bool =>
    [if text = ("t" : Str) ∨ text = ("true" : Str) then 1
      else if text = ("f" : Str) ∨ text = ("false" : Str) then 0
      else 2]
  | .int4 => beInt 4 ((parseSigned (2 ^ 31) text).getD (-2 ^ 31))
  | .int8 => beInt 8 ((parseSigned (2 ^ 63) text).getD (-2 ^ 63))
  -- a numeric is written as a float: see `binarize`
  | .float8 | .numeric => be 8 ((parseF64 text).getD nanBits)
  | .text | .json => Utf8.encode text
  | .uuid =>
    let out := (hexPairs ((Utf8.encode text).filterMap hexValue)).take 16
    out ++ List.replicate (16 - out.length) 0
  | .date =>
    let days := (parseYmd text).map fun (y, m, d) => daysFromCivil y m d - pgEpochOffsetDays
    -- the cast to `i32` keeps the last four bytes
    beInt 4 ((days.map Int64.toInt).getD (2 ^ 31 - 1))
  | .time =>
    let micros := (parseHms text).map fun (h, m, s) => (h * 3600 + m * 60 + s) * 1000000
    beInt 8 ((micros.map Int64.toInt).getD (2 ^ 63 - 1))
  | .timestamp => beInt 8 (((parseTimestamp text).map Int64.toInt).getD (2 ^ 63 - 1))

/-- The width in bytes that Postgres gives a type, by its identifier; `none` when it
varies. -/
def oidWidth (o : ℕ) : Option ℕ :=
  if o = 16 then some 1
  else if o = 23 ∨ o = 1082 then some 4
  else if o = 20 ∨ o = 701 ∨ o = 1083 ∨ o = 1114 then some 8
  else if o = 2950 then some 16
  else none

/-- **The width law**: a binary cell of a fixed-width type has the type's width, whatever
its text. -/
theorem length_textToBinary {wt : WireType} {n : ℕ} (h : oidWidth (oid wt) = some n) (text : Str) :
    (textToBinary wt text).length = n := by
  cases wt with
  | bool | int4 | int8 | float8 | date | time | timestamp =>
    obtain rfl := Option.some.inj h
    simp [textToBinary]
  | uuid =>
    obtain rfl := Option.some.inj h
    simp only [textToBinary, List.length_append, List.length_replicate, List.length_take]
    omega
  | text | json | numeric => simp [oidWidth, oid] at h

end EtherealDb.Pg
