import EtherealDb.Spec.Pg
import EtherealDb.Text.Calendar
import EtherealDb.Text.Reader

/-!
# Values of Postgres types

What a client takes a cell for: the value that a text of a type denotes (`Reads`), and the
value of bytes in the type's binary format (`Decodes`). Days and instants are counted from
the first of January 2000.
-/

namespace EtherealDb.Pg

open Str Calendar

/-- A value. Texts and JSON documents are compared as texts. -/
inductive Value where
  | bool (b : Bool)
  | int (x : ℤ)
  | uuid (bytes : Bytes)
  | date (d : Date)
  | time (t : Time)
  | timestamp (d : Date) (t : Time)
  | text (s : Str)

/-! ## Texts -/

/-- Bytes as pairs of lowercase hexadecimal digits. -/
def hexText (bs : Bytes) : Str :=
  bs.flatMap fun b => [Nat.digitChar (b.toNat / 16), Nat.digitChar (b.toNat % 16)]

/-- The hyphenated form of sixteen bytes. -/
def hyphenated (v : Bytes) : Str :=
  hexText (v.take 4) ++ '-' :: (hexText ((v.drop 4).take 2) ++ '-' ::
    (hexText ((v.drop 6).take 2) ++ '-' :: (hexText ((v.drop 8).take 2) ++ '-' ::
      hexText (v.drop 10))))

/-- `YYYY-MM-DD`. -/
def dateText (d : Date) : Str :=
  padInt 4 d.year ++ '-' :: (padZero 2 (decimal d.month) ++ '-' :: padZero 2 (decimal d.day))

/-- `HH:MM:SS`. -/
def timeText (t : Time) : Str :=
  padZero 2 (decimal t.hour) ++ ':' :: (padZero 2 (decimal t.minute) ++ ':' ::
    padZero 2 (decimal t.second))

/-- The value that a text denotes. Years have four digits. -/
inductive Reads : WireType → Str → Value → Prop where
  | yes : Reads .bool "t" (.bool true)
  | no : Reads .bool "f" (.bool false)
  | int4 {x : ℤ} (h : -2 ^ 31 ≤ x ∧ x < 2 ^ 31) : Reads .int4 (intText x) (.int x)
  | int8 {x : ℤ} (h : -2 ^ 63 ≤ x ∧ x < 2 ^ 63) : Reads .int8 (intText x) (.int x)
  | uuid {v : Bytes} (h : v.length = 16) : Reads .uuid (hyphenated v) (.uuid v)
  | date {d : Date} (h : 0 ≤ d.year ∧ d.year ≤ 9999) : Reads .date (dateText d) (.date d)
  | time (t : Time) : Reads .time (timeText t) (.time t)
  | timestamp {d : Date} (t : Time) (h : 0 ≤ d.year ∧ d.year ≤ 9999) :
    Reads .timestamp (dateText d ++ ' ' :: timeText t) (.timestamp d t)
  | text (s : Str) : Reads .text s (.text s)
  | json (s : Str) : Reads .json s (.text s)

/-- A decimal numeral with a fraction. -/
def IsNumeral (s : Str) : Prop :=
  ∃ (neg : Bool) (whole fraction : Str), whole ≠ [] ∧ fraction ≠ [] ∧ whole.all Char.isDigit ∧
    fraction.all Char.isDigit ∧ s = (if neg then ['-'] else []) ++ whole ++ '.' :: fraction

/-! ## Bytes -/

/-- The day that days are counted from. -/
def millennium : Date := ⟨2000, 1, 1, by decide, by decide⟩

/-- The value of bytes in the binary format of a type. -/
inductive Decodes : WireType → Bytes → Value → Prop where
  | yes : Decodes .bool [1] (.bool true)
  | no : Decodes .bool [0] (.bool false)
  | int4 {bs : Bytes} (h : bs.length = 4) : Decodes .int4 bs (.int (ofBeInt bs))
  | int8 {bs : Bytes} (h : bs.length = 8) : Decodes .int8 bs (.int (ofBeInt bs))
  | uuid {bs : Bytes} (h : bs.length = 16) : Decodes .uuid bs (.uuid bs)
  | date {bs : Bytes} {d : Date} (h : bs.length = 4)
    (hd : ofBeInt bs = d.number - millennium.number) : Decodes .date bs (.date d)
  | time {bs : Bytes} {t : Time} (h : bs.length = 8) (ht : ofBeInt bs = t.seconds * 1000000) :
    Decodes .time bs (.time t)
  | timestamp {bs : Bytes} {d : Date} {t : Time} (h : bs.length = 8)
    (hdt : ofBeInt bs = ((d.number - millennium.number) * 86400 + t.seconds) * 1000000) :
    Decodes .timestamp bs (.timestamp d t)
  | text (s : Str) : Decodes .text (Utf8.encode s) (.text s)
  | json (s : Str) : Decodes .json (Utf8.encode s) (.text s)

/-! ## Fallbacks -/

/-- The texts that `text_to_binary` encodes without its fallbacks: the type's parser takes
them, and a UUID has all of its digits. -/
def Parses (wt : WireType) (text : Str) : Prop :=
  match wt with
  | .bool => text ∈ (["t".toList, "true".toList, "f".toList, "false".toList] : List Str)
  | .int4 => (parseSigned (2 ^ 31) text).isSome
  | .int8 => (parseSigned (2 ^ 63) text).isSome
  | .float8 | .numeric => (parseF64 text).isSome
  | .text | .json => True
  | .uuid => ((Utf8.encode text).filterMap hexValue).length = 32
  | .date => (parseYmd text).isSome
  | .time => (parseHms text).isSome
  | .timestamp => (parseTimestamp text).isSome

end EtherealDb.Pg
