import EtherealDb.Spec.MySql
import EtherealDb.Text.Frames
import EtherealDb.Text.Resp2

/-!
# A MySQL client

How a client of the text protocol reads a result set: the column count, that many column
definitions, an EOF, and rows up to the next EOF. It reads bytes only, and knows nothing of
how the server makes them.
-/

namespace EtherealDb.MySql.Client

open Resp2 (many)

/-- A little-endian integer of `w` bytes. -/
def readLe (w : ℕ) (s : Bytes) : Option (ℕ × Bytes) :=
  (takeN w s).map fun p => (ofBe p.1.reverse, p.2)

/-- A length-encoded integer. `0xfb` stands for NULL and `0xff` for an error: neither is a
length. -/
def readLenencInt : Bytes → Option (ℕ × Bytes)
  | [] => none
  | b :: s =>
    if b = 0xfb ∨ b = 0xff then none
    else if b = 0xfc then readLe 2 s
    else if b = 0xfd then readLe 3 s
    else if b = 0xfe then readLe 8 s
    else some (b.toNat, s)

/-- A length-encoded text. -/
def readLenencStr (s : Bytes) : Option (Str × Bytes) := do
  let (n, s) ← readLenencInt s
  let (bytes, s) ← takeN n s
  return (← Utf8.fromUtf8 bytes, s)

/-- An EOF packet. -/
def isEof (p : Bytes) : Bool := p.head? = some 0xfe ∧ p.length < 9

/-- An ERR packet. -/
def isErr (p : Bytes) : Bool := p.head? = some 0xff

/-- An OK packet, which stands where a result set would begin. -/
def isOk (p : Bytes) : Bool := p.head? = some 0x00

/-- The name of a column: the fifth text of its definition. -/
def columnName (p : Bytes) : Option Str := do
  let (_, s) ← many readLenencStr 4 p
  let (name, _) ← readLenencStr s
  return name

/-- The cells of a row, with nothing after them. -/
def row (n : ℕ) (p : Bytes) : Option (List Str) := do
  let (cells, s) ← many readLenencStr n p
  if s = [] then some cells else none

/-- The rows up to an EOF, and the packets after it. -/
def rows (n : ℕ) : List Bytes → Option (List (List Str) × List Bytes)
  | [] => none
  | p :: ps =>
    if isEof p then some ([], ps)
    else if isErr p then none
    else do
      let r ← row n p
      let (rs, ps) ← rows n ps
      return (r :: rs, ps)

/-- The column names and the rows of a result set. -/
structure Table where
  names : List Str
  rows : List (List Str)
  deriving DecidableEq

/-- A result set, and the packets after it. -/
def resultSet : List Bytes → Option (Table × List Bytes)
  | [] => none
  | first :: ps =>
    if isOk first ∨ isErr first then none
    else do
      let (n, s) ← readLenencInt first
      if s ≠ [] then none
      let names ← (ps.take n).mapM columnName
      match ps.drop n with
      | [] => none
      | eof :: ps =>
        if ¬isEof eof then none
        let (rs, ps) ← rows n ps
        return (⟨names, rs⟩, ps)

/-- A response that is one result set, by a client that joins continued packets: the payloads, and
what they say. -/
def answer (s : Bytes) : Option (List Bytes × Table) := do
  let ps ← Frames.joinAll s
  let (table, left) ← resultSet ps
  if left = [] then some (ps, table) else none

/-- A response that is one result set: the sequence ids of its packets, and what it says. -/
def response (s : Bytes) : Option (List UInt8 × Table) := do
  let ps ← Frames.readAll s
  let (table, left) ← resultSet (ps.map Prod.snd)
  if left = [] then some (ps.map Prod.fst, table) else none

end EtherealDb.MySql.Client
