import EtherealDb.Spec.Pg
import EtherealDb.Text.Reader
import EtherealDb.Text.Resp2

/-!
# A Postgres client

How a client of the protocol reads backend messages: a tag byte, a signed 32-bit length
that counts itself, and the body; counts of columns are signed 16-bit integers, and names
are NUL-terminated. It reads bytes only, and knows nothing of how the server makes them.
-/

namespace EtherealDb.Pg.Client

open Resp2 (many)

/-- One message: its tag and its body. -/
def message : Bytes → Option ((UInt8 × Bytes) × Bytes)
  | [] => none
  | tag :: s => do
    let (len, s) ← readInt 4 s
    if len < 4 then none
    let (body, s) ← takeN (len - 4).toNat s
    return ((tag, body), s)

/-- The messages of a byte string. -/
def messages (s : Bytes) : Option (List (UInt8 × Bytes)) := toEnd message s

/-- A field count. -/
def count (s : Bytes) : Option (ℕ × Bytes) := do
  let (n, s) ← readInt 2 s
  if n < 0 then none else some (n.toNat, s)

/-- A column of a RowDescription: its name, as the bytes of a C string, and its type. -/
structure Column where
  name : Bytes
  oid : ℕ
  deriving DecidableEq

/-- A field of a RowDescription: the name, the table and the attribute it stands for, the
type, its length and modifier, and the format. -/
def field (s : Bytes) : Option (Column × Bytes) := do
  let (name, s) ← takeNul s
  let (_, s) ← readNat 4 s
  let (_, s) ← readInt 2 s
  let (oid, s) ← readNat 4 s
  let (_, s) ← readInt 2 s
  let (_, s) ← readInt 4 s
  let (_, s) ← readInt 2 s
  return (⟨name, oid⟩, s)

/-- The body of a RowDescription, with nothing after the fields. -/
def rowDescription (body : Bytes) : Option (List Column) := do
  let (n, s) ← count body
  let (fields, s) ← many field n s
  if s = [] then some fields else none

/-- The body of a ParameterDescription, with nothing after the types. Its count has no sign. -/
def parameterDescription (body : Bytes) : Option (List ℕ) := do
  let (n, s) ← readNat 2 body
  let (oids, s) ← many (readNat 4) n s
  if s = [] then some oids else none

/-- A cell of a DataRow. The length `-1` stands for NULL. -/
def cell (s : Bytes) : Option (Option Bytes × Bytes) := do
  let (len, s) ← readInt 4 s
  if len = -1 then some (none, s)
  else if len < 0 then none
  else do
    let (bytes, s) ← takeN len.toNat s
    return (some bytes, s)

/-- The body of a DataRow, with nothing after the cells. -/
def dataRow (body : Bytes) : Option (List (Option Bytes)) := do
  let (n, s) ← count body
  let (cells, s) ← many cell n s
  if s = [] then some cells else none

end EtherealDb.Pg.Client
