import EtherealDb.Spec.Config
import EtherealDb.Text.Wire

/-!
# The MySQL frontend

The text protocol: a query is answered with packets (`runQuery`). `none` is a panic;
writes succeed, as for Postgres.
-/

namespace EtherealDb.MySql

open Str

variable {C : Crates}

/-! ## Packets -/

/-- `mysql_type`. -/
def mysqlType : WireType → UInt8
  | .bool => 0x01
  | .int4 => 0x03
  | .int8 => 0x08
  | .float8 => 0x05
  | .numeric => 0xf6
  | .text | .uuid => 0xfd
  | .date => 0x0a
  | .time => 0x0b
  | .timestamp => 0x0c
  | .json => 0xf5

/-- The last `w` bytes of a number, little end first. -/
def le (w n : ℕ) : Bytes := (be w n).reverse

/-- `put_lenenc_int`. -/
def putLenencInt (n : ℕ) : Bytes :=
  if n ≤ 0xfa then le 1 n
  else if n ≤ 0xffff then 0xfc :: le 2 n
  else if n ≤ 0xffffff then 0xfd :: le 3 n
  else 0xfe :: le 8 n

/-- `put_lenenc_str`. -/
def putLenencStr (s : Str) : Bytes := putLenencInt (len s) ++ Utf8.encode s

/-- `SERVER_STATUS_AUTOCOMMIT`. -/
def serverStatusAutocommit : ℕ := 2

/-- The packets the server sends after the handshake. -/
inductive Packet where
  | ok (affected lastInsertId : ℕ)
  | eof
  | err (code : ℕ) (sqlState msg : Str)
  | columnCount (n : ℕ)
  | columnDef (name : Str) (wt : WireType)
  | row (cells : List Str)
  deriving DecidableEq

/-- The types of a column in the binary character set. -/
def isNumber : WireType → Bool
  | .int4 | .int8 | .float8 | .numeric | .bool => true
  | _ => false

/-- The payload of a packet: `ok_packet`, `eof_packet`, `err_packet`, `column_def` and
`text_row`. -/
def Packet.payload : Packet → Bytes
  | .ok affected lastInsertId =>
    0x00 :: putLenencInt affected ++ putLenencInt lastInsertId ++ le 2 serverStatusAutocommit ++
      le 2 0
  | .eof => 0xfe :: le 2 0 ++ le 2 serverStatusAutocommit
  | .err code sqlState msg =>
    0xff :: le 2 code ++ 35 :: Utf8.encode sqlState ++ Utf8.encode msg
  | .columnCount n => putLenencInt n
  | .columnDef name wt =>
    putLenencStr "def" ++ putLenencStr "ethereal" ++ putLenencStr "" ++ putLenencStr "" ++
      putLenencStr name ++ putLenencStr name ++ putLenencInt 0x0c ++
      le 2 (if isNumber wt then 0x3f else 0x21) ++ le 4 (if isNumber wt then 20 else 1024) ++
      [mysqlType wt] ++ le 2 0 ++ [0] ++ le 2 0
  | .row cells => cells.flatMap putLenencStr

/-- `Conn::write_packet`: the frame of a payload under a sequence number. -/
def writePacket (seq : UInt8) (payload : Bytes) : Bytes := le 3 payload.length ++ seq :: payload

/-- `write_packet` for each packet of a response, from the sequence number `seq` on. -/
def writePackets : UInt8 → List Packet → Bytes
  | _, [] => []
  | seq, p :: ps => writePacket seq p.payload ++ writePackets (seq + 1) ps

/-- `MAX_PACKET`. -/
def maxPacket : ℕ := 64 * 1024 * 1024

/-- What `Conn::read_packet` gives: the payload, the sequence number it sets, and the bytes
it leaves in the stream. -/
structure Received where
  payload : Bytes
  seq : UInt8
  rest : Bytes
  deriving DecidableEq

/-- `Conn::read_packet`, with an error as `none`. -/
def readPacket : Bytes → Option Received
  | b0 :: b1 :: b2 :: id :: s =>
    let len := b0.toNat + 256 * b1.toNat + 65536 * b2.toNat
    -- a packet of 2^24 - 1 bytes is not joined with the next one
    if maxPacket < len then none
    else if s.length < len then none
    else some ⟨s.take len, id + 1, s.drop len⟩
  | _ => none

/-! ## Result sets -/

/-- `resolve_cols`. -/
def resolveCols (shape : ResultShape) (cfg : Config) : List Resolved :=
  shape.columns.map fun c => Resolved.fromSpec c cfg.rules

/-- `mysql_value`. -/
def mysqlValue (c : Resolved) (g : Gen) : Draw C Str :=
  match c.literal with
  | some lit => pure lit
  | none => do
    let v ← genValue c.st c.wt g
    return if c.wt = .bool then (if v = ("t" : Str) then "1" else "0") else v

/-- The loop of `text_row`. -/
def rowCells (g : Gen) : List Resolved → Draw C (List Str)
  | [] => pure []
  | c :: cols => do
    let v ← mysqlValue c g
    return v :: (← rowCells g cols)

/-- `text_row`. -/
def textRow (cols : List Resolved) (g : Gen) : Draw C Packet := do return .row (← rowCells g cols)

/-- `send_result_header`. -/
def resultHeader (cols : List Resolved) : List Packet :=
  .columnCount cols.length :: cols.map (fun c => .columnDef c.name c.wt) ++ [.eof]

/-- The packets of a result set. -/
def resultSet (cols : List Resolved) (rows : List (List Str)) : List Packet :=
  resultHeader cols ++ rows.map .row ++ [.eof]

/-- `crush_stream`. -/
def crushStream (cols : List Resolved) (cfg : Config) (sql : Str) (os : C.Rng) : List Packet :=
  let max := cfg.crush.maxRows
  resultHeader cols ++
    (streamLoop (textRow cols cfg.genCtx) max max 0 (seedRng cfg (Utf8.encode sql) os)).1.1 ++ [.eof]

/-- The normal result set of `select_response`. -/
def normalRows (shape : ResultShape) (cfg : Config) : Draw C (List Packet) := do
  let cols := resolveCols shape cfg
  let n ←
    if shape.forceEmpty then pure 0
    else if shape.aggregateOnly ∨ shape.tableHint = none then pure 1
    else Int.toNat <$> (C.randomRangeIncl .usize cfg.rowsMin (max cfg.rowsMax cfg.rowsMin) : Draw C ℤ)
  let n := match shape.limit with
    | some limit => min n limit
    | none => n
  let rows ← Draw.times (textRow cols cfg.genCtx) n
  return resultHeader cols ++ rows ++ [.eof]

/-- `select_response`, given whether a crush slot is free. -/
def selectResponse (cfg : Config) (slot : Bool) (os : C.Rng) (sql : Str) (shape : ResultShape) :
    List Packet :=
  let normal := (normalRows shape cfg (seedRng cfg (Utf8.encode sql) os)).1
  match cfg.crushClass shape with
  | .crush _ =>
    -- there are no notices here: a query that is only warned about gets a normal answer
    if !cfg.crush.warnOnly ∧ slot then
      let cols :=
        if shape.selectStar then wideCrushColumns.map fun n => Resolved.fromName n cfg.rules
        else resolveCols shape cfg
      crushStream cols cfg sql os
    else normal
  | _ => normal

/-- `rand_id`. -/
def randId (cfg : Config) (sql : Str) (os : C.Rng) : ℕ :=
  (C.randomRange .u64 1 1000000 (seedRng cfg (Utf8.encode sql) os)).1.toNat

/-- `run_query`. -/
def runQuery (cfg : Config) (slot : Bool) (os : C.Rng) (sql : Str) : Option (List Packet) := do
  -- the statements after the first get no answer
  let stmt := (← splitStatements sql).head?.getD []
  let shape ← extract stmt
  match shape.kind with
  | .empty => return [.ok 0 0]
  | .select => return selectResponse cfg slot os stmt shape
  | .insert => return [.ok 1 (randId cfg stmt os)]
  | .update | .delete =>
    let rng := seedRng cfg (Utf8.encode stmt) os
    return [.ok (C.randomRange .u64 0 50 rng).1.toNat 0]
  | .command _ => return [.ok 0 0]

/-! ## Commands -/

/-- What the loop of `handle` does with one command. -/
inductive Answer where
  /-- It sends packets and takes the next command. -/
  | reply (ps : List Packet)
  /-- The connection ends: the client quit, or a ghost dropped it. -/
  | closed
  | panicked
  deriving DecidableEq

/-- The error that declines a prepared statement. -/
def prepareError : Packet :=
  .err 1295 "HY000" ("EtherealDB speaks the MySQL text protocol only; ".toList ++
    "disable prepared statements (e.g. interpolateParams=true)".toList)

/-- The body of the loop of `handle`, after a packet is read. -/
def answer (cfg : Config) (o : Outcome C) : Bytes → Answer
  | [] => .reply []
  | cmd :: rest =>
    if cmd = 0x01 then .closed
    else if cmd = 0x0e then .reply [.ok 0 0]
    else if cmd = 0x02 then .reply [.ok 0 0]
    else if cmd = 0x04 then .reply [.eof]
    -- ghosts haunt queries alone
    else if cmd = 0x03 then
      if cfg.ghosts.haunting ∧ o.crashed cfg then .panicked
      else if cfg.ghosts.haunting ∧ o.dropped cfg then .closed
      else if cfg.ghosts.haunting ∧ o.errored cfg then
        .reply [.err 1105 "HY000" "a ghost ate your query"]
      else
        match runQuery cfg (o.slot 0) (o.os 0) (Utf8.fromUtf8Lossy rest) with
        | some ps => .reply ps
        | none => .panicked
    else if cmd = 0x16 then .reply [prepareError]
    else .reply [.ok 0 0]

/-- One turn of the loop of `handle`: what it sends for the next command, and the bytes it
leaves in the stream. `none` is the end of the connection. -/
def turn (cfg : Config) (o : Outcome C) (s : Bytes) : Option (Bytes × Bytes) := do
  let cmd ← readPacket s
  match answer cfg o cmd.payload with
  | .reply ps => return (writePackets cmd.seq ps, cmd.rest)
  | .closed | .panicked => none

end EtherealDb.MySql
