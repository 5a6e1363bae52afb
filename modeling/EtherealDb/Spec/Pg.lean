import EtherealDb.Spec.Binary
import EtherealDb.Spec.Config
import EtherealDb.Spec.Params
import EtherealDb.Text.Serve
import Mathlib.Logic.Function.Basic

/-!
# The Postgres frontend

The command phase of a session: a frontend message is answered with backend messages,
and changes the prepared statements and the portals (`step`). Answers are collected in a
buffer, but a crushed query writes its rows straight to the socket (`Out`).

Writes succeed here: a failed one ends the connection, so what a client then sees is a
beginning of what is written here. `none` is a panic, as is an allocation that is refused.
-/

namespace EtherealDb.Pg

open Str

variable {C : Crates}

/-! ## Messages -/

/-- A column of a RowDescription. -/
structure Field where
  name : Str
  oid : ℕ
  format : ℤ
  deriving DecidableEq, Repr

/-- A cell of a DataRow, by the encoder that wrote it. -/
inductive Cell where
  | text (t : Str)
  | binary (b : Bytes)
  deriving DecidableEq, Repr

/-- The bytes of a cell. -/
def Cell.bytes : Cell → Bytes
  | .text t => Utf8.encode t
  | .binary b => b

/-- The format code of a cell. -/
def Cell.format : Cell → ℤ
  | .text _ => 0
  | .binary _ => 1

/-- The messages the server sends. -/
inductive Backend where
  | authenticationOk
  | parameterStatus (k v : Str)
  | backendKeyData (pid key : Int32)
  | notice (msg : Str)
  | error (code msg : Str)
  | readyForQuery
  | emptyQueryResponse
  | parseComplete
  | bindComplete
  | closeComplete
  | parameterDescription (oids : List ℕ)
  | noData
  | rowDescription (fields : List Field)
  | dataRow (cells : List Cell)
  | commandComplete (tag : Str)
  deriving DecidableEq

/-- The tag byte of a message. -/
def Backend.tag : Backend → Char
  | .authenticationOk => 'R'
  | .parameterStatus _ _ => 'S'
  | .backendKeyData _ _ => 'K'
  | .notice _ => 'N'
  | .error _ _ => 'E'
  | .readyForQuery => 'Z'
  | .emptyQueryResponse => 'I'
  | .parseComplete => '1'
  | .bindComplete => '2'
  | .closeComplete => '3'
  | .parameterDescription _ => 't'
  | .noData => 'n'
  | .rowDescription _ => 'T'
  | .dataRow _ => 'D'
  | .commandComplete _ => 'C'

/-- `put_cstr`. -/
def cstr (s : Str) : Bytes := Utf8.encode s ++ [0]

/-- The fields that `put_error` and `put_notice` share. -/
def report (severity code msg : Str) : Bytes :=
  83 :: cstr severity ++ 86 :: cstr severity ++ 67 :: cstr code ++ 77 :: cstr msg ++ [0]

/-- What a field of a RowDescription is made of. -/
def Field.encode (f : Field) : Bytes :=
  cstr f.name ++ beInt 4 0 ++ beInt 2 0 ++ be 4 f.oid ++ beInt 2 (-1) ++ beInt 4 (-1) ++
    beInt 2 f.format

/-- The body of a message, as its writer puts it. -/
def Backend.body : Backend → Bytes
  | .authenticationOk => beInt 4 0
  | .parameterStatus k v => cstr k ++ cstr v
  | .backendKeyData pid key => beInt 4 pid.toInt ++ beInt 4 key.toInt
  | .notice msg => report "NOTICE" "00000" msg
  | .error code msg => report "ERROR" code msg
  -- idle, always: no transaction is ever open
  | .readyForQuery => [73]
  | .emptyQueryResponse | .parseComplete | .bindComplete | .closeComplete | .noData => []
  | .parameterDescription oids => be 2 oids.length ++ oids.flatMap (be 4)
  | .rowDescription fields => be 2 fields.length ++ fields.flatMap Field.encode
  | .dataRow cells =>
    be 2 cells.length ++ cells.flatMap fun c => be 4 c.bytes.length ++ c.bytes
  | .commandComplete tag => cstr tag

/-- A message on the wire. -/
def Backend.encode (m : Backend) : Bytes :=
  Utf8.encode [m.tag] ++ be 4 (m.body.length + 4) ++ m.body

/-- `copy_from_slice` into the buffer at `pos`. -/
def overwrite (buf : Bytes) (pos : ℕ) (bytes : Bytes) : Bytes :=
  buf.take pos ++ bytes ++ buf.drop (pos + bytes.length)

/-- `put_msg`: a placeholder, the body, and then the length over the placeholder. -/
def putMsg (buf : Bytes) (tag : UInt8) (body : Bytes → Bytes) : Bytes :=
  let buf := buf ++ [tag]
  let lenPos := buf.length
  let buf := buf ++ beInt 4 0
  let buf := body buf
  -- the length counts itself, but not the tag
  let len := buf.length - lenPos
  overwrite buf lenPos (be 4 len)

/-- The tag as a byte. -/
def Backend.tagByte (m : Backend) : UInt8 := UInt8.ofNat m.tag.toNat

/-- The writer of a message: `put_msg` with a closure that appends the body. -/
def Backend.write (buf : Bytes) (m : Backend) : Bytes :=
  putMsg buf m.tagByte fun buf => buf ++ m.body

/-! ## Output -/

/-- What has gone to the socket, and the buffer `out` that has not. -/
structure Out where
  sent : List Backend
  buf : List Backend

/-- An empty buffer. -/
def Out.new : Out := ⟨[], []⟩

/-- Put a message into the buffer. -/
def Out.put (out : Out) (m : Backend) : Out := { out with buf := out.buf ++ [m] }

/-- `stream.write_all`: past the buffer. -/
def Out.write (out : Out) (ms : List Backend) : Out := { out with sent := out.sent ++ ms }

/-- `stream.write_all(out)`, when there is anything, and `out.clear()`. -/
def Out.flush (out : Out) : Out := ⟨out.sent ++ out.buf, []⟩

/-! ## Rows -/

/-- `CRUSH_NOTICE`. -/
def crushNotice : Str := "CRUSH MODE: this query asked for everything — here it comes"

/-- `resolve_cols`. -/
def resolveCols (shape : ResultShape) (cfg : Config) : List Resolved :=
  shape.columns.map fun c => Resolved.fromSpec c cfg.rules

/-- `binarize`. -/
def binarize (cols : List Resolved) : List Resolved :=
  cols.map fun c => if c.wt = .numeric then { c with wt := .float8 } else c

/-- `put_row_description`. -/
def putRowDescription (cols : List Resolved) : Backend :=
  .rowDescription (cols.map fun c => ⟨c.name, oid c.wt, 0⟩)

/-- `format_for`. -/
def formatFor (formats : List ℤ) (i : ℕ) : ℤ :=
  match formats with
  | [] => 0
  -- one code is for every column
  | [f] => f
  | _ => formats[i]?.getD 0

/-- The text of a cell: the column's literal, or a generated value. -/
def cellText (c : Resolved) (g : Gen) : Draw C Str :=
  match c.literal with
  | some v => pure v
  | none => genValue c.st c.wt g

/-- The cell of column `i`, in the format that was asked for. -/
def putCell (formats : List ℤ) (i : ℕ) (c : Resolved) (text : Str) : Cell :=
  if formatFor formats i = 1 then .binary (textToBinary c.wt text) else .text text

/-- The loop of `put_data_row_fmt`, from column `i` on. -/
def putCells (formats : List ℤ) (g : Gen) : ℕ → List Resolved → Draw C (List Cell)
  | _, [] => pure []
  | i, c :: cols => do
    let text ← cellText c g
    return putCell formats i c text :: (← putCells formats g (i + 1) cols)

/-- `put_data_row_fmt`. -/
def putDataRowFmt (cols : List Resolved) (formats : List ℤ) (g : Gen) : Draw C Backend := do
  return .dataRow (← putCells formats g 0 cols)

/-- `put_data_row`. -/
def putDataRow (cols : List Resolved) (g : Gen) : Draw C Backend := putDataRowFmt cols [] g

/-- The tag of a `SELECT` that sent `n` rows. -/
def selectTag (n : ℕ) : Str := "SELECT ".toList ++ decimal n

/-- The tag of an `UPDATE` or a `DELETE`. -/
def countTag (verb : Str) : Draw C Str := do
  return verb ++ ' ' :: intText (← C.randomRange .u32 0 50)

/-! ## Crush mode -/

/-- `stream_rows`. A round sends a row at least, so `max` rounds are enough. -/
def streamRows (cols : List Resolved) (formats : List ℤ) (max : ℕ) (g : Gen) :
    Draw C (List Backend) := do
  let rows ← streamLoop (putDataRowFmt cols formats g) max max 0
  return rows.1 ++ [.commandComplete (selectTag rows.2)]

/-- The columns of a crushed simple query. -/
def crushColumns (shape : ResultShape) (cfg : Config) : List Resolved :=
  if shape.selectStar then wideCrushColumns.map fun n => Resolved.fromName n cfg.rules
  else resolveCols shape cfg

/-- `crush_stream`. -/
def crushStream (shape : ResultShape) (cfg : Config) (stmt : Str) (os : C.Rng) : List Backend :=
  let cols := crushColumns shape cfg
  [.notice crushNotice, putRowDescription cols] ++
    (streamRows cols [] cfg.crush.maxRows cfg.genCtx (seedRng cfg (Utf8.encode stmt) os)).1

/-- The notice when no crush slot is free. -/
def capacityNotice : Str := "crush mode at capacity — enjoy a normal answer instead"

/-- The notice of warn-only crush mode. -/
def unsafeNotice (cls : CrushClass) : Str :=
  "unsafe query (".toList ++ cls.reasons ++ "); crush mode is warn-only".toList

/-- The notice of a query that is only loose. -/
def looseNotice (cls : CrushClass) : Str :=
  "loose query (".toList ++ cls.reasons ++
    ") — consider a column list, WHERE, or LIMIT".toList

/-! ## Simple queries -/

/-- The `Select` arm of `normal_response`. -/
def normalRows (shape : ResultShape) (cfg : Config) : Draw C (List Backend) := do
  -- a catalog is empty, and an introspection query or an aggregate has one row
  let n ←
    if shape.forceEmpty then pure 0
    else if shape.aggregateOnly ∨ shape.tableHint = none then pure 1
    else Int.toNat <$> (C.randomRangeIncl .usize cfg.rowsMin (max cfg.rowsMax cfg.rowsMin) : Draw C ℤ)
  let n := match shape.limit with
    | some limit => min n limit
    | none => n
  let cols := resolveCols shape cfg
  let rows ← Draw.times (putDataRow cols cfg.genCtx) n
  return putRowDescription cols :: rows ++ [.commandComplete (selectTag n)]

/-- `normal_response`: the messages it puts. -/
def normalResponse (shape : ResultShape) (cfg : Config) (stmt : Str) (os : C.Rng) :
    List Backend :=
  let rng := seedRng cfg (Utf8.encode stmt) os
  match shape.kind with
  | .empty => [.emptyQueryResponse]
  | .select => (normalRows shape cfg rng).1
  | .insert => [.commandComplete "INSERT 0 1"]
  | .update => [.commandComplete (countTag "UPDATE" rng).1]
  | .delete => [.commandComplete (countTag "DELETE" rng).1]
  | .command tag => [.commandComplete tag]

/-- Put messages into the buffer. -/
def Out.putAll (out : Out) (ms : List Backend) : Out := { out with buf := out.buf ++ ms }

/-- `respond_statement`, given whether a crush slot is free. -/
def respondStatement (cfg : Config) (slot : Bool) (os : C.Rng) (out : Out) (stmt : Str) :
    Option Out := do
  let shape ← extract stmt
  let cls := cfg.crushClass shape
  let normal := normalResponse shape cfg stmt os
  match cls with
  | .crush _ =>
    if !cfg.crush.warnOnly then
      -- the answers to the statements before it go first
      if slot then return out.flush.write (crushStream shape cfg stmt os)
      else return (out.put (.notice capacityNotice)).putAll normal
    else return (out.put (.notice (unsafeNotice cls))).putAll normal
  | .warn _ => return (out.put (.notice (looseNotice cls))).putAll normal
  | .safe => return out.putAll normal

/-- The loop of the `Q` arm over the statements, the first of which is the `i`-th. -/
def respondAll (cfg : Config) (o : Outcome C) : ℕ → List Str → Out → Option Out
  | _, [], out => some out
  | i, stmt :: stmts, out => do
    let out ← respondStatement cfg (o.slot i) (o.os i) out stmt
    respondAll cfg o (i + 1) stmts out

/-- The `Q` arm. -/
def query (cfg : Config) (o : Outcome C) (sql : Str) : Option Out := do
  let stmts ← splitStatements sql
  let out ←
    if stmts = [] then some (Out.new.put .emptyQueryResponse)
    else respondAll cfg o 0 stmts .new
  return out.put .readyForQuery

/-! ## Extended queries -/

/-- `Portal`. -/
structure Portal where
  sql : Str
  resultFormats : List ℤ
  deriving DecidableEq, Repr

/-- `Portal::default`. -/
def Portal.default : Portal := ⟨[], []⟩

/-- The rows of `execute_portal`, after the notices. -/
def portalRows (shape : ResultShape) (cfg : Config) (formats : List ℤ) (maxRows : ℤ) :
    Draw C (List Backend) := do
  let n ←
    if shape.forceEmpty then pure 0
    else if shape.aggregateOnly ∨ shape.tableHint = none then pure 1
    else Int.toNat <$> (C.randomRangeIncl .usize cfg.rowsMin (max cfg.rowsMax cfg.rowsMin) : Draw C ℤ)
  let n := match shape.limit with
    | some limit => min n limit
    | none => n
  -- zero is no limit; the rows beyond a limit are dropped, and no portal is suspended
  let n := if 0 < maxRows then min n maxRows.toNat else n
  let cols := binarize (resolveCols shape cfg)
  let rows ← Draw.times (putDataRowFmt cols formats cfg.genCtx) n
  return rows ++ [.commandComplete (selectTag n)]

/-- The `Select` part of `execute_portal`. -/
def executeSelect (cfg : Config) (slot : Bool) (os : C.Rng) (portal : Portal) (maxRows : ℤ)
    (shape : ResultShape) (out : Out) : Out :=
  let rng := seedRng cfg (Utf8.encode portal.sql) os
  let cls := cfg.crushClass shape
  let rows := (portalRows shape cfg portal.resultFormats maxRows rng).1
  match cls with
  | .crush _ =>
    if !cfg.crush.warnOnly then
      if slot then
        -- Describe announced the columns, so no wide ones here
        let cols := binarize (resolveCols shape cfg)
        (out.flush.write [.notice crushNotice]).write
          (streamRows cols portal.resultFormats cfg.crush.maxRows cfg.genCtx rng).1
      else (out.put (.notice capacityNotice)).putAll rows
    else (out.put (.notice (unsafeNotice cls))).putAll rows
  | .warn _ => (out.put (.notice (looseNotice cls))).putAll rows
  | .safe => out.putAll rows

/-- `execute_portal`, given whether a crush slot is free. -/
def executePortal (cfg : Config) (slot : Bool) (os : C.Rng) (portal : Portal) (maxRows : ℤ)
    (out : Out) : Option Out := do
  let shape ← extract portal.sql
  let rng := seedRng cfg (Utf8.encode portal.sql) os
  match shape.kind with
  | .select => return executeSelect cfg slot os portal maxRows shape out
  | .empty => return out.put .emptyQueryResponse
  | .insert => return out.put (.commandComplete "INSERT 0 1")
  | .update => return out.put (.commandComplete (countTag "UPDATE" rng).1)
  | .delete => return out.put (.commandComplete (countTag "DELETE" rng).1)
  | .command tag => return out.put (.commandComplete tag)

/-! ## Payloads -/

/-- `Reader`: a cursor over a payload. -/
structure Reader where
  b : Bytes
  pos : ℕ

/-- A computation that reads a payload. -/
abbrev Read (α : Type) := StateM Reader α

namespace Read

/-- `Reader::u8`. -/
def u8 : Read UInt8 := modifyGet fun r => (r.b[r.pos]?.getD 0, { r with pos := r.pos + 1 })

/-- A number read in two's complement at a width. -/
def signed (bits n : ℕ) : ℤ := if n < 2 ^ (bits - 1) then n else n - 2 ^ bits

/-- `Reader::i16`. -/
def i16 : Read ℤ := do
  let a ← u8
  let b ← u8
  return signed 16 (a.toNat * 256 + b.toNat)

/-- `Reader::i32`. -/
def i32 : Read ℤ := do
  let a ← u8
  let b ← u8
  let c ← u8
  let d ← u8
  return signed 32 (((a.toNat * 256 + b.toNat) * 256 + c.toNat) * 256 + d.toNat)

/-- `Reader::cstr`. -/
def cstr : Read Str := modifyGet fun r =>
  let start := min r.pos r.b.length
  let text := (r.b.drop start).takeWhile (· ≠ 0)
  let stop := start + text.length
  -- past the zero, or past the end when there is none
  (Utf8.fromUtf8Lossy text, { r with pos := min (stop + 1) (r.b.length + 1) })

/-- `Reader::skip`. -/
def skip (n : ℕ) : Read Unit := modify fun r => { r with pos := min (r.pos + n) (2 ^ 64 - 1) }

/-- A loop that reads `n` times. -/
def times {α : Type} (x : Read α) : ℕ → Read (List α)
  | 0 => pure []
  | n + 1 => do
    let a ← x
    return a :: (← times x n)

/-- A parameter of a Bind message: its length, and that many bytes to skip. -/
def param : Read Unit := do
  let plen ← i32
  if 0 < plen then skip plen.toNat

end Read

/-- A Parse message. -/
structure ParseMessage where
  name : Str
  sql : Str

/-- A Bind message, less the parameters. -/
structure BindMessage where
  portal : Str
  stmtName : Str
  resultFormats : List ℤ

/-- A Describe or Close message: of a statement or of a portal. -/
structure TargetMessage where
  isStmt : Bool
  name : Str
  deriving DecidableEq

/-- An Execute message. -/
structure ExecuteMessage where
  portal : Str
  maxRows : ℤ

namespace Read

def parseMessage : Read ParseMessage := do return ⟨← cstr, ← cstr⟩

def bindMessage : Read BindMessage := do
  let portal ← cstr
  let stmtName ← cstr
  -- a negative count is taken for zero
  let nParamFormats ← i16
  let _ ← times i16 nParamFormats.toNat
  let nParams ← i16
  let _ ← times param nParams.toNat
  let nResultFormats ← i16
  return ⟨portal, stmtName, ← times i16 nResultFormats.toNat⟩

def targetMessage : Read TargetMessage := do
  let kind ← u8
  return ⟨kind == 83, ← cstr⟩

def executeMessage : Read ExecuteMessage := do return ⟨← cstr, ← i32⟩

/-- Read a payload from its start. -/
def of {α : Type} (x : Read α) (payload : Bytes) : α := (x.run ⟨payload, 0⟩).1

end Read

/-! ## Sessions -/

/-- What a tag byte stands for. -/
inductive Kind where
  | query | parse | bind | describe | execute | close | terminate | sync | flush | other
  deriving DecidableEq, Repr

/-- The arms of the `match` on a tag byte. -/
def kindOf (tag : UInt8) : Kind :=
  if tag = 81 then .query
  else if tag = 80 then .parse
  else if tag = 66 then .bind
  else if tag = 68 then .describe
  else if tag = 69 then .execute
  else if tag = 67 then .close
  else if tag = 88 then .terminate
  else if tag = 83 then .sync
  else if tag = 72 then .flush
  else .other

/-- A message from the client. -/
structure Frontend where
  tag : UInt8
  payload : Bytes
  deriving DecidableEq, Repr

/-- What a message asks for. -/
def Frontend.kind (m : Frontend) : Kind := kindOf m.tag

/-- `MAX_MSG`: the length of the longest message that is read. -/
def maxMsg : ℕ := 16 * 1024 * 1024

/-- The text of a simple query. -/
def queryText (payload : Bytes) : Str :=
  Utf8.fromUtf8Lossy (if payload.getLast? = some 0 then payload.dropLast else payload)

/-- The prepared statements and the bound portals of a connection, by name. -/
structure Session where
  statements : Str → Option Str
  portals : Str → Option Portal

/-- A new connection. -/
def Session.new : Session := ⟨fun _ => none, fun _ => none⟩

/-- What Parse does to the maps. -/
def Session.parse (s : Session) (p : ParseMessage) : Session :=
  { s with statements := Function.update s.statements p.name (some p.sql) }

/-- What Bind does to the maps. -/
def Session.bind (s : Session) (b : BindMessage) : Session :=
  -- a statement that was never parsed is an empty one
  let sql := (s.statements b.stmtName).getD []
  { s with portals := Function.update s.portals b.portal (some ⟨sql, b.resultFormats⟩) }

/-- What Close does to the maps. -/
def Session.close (s : Session) (t : TargetMessage) : Session :=
  if t.isStmt then { s with statements := Function.update s.statements t.name none }
  else { s with portals := Function.update s.portals t.name none }

/-- The text that a Describe message is about. -/
def Session.described (s : Session) (payload : Bytes) : Str :=
  let t := Read.targetMessage.of payload
  (if t.isStmt then s.statements t.name else (s.portals t.name).map Portal.sql).getD []

/-- The description of a statement's parameters, as far as the buffer has room for it. -/
def putParameterDescription (memory : Memory) (params : List WireType) : Option Out :=
  if memory.description < params.length then none
  else some (Out.new.put (.parameterDescription (params.map oid)))

/-- The `D` arm. -/
def describe (memory : Memory) (cfg : Config) (s : Session) (payload : Bytes) : Option Out := do
  let sql := s.described payload
  let shape ← extract sql
  let out ←
    if (Read.targetMessage.of payload).isStmt then
      (paramTypes memory sql cfg.rules).bind (putParameterDescription memory)
    else some Out.new
  if shape.kind = .select then
    return out.put (putRowDescription (binarize (resolveCols shape cfg)))
  else return out.put .noData

/-- The arms of the `match` on the tag, less Terminate. -/
def dispatch (cfg : Config) (o : Outcome C) (s : Session) (m : Frontend) :
    Option (Out × Session) :=
  match m.kind with
  | .query => (query cfg o (queryText m.payload)).map fun out => (out, s)
  | .parse => some (Out.new.put .parseComplete, s.parse (Read.parseMessage.of m.payload))
  | .bind => some (Out.new.put .bindComplete, s.bind (Read.bindMessage.of m.payload))
  | .describe => (describe C.memory cfg s m.payload).map fun out => (out, s)
  | .execute =>
    let e := Read.executeMessage.of m.payload
    -- a portal that was never bound is an empty statement
    let portal := (s.portals e.portal).getD .default
    (executePortal cfg (o.slot 0) (o.os 0) portal e.maxRows .new).map fun out => (out, s)
  | .close => some (Out.new.put .closeComplete, s.close (Read.targetMessage.of m.payload))
  | .sync => some (Out.new.put .readyForQuery, s)
  | .terminate | .flush | .other => some (.new, s)

/-- Why a connection ends. -/
inductive Stop where
  /-- The client terminated it. -/
  | closed
  /-- A ghost dropped it. -/
  | dropped
  /-- A panic, or an allocation that is refused. -/
  | panicked
  deriving DecidableEq, Repr

/-- Whether the ghosts haunt a message. -/
def Frontend.haunted (m : Frontend) (cfg : Config) : Bool :=
  cfg.ghosts.haunting && (m.kind == .query || m.kind == .execute)

/-- The error that a ghost injects. -/
def ghostError : Backend := .error "58000" "a ghost ate your query"

/-- One round of the command loop of `handle`. -/
def step (cfg : Config) (s : Session) (om : Outcome C × Frontend) :
    List Backend × Serve.Next Session Stop :=
  let (o, m) := om
  if m.haunted cfg ∧ o.crashed cfg then ([], .stop .panicked)
  else if m.haunted cfg ∧ o.dropped cfg then ([], .stop .dropped)
  else if m.haunted cfg ∧ o.errored cfg then
    -- after an Execute the client sends Sync, which is answered by itself
    (if m.kind = .query then [ghostError, .readyForQuery] else [ghostError], .go s)
  else if m.kind = .terminate then ([], .stop .closed)
  else
    match dispatch cfg o s m with
    | some (out, s') => (out.flush.sent, .go s')
    | none => ([], .stop .panicked)

/-- What is sent when a connection opens. -/
def greeting (pid key : Int32) : List Backend :=
  [.authenticationOk,
   .parameterStatus "server_version" "16.3 (EtherealDB 0.2.0)",
   .parameterStatus "server_encoding" "UTF8",
   .parameterStatus "client_encoding" "UTF8",
   .parameterStatus "DateStyle" "ISO, MDY",
   .parameterStatus "integer_datetimes" "on",
   .parameterStatus "standard_conforming_strings" "on",
   .parameterStatus "TimeZone" "UTC",
   .backendKeyData pid key,
   .notice "welcome to EtherealDB — every query succeeds, no data is real",
   .readyForQuery]

/-- The command loop of `handle` on a new connection. -/
def session (cfg : Config) (l : List (Outcome C × Frontend)) :
    List (List Backend) × Serve.Next Session Stop :=
  Serve.serve (step cfg) .new l

end EtherealDb.Pg
