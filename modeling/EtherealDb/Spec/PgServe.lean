import EtherealDb.Spec.Crush
import EtherealDb.Spec.World
import EtherealDb.Text.Reader

/-!
# A Postgres connection

`handle` of the Postgres frontend, from the first byte that the client sends: the startup
phase, the greeting, and the command loop, with what it writes to its socket and when. What
it answers is put into a buffer of bytes as in `Spec.Pg`, whose sessions are these
connections when no write fails.
-/

namespace EtherealDb.Pg.Conn

open Act (diverge flush maybeDrop maybeError maybeLatency ofOption randomI32)
open Attempt (stop withSlot write)

variable {C : Crates}

/-- Messages put into a buffer. -/
def putMsgs (out : Bytes) (ms : List Backend) : Bytes := ms.foldl Backend.write out

/-! ## Startup -/

/-- `PROTO_V3`. -/
def protoV3 : ℤ := 196608

/-- `SSL_REQUEST`. -/
def sslRequest : ℤ := 80877103

/-- `GSSENC_REQUEST`. -/
def gssencRequest : ℤ := 80877104

/-- `CANCEL_REQUEST`. -/
def cancelRequest : ℤ := 80877102

/-- Who has connected, and to what. -/
structure Login where
  user : Str
  database : Str
  deriving DecidableEq, Repr

/-- The loop over the parameters of a startup message, two texts at a time. -/
def readParams : List Bytes → Login → Login
  | k :: v :: rest, l =>
    let v := Utf8.fromUtf8Lossy v
    let k := Utf8.fromUtf8Lossy k
    readParams rest
      (if k = ("user" : Str) then { l with user := v }
      else if k = ("database" : Str) then { l with database := v }
      else l)
  | _, l => l

/-- What the parameters of a startup message say. -/
def login (params : Bytes) : Login :=
  let l := readParams (params.splitOn 0) ⟨"ghost", []⟩
  if l.database = [] then { l with database := l.user } else l

/-- The startup loop: who has connected, and the bytes left. A round reads eight bytes at
least. -/
def startup : ℕ → Bytes → Act C (Login × Bytes)
  | 0, _ => diverge
  | fuel + 1, s => do
    let (len, s) ← ofOption (readInt 4 s)
    -- a negative length is a huge one
    if len < 8 ∨ maxMsg < len then stop
    else
      let (code, s) ← ofOption (readInt 4 s)
      if code = sslRequest ∨ code = gssencRequest then do
        write (Utf8.encode "N")
        startup fuel s
      else if code = cancelRequest then stop
      else if code = protoV3 then do
        let (params, s) ← ofOption (takeN (len - 8).toNat s)
        return (login params, s)
      else stop

/-! ## Queries -/

/-- The loop of `stream_rows`, with `sent` rows behind it. A round sends a row at least. -/
def streamRows (cols : List Resolved) (formats : List ℤ) (max : ℕ) (g : Gen) :
    ℕ → ℕ → C.Rng → Act C Unit
  | 0, _, _ => diverge
  | fuel + 1, sent, rng => do
    if sent < max then
      let this := min crushChunk (max - sent)
      let chunk := Streaming.fill (putRow cols formats g) this [] rng
      write chunk.1
      streamRows cols formats max g fuel (sent + this) chunk.2
    else write (commandTail sent)

/-- `crush_stream`. -/
def crushStream (shape : ResultShape) (cfg : Config) (stmt : Str) : Act C Unit := do
  let cols := crushColumns shape cfg
  write (putMsgs [] [.notice crushNotice, putRowDescription cols])
  let rng ← Act.seedRng cfg (Utf8.encode stmt)
  streamRows cols [] cfg.crush.maxRows cfg.genCtx (cfg.crush.maxRows + 1) 0 rng

/-- `normal_response`: the buffer with the answer in it. -/
def normalResponse (out : Bytes) (shape : ResultShape) (cfg : Config) (stmt : Str) : Act C Bytes := do
  let rng ← Act.seedRng cfg (Utf8.encode stmt)
  return putMsgs out (match shape.kind with
    | .empty => [.emptyQueryResponse]
    | .select => (normalRows shape cfg rng).1
    | .insert => [.commandComplete "INSERT 0 1"]
    | .update => [.commandComplete (countTag "UPDATE" rng).1]
    | .delete => [.commandComplete (countTag "DELETE" rng).1]
    | .command tag => [.commandComplete tag])

/-- `respond_statement`: the buffer after it. -/
def respondStatement (cfg : Config) (out : Bytes) (stmt : Str) : Act C Bytes := do
  let shape ← ofOption (extract stmt)
  let cls := cfg.crushClass shape
  match cls with
  | .crush _ =>
    if !cfg.crush.warnOnly then
      withSlot
        (do
          flush out
          crushStream shape cfg stmt
          return [])
        (normalResponse (Backend.write out (.notice capacityNotice)) shape cfg stmt)
    else normalResponse (Backend.write out (.notice (unsafeNotice cls))) shape cfg stmt
  | .warn _ => normalResponse (Backend.write out (.notice (looseNotice cls))) shape cfg stmt
  | .safe => normalResponse out shape cfg stmt

/-- The loop over the statements of a simple query. -/
def respondAll (cfg : Config) : List Str → Bytes → Act C Bytes
  | [], out => pure out
  | stmt :: stmts, out => do
    let out ← respondStatement cfg out stmt
    respondAll cfg stmts out

/-- The `Q` arm. -/
def query (cfg : Config) (sql : Str) : Act C Bytes := do
  let stmts ← ofOption (splitStatements sql)
  let out ←
    if stmts = [] then pure (Backend.write [] .emptyQueryResponse)
    else respondAll cfg stmts []
  return Backend.write out .readyForQuery

/-- The normal rows of `execute_portal`. -/
def executeNormal (cfg : Config) (portal : Portal) (maxRows : ℤ) (shape : ResultShape)
    (out : Bytes) : Act C Bytes := do
  let rng ← Act.seedRng cfg (Utf8.encode portal.sql)
  return putMsgs out (portalRows shape cfg portal.resultFormats maxRows rng).1

/-- The `Select` part of `execute_portal`. -/
def executeSelect (cfg : Config) (portal : Portal) (maxRows : ℤ) (shape : ResultShape)
    (out : Bytes) : Act C Bytes :=
  let cols := binarize (resolveCols shape cfg)
  let cls := cfg.crushClass shape
  match cls with
  | .crush _ =>
    if !cfg.crush.warnOnly then
      withSlot
        (do
          flush out
          write (Backend.write [] (.notice crushNotice))
          let rng ← Act.seedRng cfg (Utf8.encode portal.sql)
          streamRows cols portal.resultFormats cfg.crush.maxRows cfg.genCtx
            (cfg.crush.maxRows + 1) 0 rng
          return [])
        (executeNormal cfg portal maxRows shape (Backend.write out (.notice capacityNotice)))
    else executeNormal cfg portal maxRows shape (Backend.write out (.notice (unsafeNotice cls)))
  | .warn _ => executeNormal cfg portal maxRows shape (Backend.write out (.notice (looseNotice cls)))
  | .safe => executeNormal cfg portal maxRows shape out

/-- `execute_portal`: the buffer after it. -/
def executePortal (cfg : Config) (portal : Portal) (maxRows : ℤ) (out : Bytes) : Act C Bytes := do
  let shape ← ofOption (extract portal.sql)
  if shape.kind = .select then executeSelect cfg portal maxRows shape out
  else
    let rng ← Act.seedRng cfg (Utf8.encode portal.sql)
    return putMsgs out (match shape.kind with
      | .empty => [.emptyQueryResponse]
      | .insert => [.commandComplete "INSERT 0 1"]
      | .update => [.commandComplete (countTag "UPDATE" rng).1]
      | .delete => [.commandComplete (countTag "DELETE" rng).1]
      | .command tag => [.commandComplete tag]
      -- handled above
      | .select => [])

/-! ## Commands -/

/-- A tag, a length and a payload, and the bytes after them. -/
def readMessage : Bytes → Option (Frontend × Bytes)
  | [] => none
  | tag :: s => do
    let (len, s) ← readInt 4 s
    if len < 4 ∨ maxMsg < len then none
    let (payload, s) ← takeN (len - 4).toNat s
    return (⟨tag, payload⟩, s)

/-- The ghosts of a message: whether they have answered it. -/
def haunt (cfg : Config) (m : Frontend) : Act C Bool := do
  if m.haunted cfg then
    maybeLatency cfg
    if ← maybeDrop cfg then stop
    else if ← maybeError cfg then do
      write (putMsgs [] (if m.kind = .query then [ghostError, .readyForQuery] else [ghostError]))
      return true
    else return false
  else return false

/-- The `match` on the tag: the buffer after it, and the session. -/
def dispatch (cfg : Config) (st : Session) (m : Frontend) : Act C (Bytes × Session) :=
  match m.kind with
  | .query => do return (← query cfg (queryText m.payload), st)
  | .parse => pure (Backend.write [] .parseComplete, st.parse (Read.parseMessage.of m.payload))
  | .bind => pure (Backend.write [] .bindComplete, st.bind (Read.bindMessage.of m.payload))
  | .describe => do
    let out ← ofOption (describe C.memory cfg st m.payload)
    return (putMsgs [] out.buf, st)
  | .execute => do
    let e := Read.executeMessage.of m.payload
    let portal := (st.portals e.portal).getD .default
    return (← executePortal cfg portal e.maxRows [], st)
  | .close => pure (Backend.write [] .closeComplete, st.close (Read.targetMessage.of m.payload))
  | .terminate => stop
  | .sync => pure (Backend.write [] .readyForQuery, st)
  | .flush | .other => pure ([], st)

/-- One round of the command loop, after a message is read. -/
def turn (cfg : Config) (st : Session) (m : Frontend) : Act C Session := do
  if ← haunt cfg m then return st
  else
    let (out, st) ← dispatch cfg st m
    flush out
    return st

/-- The command loop, which reads five bytes a round at least. -/
def commands (cfg : Config) : ℕ → Session → Bytes → Act C Unit
  | 0, _, _ => diverge
  | fuel + 1, st, s => do
    let (m, s) ← ofOption (readMessage s)
    let st ← turn cfg st m
    commands cfg fuel st s

/-- `handle`, with the bytes that the client sends. -/
def handle (cfg : Config) (s : Bytes) : Act C Unit := do
  let (_, s) ← startup (s.length + 1) s
  let pid ← randomI32
  let key ← randomI32
  write (putMsgs [] (greeting pid.abs key))
  commands cfg (s.length + 1) .new s

end EtherealDb.Pg.Conn
