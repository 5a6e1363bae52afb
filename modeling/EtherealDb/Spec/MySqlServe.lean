import EtherealDb.Spec.MySql
import EtherealDb.Spec.World
import EtherealDb.Text.Reader

/-!
# A MySQL connection

`handle` of the MySQL frontend: the handshake and the command loop. A packet goes to the
socket in two writes, its header and its payload; `seq` is the running sequence number.
-/

namespace EtherealDb.MySql.Conn

open Str
open Act (diverge maybeDrop maybeError maybeLatency ofOption randomScramble)
open Attempt (stop withSlot write)

variable {C : Crates}

/-! ## The handshake -/

/-- `CLIENT_CONNECT_WITH_DB`. -/
def clientConnectWithDb : ℕ := 0x00000008

/-- `SERVER_CAPS`: `CLIENT_LONG_PASSWORD`, `CLIENT_CONNECT_WITH_DB`, `CLIENT_PROTOCOL_41`,
`CLIENT_SECURE_CONNECTION` and `CLIENT_PLUGIN_AUTH`. -/
def serverCaps : ℕ :=
  0x00000001 ||| clientConnectWithDb ||| 0x00000200 ||| 0x00008000 ||| 0x00080000

/-- `CHARSET_UTF8MB4`. -/
def charsetUtf8mb4 : UInt8 := 0xff

/-- The payload of `send_handshake`. -/
def handshake (scramble : Bytes) : Bytes :=
  10 :: Utf8.encode "8.0.36-EtherealDB\x00" ++ le 4 0x00002a2a ++ scramble.take 8 ++ 0 ::
    le 2 (serverCaps &&& 0xffff) ++ charsetUtf8mb4 :: le 2 serverStatusAutocommit ++
    le 2 (serverCaps >>> 16) ++ 21 :: List.replicate 10 0 ++ (scramble.take 20).drop 8 ++ 0 ::
    Utf8.encode "mysql_native_password\x00"

/-- `read_cstr`: the text, and the index after it. -/
def readCstr (p : Bytes) (i : ℕ) : Str × ℕ :=
  let start := min i p.length
  let text := (p.drop start).takeWhile (· ≠ 0)
  (Utf8.fromUtf8Lossy text, min (start + text.length + 1) (p.length + 1))

/-- A number in little-endian bytes. -/
def ofLe (bs : Bytes) : ℕ := ofBe bs.reverse

/-- Who has connected, and to what. -/
structure Login where
  user : Str
  database : Str
  deriving DecidableEq, Repr

/-- `parse_handshake_response`. -/
def parseHandshakeResponse (p : Bytes) : Login :=
  if p.length < 32 then ⟨"ghost", []⟩
  else
    let clientFlags := ofLe (p.take 4)
    let user := readCstr p 32
    let authLen := (p[user.2]?.getD 0).toNat
    let i := user.2 + (1 + authLen)
    let database := if clientFlags &&& clientConnectWithDb ≠ 0 then (readCstr p i).1 else []
    ⟨if user.1 = [] then "ghost" else user.1, database⟩

/-! ## Packets -/

/-- `write_packet`: the sequence number after it. -/
def writePacket (seq : UInt8) (payload : Bytes) : Act C UInt8 := do
  write (le 3 payload.length ++ [seq])
  write payload
  return seq + 1

/-- `write_packet` for each of some packets. -/
def sendPackets : UInt8 → List Packet → Act C UInt8
  | seq, [] => pure seq
  | seq, p :: ps => do
    let seq ← writePacket seq p.payload
    sendPackets seq ps

/-- A loop that draws a row and sends it: the sequence number and the generator after it. -/
def sendRows (cols : List Resolved) (g : Gen) : ℕ → UInt8 → C.Rng → Act C (UInt8 × C.Rng)
  | 0, seq, rng => pure (seq, rng)
  | n + 1, seq, rng => do
    let row := textRow cols g rng
    let seq ← writePacket seq row.1.payload
    sendRows cols g n seq row.2

/-! ## Queries -/

/-- The loop of `crush_stream`, with `sent` rows behind it. A round sends a row at least. -/
def crushRows (cols : List Resolved) (g : Gen) (max : ℕ) :
    ℕ → ℕ → UInt8 → C.Rng → Act C UInt8
  | 0, _, _, _ => diverge
  | fuel + 1, sent, seq, rng => do
    if sent < max then
      let this := min crushChunk (max - sent)
      let (seq, rng) ← sendRows cols g this seq rng
      crushRows cols g max fuel (sent + this) seq rng
    else sendPackets seq [.eof]

/-- `crush_stream`. -/
def crushStream (seq : UInt8) (cols : List Resolved) (cfg : Config) (sql : Str) : Act C UInt8 := do
  let seq ← sendPackets seq (resultHeader cols)
  let rng ← Act.seedRng cfg (Utf8.encode sql)
  crushRows cols cfg.genCtx cfg.crush.maxRows (cfg.crush.maxRows + 1) 0 seq rng

/-- The number of rows of a normal result set. -/
def rowCount (shape : ResultShape) (cfg : Config) : Draw C ℕ := do
  let n ←
    if shape.forceEmpty then pure 0
    else if shape.aggregateOnly ∨ shape.tableHint = none then pure 1
    else Int.toNat <$> (C.randomRangeIncl .usize cfg.rowsMin (max cfg.rowsMax cfg.rowsMin) : Draw C ℤ)
  return match shape.limit with
    | some limit => min n limit
    | none => n

/-- The normal result set of `select_response`. -/
def normalResponse (seq : UInt8) (sql : Str) (shape : ResultShape) (cfg : Config) : Act C UInt8 := do
  let cols := resolveCols shape cfg
  let rng ← Act.seedRng cfg (Utf8.encode sql)
  let n := rowCount shape cfg rng
  let seq ← sendPackets seq (resultHeader cols)
  let (seq, _) ← sendRows cols cfg.genCtx n.1 seq n.2
  sendPackets seq [.eof]

/-- `select_response`. -/
def selectResponse (seq : UInt8) (sql : Str) (shape : ResultShape) (cfg : Config) : Act C UInt8 :=
  match cfg.crushClass shape with
  | .crush _ =>
    if !cfg.crush.warnOnly then
      let cols :=
        if shape.selectStar then wideCrushColumns.map fun n => Resolved.fromName n cfg.rules
        else resolveCols shape cfg
      withSlot (crushStream seq cols cfg sql) (normalResponse seq sql shape cfg)
    else normalResponse seq sql shape cfg
  | _ => normalResponse seq sql shape cfg

/-- `run_query`. -/
def runQuery (seq : UInt8) (sql : Str) (cfg : Config) : Act C UInt8 := do
  let stmts ← ofOption (splitStatements sql)
  let stmt := stmts.head?.getD []
  let shape ← ofOption (extract stmt)
  match shape.kind with
  | .empty => sendPackets seq [.ok 0 0]
  | .select => selectResponse seq stmt shape cfg
  | .insert => do
    let rng ← Act.seedRng cfg (Utf8.encode stmt)
    sendPackets seq [.ok 1 (C.randomRange .u64 1 1000000 rng).1.toNat]
  | .update | .delete => do
    let rng ← Act.seedRng cfg (Utf8.encode stmt)
    sendPackets seq [.ok (C.randomRange .u64 0 50 rng).1.toNat 0]
  | .command _ => sendPackets seq [.ok 0 0]

/-! ## Commands -/

/-- The body of the command loop, after a packet is read. -/
def respond (cfg : Config) (seq : UInt8) : Bytes → Act C UInt8
  | [] => pure seq
  | cmd :: rest => do
    if cmd = 0x01 then stop
    else if cmd = 0x0e then sendPackets seq [.ok 0 0]
    else if cmd = 0x02 then sendPackets seq [.ok 0 0]
    else if cmd = 0x04 then sendPackets seq [.eof]
    else if cmd = 0x03 then
      let sql := Utf8.fromUtf8Lossy rest
      if cfg.ghosts.haunting then
        maybeLatency cfg
        if ← maybeDrop cfg then stop
        else if ← maybeError cfg then
          sendPackets seq [.err 1105 "HY000" "a ghost ate your query"]
        else runQuery seq sql cfg
      else runQuery seq sql cfg
    else if cmd = 0x16 then sendPackets seq [prepareError]
    else sendPackets seq [.ok 0 0]

/-- The command loop, which reads four bytes a round at least. -/
def commands (cfg : Config) : ℕ → Bytes → Act C Unit
  | 0, _ => diverge
  | fuel + 1, s => do
    -- the number to answer with is one past the client's
    let p ← ofOption (readPacket s)
    let _ ← respond cfg p.seq p.payload
    commands cfg fuel p.rest

/-- `handle`, with the bytes that the client sends. -/
def handle (cfg : Config) (s : Bytes) : Act C Unit := do
  let scramble ← randomScramble
  let _ ← writePacket 0 (handshake scramble.1)
  let response ← ofOption (readPacket s)
  let _ ← sendPackets response.seq [.ok 0 0]
  commands cfg (response.rest.length + 1) response.rest

end EtherealDb.MySql.Conn
