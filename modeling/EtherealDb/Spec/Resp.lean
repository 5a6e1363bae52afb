import EtherealDb.Spec.Config
import EtherealDb.Text.Wire

/-!
# The Redis frontend

Commands are read from the client's bytes (`readCommand`), answered from the key names
(`dispatch`) and haunted by the ghosts (`answer`). The bytes a client sends are a list:
everything it will ever send, so that reading past them is the end of the stream.
-/

namespace EtherealDb.Resp

open Str

variable {C : Crates}

/-- `KEY_FIELDS`. -/
def keyFields : List String :=
  ["id", "email", "status", "name", "created_at", "total", "count", "updated_at"]

/-! ## Writers -/

/-- CR LF. -/
def crlf : Bytes := [13, 10]

def simple (s : Str) : Bytes := 43 :: Utf8.encode s ++ crlf

def error (s : Str) : Bytes := 45 :: Utf8.encode s ++ crlf

def integer (n : ℤ) : Bytes := 58 :: Utf8.encode (intText n) ++ crlf

def bulk (data : Bytes) : Bytes := 36 :: Utf8.encode (decimal data.length) ++ crlf ++ data ++ crlf

def arrayHeader (n : ℕ) : Bytes := 42 :: Utf8.encode (decimal n) ++ crlf

/-! ## Reading -/

/-- What one call of `read_command` comes to. -/
inductive Read where
  /-- A command, and the bytes after it. -/
  | command (args : List Bytes) (rest : Bytes)
  /-- The client closed the connection. -/
  | closed
  /-- `UnexpectedEof`. -/
  | failed
  /-- `capacity overflow`, or a buffer that the allocator refuses. -/
  | panicked
  deriving DecidableEq, Repr

/-- `read_line`: the bytes up to a line feed, without the CRs and LFs at their end. -/
def readLine (s : Bytes) : Option (Bytes × Bytes) :=
  if s = [] then none
  else
    let line := s.takeWhile (· ≠ 10)
    let rest := s.dropWhile (· ≠ 10)
    some ((line ++ rest.take 1).rdropWhile (fun b => b = 10 ∨ b = 13), rest.drop 1)

/-- `parse_int`. -/
def parseInt (b : Bytes) : Option ℤ :=
  (Utf8.fromUtf8 b).bind fun s => parseSigned (2 ^ 63) (trim s)

/-- The loop of `read_command` over the arguments still to come. -/
def readArgs (memory : Memory) : ℕ → List Bytes → Bytes → Read
  | 0, args, s => .command args s
  | n + 1, args, s =>
    match readLine s with
    | none => .closed
    | some (hdr, s) =>
      -- the line is gone, and the arguments so far are a command
      if hdr.head? ≠ some 36 then .command args s
      else
        let len := (parseInt hdr.tail).getD (-1)
        -- a null bulk string, or a length that is no number
        if len < 0 then readArgs memory n (args ++ [[]]) s
        else if memory.vector < len.toNat + 2 then .panicked
        else if s.length < len.toNat + 2 then .failed
        else readArgs memory n (args ++ [s.take len.toNat]) (s.drop (len.toNat + 2))

/-- `split(..).filter(|s| !s.is_empty())` on white space. -/
def splitWhitespace (s : Bytes) : List Bytes :=
  (s.splitOnP isAsciiWhitespace).filter (· ≠ [])

/-- The loop of `read_command`, whose every round takes a line off the stream. -/
def readCommandFrom (memory : Memory) : ℕ → Bytes → Read
  | 0, _ => .closed
  | fuel + 1, s =>
    match readLine s with
    | none => .closed
    -- blank lines between commands
    | some ([], s) => readCommandFrom memory fuel s
    | some (b :: line, s) =>
      if b = 42 then
        let count := (parseInt line).getD 0
        if count ≤ 0 then .command [] s
        -- a `Vec<u8>` takes 24 bytes
        else if memory.vector < count.toNat * 24 then .panicked
        else readArgs memory count.toNat [] s
      else .command (splitWhitespace (b :: line)) s

/-- `read_command`. -/
def readCommand (memory : Memory) (s : Bytes) : Read := readCommandFrom memory (s.length + 1) s

/-! ## Values -/

/-- `value_for_key`. -/
def valueForKey (key : Bytes) (cfg : Config) : Draw C Str := do
  let field := rsplitNext ':' (Utf8.fromUtf8Lossy key)
  let r := Resolved.fromName field cfg.rules
  let v ← genValue r.st r.wt cfg.genCtx
  return if r.wt = .bool then (if v = ("t" : Str) then "1" else "0") else v

/-- `fake_key`. -/
def fakeKey (theme : ThemeData) : Draw C Str := do
  let ns ← if theme.nouns = [] then pure ("key" : Str) else pick theme.nouns
  let field ← pick keyFields
  return ns ++ ':' :: (← drawInt .i32 1 1000000) ++ ':' :: field

/-! ## Commands -/

/-- The arms of `dispatch`. -/
inductive Cmd where
  | ping | echo | ok | hello | command | get | mget | strlen | hget | hgetall | hkeys | keys
  | scan | exists' | incr | ttl | one | type | dbsize | llen | lrange | config | info
  deriving DecidableEq, Repr

/-- One line of the table. -/
def entry (name : String) (c : Cmd) : Str × Cmd := (name, c)

/-- The names that `dispatch` knows. -/
def table : List (Str × Cmd) :=
  [entry "PING" .ping, entry "ECHO" .echo, entry "QUIT" .ok, entry "SELECT" .ok, entry "AUTH" .ok,
   entry "RESET" .ok, entry "CLIENT" .ok, entry "HELLO" .hello, entry "COMMAND" .command,
   entry "SET" .ok, entry "SETEX" .ok, entry "PSETEX" .ok, entry "MSET" .ok, entry "GETSET" .ok,
   entry "GET" .get, entry "GETDEL" .get, entry "MGET" .mget, entry "STRLEN" .strlen,
   entry "HGET" .hget, entry "HGETALL" .hgetall, entry "HSET" .ok, entry "HMSET" .ok,
   entry "HKEYS" .hkeys, entry "KEYS" .keys, entry "SCAN" .scan, entry "EXISTS" .exists',
   entry "DEL" .exists', entry "UNLINK" .exists', entry "INCR" .incr, entry "INCRBY" .incr,
   entry "DECR" .incr, entry "DECRBY" .incr, entry "TTL" .ttl, entry "PTTL" .ttl,
   entry "EXPIRE" .one, entry "PEXPIRE" .one, entry "PERSIST" .one, entry "TYPE" .type,
   entry "DBSIZE" .dbsize, entry "LLEN" .llen, entry "SCARD" .llen, entry "HLEN" .llen,
   entry "ZCARD" .llen, entry "LPUSH" .one, entry "RPUSH" .one, entry "SADD" .one,
   entry "ZADD" .one, entry "LRANGE" .lrange, entry "SMEMBERS" .lrange, entry "CONFIG" .config,
   entry "INFO" .info]

/-- The arm of a command name. -/
def cmdOf (cmd : Str) : Option Cmd := (table.find? fun e => e.1 = cmd).map Prod.snd

/-- An integer drawn from a fresh generator. -/
def drawInteger (t : IntTy) (lo hi : ℤ) (rng : C.Rng) : Bytes :=
  integer (C.randomRange t lo hi rng).1

/-- The loop that writes `n` bulk strings. -/
def bulks (n : ℕ) (d : Draw C Str) : Draw C Bytes := do
  return (← d.times n).flatMap fun s => bulk (Utf8.encode s)

/-- One field of `HGETALL`: its name and a value. -/
def hashField (cfg : Config) : Draw C Bytes := do
  let field ← pick keyFields
  let v ← valueForKey (Utf8.encode field) cfg
  return bulk (Utf8.encode field) ++ bulk (Utf8.encode v)

/-- The body of `INFO`. -/
def infoBody : Str := "# Server\r\nredis_version:7.4.0-EtherealDB\r\nredis_mode:standalone\r\n"

/-- An arm of `dispatch`: the bytes it writes. The `i`-th call of `seed_rng` takes the
`i`-th generator of the operating system. -/
def run (cfg : Config) (os : ℕ → C.Rng) (args : List Bytes) (c : Cmd) : Bytes :=
  let key := args[1]?.getD []
  let rng := seedRng cfg key (os 0)
  match c with
  | .ping => match args[1]? with
    | some msg => bulk msg
    | none => simple "PONG"
  | .echo => bulk key
  | .ok => simple "OK"
  | .hello => error "NOPROTO unsupported protocol version"
  | .command => arrayHeader 0
  | .get => bulk (Utf8.encode (valueForKey key cfg rng).1)
  | .mget => arrayHeader (args.length - 1) ++ (args.tail.mapIdx fun i k =>
      bulk (Utf8.encode (valueForKey k cfg (seedRng cfg k (os i))).1)).flatten
  | .strlen => integer (len (valueForKey key cfg rng).1)
  | .hget =>
    -- without a field, the key names one
    let field := args[2]?.getD key
    bulk (Utf8.encode (valueForKey field cfg (seedRng cfg field (os 0))).1)
  | .hgetall =>
    let n := C.randomRangeIncl .usize 2 5 rng
    arrayHeader (n.1.toNat * 2) ++ (Draw.times (hashField cfg) n.1.toNat n.2).1.flatten
  | .hkeys =>
    let n := C.randomRangeIncl .usize 2 5 rng
    arrayHeader n.1.toNat ++ (bulks n.1.toNat (pick keyFields) n.2).1
  | .keys =>
    let n := C.randomRangeIncl .usize cfg.rowsMin (max cfg.rowsMax cfg.rowsMin) rng
    arrayHeader n.1.toNat ++ (bulks n.1.toNat (fakeKey cfg.theme) n.2).1
  | .scan =>
    let n := C.randomRangeIncl .usize cfg.rowsMin (max cfg.rowsMax cfg.rowsMin) rng
    arrayHeader 2 ++ bulk (Utf8.encode "0") ++ arrayHeader n.1.toNat ++
      (bulks n.1.toNat (fakeKey cfg.theme) n.2).1
  | .exists' => integer ((args.length - 1 : ℕ) : ℤ)
  | .incr => drawInteger .i64 1 100000 rng
  | .ttl => drawInteger .i64 1 86400 rng
  | .one => integer 1
  | .type => simple "string"
  | .dbsize => drawInteger .i64 1000 10000000 (seedRng cfg (Utf8.encode "dbsize") (os 0))
  | .llen => drawInteger .i64 0 1000 rng
  | .lrange =>
    let n := C.randomRangeIncl .usize 0 cfg.rowsMax rng
    arrayHeader n.1.toNat ++ (bulks n.1.toNat (valueForKey key cfg) n.2).1
  | .config =>
    arrayHeader 2 ++ bulk (Utf8.encode ((args[2]?.map Utf8.fromUtf8Lossy).getD [])) ++ bulk []
  | .info => bulk (Utf8.encode infoBody)

/-- The text of the answer to a command that `dispatch` does not know. -/
def unknownCommand (cmd : Str) : Str := "ERR unknown command '".toList ++ lower cmd ++ ['\'']

/-- `dispatch`: the bytes it appends to the output. -/
def dispatch (cmd : Str) (args : List Bytes) (cfg : Config) (os : ℕ → C.Rng) : Bytes :=
  match cmdOf cmd with
  | some c => run cfg os args c
  | none => error (unknownCommand cmd)

/-! ## Sessions -/

/-- The loop of `crush_keys`: chunks of keys until `max` are sent. -/
def crushChunks (cfg : Config) : ℕ → ℕ → Draw C Bytes
  | 0, _ => pure []
  | fuel + 1, left => do
    if left = 0 then return []
    let this := min crushChunk left
    let chunk ← bulks this (fakeKey cfg.theme)
    return chunk ++ (← crushChunks cfg fuel (left - this))

/-- `crush_keys`, when the client keeps reading. -/
def crushKeys (cfg : Config) (os : C.Rng) : Bytes :=
  let max := cfg.crush.maxRows
  arrayHeader max ++ (crushChunks cfg max max (seedRng cfg (Utf8.encode "KEYS *") os)).1

/-- What the loop of `handle` does with one command. -/
structure Answer where
  /-- The bytes written. -/
  bytes : Bytes
  /-- Whether the loop goes on. -/
  open' : Bool
  /-- Whether a ghost ended the connection: it dropped it, or its delay panicked. -/
  dropped : Bool
  deriving DecidableEq, Repr

/-- Bytes written, with the connection kept. -/
def Answer.reply (b : Bytes) : Answer := ⟨b, true, false⟩

/-- The name under which `handle` dispatches a command. -/
def cmdName (arg : Bytes) : Str := upper (Utf8.fromUtf8Lossy arg)

/-- The body of the loop of `handle`, after a command is read. -/
def answer (cfg : Config) (o : Outcome C) : List Bytes → Answer
  | [] => .reply []
  | a :: args =>
    let cmd := cmdName a
    if cfg.ghosts.haunting ∧ cmd ≠ ("QUIT" : Str) ∧ o.crashed cfg then ⟨[], false, true⟩
    else if cfg.ghosts.haunting ∧ cmd ≠ ("QUIT" : Str) ∧ o.dropped cfg then ⟨[], false, true⟩
    else if cfg.ghosts.haunting ∧ cmd ≠ ("QUIT" : Str) ∧ o.errored cfg then
      .reply (error "ERR a ghost ate your command")
    else if cmd = ("KEYS" : Str) ∧ cfg.crush.enabled ∧ !cfg.crush.warnOnly ∧
        (args.head?.map Utf8.fromUtf8Lossy).getD [] = ("*" : Str) ∧ o.slot 0 then
      .reply (crushKeys cfg (o.os 0))
    else ⟨dispatch cmd (a :: args) cfg o.os, cmd ≠ ("QUIT" : Str), false⟩

/-- One round of the loop of `handle`: the answer to the next command, and the bytes left;
`none` when the loop ends at the read. -/
def round (cfg : Config) (o : Outcome C) (s : Bytes) : Option (Answer × Bytes) :=
  match readCommand C.memory s with
  | .command args rest => some (answer cfg o args, rest)
  | _ => none

end EtherealDb.Resp
