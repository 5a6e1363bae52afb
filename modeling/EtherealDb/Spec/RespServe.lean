import EtherealDb.Spec.Resp
import EtherealDb.Spec.World

/-!
# A Redis connection

`handle` of the Redis frontend: the command loop, with `KEYS *` streamed chunk by chunk under
a crush slot.
-/

namespace EtherealDb.Resp.Conn

open Str
open Act (diverge maybeDrop maybeError maybeLatency)
open Attempt (stop withSlot write)

variable {C : Crates}

/-- A command and the bytes after it; the loop ends where there is none. -/
def readNext (s : Bytes) : Act C (List Bytes × Bytes) :=
  match readCommand C.memory s with
  | .command args rest => pure (args, rest)
  | .closed | .failed | .panicked => stop

/-- How often an arm of `dispatch` calls `seed_rng`. -/
def seedCalls (args : List Bytes) : Option Cmd → ℕ
  | some .mget => args.length - 1
  | some .get | some .strlen | some .hget | some .hgetall | some .hkeys | some .keys | some .scan
  | some .incr | some .ttl | some .dbsize | some .llen | some .lrange => 1
  | _ => 0

/-- So many generators of the operating system. -/
def fromOsRngs : ℕ → Act C (ℕ → C.Rng)
  | 0 => pure fun _ => C.seedFromU64 0
  | n + 1 => do
    let rng ← Act.fromOsRng
    let rngs ← fromOsRngs n
    return fun i => if i = 0 then rng else rngs (i - 1)

/-- What so many calls of `seed_rng` take from the operating system: nothing, with a seed. -/
def osRngs (cfg : Config) (n : ℕ) : Act C (ℕ → C.Rng) :=
  if cfg.seed.isSome then pure fun _ => C.seedFromU64 0 else fromOsRngs n

/-- `dispatch`, and the write of what it puts into its buffer. -/
def dispatch (cmd : Str) (args : List Bytes) (cfg : Config) : Act C Unit := do
  let os ← osRngs cfg (seedCalls args (cmdOf cmd))
  Act.flush (Resp.dispatch cmd args cfg os)

/-- The loop of `crush_keys`, with `sent` keys behind it. A round sends a key at least. -/
def crushLoop (cfg : Config) (max : ℕ) : ℕ → ℕ → C.Rng → Act C Unit
  | 0, _, _ => diverge
  | fuel + 1, sent, rng => do
    if sent < max then
      let this := min crushChunk (max - sent)
      let chunk := bulks this (fakeKey cfg.theme) rng
      write chunk.1
      crushLoop cfg max fuel (sent + this) chunk.2
    else return ()

/-- `crush_keys`. -/
def crushKeys (cfg : Config) : Act C Unit := do
  let max := cfg.crush.maxRows
  write (arrayHeader max)
  let rng ← Act.seedRng cfg (Utf8.encode "KEYS *")
  crushLoop cfg max (max + 1) 0 rng

/-- What the ghosts do to a command; `true` when they have answered it. -/
def haunt (cfg : Config) (cmd : Str) : Act C Bool := do
  if cfg.ghosts.haunting ∧ cmd ≠ ("QUIT" : Str) then
    maybeLatency cfg
    if ← maybeDrop cfg then stop
    else if ← maybeError cfg then do
      write (error "ERR a ghost ate your command")
      return true
    else return false
  else return false

/-- A command that `dispatch` answers. -/
def plain (cfg : Config) (cmd : Str) (args : List Bytes) : Act C Unit := do
  dispatch cmd args cfg
  if cmd = ("QUIT" : Str) then stop else return ()

/-- What the loop does with a command that the ghosts leave alone. -/
def serve (cfg : Config) (cmd : Str) (args : List Bytes) : Act C Unit :=
  if cmd = ("KEYS" : Str) ∧ cfg.crush.enabled ∧ !cfg.crush.warnOnly ∧
      (args[1]?.map Utf8.fromUtf8Lossy).getD [] = ("*" : Str) then
    withSlot (crushKeys cfg) (plain cfg cmd args)
  else plain cfg cmd args

/-- The body of the loop, after a command is read. -/
def respond (cfg : Config) : List Bytes → Act C Unit
  | [] => pure ()
  | a :: args => do
    let cmd := cmdName a
    if ← haunt cfg cmd then return ()
    else serve cfg cmd (a :: args)

/-- The command loop, which reads a byte a round at least. -/
def commands (cfg : Config) : ℕ → Bytes → Act C Unit
  | 0, _ => diverge
  | fuel + 1, s => do
    let (args, rest) ← readNext s
    respond cfg args
    commands cfg fuel rest

/-- `handle`, with the bytes that the client sends. -/
def handle (cfg : Config) (s : Bytes) : Act C Unit := commands cfg (s.length + 1) s

end EtherealDb.Resp.Conn
