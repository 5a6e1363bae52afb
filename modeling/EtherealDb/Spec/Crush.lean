import EtherealDb.Spec.Pg
import EtherealDb.Spec.Resp
import EtherealDb.Text.Streaming

/-!
# Crush streams on a socket

The crush streams of Postgres and Redis with the socket they write to, one chunk buffer,
and counters of 64 bits: what `Pg.streamRows` and `Resp.crushKeys` say of a client that
keeps reading, and where a stream ends when one does not.
-/

namespace EtherealDb

open Streaming

variable {C : Crates}

namespace Pg

/-- `put_data_row_fmt`, with the buffer it writes to. -/
def putRow (cols : List Resolved) (formats : List ℤ) (g : Gen) (buf : Bytes) : Draw C Bytes := do
  return (← putDataRowFmt cols formats g).write buf

/-- `put_command_complete`, into an empty buffer. -/
def commandTail (sent : ℕ) : Bytes := Backend.write [] (.commandComplete (selectTag sent))

/-- `stream_rows`: the number of rows sent, as an error when a write failed. A round sends
a row at least. -/
def streamRowsTo (cols : List Resolved) (formats : List ℤ) (max : UInt64) (rng : C.Rng) (g : Gen)
    (sock : Socket) : Option (Except ℕ ℕ × Socket) := do
  let (r, sock) ← send (putRow cols formats g) crushChunk (2 ^ 64) max.toNat (max.toNat + 1) 0 rng sock
  match r with
  | .error sent => return (.error sent, sock)
  | .ok sent =>
    let w := sock.writeAll (commandTail sent)
    return (if w.1 then .ok sent else .error sent, w.2)

end Pg

namespace Resp

/-- The body of the inner loop of `crush_keys`, with the buffer it writes to. -/
def putKey (cfg : Config) (buf : Bytes) : Draw C Bytes := do
  return buf ++ bulk (Utf8.encode (← fakeKey cfg.theme))

/-- `crush_keys`: whether every write succeeded. -/
def crushKeysTo (cfg : Config) (os : C.Rng) (sock : Socket) : Option (Bool × Socket) := do
  let max := cfg.crush.maxRows
  let w := sock.writeAll (arrayHeader max)
  if w.1 then
    let rng := seedRng cfg (Utf8.encode "KEYS *") os
    let (r, sock) ← send (putKey cfg) crushChunk (2 ^ 64) max (max + 1) 0 rng w.2
    return (r.isOk, sock)
  else return (false, w.2)

end Resp

end EtherealDb
