import EtherealDb.Spec.MySqlServe
import EtherealDb.Spec.PgServe
import EtherealDb.Spec.RespServe
import EtherealDb.Text.Pool

/-!
# The server

The accept loops spawn one task for each connection. The tasks share the configuration and the
crush slots, and run in any order. A connection that is not accepted yet has taken no step.
-/

namespace EtherealDb

/-- `Shared`. -/
structure Shared where
  cfg : Config
  /-- The free permits of `crush_slots`. -/
  crushSlots : ℕ

/-- `Shared::new`, with the `concurrency` of the crush configuration. -/
def Shared.new (cfg : Config) (concurrency : ℕ) : Shared := ⟨cfg, max concurrency 1⟩

/-- `Proto`. -/
inductive Proto where
  | postgres | mysql | redis
  deriving DecidableEq, Repr

variable {C : Crates}

/-- What `run` spawns for a connection that its listener accepts: the bytes are what the client
sends. -/
def Proto.handle (cfg : Config) : Proto → Bytes → Act C Unit
  | .postgres, s => Pg.Conn.handle cfg s
  | .mysql, s => MySql.Conn.handle cfg s
  | .redis, s => Resp.Conn.handle cfg s

/-- A connection: the protocol of its listener, and what its client sends. -/
structure Connection where
  proto : Proto
  input : Bytes

/-- The server before its first step, with the connections it will accept. -/
def Shared.run {ι : Type} (shared : Shared) (conns : ι → Connection) : Pool ι (Ask.Val C) Unit where
  procs i := (conns i).proto.handle shared.cfg (conns i).input
  free := shared.crushSlots

end EtherealDb
