import EtherealDb.Proof.RespPipeline
import EtherealDb.Proof.Server

/-!
# The Redis keyspace

With a seed, the Redis frontend is a store that nothing changes: each key has one value, for every
connection and at every time, whatever the commands before it claim to write or to delete.

* `Keyspace`: such a store, and what it answers.
* `run_keyspace`, `answer_keyspace`: one command is answered from it.
* `server_keyspace`: **all connections of a server read one keyspace**, in any order of their steps.
-/

namespace EtherealDb.Resp

open Str
open Resp2 (Reply WellFormed)

variable {C : Crates}

/-! ## The store -/

/-- **A keyspace**: every key is there, and has a value. -/
structure Keyspace where
  value : Bytes → Bytes

/-- What a keyspace answers, by the arm of the command: the value of a key, those of many, or the
length of one; a field of a hash has the value of a key of its name. Every key exists, and is a
string. A write is agreed to, and forgotten. -/
def Keyspace.reply (ks : Keyspace) (args : List Bytes) : Cmd → Option Reply
  | .get => some (.bulk (ks.value (args[1]?.getD [])))
  | .mget => some (.array (args.tail.map fun key => .bulk (ks.value key)))
  | .strlen => some (.int (ks.value (args[1]?.getD [])).length)
  | .hget => some (.bulk (ks.value (args[2]?.getD (args[1]?.getD []))))
  | .exists' => some (.int (args.length - 1 : ℕ))
  | .type => some (.simple (Utf8.encode "string"))
  | .ok => some (.simple (Utf8.encode "OK"))
  | .one => some (.int 1)
  | _ => none

/-- The keyspace of a configuration with a seed. -/
def Keyspace.of (C : Crates) (cfg : Config) (seed : UInt64) : Keyspace where
  value key := Utf8.encode (valueForKey key cfg (C.seedFromU64 (seed ^^^ fnv64 key))).1

variable {cfg : Config} {seed : UInt64}

theorem seedRng_seed (hseed : cfg.seed = some seed) (key : Bytes) (os : C.Rng) :
    seedRng cfg key os = C.seedFromU64 (seed ^^^ fnv64 key) := by
  unfold seedRng
  rw [hseed]

/-- **An arm of `dispatch` answers from the keyspace**, whatever the operating system draws. -/
theorem run_keyspace (hseed : cfg.seed = some seed) (os : ℕ → C.Rng) {args : List Bytes} {c : Cmd} {r : Reply}
    (hr : (Keyspace.of C cfg seed).reply args c = some r) :
    WellFormed r ∧ run cfg os args c = Resp2.encode r := by
  have hbulk : ∀ key i, bulk (Utf8.encode (valueForKey key cfg (seedRng cfg key (os i))).1) =
      Resp2.encode (.bulk ((Keyspace.of C cfg seed).value key)) := by
    intro key i
    rw [seedRng_seed hseed, bulk_eq]
    rfl
  cases c with
  | get | hget =>
    obtain rfl := Option.some.inj hr
    exact ⟨.bulk _, hbulk _ 0⟩
  | mget =>
    obtain rfl := Option.some.inj hr
    refine ⟨.array ?_, ?_⟩
    · intro r hr
      obtain ⟨key, -, rfl⟩ := List.mem_map.1 hr
      exact .bulk _
    · have hitems : (args.tail.mapIdx fun i key =>
          bulk (Utf8.encode (valueForKey key cfg (seedRng cfg key (os i))).1)) =
            (args.tail.map fun key => Reply.bulk ((Keyspace.of C cfg seed).value key)).map Resp2.encode := by
        refine List.ext_getElem (by simp) fun i _ _ => ?_
        rw [List.getElem_mapIdx, List.getElem_map, List.getElem_map, hbulk]
      have harray := array_eq (args.tail.map fun key => Reply.bulk ((Keyspace.of C cfg seed).value key))
      rw [List.length_map, List.length_tail] at harray
      rw [← harray, List.flatMap_def, ← hitems]
      rfl
  | strlen =>
    obtain rfl := Option.some.inj hr
    refine ⟨.int _, ?_⟩
    rw [run, seedRng_seed hseed, integer_eq, Keyspace.of, Utf8.length_encode]
  | exists' | one =>
    obtain rfl := Option.some.inj hr
    exact ⟨.int _, integer_eq _⟩
  | type | ok =>
    obtain rfl := Option.some.inj hr
    exact ⟨.simple (by decide), simple_eq _⟩
  | ping | echo | hello | command | hgetall | hkeys | keys | scan | incr | ttl | dbsize | llen | lrange
  | config | info => cases hr

/-- **A command is answered from the keyspace**, when no ghost is about. -/
theorem answer_keyspace (hseed : cfg.seed = some seed) (hcalm : cfg.ghosts.haunting = false) (o : Outcome C)
    {a : Bytes} {args : List Bytes} {c : Cmd} {r : Reply} (hc : cmdOf (cmdName a) = some c)
    (hr : (Keyspace.of C cfg seed).reply (a :: args) c = some r) :
    WellFormed r ∧ (answer cfg o (a :: args)).bytes = Resp2.encode r := by
  obtain ⟨hwell, hrun⟩ := run_keyspace hseed o.os hr
  have hkeys : cmdName a ≠ ("KEYS" : Str) := by
    intro hname
    rw [hname] at hc
    obtain rfl := Option.some.inj hc
    cases hr
  have hdispatch : dispatch (cmdName a) (a :: args) cfg o.os = Resp2.encode r := by
    rw [dispatch, hc]
    exact hrun
  refine ⟨hwell, ?_⟩
  unfold answer
  simp only [hcalm, Bool.false_eq_true, false_and, if_false, if_neg fun h => hkeys (And.left h)]
  exact hdispatch

/-- The reply to a command is the one of the keyspace, where that has one. -/
def Request.Reads {memory : Memory} (ks : Keyspace) (q : Request memory) (r : Reply) : Prop :=
  ∀ c r', cmdOf (cmdName q.name) = some c → ks.reply q.args c = some r' → r = r'

theorem reads_of_answers {memory : Memory} (hseed : cfg.seed = some seed)
    (hcalm : cfg.ghosts.haunting = false) {q : Request memory} {r : Reply}
    (h : q.Answers (C := C) cfg r) : q.Reads (Keyspace.of C cfg seed) r := by
  obtain ⟨hwell, o, hbytes⟩ := h
  obtain ⟨a, args, hargs⟩ := List.exists_cons_of_ne_nil q.ne
  have hname : q.name = a := by simp [Request.name, hargs]
  intro c r' hc hr
  rw [hname] at hc
  rw [hargs] at hr hbytes
  obtain ⟨hwell', hanswer⟩ := answer_keyspace hseed hcalm o hc hr
  exact Resp2.encode_injective hwell hwell' (hbytes.trans hanswer)

variable {ι : Type} [DecidableEq ι] {n : ℕ} {conns : ι → Connection}
  {tr : List (ι × Event (Ask.Val C))} {t : Pool ι (Ask.Val C) Unit}

/-- **All connections of a server read one keyspace.** In every run of a server with a seed and without
ghosts, whatever its other connections do and in whatever order, a Redis client whose commands have
names that are known or without a line break reads one reply for each command up to a QUIT, and what
it reads, counts, writes and deletes is answered from the keyspace of the configuration: no write
ever changes what is read. -/
theorem server_keyspace (hseed : cfg.seed = some seed) (hcalm : cfg.ghosts.haunting = false)
    (h : ((Shared.new cfg n).run conns).Run tr t) {i : ι} {qs : List (Request C.memory)}
    (hnamed : ∀ q ∈ qs, q.Named) (hconn : conns i = ⟨.redis, qs.flatMap Request.encode⟩) (hdone : ∃ r, t.procs i = .done r)
    (hfault : Faultless (Pool.of i tr)) :
    ∃ rs, Resp2.many (Resp2.parse 3) rs.length (sentAll (Pool.of i tr)) = some (rs, []) ∧
      List.Forall₂ (Request.Reads (Keyspace.of C cfg seed)) (answered qs) rs := by
  have hpipelined : (Conn.handle cfg (qs.flatMap Request.encode) : Act C Unit).wp fun out _ =>
      Pipelined (C := C) cfg qs out := by
    refine Proc.wp_mono (Conn.handle_wp cfg _) ?_
    rintro out r ⟨-, os, hos, rfl⟩
    have hlen := length_requests qs
    exact pipelined_session cfg hnamed (by omega)
  obtain ⟨r, hr⟩ := hdone
  have hpath : Proc.Path ((conns i).proto.handle cfg (conns i).input) (Pool.of i tr) (t.procs i) := h.path i
  rw [hconn] at hpath
  obtain ⟨out, r', ⟨done, rs, hmany, hall, -, hwhole⟩, -, hend⟩ :=
    (orderly_handle cfg .redis _).sends hpipelined hpath
  obtain rfl : done = answered qs := hwhole.resolve_right fun hh => by simp [Severs, hcalm] at hh
  rw [(hend r hr hfault).2]
  exact ⟨rs, hmany, hall.imp fun q r h => reads_of_answers hseed hcalm h⟩

/-- `GET id`, on a line. -/
def getId : Inline where
  words := [Utf8.encode "GET", Utf8.encode "id"]
  ne := by decide
  word := by
    have hall : [Utf8.encode "GET", Utf8.encode "id"].all fun w =>
        !w.isEmpty && w.all fun b => !isAsciiWhitespace b := by decide
    simpa using List.all_eq_true.1 hall
  star := by decide

/-- The reply to it. -/
def oneId : Event (Ask.Val .least) := .wrote (Utf8.encode "$1\r\n1\r\n") none

/-- A client that sends it. -/
def getsId : List (Request Crates.least.memory) := [.inline getId]

theorem server_keyspace_id : ∃ t : Pool Unit (Ask.Val .least) Unit,
    ((Shared.new seeded 1).run fun _ => ⟨.redis, getsId.flatMap Request.encode⟩).Run
      [((), oneId)] t ∧
    ∃ rs, Resp2.many (Resp2.parse 3) rs.length (Utf8.encode "$1\r\n1\r\n") = some (rs, []) ∧
      List.Forall₂ (Request.Reads (Keyspace.of .least seeded 1)) (answered getsId) rs := by
  have hrun : ∃ t : Pool Unit (Ask.Val .least) Unit,
      ((Shared.new seeded 1).run fun _ => ⟨.redis, getsId.flatMap Request.encode⟩).Run
        [((), oneId)] t ∧ t.procs () = .done none :=
    ⟨_, .cons (.mk (.write _ _ none) rfl) (.nil _), rfl⟩
  obtain ⟨t, h, hdone⟩ := hrun
  have hnamed : ∀ q ∈ getsId, q.Named := by
    intro q hq
    rw [List.mem_singleton.1 hq]
    exact trivial
  have hfault : Faultless (Pool.of () [((), oneId)]) := by
    intro e he
    obtain rfl := List.mem_singleton.1 he
    rfl
  exact ⟨t, h, server_keyspace rfl rfl h hnamed rfl ⟨_, hdone⟩ hfault⟩

end EtherealDb.Resp
