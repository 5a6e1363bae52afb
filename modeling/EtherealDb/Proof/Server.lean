import EtherealDb.Proof.Ghosts
import EtherealDb.Proof.MySqlServe
import EtherealDb.Proof.PgStartup
import EtherealDb.Proof.RespServe
import EtherealDb.Spec.Server

/-!
# The server, in any order of steps

* `server_slots`: **the crush slots are safe.** No order of steps loses one or gives one twice.
* `server_drains`: **every run comes to an end**, and then every slot is free.
* `server_sends`: **every connection is served as if it were alone**, whatever the others do and
  whichever writes fail.
* `server_isolated`: **a calm server gives away nothing** of its other connections.
-/

namespace EtherealDb

open Pool (of using')

variable {C : Crates} {ι : Type} [DecidableEq ι] {cfg : Config} {n : ℕ} {conns : ι → Connection}
  {tr : List (ι × Event (Ask.Val C))} {t : Pool ι (Ask.Val C) Unit}

/-- Every frontend takes and gives back its slots in order. -/
theorem orderly_handle (cfg : Config) (p : Proto) (s : Bytes) :
    Orderly false false (p.handle cfg s : Act C Unit) := by
  cases p with
  | postgres => exact Pg.Conn.orderly_handle cfg s
  | mysql => exact MySql.Conn.orderly_handle cfg s
  | redis => exact Resp.Conn.orderly_handle cfg s

/-- What a connection alone sends when no write fails. -/
def Proto.Sends (C : Crates) (cfg : Config) : Proto → Bytes → Bytes → Prop
  | .postgres, s, out => Pg.Conn.Sends (C := C) cfg s out
  | .mysql, s, out => MySql.Conn.Sends (C := C) cfg s out
  | .redis, s, out => Resp.Conn.Sends (C := C) cfg s out

theorem handle_wp (cfg : Config) (p : Proto) (s : Bytes) :
    (p.handle cfg s : Act C Unit).wp fun out _ => p.Sends C cfg s out := by
  cases p with
  | postgres => exact Proc.wp_mono (Pg.Conn.handle_wp cfg s) fun _ _ h => h.2
  | mysql => exact Proc.wp_mono (MySql.Conn.handle_wp cfg s) fun _ _ h => h.2
  | redis => exact Proc.wp_mono (Resp.Conn.handle_wp cfg s) fun _ _ h => h.2

/-- No loop of a frontend runs out of its fuel, and nothing else can be stuck. -/
theorem handle_total (cfg : Config) (p : Proto) (s : Bytes) : Total (p.handle cfg s : Act C Unit) :=
  (orderly_handle cfg p s).total (handle_wp cfg p s)

/-! ## Slots -/

section Slots

variable [Fintype ι]

/-- **The crush slots are safe.** At every moment of every run, whatever the connections, their
order of steps and the writes that fail, the connections that have a slot and the free slots are
as many as the server was given, which is one at least. A slot is refused exactly when all of them
are taken, and nobody has waited for it. -/
theorem server_slots (h : ((Shared.new cfg n).run conns).Run tr t) :
    1 ≤ max n 1 ∧ t.free + (using' tr).card = max n 1 ∧
      ∀ before after i ok, tr = before ++ (i, .acquired ok) :: after →
        (ok = true ↔ (using' before).card < max n 1) := by
  have horder : ∀ i, Orderly false false (((Shared.new cfg n).run (C := C) conns).procs i) :=
    fun i => orderly_handle cfg _ _
  refine ⟨le_max_right n 1, h.slots horder, ?_⟩
  rintro before after i ok rfl
  exact h.acquired horder

/-- A client that asks a Redis listener for all the keys. -/
def keysClient : Connection := ⟨.redis, Utf8.encode "KEYS *\r\n"⟩

/-- A configuration with crush mode on. -/
def crushing : Config := { Config.default with crush := { CrushConfig.default with enabled := true } }

/-- Two clients ask for a slot, and there is one. -/
def twoKeys : List (Bool × Event (Ask.Val .least)) := [(false, .acquired true), (true, .acquired false)]

theorem twoKeys_run : ∃ t : Pool Bool (Ask.Val .least) Unit,
    ((Shared.new crushing 0).run fun _ => keysClient).Run twoKeys t :=
  ⟨_, .cons (.mk (.acquire _ true) rfl) (.cons (.mk (.acquire _ false) rfl) (.nil _))⟩

theorem server_slots_two : ∃ t : Pool Bool (Ask.Val .least) Unit,
    ((Shared.new crushing 0).run fun _ => keysClient).Run twoKeys t ∧ t.free + (using' twoKeys).card = 1 := by
  obtain ⟨t, h⟩ := twoKeys_run
  exact ⟨t, h, (server_slots h).2.1⟩

end Slots

/-! ## Bytes -/

/-- **Every connection is served as if it were alone.** At every moment of every run, the bytes
that a connection has got out are a beginning of a session on its own input; when the connection
is done and none of its writes has failed, they are the whole session. -/
theorem server_sends (h : ((Shared.new cfg n).run conns).Run tr t) (i : ι) :
    ∃ out, (conns i).proto.Sends C cfg (conns i).input out ∧ sentAll (of i tr) <+: out ∧
      ((∃ r, t.procs i = .done r) → Faultless (of i tr) → sentAll (of i tr) = out) := by
  obtain ⟨out, r, hout, hpre, hend⟩ := (orderly_handle cfg (conns i).proto (conns i).input).sends
    (handle_wp cfg _ _) (h.path i)
  exact ⟨out, hout, hpre, fun ⟨r', hr⟩ hfault => (hend r' hr hfault).2⟩

theorem server_sends_two : ∃ t : Pool Bool (Ask.Val .least) Unit,
    ((Shared.new crushing 0).run fun _ => keysClient).Run twoKeys t ∧
      ∃ out, Proto.redis.Sends .least crushing keysClient.input out ∧ sentAll (of true twoKeys) <+: out := by
  obtain ⟨t, h⟩ := twoKeys_run
  obtain ⟨out, hout, hpre, -⟩ := server_sends h true
  exact ⟨t, h, out, hout, hpre⟩

/-! ## Isolation -/

/-- Bytes that differ at most in what a connection draws for its greeting. -/
def Proto.Alike : Proto → Bytes → Bytes → Prop
  | .postgres, a, b => a = b ∨ ∃ before after pid key pid' key',
    a = before ++ (Pg.Conn.putMsgs [] (Pg.greeting pid key) ++ after) ∧
      b = before ++ (Pg.Conn.putMsgs [] (Pg.greeting pid' key') ++ after)
  | .mysql, a, b => ∃ scramble scramble' after, scramble.length = 20 ∧ scramble'.length = 20 ∧
    a = MySql.writePacket 0 (MySql.Conn.handshake scramble) ++ after ∧
      b = MySql.writePacket 0 (MySql.Conn.handshake scramble') ++ after
  | .redis, a, b => a = b

theorem mysql_session_calm (h : Calm cfg) {os os' : List (Outcome C)} (hlen : os.length = os'.length)
    (s : Bytes) : MySql.Conn.session cfg os s = MySql.Conn.session cfg os' s := by
  induction os generalizing os' s with
  | nil =>
    obtain rfl := List.length_eq_zero_iff.1 hlen.symm
    rfl
  | cons o os ih =>
    cases os' with
    | nil => cases hlen
    | cons o' os' =>
      rw [MySql.Conn.session, MySql.Conn.session, MySql.turn_calm h o o']
      cases MySql.turn cfg o' s with
      | none => rfl
      | some p => exact congrArg (p.1 ++ ·) (ih (by simpa using hlen) p.2)

theorem resp_session_calm (h : Calm cfg) {os os' : List (Outcome C)} (hlen : os.length = os'.length)
    (s : Bytes) : Resp.Conn.session cfg os s = Resp.Conn.session cfg os' s := by
  induction os generalizing os' s with
  | nil =>
    obtain rfl := List.length_eq_zero_iff.1 hlen.symm
    rfl
  | cons o os ih =>
    cases os' with
    | nil => cases hlen
    | cons o' os' =>
      rw [Resp.Conn.session, Resp.Conn.session, Resp.round_calm h o o']
      cases Resp.round cfg o' s with
      | none => rfl
      | some p => simp only [ih (by simpa using hlen) p.2]

/-- A calm session is made from its input. -/
theorem sends_alike (h : Calm cfg) {p : Proto} {s a b : Bytes} (ha : p.Sends C cfg s a)
    (hb : p.Sends C cfg s b) : p.Alike a b := by
  cases p with
  | postgres =>
    rcases ha with ⟨n, params, rest, pid, key, hs, l, hl, rfl⟩ | ⟨hs, n, rest, hasks, rfl⟩
    · rcases hb with ⟨n', params', rest', pid', key', hs', l', hl', rfl⟩ | ⟨hs', -⟩
      · obtain ⟨rfl, rfl⟩ := hs.unique hs'
        rw [Pg.session_calm h (hl.trans hl'.symm), Pg.Conn.putMsgs_all, Pg.Conn.putMsgs_all _ (List.flatten _)]
        exact .inr ⟨_, _, _, _, _, _, rfl, rfl⟩
      · exact absurd hs (hs' _ _ _)
    · rcases hb with ⟨n', params', rest', pid', key', hs', -⟩ | ⟨-, n', rest', hasks', rfl⟩
      · exact absurd hs' (hs _ _ _)
      · rw [(hasks.unique hasks').1]
        exact .inl rfl
  | mysql =>
    obtain ⟨scramble, hlen, ha⟩ := ha
    obtain ⟨scramble', hlen', hb⟩ := hb
    cases hread : MySql.readPacket s with
    | none =>
      rw [hread] at ha hb
      exact ⟨scramble, scramble', [], hlen, hlen', by simpa using ha, by simpa using hb⟩
    | some response =>
      rw [hread] at ha hb
      obtain ⟨os, hos, rfl⟩ := ha
      obtain ⟨os', hos', rfl⟩ := hb
      rw [mysql_session_calm h (hos.trans hos'.symm)]
      exact ⟨scramble, scramble', _, hlen, hlen', rfl, rfl⟩
  | redis =>
    obtain ⟨os, hos, rfl⟩ := ha
    obtain ⟨os', hos', rfl⟩ := hb
    exact resp_session_calm h (hos.trans hos'.symm) s

/-- **A calm server gives away nothing** of its other connections. In any runs of any servers with
one configuration, whatever else they serve, however many slots they have and however their
connections take turns, clients that send the same bytes over the same protocol are sent the same
bytes, but for the draws of the greeting. -/
theorem server_isolated (hcalm : Calm cfg) {κ : Type} [DecidableEq κ] {m : ℕ} {conns' : κ → Connection}
    {tr' : List (κ × Event (Ask.Val C))} {u : Pool κ (Ask.Val C) Unit} {i : ι} {j : κ}
    (h : ((Shared.new cfg n).run conns).Run tr t) (h' : ((Shared.new cfg m).run conns').Run tr' u)
    (hsame : conns i = conns' j) (hdone : ∃ r, t.procs i = .done r) (hdone' : ∃ r, u.procs j = .done r)
    (hfault : Faultless (of i tr)) (hfault' : Faultless (of j tr')) :
    (conns i).proto.Alike (sentAll (of i tr)) (sentAll (of j tr')) := by
  obtain ⟨r, hr⟩ := hdone
  obtain ⟨r', hr'⟩ := hdone'
  obtain ⟨a, _, ha, -, henda⟩ := (orderly_handle cfg (conns i).proto (conns i).input).sends
    (handle_wp cfg _ _) (h.path i)
  obtain ⟨b, _, hb, -, hendb⟩ := (orderly_handle cfg (conns' j).proto (conns' j).input).sends
    (handle_wp cfg _ _) (h'.path j)
  have hsent := (henda r hr hfault).2
  have hsent' := (hendb r' hr' hfault').2
  rw [← hsame] at hb
  rw [hsent, hsent']
  exact sends_alike hcalm ha hb

/-- A client that sends a PING. -/
def pinger : Connection := ⟨.redis, Utf8.encode "PING\r\n"⟩

/-- A configuration with a seed. -/
def seeded : Config := { Config.default with seed := some 1 }

/-- A PONG. -/
def pong : Event (Ask.Val .least) := .wrote (Utf8.encode "+PONG\r\n") none

theorem pinger_run (n : ℕ) : ∃ t : Pool Unit (Ask.Val .least) Unit,
    ((Shared.new seeded n).run fun _ => pinger).Run [((), pong)] t ∧ t.procs () = .done none :=
  ⟨_, .cons (.mk (.write _ _ none) rfl) (.nil _), rfl⟩

theorem server_isolated_pings : Proto.redis.Alike (sentAll (of () [((), pong)])) (sentAll (of () [((), pong)])) := by
  have hcalm : Calm seeded := ⟨rfl, rfl, fun h => by cases h⟩
  have hfault : Faultless (of () [((), pong)]) := by
    intro e he
    obtain rfl := List.mem_singleton.1 he
    rfl
  obtain ⟨t, h, hdone⟩ := pinger_run 1
  obtain ⟨u, h', hdone'⟩ := pinger_run 2
  exact server_isolated hcalm h h' rfl ⟨_, hdone⟩ ⟨_, hdone'⟩ hfault hfault

end EtherealDb
