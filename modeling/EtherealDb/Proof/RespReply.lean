import EtherealDb.Proof.RespRead

/-!
# Redis replies

Every arm of `dispatch` writes one reply of the grammar (`run_reply`): the counts it
declares are the counts it writes.

* `dispatch_framed`: **the bytes of a known command are one reply**, an `MGET` element
  is the `GET` reply of its key, and `STRLEN` is the length of the `GET` value.
* `round_unknown`: **an unknown command is answered with one error line exactly when its
  name holds no CR LF**, ghosts apart.
-/

namespace EtherealDb.Resp

open Str
open Resp2 (Reply WellFormed LineText)

variable {C : Crates}

/-! ## Writers -/

theorem simple_eq (s : Str) : simple s = Resp2.encode (.simple (Utf8.encode s)) := by
  rw [Resp2.encode]; rfl

theorem error_eq (s : Str) : error s = Resp2.encode (.error (Utf8.encode s)) := by
  rw [Resp2.encode]; rfl

theorem bulk_eq (d : Bytes) : bulk d = Resp2.encode (.bulk d) := by
  rw [bulk, encode_decimal, Resp2.encode]
  rfl

/-- A client reads a bulk string back, so two of them are told apart. -/
theorem bulk_injective {d e : Bytes} (h : bulk d = bulk e) : d = e := by
  have hread : ∀ b : Bytes, Resp2.parse 1 (bulk b) = some (.bulk b, []) := by
    intro b
    rw [bulk_eq, ← List.append_nil (Resp2.encode _)]
    exact Resp2.parse_encode (.bulk b) (Resp2.depth_bulk b).le []
  have hboth := (hread d).symm.trans ((congrArg (Resp2.parse 1) h).trans (hread e))
  exact Reply.bulk.inj (Prod.mk.inj (Option.some.inj hboth)).1

theorem integer_eq (n : ℤ) : integer n = Resp2.encode (.int n) := by
  have h : Utf8.encode (intText n) = Resp2.intBytes n := by
    unfold intText Resp2.intBytes
    split
    · rw [Utf8.encode_cons, encode_decimal]; rfl
    · rw [encode_decimal]
  rw [integer, h, Resp2.encode]
  rfl

/-- A header with as many replies after it as it declares. -/
theorem array_eq (l : List Reply) :
    arrayHeader l.length ++ l.flatMap Resp2.encode = Resp2.encode (.array l) := by
  rw [arrayHeader, encode_decimal, Resp2.encode]
  rfl

/-! ## Arms -/

/-- The bytes are one reply that nests at most `d` deep. -/
def IsReply (d : ℕ) (b : Bytes) : Prop :=
  ∃ r, WellFormed r ∧ Resp2.depth r ≤ d ∧ b = Resp2.encode r

theorem isReply_bulk (d : Bytes) : IsReply 1 (bulk d) :=
  ⟨_, .bulk d, by simp [Resp2.depth], bulk_eq d⟩

theorem isReply_integer (n : ℤ) : IsReply 1 (integer n) :=
  ⟨_, .int n, by simp [Resp2.depth], integer_eq n⟩

theorem isReply_simple {s : Str} (h : LineText (Utf8.encode s)) : IsReply 1 (simple s) :=
  ⟨_, .simple h, by simp [Resp2.depth], simple_eq s⟩

theorem isReply_error {s : Str} (h : LineText (Utf8.encode s)) : IsReply 1 (error s) :=
  ⟨_, .error h, by simp [Resp2.depth], error_eq s⟩

theorem IsReply.mono {d e : ℕ} {b : Bytes} (h : IsReply d b) (hde : d ≤ e) : IsReply e b := by
  obtain ⟨r, h1, h2, h3⟩ := h
  exact ⟨r, h1, h2.trans hde, h3⟩

/-- **A header and as many replies as it declares** are one reply. -/
theorem isReply_array {d : ℕ} {l : List Bytes} (h : ∀ b ∈ l, IsReply d b) :
    IsReply (d + 1) (arrayHeader l.length ++ l.flatten) := by
  obtain ⟨rs, hlen, hrs, hflat⟩ : ∃ rs : List Reply, rs.length = l.length ∧
      (∀ r ∈ rs, WellFormed r ∧ Resp2.depth r ≤ d) ∧ l.flatten = rs.flatMap Resp2.encode := by
    induction l with
    | nil => exact ⟨[], rfl, by simp, rfl⟩
    | cons b l ih =>
      obtain ⟨r, h1, h2, rfl⟩ := h b (by simp)
      obtain ⟨rs, h3, h4, h5⟩ := ih fun c hc => h c (by simp [hc])
      refine ⟨r :: rs, by simp [h3], ?_, by simp [h5]⟩
      intro s hs
      rcases List.mem_cons.1 hs with rfl | hs
      · exact ⟨h1, h2⟩
      · exact h4 s hs
  exact ⟨.array rs, .array fun r hr => (hrs r hr).1,
    Resp2.depth_array_le fun r hr => (hrs r hr).2, by rw [← hlen, hflat, array_eq]⟩

/-- The loop of bulk strings under its header. -/
theorem isReply_bulks (n : ℕ) (d : Draw C Str) (rng : C.Rng) :
    IsReply 2 (arrayHeader n ++ (bulks n d rng).1) := by
  have h := isReply_array (d := 1) (l := (d.times n rng).1.map fun s => bulk (Utf8.encode s)) (by
    intro b hb
    obtain ⟨s, -, rfl⟩ := List.mem_map.1 hb
    exact isReply_bulk _)
  rw [List.length_map, Draw.length_times] at h
  exact h

/-- The loop of `HGETALL` writes two bulk strings a round. -/
theorem isReply_hash (cfg : Config) (n : ℕ) (rng : C.Rng) :
    IsReply 2 (arrayHeader (n * 2) ++ (Draw.times (hashField cfg) n rng).1.flatten) := by
  have hpair : ∀ n (rng : C.Rng), ∃ l : List Bytes, l.length = n * 2 ∧ (∀ b ∈ l, IsReply 1 b) ∧
      (Draw.times (hashField cfg) n rng).1.flatten = l.flatten := by
    intro n
    induction n with
    | zero => exact fun _ => ⟨[], rfl, by simp, rfl⟩
    | succ n ih =>
      intro rng
      -- the field, then its value from the generator as the field left it
      let f := pick keyFields rng
      let v := valueForKey (Utf8.encode f.1) cfg f.2
      obtain ⟨l, h1, h2, h3⟩ := ih v.2
      refine ⟨bulk (Utf8.encode f.1) :: bulk (Utf8.encode v.1) :: l, ?_, ?_, ?_⟩
      · simp only [List.length_cons, h1]; omega
      · intro b hb
        rcases List.mem_cons.1 hb with rfl | hb
        · exact isReply_bulk _
        · rcases List.mem_cons.1 hb with rfl | hb
          · exact isReply_bulk _
          · exact h2 b hb
      · have hstep : (Draw.times (hashField cfg) (n + 1) rng).1 =
            (bulk (Utf8.encode f.1) ++ bulk (Utf8.encode v.1)) ::
              (Draw.times (hashField cfg) n v.2).1 := rfl
        rw [hstep, List.flatten_cons, h3]
        simp
  obtain ⟨l, h1, h2, h3⟩ := hpair n rng
  rw [h3, ← h1]
  exact isReply_array h2

/-- **Every arm writes one reply.** -/
theorem run_reply (cfg : Config) (os : ℕ → C.Rng) (name : Bytes) (args : List Bytes) (c : Cmd) :
    IsReply 3 (run cfg os (name :: args) c) := by
  have hok : IsReply 3 (simple "OK") := (isReply_simple (by decide)).mono (by omega)
  cases c with
  | ping =>
    unfold run
    cases args with
    | nil => exact (isReply_simple (by decide)).mono (by omega)
    | cons m args => exact (isReply_bulk m).mono (by omega)
  | echo => exact (isReply_bulk _).mono (by omega)
  | ok => exact hok
  | hello => exact (isReply_error (by decide)).mono (by omega)
  | command => exact (isReply_array (d := 1) (l := []) (by simp)).mono (by omega)
  | get => exact (isReply_bulk _).mono (by omega)
  | mget =>
    -- one value for each key after the command name
    have h := isReply_array (d := 1) (l := args.mapIdx fun i k =>
      bulk (Utf8.encode (valueForKey k cfg (seedRng cfg k (os i))).1)) (by
        intro b hb
        obtain ⟨i, hi, rfl⟩ := List.mem_mapIdx.1 hb
        exact isReply_bulk _)
    rw [List.length_mapIdx] at h
    exact h.mono (by omega)
  | strlen => exact (isReply_integer _).mono (by omega)
  | hget => exact (isReply_bulk _).mono (by omega)
  | hgetall => exact (isReply_hash cfg _ _).mono (by omega)
  | hkeys => exact (isReply_bulks _ _ _).mono (by omega)
  | keys => exact (isReply_bulks _ _ _).mono (by omega)
  | scan =>
    let n := C.randomRangeIncl .usize cfg.rowsMin (max cfg.rowsMax cfg.rowsMin)
      (seedRng cfg ((name :: args)[1]?.getD []) (os 0))
    -- the cursor, then the page
    have h := isReply_array (d := 2) (l := [bulk (Utf8.encode "0"),
      arrayHeader n.1.toNat ++ (bulks n.1.toNat (fakeKey cfg.theme) n.2).1]) (by
        intro b hb
        rcases List.mem_cons.1 hb with rfl | hb
        · exact (isReply_bulk _).mono (by omega)
        · rw [List.mem_singleton.1 hb]
          exact isReply_bulks _ _ _)
    have heq : run cfg os (name :: args) .scan = arrayHeader 2 ++
        [bulk (Utf8.encode "0"), arrayHeader n.1.toNat ++
          (bulks n.1.toNat (fakeKey cfg.theme) n.2).1].flatten := by
      simp [run, n]
    rw [heq]
    exact h
  | exists' => exact (isReply_integer _).mono (by omega)
  | incr => exact (isReply_integer _).mono (by omega)
  | ttl => exact (isReply_integer _).mono (by omega)
  | one => exact (isReply_integer _).mono (by omega)
  | type => exact (isReply_simple (by decide)).mono (by omega)
  | dbsize => exact (isReply_integer _).mono (by omega)
  | llen => exact (isReply_integer _).mono (by omega)
  | lrange => exact (isReply_bulks _ _ _).mono (by omega)
  | config =>
    have h := isReply_array (d := 1) (l := [bulk (Utf8.encode
      (((name :: args)[2]?.map Utf8.fromUtf8Lossy).getD [])), bulk []]) (by
        intro b hb
        rcases List.mem_cons.1 hb with rfl | hb
        · exact isReply_bulk _
        · rw [List.mem_singleton.1 hb]; exact isReply_bulk _)
    have heq : run cfg os (name :: args) .config = arrayHeader 2 ++
        [bulk (Utf8.encode (((name :: args)[2]?.map Utf8.fromUtf8Lossy).getD [])),
          bulk []].flatten := by
      simp [run]
    rw [heq]
    exact h.mono (by omega)
  | info => exact (isReply_bulk _).mono (by omega)

theorem IsReply.parse {b : Bytes} (h : IsReply 3 b) :
    ∃ r, ∀ rest, Resp2.parse 3 (b ++ rest) = some (r, rest) := by
  obtain ⟨r, h1, h2, rfl⟩ := h
  exact ⟨r, fun rest => Resp2.parse_encode h1 h2 rest⟩

/-- **The bytes of a known command are one reply.** With a seed, the elements of an
`MGET` reply are the `GET` replies of the keys, in order, and `STRLEN` gives the length of
the `GET` value. -/
theorem dispatch_framed (cmd : Str) (h : (cmdOf cmd).isSome) (cfg : Config) (os : ℕ → C.Rng)
    (name : Bytes) (args : List Bytes) :
    (∃ r, ∀ rest, Resp2.parse 3 (dispatch cmd (name :: args) cfg os ++ rest) = some (r, rest)) ∧
    (cfg.seed.isSome →
      (∀ (keys : List Bytes) (g : Bytes) (more : List Bytes) (os' : ℕ → C.Rng), ∃ items,
        Resp2.parse 3 (dispatch "MGET" (name :: keys) cfg os) = some (.array items, []) ∧
          items.map Resp2.encode = keys.map fun k => dispatch "GET" (g :: k :: more) cfg os') ∧
      ∀ (key g : Bytes) (more more' : List Bytes) (os' : ℕ → C.Rng), ∃ v,
        dispatch "GET" (g :: key :: more) cfg os' = Resp2.encode (.bulk v) ∧
          dispatch "STRLEN" (name :: key :: more') cfg os = Resp2.encode (.int v.length)) := by
  refine ⟨?_, fun hseed => ⟨?_, ?_⟩⟩
  · obtain ⟨c, hc⟩ := Option.isSome_iff_exists.1 h
    have hd : dispatch cmd (name :: args) cfg os = run cfg os (name :: args) c := by
      simp [dispatch, hc]
    rw [hd]
    exact (run_reply cfg os name args c).parse
  · intro keys g more os'
    -- with a seed, the value of a key is the same wherever it is asked
    let value := fun k => Utf8.encode (valueForKey k cfg (seedRng cfg k (os' 0))).1
    refine ⟨keys.map fun k => .bulk (value k), ?_, ?_⟩
    · have heq : dispatch "MGET" (name :: keys) cfg os =
          Resp2.encode (.array (keys.map fun k => .bulk (value k))) := by
        have hrun : dispatch "MGET" (name :: keys) cfg os = arrayHeader keys.length ++
            (keys.mapIdx fun i k =>
              bulk (Utf8.encode (valueForKey k cfg (seedRng cfg k (os i))).1)).flatten := rfl
        have hvalue : (keys.mapIdx fun i k =>
            bulk (Utf8.encode (valueForKey k cfg (seedRng cfg k (os i))).1)) =
              keys.map fun k => Resp2.encode (.bulk (value k)) := by
          rw [List.mapIdx_eq_iff]
          intro i
          rw [List.getElem?_map]
          cases keys[i]? with
          | none => rfl
          | some k =>
            simp only [Option.map_some, value, ← bulk_eq,
              seedRng_seeded hseed k (os i) (os' 0)]
        rw [hrun, hvalue, ← array_eq, List.length_map, List.flatMap_map]
        rfl
      have hwell : WellFormed (.array (keys.map fun k => Reply.bulk (value k))) := .array fun r hr => by
        obtain ⟨k, -, rfl⟩ := List.mem_map.1 hr
        exact .bulk _
      have hdepth : Resp2.depth (.array (keys.map fun k => Reply.bulk (value k))) ≤ 3 := by
        refine (Resp2.depth_array_le (d := 1) fun r hr => ?_).trans (by omega)
        obtain ⟨k, -, rfl⟩ := List.mem_map.1 hr
        exact (Resp2.depth_bulk _).le
      have := Resp2.parse_encode hwell hdepth []
      rw [heq]
      simpa using this
    · simp only [List.map_map]
      refine List.map_congr_left ?_
      intro k _
      exact (bulk_eq _).symm
  · intro key g more more' os'
    refine ⟨Utf8.encode (valueForKey key cfg (seedRng cfg key (os' 0))).1, bulk_eq _, ?_⟩
    have heq : dispatch "STRLEN" (name :: key :: more') cfg os =
        integer (len (valueForKey key cfg (seedRng cfg key (os 0))).1) := rfl
    rw [heq, integer_eq, Utf8.length_encode, seedRng_seeded hseed key (os 0) (os' 0)]

/-- A configuration with a seed. -/
def oneSeed : Config := { Config.default with seed := some 1 }

/-- `MGET` of two keys, and `GET` and `STRLEN` of a key, each with generators of its own. -/
theorem dispatch_framed_mget : (cmdOf "MGET").isSome ∧ oneSeed.seed.isSome ∧
    (∃ r, ∀ rest, Resp2.parse 3 (dispatch (C := .least) "MGET" [Utf8.encode "mget", Utf8.encode "id",
      Utf8.encode "name"] oneSeed (fun _ => ()) ++ rest) = some (r, rest)) ∧
    (∃ items, Resp2.parse 3 (dispatch (C := .least) "MGET" [Utf8.encode "mget", Utf8.encode "id",
        Utf8.encode "name"] oneSeed fun _ => ()) = some (.array items, []) ∧
      items.map Resp2.encode = [Utf8.encode "id", Utf8.encode "name"].map fun k =>
        dispatch (C := .least) "GET" [Utf8.encode "get", k] oneSeed fun _ => ()) ∧
    ∃ v, dispatch (C := .least) "GET" [Utf8.encode "get", Utf8.encode "id"] oneSeed (fun _ => ()) =
        Resp2.encode (.bulk v) ∧
      dispatch (C := .least) "STRLEN" [Utf8.encode "mget", Utf8.encode "id"] oneSeed (fun _ => ()) =
        Resp2.encode (.int v.length) := by
  obtain ⟨hone, hseeded⟩ := dispatch_framed (C := .least) "MGET" (by decide) oneSeed (fun _ => ())
    (Utf8.encode "mget") [Utf8.encode "id", Utf8.encode "name"]
  obtain ⟨hmget, hstrlen⟩ := hseeded rfl
  exact ⟨by decide, rfl, hone, hmget _ _ [] _, hstrlen _ _ [] [] _⟩

/-! ## Unknown commands -/

/-- **Exactly one error line**: it begins with a minus sign, and its only CR LF is the one
that ends it. -/
structure IsErrorLine (b : Bytes) : Prop where
  minus : b.head? = some 45
  ends : ∃ x, b = x ++ crlf
  only : ∀ x y, b = x ++ crlf ++ y → y = []

/-- No byte pair CR LF. -/
def NoCrlf (b : Bytes) : Prop := ∀ x y, b ≠ x ++ crlf ++ y

theorem noCrlf_iff (b : Bytes) : NoCrlf b ↔ Utf8.crlfBytes false b = false := by
  rw [← Bool.not_eq_true, Utf8.crlfBytes, Utf8.pairIn_iff]
  constructor
  · rintro h ⟨x, c, d, y, rfl, hc, hd⟩
    obtain rfl : c = 13 := by simpa using hc
    obtain rfl : d = 10 := by simpa using hd
    exact h x y (by simp [crlf])
  · intro h x y hb
    exact h ⟨x, 13, 10, y, by simp [hb, crlf], rfl, rfl⟩

/-- **An error is one line exactly when its text has no CR LF.** -/
theorem isErrorLine_error (s : Str) : IsErrorLine (error s) ↔ NoCrlf (Utf8.encode s) := by
  constructor
  · rintro ⟨-, -, honly⟩ x y hs
    have := honly (45 :: x) (y ++ crlf) (by simp [error, hs])
    simp [crlf] at this
  · intro h
    refine ⟨rfl, ⟨45 :: Utf8.encode s, rfl⟩, ?_⟩
    intro x y hxy
    by_contra hy
    -- the final LF closes `y`, and what is before it is CR or closes `y` too
    obtain ⟨y, e, rfl⟩ := (List.eq_nil_or_concat y).resolve_left hy
    have h1 : 45 :: Utf8.encode s ++ [13] ++ [10] = x ++ crlf ++ y ++ [e] := by
      simpa [error, crlf] using hxy
    have h2 := (List.append_inj' h1 rfl).1
    rcases List.eq_nil_or_concat y with rfl | ⟨y, d, rfl⟩
    · have h3 : (45 :: Utf8.encode s) ++ [13] = (x ++ [13]) ++ [10] := by simpa [crlf] using h2
      have := (List.append_inj' h3 rfl).2
      simp at this
    · have h3 : (45 :: Utf8.encode s) ++ [13] = (x ++ crlf ++ y) ++ [d] := by simpa using h2
      have h4 := (List.append_inj' h3 rfl).1
      cases x with
      | nil => simp [crlf] at h4
      | cons b x => exact h x y (List.cons.inj h4).2

/-- **The answer to an unknown command** has a CR LF where its name has one. -/
theorem noCrlf_unknown (a : Bytes) :
    NoCrlf (Utf8.encode (unknownCommand (cmdName a))) ↔ NoCrlf a := by
  have hpre : ∀ c ∈ "ERR unknown command '".toList, (c == '\r') = false ∧ (c == '\n') = false := by
    simp
  have hskip : ∀ s : Str, Utf8.crlfChars false ("ERR unknown command '".toList ++ s) =
      Utf8.crlfChars false s := Utf8.crlfChars_skip hpre (by simp)
  have hlast : ∀ s : Str, Utf8.crlfChars false (s ++ ['\'']) = Utf8.crlfChars false s :=
    fun s => Utf8.pairIn_concat rfl
  rw [noCrlf_iff, noCrlf_iff, Utf8.crlf_encode]
  unfold unknownCommand cmdName
  rw [hlast, hskip, Utf8.crlf_lower_upper, Utf8.crlf_lossy]

/-- What the loop does with an unknown command: a ghost ends the connection or answers
with its error, or the command is named in an error line. -/
theorem answer_unknown (cfg : Config) (o : Outcome C) {a : Bytes} (args : List Bytes)
    (h : cmdOf (cmdName a) = none) :
    (cfg.ghosts.haunting ∧ (o.crashed cfg ∨ o.dropped cfg) ∧
      answer cfg o (a :: args) = ⟨[], false, true⟩) ∨
    (cfg.ghosts.haunting ∧ o.errored cfg ∧
      answer cfg o (a :: args) = .reply (error "ERR a ghost ate your command")) ∨
    (¬(cfg.ghosts.haunting ∧ (o.crashed cfg ∨ o.dropped cfg ∨ o.errored cfg)) ∧
      answer cfg o (a :: args) = .reply (error (unknownCommand (cmdName a)))) := by
  -- QUIT and KEYS are known, so neither of their special cases applies
  have hne : ∀ s c, cmdOf s = some c → cmdName a ≠ s := by
    rintro s c hs rfl
    rw [h] at hs
    cases hs
  have hquit : cmdName a ≠ ("QUIT" : Str) := hne _ .ok (by decide)
  have hkeys : cmdName a ≠ ("KEYS" : Str) := hne _ .keys (by decide)
  have hdis : dispatch (cmdName a) (a :: args) cfg o.os = error (unknownCommand (cmdName a)) := by
    unfold dispatch
    rw [h]
  unfold answer
  dsimp only
  by_cases hc : cfg.ghosts.haunting ∧ o.crashed cfg
  · exact Or.inl ⟨hc.1, Or.inl hc.2, if_pos ⟨hc.1, hquit, hc.2⟩⟩
  rw [if_neg fun h => hc ⟨h.1, h.2.2⟩]
  by_cases hd : cfg.ghosts.haunting ∧ o.dropped cfg
  · exact Or.inl ⟨hd.1, Or.inr hd.2, if_pos ⟨hd.1, hquit, hd.2⟩⟩
  rw [if_neg fun h => hd ⟨h.1, h.2.2⟩]
  by_cases he : cfg.ghosts.haunting ∧ o.errored cfg
  · exact Or.inr (Or.inl ⟨he.1, he.2, if_pos ⟨he.1, hquit, he.2⟩⟩)
  rw [if_neg fun h => he ⟨h.1, h.2.2⟩, if_neg fun hk => hkeys hk.1, hdis]
  refine Or.inr (Or.inr ⟨?_, by rw [decide_eq_true hquit]; rfl⟩)
  rintro ⟨hh, hg | hg | hg⟩
  · exact hc ⟨hh, hg⟩
  · exact hd ⟨hh, hg⟩
  · exact he ⟨hh, hg⟩

/-- **One error line for an unknown command.** The bytes sent are exactly one error line if
and only if a ghost ended the connection or put its own error in the way, or the name
holds no CR LF. -/
theorem round_unknown {C : Crates} (cfg : Config) (o : Outcome C) (c : Command C.memory)
    (rest : Bytes)
    (h : cmdOf (cmdName (c.args.head c.ne)) = none) :
    (∃ ans, round cfg o (c.encode ++ rest) = some (ans, rest) ∧
      (ans.dropped = false → IsErrorLine ans.bytes)) ↔
    cfg.ghosts.haunting ∧ (o.crashed cfg ∨ o.dropped cfg ∨ o.errored cfg) ∨
      NoCrlf (c.args.head c.ne) := by
  obtain ⟨a, args, hargs⟩ := List.exists_cons_of_ne_nil c.ne
  have ha : c.args.head c.ne = a := by simp [hargs]
  rw [ha] at h ⊢
  have hround : round cfg o (c.encode ++ rest) = some (answer cfg o (a :: args), rest) := by
    rw [round, readCommand_encode, hargs]
  have hghost : IsErrorLine (error "ERR a ghost ate your command") := by
    rw [isErrorLine_error, noCrlf_iff, Utf8.crlf_encode]
    decide
  have hline : (∃ ans, round cfg o (c.encode ++ rest) = some (ans, rest) ∧
      (ans.dropped = false → IsErrorLine ans.bytes)) ↔
      ((answer cfg o (a :: args)).dropped = false → IsErrorLine (answer cfg o (a :: args)).bytes) := by
    rw [hround]
    simp
  rw [hline]
  rcases answer_unknown cfg o args h with ⟨hh, hd, heq⟩ | ⟨hh, he, heq⟩ | ⟨hno, heq⟩
  · rw [heq]
    exact ⟨fun _ => Or.inl ⟨hh, hd.imp_right Or.inl⟩, fun _ hdrop => by cases hdrop⟩
  · rw [heq]
    exact ⟨fun _ => Or.inl ⟨hh, Or.inr (Or.inr he)⟩, fun _ _ => hghost⟩
  · rw [heq, or_iff_right hno, ← noCrlf_unknown, ← isErrorLine_error]
    exact ⟨fun hall => hall rfl, fun herr _ => herr⟩

/-- A command whose name is two lines. -/
def twoLines : Command Crates.least.memory where
  args := [[65, 13, 10, 66]]
  ne := by decide
  slots := by decide
  buffers := by decide

theorem round_two_lines : cmdOf (cmdName (twoLines.args.head twoLines.ne)) = none ∧
    ¬∃ ans, round .default .quiet (twoLines.encode ++ []) = some (ans, []) ∧
      ans.dropped = false ∧ IsErrorLine ans.bytes := by
  have hname : cmdName [65, 13, 10, 66] = "A\r\nB".toList := by decide
  have hnone : cmdOf "A\r\nB".toList = none := by decide
  refine ⟨by rw [show twoLines.args.head twoLines.ne = [65, 13, 10, 66] from rfl, hname, hnone], ?_⟩
  rintro ⟨ans, hans, -, hline⟩
  have hans' : answer .default .quiet twoLines.args = ans := by
    rw [round, readCommand_encode] at hans
    exact (Prod.mk.inj (Option.some.inj hans)).1
  have hquiet : ¬Config.default.ghosts.haunting := by decide
  have hbytes : ans.bytes = error (unknownCommand "A\r\nB".toList) := by
    rw [← hans', ← hname]
    rcases answer_unknown .default .quiet [] (by rw [hname, hnone]) with
      ⟨hh, -⟩ | ⟨hh, -⟩ | ⟨-, heq⟩
    · exact absurd hh hquiet
    · exact absurd hh hquiet
    · exact congrArg Answer.bytes heq
  rw [hbytes, isErrorLine_error, ← hname, noCrlf_unknown] at hline
  exact hline [65] [66] rfl

/-- A command that is not known. -/
def foo : Command Crates.least.memory where
  args := [Utf8.encode "foo"]
  ne := by decide
  slots := by decide
  buffers := by decide

theorem round_foo : cmdOf (cmdName (foo.args.head foo.ne)) = none ∧
    ((∃ ans, round .default .quiet (foo.encode ++ []) = some (ans, []) ∧
      (ans.dropped = false → IsErrorLine ans.bytes)) ↔
    Config.default.ghosts.haunting ∧
      (Outcome.quiet.crashed .default ∨ Outcome.quiet.dropped .default ∨
        Outcome.quiet.errored .default) ∨
        NoCrlf (foo.args.head foo.ne)) :=
  have h : cmdOf (cmdName (foo.args.head foo.ne)) = none := by decide
  ⟨h, round_unknown .default .quiet foo [] h⟩

end EtherealDb.Resp
