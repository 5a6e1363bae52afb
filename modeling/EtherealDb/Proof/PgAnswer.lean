import EtherealDb.Proof.Extract
import EtherealDb.Proof.Params
import EtherealDb.Proof.PgRows

/-!
# The Postgres session grammar

Which backend messages answer which frontend message, whatever the configuration and
the world (`Answers`). What is buffered and what goes straight to the socket stay in
order because a crushed statement flushes the buffer first (`Out.all`).

* `respondStatement_all`, `executePortal_all`: the answer to one statement, crushed or not.
* `step_answers`: one round of the loop.
* `session_answers`: **every message of a session is answered by the grammar exactly when no
  described statement has a `$`-number that there is no room for, and no ghost's delay panics.**
-/

namespace EtherealDb.Pg

open Str
open Serve (Next serve Along)

variable {C : Crates}

/-! ## The order of what is written -/

/-- Everything written, sent or not, in order. -/
def Out.all (out : Out) : List Backend := out.sent ++ out.buf

@[simp] theorem all_new : Out.new.all = [] := rfl

@[simp] theorem all_put (out : Out) (m : Backend) : (out.put m).all = out.all ++ [m] :=
  (List.append_assoc ..).symm

@[simp] theorem all_putAll (out : Out) (ms : List Backend) : (out.putAll ms).all = out.all ++ ms :=
  (List.append_assoc ..).symm

@[simp] theorem sent_flush (out : Out) : out.flush.sent = out.all := rfl

/-- **Writing past the buffer keeps the order** once the buffer is flushed. -/
theorem all_flush_write (out : Out) (ms : List Backend) : (out.flush.write ms).all = out.all ++ ms := by
  simp [Out.all, Out.flush, Out.write]

theorem all_write_write (out : Out) (ms ns : List Backend) :
    (out.write ms).write ns = out.write (ms ++ ns) := by
  simp [Out.write]

/-! ## The grammar -/

/-- An optional notice. -/
inductive Noted : List Backend → Prop where
  | none : Noted []
  | one (msg : Str) : Noted [.notice msg]

/-- The answer to a statement of a kind, after the notice: rows and a tag that counts them,
an empty answer, or a tag that counts no rows. With `described`, a RowDescription goes
before the rows. -/
inductive Body (described : Bool) : StmtKind → List Backend → Prop where
  | rows (fields : List Field) (rows : List (List Cell)) : Body described .select
      ((if described then [.rowDescription fields] else []) ++ rows.map .dataRow ++
        [.commandComplete (selectTag rows.length)])
  | empty : Body described .empty [.emptyQueryResponse]
  | command {kind : StmtKind} {tag : Str} (hselect : kind ≠ .select) (hempty : kind ≠ .empty)
      (htag : ∀ n, tag ≠ selectTag n) : Body described kind [.commandComplete tag]

/-- The answer to a statement. -/
def Response (described : Bool) (kind : StmtKind) (ms : List Backend) : Prop :=
  ∃ note body, Noted note ∧ Body described kind body ∧ ms = note ++ body

/-- **The answer to a message of the client.** -/
inductive Answers (m : Frontend) : List Backend → Prop where
  | queryError (hk : m.kind = .query) : Answers m [ghostError, .readyForQuery]
  | queryEmpty (hk : m.kind = .query) (hs : statementsOf (queryText m.payload) = []) :
      Answers m [.emptyQueryResponse, .readyForQuery]
  | query (hk : m.kind = .query) (hs : statementsOf (queryText m.payload) ≠ [])
      {rs : List (List Backend)}
      (hrs : List.Forall₂ (fun stmt r => Response true (shapeOf stmt).kind r)
        (statementsOf (queryText m.payload)) rs) : Answers m (rs.flatten ++ [.readyForQuery])
  | parse (hk : m.kind = .parse) : Answers m [.parseComplete]
  | bind (hk : m.kind = .bind) : Answers m [.bindComplete]
  | close (hk : m.kind = .close) : Answers m [.closeComplete]
  | describe (hk : m.kind = .describe) {params : List Backend} {desc : Backend}
      (hp : params = [] ∨ ∃ oids, params = [.parameterDescription oids])
      (hd : desc = .noData ∨ ∃ fields, desc = .rowDescription fields) : Answers m (params ++ [desc])
  | executeError (hk : m.kind = .execute) : Answers m [ghostError]
  | execute (hk : m.kind = .execute) {kind : StmtKind} {ms : List Backend}
      (h : Response false kind ms) : Answers m ms
  | sync (hk : m.kind = .sync) : Answers m [.readyForQuery]
  | ignored (hk : m.kind = .flush ∨ m.kind = .other) : Answers m []

/-! ## Tags -/

theorem head_selectTag (n : ℕ) : (selectTag n).head? = some 'S' := by
  unfold selectTag
  simp

theorem space_mem_selectTag (n : ℕ) : ' ' ∈ selectTag n := by
  unfold selectTag
  simp

/-- A tag without a blank, or with another first letter, counts no rows. -/
theorem selectTag_ne {tag : Str} (h : ' ' ∉ tag ∨ tag.head? ≠ some 'S') (n : ℕ) :
    tag ≠ selectTag n := by
  rintro rfl
  rcases h with h | h
  · exact h (space_mem_selectTag n)
  · exact h (head_selectTag n)

/-- A word in upper case has no blank. -/
theorem space_notMem_upper {s : Str} (h : s.all isWordChar) : ' ' ∉ upper s := by
  intro hmem
  obtain ⟨c, hc, hup⟩ := List.mem_map.1 hmem
  have hword := (isWordChar_iff c).1 (List.all_eq_true.1 h c hc)
  have hn := toNat_toUpper c
  rw [hup] at hn
  have h32 : (' ' : Char).toNat = 32 := rfl
  split at hn <;> omega

theorem all_isWordChar_text {s : Str} {w : Word} (h : w ∈ wordsOf s) : w.text.all isWordChar := by
  obtain ⟨a, u, b, -, rfl, -, hu⟩ := piece_of_mem h
  rw [all_isWordChar_lower]
  exact hu

/-- **No command tag counts rows.** -/
theorem commandTag_ne {s : Str} (n : ℕ) :
    commandTag (((wordsOf s).head?.map Word.text).getD []) (wordsOf s) ≠ selectTag n := by
  refine selectTag_ne ?_ n
  have hfirst : (((wordsOf s).head?.map Word.text).getD []).all isWordChar := by
    cases hw : wordsOf s with
    | nil => rfl
    | cons w ws => exact all_isWordChar_text (by rw [hw]; simp)
  unfold commandTag
  split
  · rename_i hddl
    -- two words, and the first letter is that of the verb
    have hhead : ∀ t : Str, (upper (((wordsOf s).head?.map Word.text).getD []) ++ t).head? ≠
        some 'S' := by
      intro t
      rcases hddl with h | h | h | h <;> rw [h] <;> simp [upper]
    cases (wordsOf s)[1]? with
    | none => exact Or.inr (by simpa using hhead [])
    | some w => exact Or.inr (hhead _)
  · exact Or.inl (space_notMem_upper hfirst)

/-- What `extract_select` reports: without the word `select`, only the verb. -/
theorem extractSelect_kind {s : Str} {words : List Word} {shape : ResultShape}
    (h : extractSelect s words = some shape) :
    shape.kind = .select ∨ shape.kind = .command "SELECT" := by
  unfold extractSelect at h
  dsimp only at h
  split at h
  · rw [← Option.some.inj h]
    exact Or.inr rfl
  · simp only [Option.bind_eq_bind, Option.bind_eq_some_iff] at h
    obtain ⟨_, _, _, _, _, _, _, _, _, _, _, _, _, _, h⟩ := h
    rw [← Option.some.inj h]
    exact Or.inl rfl

/-- The tags of the commands that `extract` reports. -/
theorem shapeOf_command_ne {s tag : Str} (h : (shapeOf s).kind = .command tag) (n : ℕ) :
    tag ≠ selectTag n := by
  have hs := extract_eq s
  unfold extract at hs
  simp only [scanWords_eq, Option.bind_eq_bind, Option.bind_some] at hs
  have hof : ∀ {kind : StmtKind} {t : Option Str}, kind ≠ .command tag →
      some (ResultShape.of kind t) ≠ some (shapeOf s) := by
    intro kind t hk heq
    rw [← Option.some.inj heq] at h
    exact hk h
  split_ifs at hs with hnil hselect hinsert hupdate hdelete hshow
  · rw [← Option.some.inj hs] at h
    cases h
  · -- a `WITH` or a `TABLE` without the word `select` is acknowledged as `SELECT`
    rcases extractSelect_kind hs with hk | hk
    · rw [h] at hk
      cases hk
    · rw [h] at hk
      cases hk
      exact selectTag_ne (Or.inl (by decide)) n
  · obtain ⟨t, -, hs⟩ := Option.bind_eq_some_iff.1 hs
    exact absurd hs (hof (by simp))
  · obtain ⟨t, -, hs⟩ := Option.bind_eq_some_iff.1 hs
    exact absurd hs (hof (by simp))
  · obtain ⟨t, -, hs⟩ := Option.bind_eq_some_iff.1 hs
    exact absurd hs (hof (by simp))
  · rw [← Option.some.inj hs] at h
    cases h
  · rw [← Option.some.inj hs] at h
    cases h
    exact commandTag_ne n

/-! ## Statements -/

/-- **A loop of rows under its tag.** -/
theorem rows_body (described : Bool) (cols dcols : List Resolved) (formats : List ℤ) (g : Gen)
    (n : ℕ) (rng : C.Rng) :
    Body described .select ((if described then [putRowDescription dcols] else []) ++
      ((putDataRowFmt cols formats g).times n rng).1 ++ [.commandComplete (selectTag n)]) := by
  have hlen : (((rowTexts g cols).times n rng).1.map (putTexts formats 0 cols)).length = n := by
    rw [List.length_map, Draw.length_times]
  have h : Body described .select _ := .rows (dcols.map fun c => ⟨c.name, oid c.wt, 0⟩)
    (((rowTexts g cols).times n rng).1.map (putTexts formats 0 cols))
  rw [hlen, List.map_map] at h
  rw [times_putDataRowFmt]
  exact h

theorem head_countTag {verb : Str} {c : Char} (h : verb.head? = some c) (rng : C.Rng) :
    (countTag verb rng).1.head? = some c := by
  have htag : (countTag verb rng).1 =
      verb ++ ' ' :: intText (C.randomRange .u32 0 50 rng).1 := rfl
  rw [htag, List.head?_append, h]
  rfl

/-- The tags that count changed rows. -/
theorem countTag_ne {verb : Str} {c : Char} (h : verb.head? = some c) (hc : c ≠ 'S') (rng : C.Rng)
    (n : ℕ) : (countTag verb rng).1 ≠ selectTag n := by
  refine selectTag_ne (Or.inr ?_) n
  rw [head_countTag h]
  exact fun heq => hc (Option.some.inj heq)

/-- **`normal_response` answers one statement.** -/
theorem normalResponse_body (cfg : Config) (stmt : Str) (os : C.Rng) :
    Body true (shapeOf stmt).kind (normalResponse (shapeOf stmt) cfg stmt os) := by
  unfold normalResponse
  cases hk : (shapeOf stmt).kind with
  | empty => exact .empty
  | select =>
    dsimp only
    rw [normalRows_eq]
    exact rows_body true _ _ [] _ _ _
  | insert => exact .command (by simp) (by simp) (selectTag_ne (Or.inr (by decide)))
  | update => exact .command (by simp) (by simp) (countTag_ne rfl (by decide) _)
  | delete => exact .command (by simp) (by simp) (countTag_ne rfl (by decide) _)
  | command tag => exact .command (by simp) (by simp) (shapeOf_command_ne hk)

/-- A statement is crushed only when it is a `SELECT`. -/
theorem kind_of_crush {cfg : Config} {shape : ResultShape} {sig : Signals}
    (h : cfg.crushClass shape = .crush sig) : shape.kind = .select := by
  unfold Config.crushClass at h
  split at h
  · unfold ResultShape.crushClass at h
    split at h
    · cases h
    · rename_i hsafe
      by_contra hk
      exact hsafe (Or.inl hk)
  · cases h

/-- **No other statement is ever crushed**, at any threshold. -/
theorem crushClass_other {shape : ResultShape} (h : shape.kind ≠ .select)
    (threshold : CrushThreshold) : shape.crushClass threshold = .safe := by
  rw [ResultShape.crushClass, if_pos (Or.inl h)]

theorem config_crushClass_other {shape : ResultShape} (h : shape.kind ≠ .select) (cfg : Config) :
    cfg.crushClass shape = .safe := by
  rw [Config.crushClass, crushClass_other h, ite_self]

/-- `crush_stream` answers one statement, after its notice. -/
theorem crushStream_response {shape : ResultShape} (hk : shape.kind = .select) (cfg : Config)
    (stmt : Str) (os : C.Rng) : Response true shape.kind (crushStream shape cfg stmt os) := by
  refine ⟨[.notice crushNotice], [putRowDescription (crushColumns shape cfg)] ++
    (streamRows (crushColumns shape cfg) [] cfg.crush.maxRows cfg.genCtx
      (seedRng cfg (Utf8.encode stmt) os)).1, .one _, ?_, rfl⟩
  rw [hk, streamRows_eq, ← List.append_assoc]
  exact rows_body true _ _ [] _ _ _

/-- **One statement of a simple query**: what it adds to everything written is its answer,
also when it goes past the buffer. -/
theorem respondStatement_all (cfg : Config) (slot : Bool) (os : C.Rng) (out : Out) (stmt : Str) :
    ∃ out' ms, respondStatement cfg slot os out stmt = some out' ∧ out'.all = out.all ++ ms ∧
      Response true (shapeOf stmt).kind ms := by
  have hbody := normalResponse_body cfg stmt os
  set normal := normalResponse (shapeOf stmt) cfg stmt os with hnormal
  have hplain : Response true (shapeOf stmt).kind normal := ⟨[], normal, .none, hbody, rfl⟩
  have hnote : ∀ msg, Response true (shapeOf stmt).kind (.notice msg :: normal) :=
    fun msg => ⟨[.notice msg], normal, .one msg, hbody, rfl⟩
  have heq : ∀ msg, ((out.put (.notice msg)).putAll normal).all = out.all ++ .notice msg :: normal := by
    simp
  unfold respondStatement
  rw [extract_eq]
  simp only [Option.bind_eq_bind, Option.bind_some, ← hnormal]
  cases hc : cfg.crushClass (shapeOf stmt) with
  | safe => exact ⟨_, _, rfl, all_putAll .., hplain⟩
  | warn sig => exact ⟨_, _, rfl, heq _, hnote _⟩
  | crush sig =>
    by_cases hw : cfg.crush.warnOnly
    · simp only [hw]
      exact ⟨_, _, rfl, heq _, hnote _⟩
    · by_cases hs : slot
      · -- the buffer is flushed, then the rows go straight to the socket
        simp only [hw, hs]
        exact ⟨_, _, rfl, all_flush_write .., crushStream_response (kind_of_crush hc) ..⟩
      · simp only [hw, hs]
        exact ⟨_, _, rfl, heq _, hnote _⟩

/-- **The statements of a simple query are answered in order.** -/
theorem respondAll_all (cfg : Config) (o : Outcome C) (stmts : List Str) (i : ℕ) (out : Out) :
    ∃ out' rs, respondAll cfg o i stmts out = some out' ∧ out'.all = out.all ++ rs.flatten ∧
      List.Forall₂ (fun stmt r => Response true (shapeOf stmt).kind r) stmts rs := by
  induction stmts generalizing i out with
  | nil => exact ⟨out, [], rfl, by simp, .nil⟩
  | cons stmt stmts ih =>
    obtain ⟨out₁, ms, h1, h2, h3⟩ := respondStatement_all cfg (o.slot i) (o.os i) out stmt
    obtain ⟨out₂, rs, h4, h5, h6⟩ := ih (i + 1) out₁
    refine ⟨out₂, ms :: rs, ?_, ?_, .cons h3 h6⟩
    · rw [respondAll, h1]
      exact h4
    · rw [h5, h2, List.append_assoc]
      rfl

/-- **What Execute writes for a `SELECT`**: an optional notice, rows in the portal's formats
over the remapped columns, and a tag that counts them. -/
theorem executeSelect_all (cfg : Config) (slot : Bool) (os : C.Rng) (portal : Portal) (maxRows : ℤ)
    (shape : ResultShape) (out : Out) :
    ∃ note n, ∃ rng : C.Rng, Noted note ∧ (executeSelect cfg slot os portal maxRows shape out).all =
      out.all ++ note ++ ((putDataRowFmt (binarize (resolveCols shape cfg)) portal.resultFormats
        cfg.genCtx).times n rng).1 ++ [.commandComplete (selectTag n)] := by
  let count := rowCount shape cfg (seedRng cfg (Utf8.encode portal.sql) os)
  -- the plain answer, after nothing or after a notice
  have hnote : ∀ msg, ∃ note n, ∃ rng : C.Rng, Noted note ∧
      ((out.put (.notice msg)).putAll (portalRows shape cfg portal.resultFormats maxRows
        (seedRng cfg (Utf8.encode portal.sql) os)).1).all =
      out.all ++ note ++ ((putDataRowFmt (binarize (resolveCols shape cfg)) portal.resultFormats
        cfg.genCtx).times n rng).1 ++ [.commandComplete (selectTag n)] := by
    intro msg
    refine ⟨[.notice msg], boundRows maxRows count.1, count.2, .one msg, ?_⟩
    rw [portalRows_eq, all_putAll, all_put]
    exact (List.append_assoc ..).symm
  unfold executeSelect
  dsimp only
  cases hc : cfg.crushClass shape with
  | safe =>
    refine ⟨[], boundRows maxRows count.1, count.2, .none, ?_⟩
    dsimp only
    rw [portalRows_eq, all_putAll, List.append_nil]
    exact (List.append_assoc ..).symm
  | warn sig => exact hnote _
  | crush sig =>
    by_cases hw : cfg.crush.warnOnly
    · simp only [hw]
      exact hnote _
    · by_cases hs : slot
      · -- the notice and the rows go straight to the socket
        simp only [hw, hs]
        refine ⟨[.notice crushNotice], cfg.crush.maxRows,
          seedRng cfg (Utf8.encode portal.sql) os, .one _, ?_⟩
        simp [all_write_write, all_flush_write, streamRows_eq]
      · simp only [hw, hs]
        exact hnote _

/-- **Execute answers its portal.** -/
theorem executePortal_all (cfg : Config) (slot : Bool) (os : C.Rng) (portal : Portal)
    (maxRows : ℤ) :
    ∃ out, executePortal cfg slot os portal maxRows .new = some out ∧
      Response false (shapeOf portal.sql).kind out.all := by
  have htag : ∀ {kind : StmtKind} {m : Backend}, Body false kind [m] →
      ∃ out, some (Out.new.put m) = some out ∧ Response false kind out.all :=
    fun h => ⟨_, rfl, [], _, .none, h, rfl⟩
  unfold executePortal
  rw [extract_eq]
  simp only [Option.bind_eq_bind, Option.bind_some]
  cases hk : (shapeOf portal.sql).kind with
  | select =>
    obtain ⟨note, n, rng, hn, hall⟩ :=
      executeSelect_all cfg slot os portal maxRows (shapeOf portal.sql) .new
    refine ⟨_, rfl, note, ((putDataRowFmt (binarize (resolveCols (shapeOf portal.sql) cfg))
      portal.resultFormats cfg.genCtx).times n rng).1 ++ [.commandComplete (selectTag n)], hn,
      rows_body false _ [] _ _ _ _, ?_⟩
    rw [hall]
    simp
  | empty => exact htag .empty
  | insert => exact htag (.command (by simp) (by simp) (selectTag_ne (Or.inr (by decide))))
  | update => exact htag (.command (by simp) (by simp) (countTag_ne rfl (by decide) _))
  | delete => exact htag (.command (by simp) (by simp) (countTag_ne rfl (by decide) _))
  | command tag => exact htag (.command (by simp) (by simp) (shapeOf_command_ne hk))

/-! ## Messages -/

/-- What Describe says of a statement's rows. -/
def description (cfg : Config) (sql : Str) : Backend :=
  if (shapeOf sql).kind = .select then
    putRowDescription (binarize (resolveCols (shapeOf sql) cfg))
  else .noData

theorem description_select {cfg : Config} {sql : Str} (hk : (shapeOf sql).kind = .select) :
    description cfg sql = putRowDescription (binarize (resolveCols (shapeOf sql) cfg)) :=
  if_pos hk

/-- What Describe says of a statement's parameters. -/
def parameters (memory : Memory) (cfg : Config) (sql : Str) : Option Out :=
  (paramTypes memory sql cfg.rules).bind (putParameterDescription memory)

/-- **What Describe writes**: of a prepared statement, its parameters first. -/
theorem describe_eq (memory : Memory) (cfg : Config) (s : Session) (payload : Bytes) :
    describe memory cfg s payload =
      (if (Read.targetMessage.of payload).isStmt then parameters memory cfg (s.described payload)
        else some .new).map fun out => out.put (description cfg (s.described payload)) := by
  unfold describe description parameters
  simp only [extract_eq, Option.bind_eq_bind, Option.bind_some]
  cases (Read.targetMessage.of payload).isStmt with
  | true =>
    cases (paramTypes memory (s.described payload) cfg.rules).bind (putParameterDescription memory) with
    | none => rfl
    | some out => by_cases hk : (shapeOf (s.described payload)).kind = .select <;> simp [hk]
  | false => by_cases hk : (shapeOf (s.described payload)).kind = .select <;> simp [hk]

/-- There are parameters to describe when there is room for them. -/
theorem parameters_cases (memory : Memory) (cfg : Config) (sql : Str) :
    (∃ oids, parameters memory cfg sql = some (Out.new.put (.parameterDescription oids)) ∧
      ∀ p ∈ placeholders sql, p.2 ≤ memory.description) ∨
    parameters memory cfg sql = none ∧ ¬∀ p ∈ placeholders sql, p.2 ≤ memory.description := by
  have hsome := paramTypes_isSome memory sql cfg.rules
  have hle := memory.description_le
  unfold parameters
  cases htypes : paramTypes memory sql cfg.rules with
  | none =>
    rw [htypes] at hsome
    refine Or.inr ⟨rfl, fun h => ?_⟩
    have htrue := hsome.2 fun p hp => (h p hp).trans (by omega)
    simp at htrue
  | some types =>
    have hroom : types.length ≤ memory.description ↔ ∀ p ∈ placeholders sql, p.2 ≤ memory.description := by
      rw [length_paramTypes htypes, foldl_max_le, List.forall_mem_map]
      exact and_iff_right (Nat.zero_le _)
    rw [Option.bind_some, putParameterDescription, ← hroom]
    by_cases hlen : memory.description < types.length
    · exact Or.inr ⟨if_pos hlen, not_le.2 hlen⟩
    · exact Or.inl ⟨types.map oid, if_neg hlen, not_lt.1 hlen⟩

/-- A Describe of a statement leaves room for each of its `$`-numbers. -/
def Room (memory : Memory) (s : Session) (m : Frontend) : Prop :=
  m.kind = .describe → (Read.targetMessage.of m.payload).isStmt = true →
    ∀ p ∈ placeholders (s.described m.payload), p.2 ≤ memory.description

theorem description_cases (cfg : Config) (sql : Str) :
    description cfg sql = .noData ∨ ∃ fields, description cfg sql = .rowDescription fields := by
  unfold description
  split
  · exact Or.inr ⟨_, rfl⟩
  · exact Or.inl rfl

/-- Describe answers when there is room, and panics when there is not. -/
theorem describe_spec (memory : Memory) (cfg : Config) {s : Session} {m : Frontend}
    (hk : m.kind = .describe) :
    (Room memory s m ∧ ∃ out, describe memory cfg s m.payload = some out ∧ out.sent = [] ∧
        Answers m out.all) ∨
      ¬Room memory s m ∧ describe memory cfg s m.payload = none := by
  have hdesc := description_cases cfg (s.described m.payload)
  rw [describe_eq]
  by_cases hstmt : (Read.targetMessage.of m.payload).isStmt
  · rw [if_pos hstmt]
    rcases parameters_cases memory cfg (s.described m.payload) with ⟨oids, hout, hroom⟩ | ⟨hnone, hroom⟩
    · rw [hout]
      refine Or.inl ⟨fun _ _ => hroom, _, rfl, rfl, ?_⟩
      rw [all_put, all_put]
      exact .describe hk (Or.inr ⟨oids, rfl⟩) hdesc
    · rw [hnone]
      exact Or.inr ⟨fun h => hroom (h hk hstmt), rfl⟩
  · rw [if_neg hstmt]
    refine Or.inl ⟨fun _ h => absurd h hstmt, _, rfl, rfl, ?_⟩
    rw [all_put]
    exact .describe hk (Or.inl rfl) hdesc

/-- The portal of a name, as Execute sees it. -/
def Session.portal (s : Session) (p : Str) : Portal := (s.portals p).getD .default

/-! The arms of the loop, one by one. -/

section Arms

variable {cfg : Config} {o : Outcome C} {s : Session} {m : Frontend}

theorem dispatch_query (h : m.kind = .query) :
    dispatch cfg o s m = (query cfg o (queryText m.payload)).map fun out => (out, s) := by
  unfold dispatch; rw [h]

theorem dispatch_parse (h : m.kind = .parse) :
    dispatch cfg o s m =
      some (Out.new.put .parseComplete, s.parse (Read.parseMessage.of m.payload)) := by
  unfold dispatch; rw [h]

theorem dispatch_bind (h : m.kind = .bind) :
    dispatch cfg o s m =
      some (Out.new.put .bindComplete, s.bind (Read.bindMessage.of m.payload)) := by
  unfold dispatch; rw [h]

theorem dispatch_describe (h : m.kind = .describe) :
    dispatch cfg o s m = (describe C.memory cfg s m.payload).map fun out => (out, s) := by
  unfold dispatch; rw [h]

theorem dispatch_execute (h : m.kind = .execute) :
    dispatch cfg o s m = (executePortal cfg (o.slot 0) (o.os 0)
      (s.portal (Read.executeMessage.of m.payload).portal)
      (Read.executeMessage.of m.payload).maxRows .new).map fun out => (out, s) := by
  unfold dispatch; rw [h]; rfl

theorem dispatch_close (h : m.kind = .close) :
    dispatch cfg o s m =
      some (Out.new.put .closeComplete, s.close (Read.targetMessage.of m.payload)) := by
  unfold dispatch; rw [h]

theorem dispatch_sync (h : m.kind = .sync) :
    dispatch cfg o s m = some (Out.new.put .readyForQuery, s) := by
  unfold dispatch; rw [h]

theorem dispatch_ignored (h : m.kind = .terminate ∨ m.kind = .flush ∨ m.kind = .other) :
    dispatch cfg o s m = some (.new, s) := by
  unfold dispatch
  rcases h with h | h | h <;> rw [h]

end Arms

/-- **Each arm of the loop answers**, and only Describe needs room. -/
theorem dispatch_spec (cfg : Config) (o : Outcome C) (s : Session) {m : Frontend}
    (hterm : m.kind ≠ .terminate) :
    (Room C.memory s m ∧ ∃ out s', dispatch cfg o s m = some (out, s') ∧ Answers m out.all) ∨
      ¬Room C.memory s m ∧ dispatch cfg o s m = none := by
  have harm : m.kind ≠ .describe → (∃ out s', dispatch cfg o s m = some (out, s') ∧
      Answers m out.all) → (Room C.memory s m ∧ ∃ out s', dispatch cfg o s m = some (out, s') ∧
        Answers m out.all) ∨ ¬Room C.memory s m ∧ dispatch cfg o s m = none :=
    fun hne h => Or.inl ⟨fun hk => absurd hk hne, h⟩
  cases hk : m.kind with
  | query =>
    refine harm (by simp [hk]) ?_
    rw [dispatch_query hk]
    unfold query
    simp only [splitStatements_eq, Option.bind_eq_bind, Option.bind_some]
    by_cases hs : statementsOf (queryText m.payload) = []
    · rw [if_pos hs]
      exact ⟨_, s, rfl, .queryEmpty hk hs⟩
    · obtain ⟨out, rs, h1, h2, h3⟩ :=
        respondAll_all cfg o (statementsOf (queryText m.payload)) 0 .new
      rw [if_neg hs, h1]
      refine ⟨_, s, rfl, ?_⟩
      rw [all_put, h2]
      exact .query hk hs h3
  | parse => exact harm (by simp [hk]) ⟨_, _, dispatch_parse hk, .parse hk⟩
  | bind => exact harm (by simp [hk]) ⟨_, _, dispatch_bind hk, .bind hk⟩
  | describe =>
    rw [dispatch_describe hk]
    rcases describe_spec C.memory cfg hk with ⟨hroom, out, hout, -, hans⟩ | ⟨hroom, hnone⟩
    · exact Or.inl ⟨hroom, out, s, by rw [hout]; rfl, hans⟩
    · exact Or.inr ⟨hroom, by rw [hnone]; rfl⟩
  | execute =>
    -- a name that is not bound stands for the empty portal
    obtain ⟨out, h1, h2⟩ := executePortal_all cfg (o.slot 0) (o.os 0)
      (s.portal (Read.executeMessage.of m.payload).portal)
      (Read.executeMessage.of m.payload).maxRows
    refine harm (by simp [hk]) ⟨out, s, ?_, .execute hk h2⟩
    rw [dispatch_execute hk, h1]
    rfl
  | close => exact harm (by simp [hk]) ⟨_, _, dispatch_close hk, .close hk⟩
  | terminate => exact absurd hk hterm
  | sync => exact harm (by simp [hk]) ⟨_, _, dispatch_sync hk, .sync hk⟩
  | flush =>
    exact harm (by simp [hk]) ⟨_, _, dispatch_ignored (Or.inr (Or.inl hk)), .ignored (Or.inl hk)⟩
  | other =>
    exact harm (by simp [hk]) ⟨_, _, dispatch_ignored (Or.inr (Or.inr hk)), .ignored (Or.inr hk)⟩

/-- What a step can do: a ghost's delay panics, or a ghost drops the connection or answers with its
error, the client leaves, or the message is dispatched. -/
theorem step_cases (cfg : Config) (s : Session) (o : Outcome C) (m : Frontend) :
    (m.haunted cfg ∧ o.crashed cfg ∧ step cfg s (o, m) = ([], .stop .panicked)) ∨
    (m.haunted cfg ∧ o.dropped cfg ∧ step cfg s (o, m) = ([], .stop .dropped)) ∨
    (m.haunted cfg ∧ o.errored cfg ∧ step cfg s (o, m) =
      (if m.kind = .query then [ghostError, .readyForQuery] else [ghostError], .go s)) ∨
    (m.kind = .terminate ∧ step cfg s (o, m) = ([], .stop .closed)) ∨
    (m.kind ≠ .terminate ∧ ∃ out s', dispatch cfg o s m = some (out, s') ∧
      step cfg s (o, m) = (out.all, .go s')) ∨
    (m.kind ≠ .terminate ∧ dispatch cfg o s m = none ∧
      step cfg s (o, m) = ([], .stop .panicked)) := by
  unfold step
  by_cases hcrash : m.haunted cfg ∧ o.crashed cfg
  · exact Or.inl ⟨hcrash.1, hcrash.2, if_pos hcrash⟩
  simp only [if_neg hcrash]
  by_cases hdrop : m.haunted cfg ∧ o.dropped cfg
  · exact Or.inr (Or.inl ⟨hdrop.1, hdrop.2, if_pos hdrop⟩)
  simp only [if_neg hdrop]
  by_cases herr : m.haunted cfg ∧ o.errored cfg
  · exact Or.inr (Or.inr (Or.inl ⟨herr.1, herr.2, if_pos herr⟩))
  simp only [if_neg herr]
  by_cases hterm : m.kind = .terminate
  · exact Or.inr (Or.inr (Or.inr (Or.inl ⟨hterm, if_pos hterm⟩)))
  · refine Or.inr (Or.inr (Or.inr (Or.inr ?_)))
    simp only [if_neg hterm]
    cases hd : dispatch cfg o s m with
    | none => exact Or.inr ⟨hterm, rfl, rfl⟩
    | some p => exact Or.inl ⟨hterm, p.1, p.2, rfl, rfl⟩

/-- Only queries and Executes are haunted. -/
theorem kind_of_haunted {m : Frontend} {cfg : Config} (h : m.haunted cfg) :
    m.kind = .query ∨ m.kind = .execute := by
  simp only [Frontend.haunted, Bool.and_eq_true, Bool.or_eq_true, beq_iff_eq] at h
  exact h.2

theorem not_haunted {m : Frontend} (hq : m.kind ≠ .query) (he : m.kind ≠ .execute)
    (cfg : Config) : ¬m.haunted cfg := by
  intro h
  rcases kind_of_haunted h with hk | hk
  · exact hq hk
  · exact he hk

/-- A message that the ghosts leave alone is dispatched. -/
theorem step_dispatch {cfg : Config} {s s' : Session} {o : Outcome C} {m : Frontend} {out : Out}
    (hh : ¬m.haunted cfg) (hterm : m.kind ≠ .terminate)
    (h : dispatch cfg o s m = some (out, s')) : step cfg s (o, m) = (out.all, .go s') := by
  unfold step
  simp only [hh, hterm, h]
  simp

/-- Nothing panics at a message: a Describe has room, and no ghost's delay panics. -/
def Safe (cfg : Config) (s : Session) (om : Outcome C × Frontend) : Prop :=
  Room C.memory s om.2 ∧ ¬(om.2.haunted cfg ∧ om.1.crashed cfg)

/-- **One round of the loop.** A message on which neither a ghost nor the client ends the
connection is answered by the grammar, unless the server panics. -/
theorem step_spec (cfg : Config) (s : Session) (om : Outcome C × Frontend)
    (hd : ¬(om.2.haunted cfg ∧ om.1.dropped cfg) ∧ om.2.kind ≠ .terminate) :
    (Safe cfg s om ∧ (∃ s', (step cfg s om).2 = .go s') ∧ Answers om.2 (step cfg s om).1) ∨
      ¬Safe cfg s om ∧ step cfg s om = ([], .stop .panicked) := by
  obtain ⟨o, m⟩ := om
  obtain ⟨hdrop, hterm⟩ := hd
  dsimp only at hdrop hterm ⊢
  by_cases hcrash : m.haunted cfg ∧ o.crashed cfg
  · refine Or.inr ⟨fun h => h.2 hcrash, ?_⟩
    unfold step
    simp only [if_pos hcrash]
  rcases step_cases cfg s o m with ⟨h1, h2, -⟩ | ⟨h1, h2, -⟩ | ⟨h1, -, heq⟩ | ⟨h1, -⟩ |
    ⟨-, out, s', h1, heq⟩ | ⟨-, h1, heq⟩
  · exact absurd ⟨h1, h2⟩ hcrash
  · exact absurd ⟨h1, h2⟩ hdrop
  · have hk := kind_of_haunted h1
    rw [heq]
    refine Or.inl ⟨⟨fun hdesc => ?_, hcrash⟩, ⟨s, rfl⟩, ?_⟩
    · rw [hdesc] at hk
      simp at hk
    · rcases hk with hk | hk
      · rw [if_pos hk]
        exact .queryError hk
      · rw [if_neg (by rw [hk]; simp)]
        exact .executeError hk
  · exact absurd h1 hterm
  · rw [heq]
    rcases dispatch_spec cfg o s hterm with ⟨hroom, out', t, hd, hans⟩ | ⟨-, hnone⟩
    · rw [h1] at hd
      obtain ⟨rfl, rfl⟩ := Prod.mk.inj (Option.some.inj hd)
      exact Or.inl ⟨⟨hroom, hcrash⟩, ⟨s', rfl⟩, hans⟩
    · rw [h1] at hnone
      cases hnone
  · rw [heq]
    rcases dispatch_spec cfg o s hterm with ⟨-, out', t, hd, -⟩ | ⟨hroom, -⟩
    · rw [h1] at hd
      cases hd
    · exact Or.inr ⟨fun h => hroom h.1, rfl⟩

theorem step_answers (cfg : Config) (s : Session) (om : Outcome C × Frontend)
    (hd : ¬(om.2.haunted cfg ∧ om.1.dropped cfg) ∧ om.2.kind ≠ .terminate) :
    (∃ s', (step cfg s om).2 = .go s') ∧ Answers om.2 (step cfg s om).1 ↔ Safe cfg s om := by
  rcases step_spec cfg s om hd with ⟨hlive, hans⟩ | ⟨hpanic, heq⟩
  · exact ⟨fun _ => hlive, fun _ => hans⟩
  · rw [heq]
    refine ⟨?_, fun h => absurd h hpanic⟩
    rintro ⟨⟨s', h⟩, -⟩
    cases h

/-! ## Sessions -/

/-- How many times a message is answered with ReadyForQuery. -/
def readies (m : Frontend) : ℕ := if m.kind = .query ∨ m.kind = .sync then 1 else 0

/-- Counting in answers that come one for each request. -/
theorem count_flatten {α β : Type} [DecidableEq β] {P : α → List β → Prop} {x : β} {f : α → ℕ}
    (hf : ∀ a ms, P a ms → ms.count x = f a) :
    ∀ {l : List α} {rs : List (List β)}, List.Forall₂ P l rs → rs.flatten.count x = (l.map f).sum := by
  intro l
  induction l with
  | nil =>
    intro rs h
    cases h
    rfl
  | cons a l ih =>
    intro rs h
    cases h with
    | cons ha hl =>
      rw [List.flatten_cons, List.count_append, hf _ _ ha, ih hl]
      simp

theorem Response.count_ready {described : Bool} {kind : StmtKind} {ms : List Backend}
    (h : Response described kind ms) : ms.count .readyForQuery = 0 := by
  obtain ⟨note, body, hn, hb, rfl⟩ := h
  rw [List.count_append, Nat.add_eq_zero_iff]
  constructor
  · cases hn with
    | none => rfl
    | one msg => rfl
  · rw [List.count_eq_zero]
    cases hb with
    | rows fields rows => cases described <;> simp
    | empty => simp
    | command => simp

theorem Answers.count_ready {m : Frontend} {ms : List Backend} (h : Answers m ms) :
    ms.count .readyForQuery = readies m := by
  cases h with
  | queryError hk => simp [readies, hk, ghostError]
  | queryEmpty hk => simp [readies, hk]
  | query hk hs hrs =>
    have hzero := count_flatten (f := fun _ => 0) (fun _ _ h => h.count_ready) hrs
    rw [List.map_const', List.sum_replicate_nat, Nat.mul_zero] at hzero
    rw [List.count_append, hzero]
    simp [readies, hk]
  | parse hk => simp [readies, hk]
  | bind hk => simp [readies, hk]
  | close hk => simp [readies, hk]
  | describe hk hp hd =>
    rcases hp with rfl | ⟨oids, rfl⟩ <;> rcases hd with rfl | ⟨fields, rfl⟩ <;>
      simp [readies, hk]
  | executeError hk => simp [readies, hk, ghostError]
  | execute hk h => simp [readies, hk, h.count_ready]
  | sync hk => simp [readies, hk]
  | ignored hk => rcases hk with hk | hk <;> simp [readies, hk]

/-- Only what the server ignores gets no answer. -/
theorem Answers.eq_nil_iff {m : Frontend} {ms : List Backend} (h : Answers m ms) :
    ms = [] ↔ m.kind = .flush ∨ m.kind = .other := by
  cases h with
  | execute hk h =>
    obtain ⟨note, body, -, hb, rfl⟩ := h
    cases hb <;> simp [hk]
  | ignored h => exact ⟨fun _ => h, fun _ => rfl⟩
  | queryError hk | queryEmpty hk | query hk | parse hk | bind hk | close hk | describe hk
  | executeError hk | sync hk => simp [hk]

/-- **The session grammar.** In a run in which no ghost and no Terminate ends the connection,
every message is answered by the grammar, and so ReadyForQuery is sent once at the start and
once for each Query and each Sync, if and only if every Describe of a statement has room for its
parameters and no ghost's delay panics. -/
theorem session_answers (cfg : Config) (pid key : Int32) (l : List (Outcome C × Frontend))
    (hl : ∀ om ∈ l, ¬(om.2.haunted cfg ∧ om.1.dropped cfg) ∧ om.2.kind ≠ .terminate) :
    (∃ s, (session cfg l).2 = .go s) ∧
        List.Forall₂ (fun om ms => Answers om.2 ms) l (session cfg l).1 ∧
        (greeting pid key ++ (session cfg l).1.flatten).count .readyForQuery =
          1 + l.countP (fun om => om.2.kind = .query) + l.countP (fun om => om.2.kind = .sync) ↔
      Along (step cfg) (Safe cfg) .new l := by
  have hrun := Serve.serve_answers_iff (step_answers cfg) l .new hl
  rw [← hrun]
  have hsum : ∀ l : List (Outcome C × Frontend), (l.map fun om => readies om.2).sum =
      l.countP (fun om => om.2.kind = .query) + l.countP (fun om => om.2.kind = .sync) := by
    intro l
    induction l with
    | nil => rfl
    | cons om l ih =>
      rw [List.map_cons, List.sum_cons, ih, List.countP_cons, List.countP_cons, readies]
      cases om.2.kind <;> simp <;> omega
  constructor
  · rintro ⟨hgo, hall, -⟩
    exact ⟨hgo, hall⟩
  · rintro ⟨hgo, hall⟩
    refine ⟨hgo, hall, ?_⟩
    have hgreet : (greeting pid key).count .readyForQuery = 1 := rfl
    have hrest := count_flatten (fun _ _ h => Answers.count_ready h) hall
    rw [List.count_append, hgreet, session, hrest, hsum, Nat.add_assoc]

theorem session_answers_query :
    (∀ om ∈ [(Outcome.quiet, (⟨81, Utf8.encode "select 1"⟩ : Frontend))],
      ¬(om.2.haunted .default ∧ om.1.dropped .default) ∧ om.2.kind ≠ .terminate) ∧
    ((∃ s, (session .default [(Outcome.quiet, ⟨81, Utf8.encode "select 1"⟩)]).2 = .go s) ∧
        List.Forall₂ (fun om ms => Answers om.2 ms)
          [(Outcome.quiet, ⟨81, Utf8.encode "select 1"⟩)]
          (session .default [(Outcome.quiet, ⟨81, Utf8.encode "select 1"⟩)]).1 ∧
        (greeting 1 2 ++ (session .default
          [(Outcome.quiet, ⟨81, Utf8.encode "select 1"⟩)]).1.flatten).count .readyForQuery = 2 ↔
      Along (step .default) (Safe .default) .new
        [(Outcome.quiet, ⟨81, Utf8.encode "select 1"⟩)]) :=
  ⟨by decide, session_answers .default 1 2 _ (by decide)⟩

/-- A statement with the parameter `$18446744073709551615`, parsed and described. -/
def hugeParameter : List (Outcome .least × Frontend) :=
  [(.quiet, ⟨80, 0 :: Utf8.encode "select $18446744073709551615" ++ [0, 0, 0]⟩),
   (.quiet, ⟨68, [83, 0]⟩)]

/-- Its Describe gets no answer, though neither a ghost nor the client ends the connection. -/
theorem session_hugeParameter :
    (∀ om ∈ hugeParameter,
      ¬(om.2.haunted .default ∧ om.1.dropped .default) ∧ om.2.kind ≠ .terminate) ∧
    ¬List.Forall₂ (fun om ms => Answers om.2 ms) hugeParameter (session .default hugeParameter).1 := by
  refine ⟨by decide, ?_⟩
  have hrun : (session .default hugeParameter).1 = [[.parseComplete], []] := by rfl
  rw [hrun]
  intro h
  cases h with
  | cons _ h =>
    cases h with
    | cons h _ => exact absurd (h.eq_nil_iff.1 rfl) (by decide)

end EtherealDb.Pg
