import EtherealDb.Proof.PgWire

/-!
# Columns on the wire

The columns of a `SELECT` are made from its text, and squeezed into a 16-bit count and
NUL-terminated names.

* `response_survives`: what a client reads in the answer to one statement.
* `columns_survive_iff`: **the answers to a simple query are read back exactly when every
  `SELECT` has at most 32767 columns, none with a NUL in its name.**
-/

namespace EtherealDb.Pg

open Str

variable {C : Crates}

/-! ## What is sent -/

/-- The messages that answer one statement of a simple query. -/
def response (cfg : Config) (slot : Bool) (os : C.Rng) (stmt : Str) : List Backend :=
  ((respondStatement cfg slot os .new stmt).map Out.all).getD []

/-- The columns of a result set: those of the statement, or those of crush mode when it is
crushed. -/
def sentCols (cfg : Config) (slot : Bool) (shape : ResultShape) : List Resolved :=
  match cfg.crushClass shape with
  | .crush _ =>
    if !cfg.crush.warnOnly ∧ slot then crushColumns shape cfg else resolveCols shape cfg
  | _ => resolveCols shape cfg

/-- What a statement adds does not depend on what was written before. -/
theorem respondStatement_response (cfg : Config) (slot : Bool) (os : C.Rng) (out : Out)
    (stmt : Str) : ∃ out', respondStatement cfg slot os out stmt = some out' ∧
      out'.all = out.all ++ response cfg slot os stmt := by
  unfold response respondStatement
  rw [extract_eq]
  simp only [Option.bind_eq_bind, Option.bind_some]
  cases hc : cfg.crushClass (shapeOf stmt) with
  | safe => exact ⟨_, rfl, by simp⟩
  | warn sig => exact ⟨_, rfl, by simp⟩
  | crush sig =>
    by_cases hw : cfg.crush.warnOnly
    · simp only [hw]
      exact ⟨_, rfl, by simp⟩
    · by_cases hs : slot
      · simp only [hw, hs]
        exact ⟨_, rfl, by simp [all_flush_write]⟩
      · simp only [hw, hs]
        exact ⟨_, rfl, by simp⟩

theorem respondAll_response (cfg : Config) (o : Outcome C) (stmts : List Str) (i : ℕ) (out : Out) :
    ∃ out', respondAll cfg o i stmts out = some out' ∧ out'.all = out.all ++
      (stmts.mapIdx fun j stmt => response cfg (o.slot (i + j)) (o.os (i + j)) stmt).flatten := by
  induction stmts generalizing i out with
  | nil => exact ⟨out, rfl, by simp⟩
  | cons stmt stmts ih =>
    obtain ⟨out₁, h1, h2⟩ := respondStatement_response cfg (o.slot i) (o.os i) out stmt
    obtain ⟨out₂, h3, h4⟩ := ih (i + 1) out₁
    refine ⟨out₂, ?_, ?_⟩
    · rw [respondAll, h1]
      exact h3
    · rw [h4, h2, List.append_assoc, List.mapIdx_cons, List.flatten_cons]
      simp only [Nat.add_zero, Nat.add_assoc, Nat.add_comm 1]

/-- **A simple query is answered statement by statement.** -/
theorem query_response (cfg : Config) (o : Outcome C) (sql : Str) :
    ∃ out, query cfg o sql = some out ∧ out.all =
      (if statementsOf sql = [] then [.emptyQueryResponse]
        else ((statementsOf sql).mapIdx fun i stmt =>
          response cfg (o.slot i) (o.os i) stmt).flatten) ++ [.readyForQuery] := by
  unfold query
  rw [splitStatements_eq]
  simp only [Option.bind_eq_bind, Option.bind_some]
  by_cases hnil : statementsOf sql = []
  · rw [if_pos hnil, if_pos hnil]
    exact ⟨_, rfl, rfl⟩
  · obtain ⟨out, h1, h2⟩ := respondAll_response cfg o (statementsOf sql) 0 .new
    rw [if_neg hnil, if_neg hnil, h1]
    refine ⟨_, rfl, ?_⟩
    rw [all_put, h2, all_new, List.nil_append]
    simp only [Nat.zero_add]

/-- The messages of a result set over these columns: a description, rows as wide as it, and
messages that carry neither. -/
def OverCols (cols : List Resolved) (ms : List Backend) : Prop :=
  putRowDescription cols ∈ ms ∧ ∀ m ∈ ms, m = putRowDescription cols ∨
    (∃ cells, m = .dataRow cells ∧ cells.length = cols.length) ∨
    (∃ msg, m = .notice msg) ∨ ∃ tag, m = .commandComplete tag

theorem overCols_rows (cols : List Resolved) (g : Gen) (n k : ℕ) (rng : C.Rng) :
    OverCols cols (putRowDescription cols :: ((putDataRow cols g).times n rng).1 ++
      [.commandComplete (selectTag k)]) := by
  refine ⟨by simp, ?_⟩
  intro m hm
  rw [List.cons_append, List.mem_cons, List.mem_append, List.mem_singleton] at hm
  rcases hm with rfl | hm | rfl
  · exact Or.inl rfl
  · obtain ⟨rng', rfl⟩ := Draw.mem_times hm
    refine Or.inr (Or.inl ⟨_, congrArg Prod.fst (putDataRowFmt_eq cols rng'), ?_⟩)
    exact length_putTexts 0 (length_rowTexts cols rng')
  · exact Or.inr (Or.inr (Or.inr ⟨_, rfl⟩))

theorem OverCols.notice {cols : List Resolved} {ms : List Backend} (h : OverCols cols ms)
    (msg : Str) : OverCols cols (.notice msg :: ms) := by
  refine ⟨List.mem_cons_of_mem _ h.1, ?_⟩
  intro m hm
  rcases List.mem_cons.1 hm with rfl | hm
  · exact Or.inr (Or.inr (Or.inl ⟨msg, rfl⟩))
  · exact h.2 m hm

/-- **A `SELECT` is answered over the columns that are sent.** -/
theorem response_select {stmt : Str} (hk : (shapeOf stmt).kind = .select) (cfg : Config)
    (slot : Bool) (os : C.Rng) :
    OverCols (sentCols cfg slot (shapeOf stmt)) (response cfg slot os stmt) := by
  have hnormal : OverCols (resolveCols (shapeOf stmt) cfg)
      (normalResponse (shapeOf stmt) cfg stmt os) := by
    unfold normalResponse
    rw [hk]
    dsimp only
    rw [normalRows_eq]
    exact overCols_rows ..
  unfold response respondStatement sentCols
  rw [extract_eq]
  simp only [Option.bind_eq_bind, Option.bind_some]
  cases hc : cfg.crushClass (shapeOf stmt) with
  | safe => simpa using hnormal
  | warn sig => simpa using hnormal.notice _
  | crush sig =>
    by_cases hw : cfg.crush.warnOnly
    · simpa [hw] using hnormal.notice _
    · by_cases hs : slot
      · have hcrush : OverCols (crushColumns (shapeOf stmt) cfg)
            (crushStream (shapeOf stmt) cfg stmt os) := by
          unfold crushStream
          dsimp only
          rw [streamRows_eq]
          exact (overCols_rows (crushColumns (shapeOf stmt) cfg) cfg.genCtx _ _ _).notice _
        simpa [hw, hs, all_flush_write] using hcrush
      · simpa [hw, hs] using hnormal.notice _

/-- Any other statement is answered without a result set. -/
theorem response_other {stmt : Str} (hk : (shapeOf stmt).kind ≠ .select) (cfg : Config)
    (slot : Bool) (os : C.Rng) : ∀ m ∈ response cfg slot os stmt,
      (∀ fields, m ≠ .rowDescription fields) ∧ ∀ cells, m ≠ .dataRow cells := by
  unfold response respondStatement
  rw [extract_eq]
  simp only [Option.bind_eq_bind, Option.bind_some, config_crushClass_other hk]
  intro m hm
  have hbody : m ∈ normalResponse (shapeOf stmt) cfg stmt os := by simpa using hm
  unfold normalResponse at hbody
  cases hkind : (shapeOf stmt).kind with
  | select => exact absurd hkind hk
  | empty | insert | update | delete | command tag =>
    rw [hkind] at hbody
    obtain rfl := List.mem_singleton.1 hbody
    exact ⟨fun _ => Backend.noConfusion, fun _ => Backend.noConfusion⟩

/-! ## What is read -/

/-- **What a client reads in a message** of an answer over these columns: in a description
the names and the types, in a row the number of its cells. -/
def Survives (cols : List Resolved) (m : Backend) : Prop :=
  (∀ fields, m = .rowDescription fields → Client.rowDescription m.body =
    some (cols.map fun c => ⟨Utf8.encode c.name, oid c.wt⟩)) ∧
  ∀ cells, m = .dataRow cells → Client.count m.body =
    some (cells.length, cells.flatMap fun c => be 4 c.bytes.length ++ c.bytes)

theorem description_iff (cols : List Resolved) :
    Client.rowDescription (putRowDescription cols).body =
        some (cols.map fun c => ⟨Utf8.encode c.name, oid c.wt⟩) ↔
      cols.length ≤ 32767 ∧ ∀ c ∈ cols, '\x00' ∉ c.name := by
  have hoid : ∀ f ∈ cols.map (fun c => (⟨c.name, oid c.wt, 0⟩ : Field)), f.oid < 2 ^ 32 := by
    intro f hf
    obtain ⟨c, -, rfl⟩ := List.mem_map.1 hf
    exact oid_lt c.wt
  have hiff := Client.rowDescription_iff hoid
  rw [List.map_map, List.length_map, List.forall_mem_map, Nat.lt_succ_iff] at hiff
  exact hiff

/-- **The answer to one statement.** -/
theorem response_survives (cfg : Config) (slot : Bool) (os : C.Rng) (stmt : Str) :
    (∀ m ∈ response cfg slot os stmt, Survives (sentCols cfg slot (shapeOf stmt)) m) ↔
      ((shapeOf stmt).kind = .select → (sentCols cfg slot (shapeOf stmt)).length ≤ 32767 ∧
        ∀ c ∈ sentCols cfg slot (shapeOf stmt), '\x00' ∉ c.name) := by
  constructor
  · intro h hk
    have hmem := (response_select hk cfg slot os).1
    exact (description_iff _).1 ((h _ hmem).1 _ rfl)
  · intro h m hm
    by_cases hk : (shapeOf stmt).kind = .select
    · obtain ⟨hcount, hnames⟩ := h hk
      rcases (response_select hk cfg slot os).2 m hm with rfl | ⟨cells, rfl, hlen⟩ | ⟨msg, rfl⟩ |
        ⟨tag, rfl⟩
      · exact ⟨fun _ _ => (description_iff _).2 ⟨hcount, hnames⟩, fun _ => Backend.noConfusion⟩
      · refine ⟨fun _ => Backend.noConfusion, ?_⟩
        intro cells' he
        obtain rfl := Backend.dataRow.inj he
        exact Client.count_be_of_lt (by omega) _
      · exact ⟨fun _ => Backend.noConfusion, fun _ => Backend.noConfusion⟩
      · exact ⟨fun _ => Backend.noConfusion, fun _ => Backend.noConfusion⟩
    · obtain ⟨hdesc, hrow⟩ := response_other hk cfg slot os m hm
      exact ⟨fun fields he => absurd he (hdesc fields), fun cells he => absurd he (hrow cells)⟩

/-- A description of too many columns is lost. -/
theorem response_lost {cfg : Config} {slot : Bool} {stmt : Str}
    (hk : (shapeOf stmt).kind = .select)
    (hmany : 32767 < (sentCols cfg slot (shapeOf stmt)).length) (os : C.Rng) :
    ∃ m ∈ response cfg slot os stmt, ¬Survives (sentCols cfg slot (shapeOf stmt)) m := by
  refine ⟨_, (response_select hk cfg slot os).1, ?_⟩
  intro h
  have hfew := ((description_iff _).1 (h.1 _ rfl)).1
  omega

/-- **Row descriptions survive the wire exactly when every `SELECT` has at most 32767 columns,
none with a NUL in its name.** A simple query is answered statement by statement. -/
theorem columns_survive_iff (cfg : Config) (o : Outcome C) (sql : Str) :
    (∃ out, query cfg o sql = some out ∧ out.all =
      (if statementsOf sql = [] then [.emptyQueryResponse]
        else ((statementsOf sql).mapIdx fun i stmt =>
          response cfg (o.slot i) (o.os i) stmt).flatten) ++ [.readyForQuery]) ∧
    ((∀ i stmt, (statementsOf sql)[i]? = some stmt →
        ∀ m ∈ response cfg (o.slot i) (o.os i) stmt,
          Survives (sentCols cfg (o.slot i) (shapeOf stmt)) m) ↔
      ∀ i stmt, (statementsOf sql)[i]? = some stmt → (shapeOf stmt).kind = .select →
        (sentCols cfg (o.slot i) (shapeOf stmt)).length ≤ 32767 ∧
          ∀ c ∈ sentCols cfg (o.slot i) (shapeOf stmt), '\x00' ∉ c.name) := by
  refine ⟨query_response cfg o sql, ?_⟩
  constructor
  · intro h i stmt hi
    exact (response_survives cfg (o.slot i) (o.os i) stmt).1 (h i stmt hi)
  · intro h i stmt hi
    exact (response_survives cfg (o.slot i) (o.os i) stmt).2 (h i stmt hi)

/-! ## Many stars -/

/-- `SELECT *, *, … FROM t`, with `n` stars and one more. -/
def starsQuery (n : ℕ) : Query :=
  .ofItems (List.replicate (n + 1) .star) (List.cons_ne_nil _ _)

theorem length_stars (n : ℕ) : (starsQuery n).shape.columns.length = 5 * (n + 1) := by
  have hcols : ∀ k, ((List.replicate k Item.star).flatMap Item.columns).length = 5 * k := by
    intro k
    induction k with
    | zero => rfl
    | succ k ih =>
      rw [List.replicate_succ, List.flatMap_cons, List.length_append, ih]
      have hfive : (Item.columns .star).length = 5 := rfl
      omega
  exact hcols (n + 1)

/-- The text of stars: their number, and no semicolon. -/
theorem render_stars (n : ℕ) :
    len (starsQuery n).render = 3 * n + 15 ∧ ';' ∉ (starsQuery n).render := by
  have hitems : ∀ k, len (renderItems (List.replicate (k + 1) Item.star)) = 3 * k + 1 ∧
      ';' ∉ renderItems (List.replicate (k + 1) Item.star) := by
    intro k
    induction k with
    | zero => decide
    | succ k ih =>
      have hcons : renderItems (List.replicate (k + 2) Item.star) =
          '*' :: ',' :: ' ' :: renderItems (List.replicate (k + 1) Item.star) := rfl
      rw [hcons, len_cons, len_cons, len_cons, ih.1]
      have hsize : Char.utf8Size '*' = 1 ∧ Char.utf8Size ',' = 1 ∧ Char.utf8Size ' ' = 1 := by decide
      refine ⟨by omega, ?_⟩
      simp [ih.2]
  obtain ⟨hlen, hsemi⟩ := hitems n
  rw [starsQuery, render_ofItems, len_append, len_append, hlen]
  have hwords : len "SELECT ".toList = 7 ∧ len " FROM t".toList = 7 := by decide
  refine ⟨by omega, ?_⟩
  simp [hsemi]

theorem stars_response (n : ℕ) (hn : 32767 < 5 * (n + 1)) :
    statementsOf (starsQuery n).render = [(starsQuery n).render] ∧
    ∃ m ∈ response (C := Crates.least) Config.default false () (starsQuery n).render,
      ¬Survives (sentCols Config.default false (shapeOf (starsQuery n).render)) m := by
  have hsplit : some (statementsOf (starsQuery n).render) = some [(starsQuery n).render] := by
    rw [← splitStatements_eq]
    exact splitStatements_render _ rfl rfl (render_stars n).2
  have hshape : shapeOf (starsQuery n).render = (starsQuery n).shape := shapeOf_render _
  have hkind : (shapeOf (starsQuery n).render).kind = .select := by
    rw [hshape]
    rfl
  have hcols : (sentCols Config.default false (shapeOf (starsQuery n).render)).length =
      5 * (n + 1) := by
    have hsent : sentCols Config.default false (shapeOf (starsQuery n).render) =
        resolveCols (shapeOf (starsQuery n).render) Config.default := rfl
    rw [hsent, resolveCols, List.length_map, hshape, length_stars]
  have hmany : 32767 < (sentCols Config.default false (shapeOf (starsQuery n).render)).length := by
    omega
  exact ⟨Option.some.inj hsplit, response_lost (C := Crates.least) hkind hmany ()⟩

/-- The text of 6554 stars, of five columns each. -/
def manyStars : Str := (starsQuery 6553).render

/-- **A short query is answered with a description that no client can read.** -/
theorem stars_lost : statementsOf manyStars = [manyStars] ∧ len manyStars + 4 ≤ maxMsg ∧
    ∃ m ∈ response (C := Crates.least) Config.default false () manyStars,
      ¬Survives (sentCols Config.default false (shapeOf manyStars)) m := by
  have hmany : 32767 < 5 * (6553 + 1) := by decide
  have hstars := stars_response 6553 hmany
  have hlen := (render_stars 6553).1
  have hmax : maxMsg = 16777216 := rfl
  unfold manyStars
  exact ⟨hstars.1, by omega, hstars.2⟩

end EtherealDb.Pg
