import EtherealDb.Proof.PgAnswer
import EtherealDb.Spec.MySql

/-!
# Three responders, one answer

The Postgres simple path, the Postgres extended path and the MySQL path count and draw
the rows of a `SELECT` in code of their own.

* `textRow_eq`: a MySQL row is the texts of the Postgres row, with booleans as `1` and `0`.
* `responders_agree`: **the three answer with the same rows.**
-/

namespace EtherealDb

open Str
open Pg (rowTexts rowCount)

variable {C : Crates}

/-! ## The MySQL path -/

/-- How a text of a column reads on MySQL: a boolean that is not a literal is a number. -/
def mysqlText (c : Resolved) (t : Str) : Str :=
  if c.literal = none ∧ c.wt = .bool then (if t = ("t" : Str) then "1" else "0") else t

theorem mysqlValue_eq (c : Resolved) (g : Gen) (rng : C.Rng) :
    MySql.mysqlValue c g rng = (mysqlText c (Pg.cellText c g rng).1, (Pg.cellText c g rng).2) := by
  unfold MySql.mysqlValue Pg.cellText mysqlText
  cases hl : c.literal with
  | some lit => simp [Draw.pure_apply]
  | none =>
    by_cases hb : c.wt = .bool
    · simp [hb, Draw.bind_apply, Draw.pure_apply]
    · simp [hb, Draw.bind_apply, Draw.pure_apply]

theorem rowCells_eq (cols : List Resolved) (g : Gen) (rng : C.Rng) :
    MySql.rowCells g cols rng =
      (List.zipWith mysqlText cols (rowTexts g cols rng).1, (rowTexts g cols rng).2) := by
  induction cols generalizing rng with
  | nil => rfl
  | cons c cols ih =>
    have hstep : MySql.rowCells g (c :: cols) rng =
        ((MySql.mysqlValue c g rng).1 :: (MySql.rowCells g cols (MySql.mysqlValue c g rng).2).1,
          (MySql.rowCells g cols (MySql.mysqlValue c g rng).2).2) := rfl
    rw [hstep, mysqlValue_eq, ih]
    rfl

/-- **A MySQL row draws what the Postgres row draws.** -/
theorem textRow_eq (cols : List Resolved) (g : Gen) (rng : C.Rng) :
    MySql.textRow cols g rng =
      (.row (List.zipWith mysqlText cols (rowTexts g cols rng).1), (rowTexts g cols rng).2) := by
  have hrow : MySql.textRow cols g rng =
      (.row (MySql.rowCells g cols rng).1, (MySql.rowCells g cols rng).2) := rfl
  rw [hrow, rowCells_eq]

/-- The normal result set of `select_response`. -/
theorem mysql_normalRows_eq (shape : ResultShape) (cfg : Config) (rng : C.Rng) :
    (MySql.normalRows shape cfg rng).1 =
      MySql.resultHeader (MySql.resolveCols shape cfg) ++
        ((MySql.textRow (MySql.resolveCols shape cfg) cfg.genCtx).times (rowCount shape cfg rng).1
          (rowCount shape cfg rng).2).1 ++ [.eof] := by
  unfold MySql.normalRows rowCount Pg.rowBand Pg.limited
  split_ifs <;> cases shape.limit <;> rfl

/-! ## Booleans -/

/-- A column that is announced as boolean and has no literal is filled by the boolean
generator. -/
theorem st_of_bool {spec : ColumnSpec} {rules : Rules}
    (hb : (Resolved.fromSpec spec rules).wt = .bool)
    (hl : (Resolved.fromSpec spec rules).literal = none) :
    (Resolved.fromSpec spec rules).st = .bool := by
  unfold Resolved.fromSpec at hb hl ⊢
  cases hlit : spec.literal with
  | some l => rw [hlit] at hl; cases hl
  | none =>
    rw [hlit] at hb
    cases hcast : spec.cast with
    | none =>
      rw [hcast] at hb
      exact wireType_eq_bool.1 hb
    | some cast =>
      rw [hcast] at hb
      obtain rfl : cast = .bool := hb
      dsimp only
      by_cases hne : wireType (inferWith spec.name rules) ≠ .bool
      · rw [if_pos hne]; rfl
      · rw [if_neg hne]
        exact wireType_eq_bool.1 (not_not.1 hne)

/-- Without fuzz a boolean cell that is not a literal reads `t` or `f`. -/
theorem cellText_bool {c : Resolved} {g : Gen} (hg : g.fuzz = 0) (hst : c.st = .bool)
    (hl : c.literal = none) (rng : C.Rng) :
    (Pg.cellText c g rng).1 = ("t" : Str) ∨ (Pg.cellText c g rng).1 = ("f" : Str) := by
  unfold Pg.cellText
  rw [hl, hst]
  dsimp only
  rw [genValue_no_fuzz hg]
  exact generate_bool g.theme rng

/-- The texts of a row, column by column. -/
theorem getElem?_rowTexts {cols : List Resolved} {g : Gen} {i : ℕ} {t : Str} {rng : C.Rng}
    (h : (rowTexts g cols rng).1[i]? = some t) :
    ∃ c, ∃ rng' : C.Rng, cols[i]? = some c ∧ t = (Pg.cellText c g rng').1 := by
  induction cols generalizing i rng with
  | nil => simp [rowTexts, Draw.pure_apply] at h
  | cons c cols ih =>
    have hstep : (rowTexts g (c :: cols) rng).1 =
        (Pg.cellText c g rng).1 :: (rowTexts g cols (Pg.cellText c g rng).2).1 := rfl
    rw [hstep] at h
    cases i with
    | zero => exact ⟨c, rng, rfl, (Option.some.inj h).symm⟩
    | succ i => exact ih h

/-! ## Agreement -/

/-- The texts of one row of a `SELECT`: one for each column, booleans as `t` and `f`. -/
def RowOf (cols : List Resolved) (texts : List Str) : Prop :=
  texts.length = cols.length ∧
    ∀ (i : ℕ) c t, cols[i]? = some c → texts[i]? = some t → c.wt = .bool → c.literal = none →
      t = ("t" : Str) ∨ t = ("f" : Str)

theorem rowOf_rowTexts (shape : ResultShape) (cfg : Config) (hg : cfg.genCtx.fuzz = 0)
    (rng : C.Rng) :
    RowOf (Pg.resolveCols shape cfg) (rowTexts cfg.genCtx (Pg.resolveCols shape cfg) rng).1 := by
  refine ⟨Pg.length_rowTexts _ _, ?_⟩
  intro i c t hc ht hb hl
  obtain ⟨c', rng', hc', rfl⟩ := getElem?_rowTexts ht
  obtain rfl : c' = c := Option.some.inj (hc'.symm.trans hc)
  refine cellText_bool hg ?_ hl rng'
  unfold Pg.resolveCols at hc
  obtain ⟨spec, -, rfl⟩ := List.mem_map.1 (List.mem_of_getElem? hc)
  exact st_of_bool hb hl

/-- Rows whose columns are all asked for as text. -/
theorem times_text {cols : List Resolved} {formats : List ℤ} {g : Gen}
    (hf : ∀ i, Pg.formatFor formats i ≠ 1) (n : ℕ) (rng : C.Rng) :
    ((Pg.putDataRowFmt cols formats g).times n rng).1 =
      ((rowTexts g cols).times n rng).1.map fun texts => .dataRow (texts.map .text) := by
  rw [Pg.times_putDataRowFmt]
  refine List.map_congr_left ?_
  intro texts h
  obtain ⟨rng', rfl⟩ := Draw.mem_times h
  rw [Pg.putTexts_text hf 0 (Pg.length_rowTexts _ _)]

theorem formatFor_nil (i : ℕ) : Pg.formatFor [] i ≠ 1 := by simp [Pg.formatFor]

section Paths

variable {cfg : Config} {sql : Str} {shape : ResultShape}

theorem crushClass_off (hcrush : cfg.crush.enabled = false) (shape : ResultShape) :
    cfg.crushClass shape = .safe := by
  unfold Config.crushClass
  rw [if_neg (by simp [hcrush])]

/-- The texts of the rows of a `SELECT`, as a seeded generator draws them. -/
def selectTexts (cfg : Config) (shape : ResultShape) (rng : C.Rng) : List (List Str) :=
  ((rowTexts cfg.genCtx (Pg.resolveCols shape cfg)).times (rowCount shape cfg rng).1
    (rowCount shape cfg rng).2).1

theorem length_selectTexts (rng : C.Rng) :
    (selectTexts cfg shape rng).length = (rowCount shape cfg rng).1 := Draw.length_times _ _ _

/-- **The Postgres simple path.** -/
theorem query_select (hsafe : cfg.crushClass shape = .safe)
    (hsplit : splitStatements sql = some [sql]) (hshape : extract sql = some shape)
    (hk : shape.kind = .select) (o : Outcome C) :
    ∃ out, Pg.query cfg o sql = some out ∧
      out.all = Pg.putRowDescription (Pg.resolveCols shape cfg) ::
        (selectTexts cfg shape (seedRng cfg (Utf8.encode sql) (o.os 0))).map
          (fun texts => .dataRow (texts.map .text)) ++
        [.commandComplete (Pg.selectTag
          (selectTexts cfg shape (seedRng cfg (Utf8.encode sql) (o.os 0))).length),
          .readyForQuery] := by
  have hstmt : Pg.respondStatement cfg (o.slot 0) (o.os 0) .new sql =
      some (Pg.Out.new.putAll (Pg.normalResponse shape cfg sql (o.os 0))) := by
    unfold Pg.respondStatement
    simp only [hshape, Option.bind_eq_bind, Option.bind_some, hsafe]
    rfl
  have hquery : Pg.query cfg o sql =
      some ((Pg.Out.new.putAll (Pg.normalResponse shape cfg sql (o.os 0))).put .readyForQuery) := by
    unfold Pg.query
    simp only [hsplit, Option.bind_eq_bind, Option.bind_some, Pg.respondAll, hstmt]
    rfl
  refine ⟨_, hquery, ?_⟩
  unfold Pg.normalResponse
  rw [hk, Pg.all_put, Pg.all_putAll, length_selectTexts]
  dsimp only
  rw [Pg.normalRows_eq, Pg.putDataRow, times_text formatFor_nil]
  simp [selectTexts]

/-- A portal that is safe is answered with its rows. -/
theorem executePortal_safe (hsafe : cfg.crushClass shape = .safe)
    (hshape : extract sql = some shape) (hk : shape.kind = .select) (formats : List ℤ)
    (maxRows : ℤ) (slot : Bool) (os : C.Rng) :
    Pg.executePortal cfg slot os ⟨sql, formats⟩ maxRows .new =
      some (Pg.Out.new.putAll (Pg.portalRows shape cfg formats maxRows
        (seedRng cfg (Utf8.encode sql) os)).1) := by
  unfold Pg.executePortal Pg.executeSelect
  simp only [hshape, hk, Option.bind_eq_bind, Option.bind_some, hsafe]
  rfl

/-- **The Postgres extended path**, without a bound on the rows. -/
theorem executePortal_select (hsafe : cfg.crushClass shape = .safe) (hfuzz : cfg.ghosts.fuzz = 0)
    (hshape : extract sql = some shape) (hk : shape.kind = .select) {formats : List ℤ}
    (hformats : ∀ i, Pg.formatFor formats i ≠ 1) (slot : Bool) (os : C.Rng) :
    ∃ out, Pg.executePortal cfg slot os ⟨sql, formats⟩ 0 .new = some out ∧
      out.all = (selectTexts cfg shape (seedRng cfg (Utf8.encode sql) os)).map
          (fun texts => .dataRow (texts.map .text)) ++
        [.commandComplete (Pg.selectTag
          (selectTexts cfg shape (seedRng cfg (Utf8.encode sql) os)).length)] := by
  have hex := executePortal_safe hsafe hshape hk formats 0 slot os
  -- the remap for the binary path changes no text
  have htexts : (rowTexts cfg.genCtx (Pg.binarize (Pg.resolveCols shape cfg)) : Draw C _) =
      rowTexts cfg.genCtx (Pg.resolveCols shape cfg) :=
    funext fun rng => Pg.rowTexts_binarize hfuzz _ rng
  refine ⟨_, hex, ?_⟩
  rw [Pg.all_putAll, Pg.portalRows_eq, Pg.boundRows_zero, times_text hformats, htexts, length_selectTexts]
  simp [selectTexts]

/-- **The MySQL path.** -/
theorem runQuery_select (hsafe : cfg.crushClass shape = .safe)
    (hsplit : splitStatements sql = some [sql]) (hshape : extract sql = some shape)
    (hk : shape.kind = .select) (slot : Bool) (os : C.Rng) :
    MySql.runQuery cfg slot os sql =
      some (MySql.resultHeader (Pg.resolveCols shape cfg) ++
        (selectTexts cfg shape (seedRng cfg (Utf8.encode sql) os)).map
          (fun texts => .row (List.zipWith mysqlText (Pg.resolveCols shape cfg) texts)) ++
        [.eof]) := by
  have hcols : MySql.resolveCols shape cfg = Pg.resolveCols shape cfg := rfl
  unfold MySql.runQuery
  simp only [hsplit, hshape, hk, Option.bind_eq_bind, Option.bind_some, List.head?_cons,
    Option.getD_some, MySql.selectResponse, hsafe]
  rw [mysql_normalRows_eq, hcols, Pg.times_map (d := rowTexts cfg.genCtx (Pg.resolveCols shape cfg))
    (f := fun texts => .row (List.zipWith mysqlText (Pg.resolveCols shape cfg) texts))
    (textRow_eq (Pg.resolveCols shape cfg) cfg.genCtx)]
  rfl

/-- **Three responders, one answer.** With a seed, crush mode off and no fuzz, a `SELECT`
that is its own only statement gets the same rows from the Postgres simple path, from the
Postgres extended path in text formats without a bound, and from the MySQL path; there,
booleans that are not literals read `1` and `0` for `t` and `f`. -/
theorem responders_agree (hseed : cfg.seed.isSome) (hcrush : cfg.crush.enabled = false)
    (hfuzz : cfg.ghosts.fuzz = 0) (hsplit : splitStatements sql = some [sql])
    (hshape : extract sql = some shape) (hk : shape.kind = .select) {formats : List ℤ}
    (hformats : ∀ i, Pg.formatFor formats i ≠ 1) (o o' o'' : Outcome C) :
    ∃ (rows : List (List Str)) (simple extended : Pg.Out),
      (∀ texts ∈ rows, RowOf (Pg.resolveCols shape cfg) texts) ∧
      Pg.query cfg o sql = some simple ∧
      simple.all = Pg.putRowDescription (Pg.resolveCols shape cfg) ::
        rows.map (fun texts => .dataRow (texts.map .text)) ++
          [.commandComplete (Pg.selectTag rows.length), .readyForQuery] ∧
      Pg.executePortal cfg (o'.slot 0) (o'.os 0) ⟨sql, formats⟩ 0 .new = some extended ∧
      extended.all = rows.map (fun texts => .dataRow (texts.map .text)) ++
        [.commandComplete (Pg.selectTag rows.length)] ∧
      MySql.runQuery cfg (o''.slot 0) (o''.os 0) sql =
        some (MySql.resultHeader (Pg.resolveCols shape cfg) ++
          rows.map (fun texts => .row (List.zipWith mysqlText (Pg.resolveCols shape cfg) texts)) ++
          [.eof]) := by
  have hsafe := crushClass_off hcrush shape
  obtain ⟨simple, h1, h2⟩ := query_select hsafe hsplit hshape hk o
  obtain ⟨extended, h3, h4⟩ :=
    executePortal_select hsafe hfuzz hshape hk hformats (o'.slot 0) (o'.os 0)
  have h5 := runQuery_select hsafe hsplit hshape hk (o''.slot 0) (o''.os 0)
  -- the seed makes the three draw from one stream
  rw [seedRng_seeded hseed _ (o'.os 0) (o.os 0)] at h4
  rw [seedRng_seeded hseed _ (o''.os 0) (o.os 0)] at h5
  refine ⟨_, simple, extended, ?_, h1, h2, h3, h4, h5⟩
  intro texts h
  obtain ⟨rng, rfl⟩ := Draw.mem_times h
  exact rowOf_rowTexts shape cfg hfuzz rng

end Paths

/-- The default configuration with a seed. -/
def Config.seeded : Config := { Config.default with seed := some 7 }

/-- The three answers to `select 1` under a seed. -/
theorem responders_agree_one :
    ∃ shape, extract "select 1" = some shape ∧
      ∃ (rows : List (List Str)) (simple extended : Pg.Out),
        (∀ texts ∈ rows, RowOf (Pg.resolveCols shape .seeded) texts) ∧
        Pg.query .seeded Outcome.quiet "select 1" = some simple ∧
        simple.all = Pg.putRowDescription (Pg.resolveCols shape .seeded) ::
          rows.map (fun texts => .dataRow (texts.map .text)) ++
            [.commandComplete (Pg.selectTag rows.length), .readyForQuery] ∧
        Pg.executePortal .seeded (Outcome.quiet.slot 0) (Outcome.quiet.os 0) ⟨"select 1", []⟩ 0
          .new = some extended ∧
        extended.all = rows.map (fun texts => .dataRow (texts.map .text)) ++
          [.commandComplete (Pg.selectTag rows.length)] ∧
        MySql.runQuery .seeded (Outcome.quiet.slot 0) (Outcome.quiet.os 0) "select 1" =
          some (MySql.resultHeader (Pg.resolveCols shape .seeded) ++
            rows.map (fun texts =>
              .row (List.zipWith mysqlText (Pg.resolveCols shape .seeded) texts)) ++
            [.eof]) := by
  have hsplit : splitStatements "select 1" = some [("select 1" : Str)] := by decide +kernel
  have hkind : (extract "select 1").map (·.kind) = some .select := by decide +kernel
  obtain ⟨shape, hshape, hk⟩ := Option.map_eq_some_iff.1 hkind
  exact ⟨shape, hshape, responders_agree rfl rfl rfl hsplit hshape hk formatFor_nil
    Outcome.quiet Outcome.quiet Outcome.quiet⟩

end EtherealDb
