import EtherealDb.Proof.Cli
import EtherealDb.Proof.Recover

/-!
# Careless queries

What crush mode makes of a query, read off the query and not off its text.

* `Query.verdict`: by what the query leaves out, the options and whether a slot is free.
* `crushClass_query`: the extractor and the classifier together come to that verdict.
* `verdict_exact`: **every frontend keeps to the verdict**: the notices say so, and the rows are a
  crush stream exactly when it is one.
* `verdict_restrained`: **restraint disarms.** A query that leaves out less, and reads rows only if the
  other does, is treated no worse.
-/

namespace EtherealDb

open Str

/-! ## Verdicts -/

/-- What a query leaves out: a column list, a condition, a limit. -/
def Query.omits (q : Query) : Signals := ⟨q.items.any Item.isStar, q.cond.isNone, q.limit.isNone⟩

/-- How much that is. -/
def Signals.count (s : Signals) : ℕ := s.broad.toNat + s.noWhere.toNat + s.noLimit.toNat

/-- Whether an item is the call of an aggregate. -/
def Item.isAggregate : Item → Bool
  | .expr (.call f _ _) _ _ => aggregates.contains (lower f.text)
  | _ => false

/-- Whether a query reads the rows of a table: no catalog, and not aggregates alone. -/
def Query.readsRows (q : Query) : Bool := !q.readsCatalog && !q.items.all Item.isAggregate

/-- Whether crush mode acts on what is left out. -/
def CrushThreshold.trips (th : CrushThreshold) (s : Signals) : Bool :=
  match th with
  | .star => s.broad
  | .where' => s.noWhere
  | .limit => s.noLimit
  | .any2 => 2 ≤ s.count
  | .all3 => s.count = 3

/-- What becomes of a query. -/
inductive Verdict where
  /-- A normal answer, and no word of it. -/
  | quiet
  /-- A normal answer to a loose query. -/
  | loose
  /-- A normal answer to an unsafe query, as crush mode only warns. -/
  | warned
  /-- A normal answer to an unsafe query, as no slot is free. -/
  | refused
  /-- The crush stream. -/
  | crushed
  deriving DecidableEq, Repr

/-- **The verdict on a query.** -/
def Query.verdict (q : Query) (cfg : Config) (slot : Bool) : Verdict :=
  if cfg.crush.enabled && q.readsRows then
    if cfg.crush.threshold.trips q.omits then
      if cfg.crush.warnOnly then .warned else if slot then .crushed else .refused
    else if 2 ≤ q.omits.count then .loose
    else .quiet
  else .quiet

/-- What a client is told of a verdict. -/
def Verdict.notices (s : Signals) : Verdict → List Str
  | .quiet => []
  | .loose => [Pg.looseNotice (.warn s)]
  | .warned => [Pg.unsafeNotice (.crush s)]
  | .refused => [Pg.capacityNotice]
  | .crushed => [Pg.crushNotice]

/-! ## Classes -/

theorem aggregate_item (i : Item) : (i.columns.all fun c => c.aggregate) = i.isAggregate := by
  cases i with
  | star | starOf q => rfl
  | expr e cast a =>
    have hkeep : ∀ c : ColumnSpec, ((c.rename a).retype cast).aggregate = c.aggregate := by
      intro c
      cases cast <;> rfl
    rw [Item.columns, List.all_cons, List.all_nil, Bool.and_true, hkeep]
    cases e <;> rfl

/-- A query is of aggregates alone when its items are. -/
theorem aggregateOnly_shape (q : Query) : q.shape.aggregateOnly = q.items.all Item.isAggregate := by
  have hne : q.items.flatMap Item.columns ≠ [] := by
    obtain ⟨i, l, hl⟩ := List.exists_cons_of_ne_nil q.items_ne
    rw [hl, List.flatMap_cons]
    refine List.append_ne_nil_of_left_ne_nil ?_ _
    cases i <;> exact List.cons_ne_nil _ _
  have hall : ((q.items.flatMap Item.columns).all fun c => c.aggregate) = q.items.all Item.isAggregate := by
    rw [List.all_flatMap]
    exact congrArg q.items.all (funext aggregate_item)
  rw [← hall, ResultShape.aggregateOnly]
  simp [Query.shape, hne]

/-- **The class of a query's text.** -/
theorem crushClass_query (cfg : Config) (q : Query) : cfg.crushClass (shapeOf q.render) =
    if cfg.crush.enabled && q.readsRows then
      if cfg.crush.threshold.trips q.omits then .crush q.omits
      else if 2 ≤ q.omits.count then .warn q.omits
      else .safe
    else .safe := by
  have hsafe : (q.shape.kind ≠ .select ∨ q.shape.tableHint = none ∨ q.items.all Item.isAggregate = true ∨
      q.shape.forceEmpty = true) ↔ q.readsRows = false := by
    rw [Query.readsRows, Bool.and_eq_false_iff, Bool.not_eq_false', Bool.not_eq_false']
    simp only [Query.shape, ne_eq, not_true_eq_false, reduceCtorEq, false_or]
    exact or_comm
  rw [shapeOf_render, Config.crushClass]
  by_cases hon : cfg.crush.enabled
  · rw [if_pos hon, hon, Bool.true_and, ResultShape.crushClass, aggregateOnly_shape]
    cases hreads : q.readsRows with
    | false => rw [if_pos (hsafe.2 hreads), if_neg Bool.false_ne_true]
    | true =>
      rw [if_neg fun h => Bool.false_ne_true ((hsafe.1 h).symm.trans hreads), if_pos rfl]
      simp only [Query.shape, Option.not_isSome]
      cases cfg.crush.threshold <;> rfl
  · rw [if_neg hon]
    simp [hon]

/-- **The verdict, by the class of the text.** -/
theorem verdict_cases (q : Query) (cfg : Config) (slot : Bool) :
    (cfg.crushClass (shapeOf q.render) = .safe ∧ q.verdict cfg slot = .quiet) ∨
    (cfg.crushClass (shapeOf q.render) = .warn q.omits ∧ q.verdict cfg slot = .loose) ∨
    (cfg.crushClass (shapeOf q.render) = .crush q.omits ∧ q.verdict cfg slot =
      if cfg.crush.warnOnly then .warned else if slot then .crushed else .refused) := by
  rw [crushClass_query, Query.verdict]
  split_ifs <;> simp

/-- **A query is crushed** when its verdict says so. -/
theorem crushed_query_iff (q : Query) (cfg : Config) (slot : Bool) :
    Pg.Crushed cfg slot (shapeOf q.render) ↔ q.verdict cfg slot = .crushed := by
  unfold Pg.Crushed
  rcases verdict_cases q cfg slot with ⟨hcls, hv⟩ | ⟨hcls, hv⟩ | ⟨hcls, hv⟩
  · rw [hcls, hv]
    simp
  · rw [hcls, hv]
    simp
  · rw [hcls, hv]
    cases cfg.crush.warnOnly <;> cases slot <;> simp

namespace Pg

variable {C : Crates} {cfg : Config}

/-! ## Notices -/

/-- The texts of the notices among some messages. -/
def notices (ms : List Backend) : List Str :=
  ms.filterMap fun m => match m with
    | .notice msg => some msg
    | _ => none

theorem notices_append (a b : List Backend) : notices (a ++ b) = notices a ++ notices b :=
  List.filterMap_append

/-- Rows and a tag hold no notice. -/
theorem notices_rows (cols : List Resolved) (formats : List ℤ) (g : Gen) (n : ℕ) (rng : C.Rng) (tag : Str) :
    notices (((putDataRowFmt cols formats g).times n rng).1 ++ [.commandComplete tag]) = [] := by
  rw [notices, List.filterMap_eq_nil_iff]
  intro m hm
  rcases List.mem_append.1 hm with hm | hm
  · rw [times_putDataRowFmt] at hm
    obtain ⟨texts, -, rfl⟩ := List.mem_map.1 hm
    rfl
  · obtain rfl := List.mem_singleton.1 hm
    rfl

theorem notices_streamRows (cols : List Resolved) (formats : List ℤ) (n : ℕ) (g : Gen) (rng : C.Rng) :
    notices (streamRows cols formats n g rng).1 = [] := by
  rw [streamRows_eq]
  exact notices_rows cols formats g n rng _

theorem notices_portalRows (shape : ResultShape) (formats : List ℤ) (maxRows : ℤ) (rng : C.Rng) :
    notices (portalRows shape cfg formats maxRows rng).1 = [] := by
  rw [portalRows_eq]
  exact notices_rows _ formats _ _ _ _

theorem notices_normalResponse {shape : ResultShape} (hk : shape.kind = .select) (stmt : Str) (os : C.Rng) :
    notices (normalResponse shape cfg stmt os) = [] := by
  unfold normalResponse
  rw [hk]
  dsimp only
  rw [normalRows_eq, putDataRow]
  exact notices_rows _ [] _ _ _ _

theorem kind_query (q : Query) : (shapeOf q.render).kind = .select := by rw [shapeOf_render]; rfl

/-- **A simple query is told its verdict.** -/
theorem notices_alone (q : Query) (slot : Bool) (os : C.Rng) :
    notices (alone cfg slot os q.render) = (q.verdict cfg slot).notices q.omits := by
  have hnormal : notices (normalResponse (shapeOf q.render) cfg q.render os) = [] :=
    notices_normalResponse (kind_query q) q.render os
  have hcrush : notices (crushStream (shapeOf q.render) cfg q.render os) = [crushNotice] := by
    rw [crushStream, notices_append, notices_streamRows]
    rfl
  have hquiet : notices (Out.new.putAll (normalResponse (shapeOf q.render) cfg q.render os)).all = [] := by
    rw [all_putAll, all_new, List.nil_append, hnormal]
  have hput : ∀ msg, notices ((Out.new.put (.notice msg)).putAll
      (normalResponse (shapeOf q.render) cfg q.render os)).all = [msg] := by
    intro msg
    rw [all_putAll, notices_append, hnormal, all_put, all_new]
    rfl
  unfold alone respondStatement
  simp only [extract_eq, Option.bind_eq_bind, Option.bind_some]
  rcases verdict_cases q cfg slot with ⟨hcls, hv⟩ | ⟨hcls, hv⟩ | ⟨hcls, hv⟩
  · rw [hcls, hv]
    exact hquiet
  · rw [hcls, hv]
    exact hput _
  · rw [hcls, hv]
    cases hw : cfg.crush.warnOnly with
    | true => exact hput _
    | false =>
      cases slot with
      | true =>
        simp only [Bool.not_false, if_true, Option.pure_def, Option.map_some, Option.getD_some,
          all_flush_write, all_new, List.nil_append, hcrush]
        rfl
      | false => exact hput _

/-- **A portal is told the verdict on its query**, whatever its formats and its bound. -/
theorem notices_executeSelect (q : Query) (slot : Bool) (os : C.Rng) (formats : List ℤ) (maxRows : ℤ) :
    notices (executeSelect cfg slot os ⟨q.render, formats⟩ maxRows (shapeOf q.render) .new).all =
      (q.verdict cfg slot).notices q.omits := by
  have hrows : notices (portalRows (shapeOf q.render) cfg formats maxRows
      (seedRng cfg (Utf8.encode q.render) os)).1 = [] := notices_portalRows _ formats maxRows _
  have hquiet : notices (Out.new.putAll (portalRows (shapeOf q.render) cfg formats maxRows
      (seedRng cfg (Utf8.encode q.render) os)).1).all = [] := by
    rw [all_putAll, all_new, List.nil_append, hrows]
  have hput : ∀ msg, notices ((Out.new.put (.notice msg)).putAll (portalRows (shapeOf q.render) cfg
      formats maxRows (seedRng cfg (Utf8.encode q.render) os)).1).all = [msg] := by
    intro msg
    rw [all_putAll, notices_append, hrows, all_put, all_new]
    rfl
  unfold executeSelect
  dsimp only
  rcases verdict_cases q cfg slot with ⟨hcls, hv⟩ | ⟨hcls, hv⟩ | ⟨hcls, hv⟩
  · rw [hcls, hv]
    exact hquiet
  · rw [hcls, hv]
    exact hput _
  · rw [hcls, hv]
    cases hw : cfg.crush.warnOnly with
    | true => exact hput _
    | false =>
      cases slot with
      | true =>
        simp only [Bool.not_false, if_true]
        rw [all_write_write, all_flush_write, notices_append, notices_append, notices_streamRows, all_new]
        rfl
      | false => exact hput _

theorem executePortal_query (q : Query) (slot : Bool) (os : C.Rng) (formats : List ℤ) (maxRows : ℤ) :
    executePortal cfg slot os ⟨q.render, formats⟩ maxRows .new =
      some (executeSelect cfg slot os ⟨q.render, formats⟩ maxRows (shapeOf q.render) .new) := by
  unfold executePortal
  simp only [extract_eq, Option.bind_eq_bind, Option.bind_some, kind_query q]
  rfl

end Pg

variable {C : Crates} {cfg : Config}

theorem MySql.runQuery_query (q : Query) (slot : Bool) (os : C.Rng) {sql : Str}
    (h : (statementsOf sql).head? = some q.render) : MySql.runQuery cfg slot os sql =
      some (MySql.selectResponse cfg slot os q.render (shapeOf q.render)) := by
  unfold MySql.runQuery
  simp only [splitStatements_eq, extract_eq, Option.bind_eq_bind, Option.bind_some, h, Option.getD_some,
    Pg.kind_query q]
  rfl

/-! ## Rows -/

/-- The rows that a verdict leaves room for: the crush stream, or a few of the band. -/
def Verdict.Allows (cfg : Config) (limit : Option ℕ) (v : Verdict) (n : ℕ) : Prop :=
  if v = .crushed then n = cfg.crush.maxRows
  else n ≤ max 1 (max cfg.rowsMax cfg.rowsMin) ∧ ∀ l ∈ limit, n ≤ l

/-- A normal answer has the rows of the band at most, and of the limit. -/
theorem rowCount_le (shape : ResultShape) (rng : C.Rng) :
    (Pg.rowCount shape cfg rng).1 ≤ max 1 (max cfg.rowsMax cfg.rowsMin) ∧
      ∀ l ∈ shape.limit, (Pg.rowCount shape cfg rng).1 ≤ l := by
  have hband : (Pg.rowBand shape cfg rng).1 ≤ max 1 (max cfg.rowsMax cfg.rowsMin) := by
    unfold Pg.rowBand
    split_ifs
    · exact Nat.zero_le _
    · exact le_max_left _ _
    · have hdraw := C.rangeIncl_mem .usize (cfg.rowsMin : ℤ) (max (cfg.rowsMax : ℤ) cfg.rowsMin) rng
        (le_max_right _ _)
      rw [Draw.map_apply]
      omega
  rw [Pg.rowCount_fst, Pg.limited]
  cases shape.limit with
  | none => exact ⟨hband, by rintro l ⟨⟩⟩
  | some l =>
    refine ⟨(Nat.min_le_left _ _).trans hband, ?_⟩
    rintro m ⟨⟩
    exact Nat.min_le_right _ _

/-- What is not crushed has rows enough, and fewer when the client asks for fewer. -/
theorem allows_normal {q : Query} {slot : Bool} (h : ¬Pg.Crushed cfg slot (shapeOf q.render)) (rng : C.Rng)
    {n : ℕ} (hn : n ≤ (Pg.rowCount (shapeOf q.render) cfg rng).1) :
    (q.verdict cfg slot).Allows cfg q.limit n := by
  obtain ⟨hband, hlimit⟩ := rowCount_le (shapeOf q.render) rng
  rw [Verdict.Allows, if_neg fun hv => h ((crushed_query_iff q cfg slot).2 hv)]
  refine ⟨hn.trans hband, fun l hl => hn.trans (hlimit l ?_)⟩
  rw [shapeOf_render]
  exact hl

theorem allows_crushed {q : Query} {slot : Bool} (h : Pg.Crushed cfg slot (shapeOf q.render)) :
    (q.verdict cfg slot).Allows cfg q.limit cfg.crush.maxRows := by
  rw [Verdict.Allows, if_pos ((crushed_query_iff q cfg slot).1 h)]

/-- How bad a verdict is: the last three are of one query, under other options or at other times. -/
def Verdict.severity : Verdict → ℕ
  | .quiet => 0
  | .loose => 1
  | .warned | .refused | .crushed => 2

/-- **A query that is more restrained**: it leaves out no more, and reads rows only if the other does. -/
structure Query.Restrains (q' q : Query) : Prop where
  broad : q'.omits.broad → q.omits.broad
  noWhere : q'.omits.noWhere → q.omits.noWhere
  noLimit : q'.omits.noLimit → q.omits.noLimit
  readsRows : q'.readsRows → q.readsRows

/-- Leaving out less trips no threshold that leaving out more does not. -/
theorem trips_mono {s t : Signals} (hbroad : s.broad → t.broad) (hwhere : s.noWhere → t.noWhere)
    (hlimit : s.noLimit → t.noLimit) :
    s.count ≤ t.count ∧ ∀ th : CrushThreshold, th.trips s → th.trips t := by
  obtain ⟨b, w, l⟩ := s
  obtain ⟨b', w', l'⟩ := t
  dsimp only at hbroad hwhere hlimit
  have hcount : (⟨b, w, l⟩ : Signals).count ≤ (⟨b', w', l'⟩ : Signals).count := by
    revert hbroad hwhere hlimit
    cases b <;> cases w <;> cases l <;> cases b' <;> cases w' <;> cases l' <;> decide
  have hthree : (⟨b', w', l'⟩ : Signals).count ≤ 3 := by
    cases b' <;> cases w' <;> cases l' <;> decide
  refine ⟨hcount, fun th hth => ?_⟩
  cases th with
  | star => exact hbroad hth
  | where' => exact hwhere hth
  | limit => exact hlimit hth
  | any2 =>
    have hle : 2 ≤ (⟨b, w, l⟩ : Signals).count := by simpa [CrushThreshold.trips] using hth
    exact decide_eq_true (hle.trans hcount)
  | all3 =>
    have heq : (⟨b, w, l⟩ : Signals).count = 3 := by simpa [CrushThreshold.trips] using hth
    exact decide_eq_true (by omega)

/-- **The verdict on a more restrained query** is no worse, under every threshold. -/
theorem verdict_mono {q' q : Query} (h : q'.Restrains q) (cfg : Config) (slot : Bool) :
    (q'.verdict cfg slot).severity ≤ (q.verdict cfg slot).severity ∧
      (q'.verdict cfg slot = .crushed → q.verdict cfg slot = .crushed) := by
  obtain ⟨hcount, htrips⟩ := trips_mono h.broad h.noWhere h.noLimit
  have htrips := htrips cfg.crush.threshold
  have hreads := h.readsRows
  unfold Query.verdict
  cases cfg.crush.enabled with
  | false => exact ⟨le_rfl, id⟩
  | true =>
    simp only [Bool.true_and]
    cases hr' : q'.readsRows with
    | false => exact ⟨Nat.zero_le _, by simp⟩
    | true =>
      rw [hreads hr', if_pos rfl, if_pos rfl]
      by_cases ht' : cfg.crush.threshold.trips q'.omits
      · rw [if_pos ht', if_pos (htrips ht')]
        exact ⟨le_rfl, id⟩
      · rw [if_neg ht']
        by_cases hloose : 2 ≤ q'.omits.count
        · have hloose' : 2 ≤ q.omits.count := hloose.trans hcount
          rw [if_pos hloose, if_pos hloose']
          refine ⟨?_, by simp⟩
          split_ifs <;> decide
        · rw [if_neg hloose]
          exact ⟨Nat.zero_le _, by simp⟩

/-- A verdict is told, unless it is a quiet one. -/
theorem notices_eq_nil_iff {v : Verdict} {s : Signals} : v.notices s = [] ↔ v.severity = 0 := by
  cases v <;> simp [Verdict.notices, Verdict.severity]

/-- A query with a limit. -/
def Query.upTo (q : Query) (n : ℕ) (h : n < 2 ^ 64) : Query :=
  { q with
    limit := some n
    limit_lt := by rintro m ⟨⟩; exact h }

/-- A query with a condition. -/
def Query.under (q : Query) (c : Cond) : Query := { q with cond := some c }

/-- A query with another list. -/
def Query.listing (q : Query) (items : List Item) (h : items ≠ []) : Query :=
  { q with
    items := items
    items_ne := h }

theorem restrains_upTo (q : Query) {n : ℕ} (h : n < 2 ^ 64) : (q.upTo n h).Restrains q :=
  ⟨id, id, fun h => absurd h Bool.false_ne_true, id⟩

theorem restrains_under (q : Query) (c : Cond) : (q.under c).Restrains q :=
  ⟨id, fun h => absurd h Bool.false_ne_true, id, id⟩

/-- A star that is spelled out is a restraint, into whatever columns or aggregates. -/
theorem restrains_listing {q : Query} (hstar : q.items.any Item.isStar) {items : List Item} (h : items ≠ []) :
    (q.listing items h).Restrains q := by
  refine ⟨fun _ => hstar, id, id, fun hreads => ?_⟩
  obtain ⟨i, hi, histar⟩ := List.any_eq_true.1 hstar
  have hrow : q.items.all Item.isAggregate = false := by
    rw [List.all_eq_false]
    refine ⟨i, hi, ?_⟩
    cases i with
    | star | starOf _ => exact Bool.false_ne_true
    | expr e cast a => cases histar
  obtain ⟨hcatalog, -⟩ := Bool.and_eq_true_iff.1 hreads
  rw [Query.readsRows, hrow]
  exact Bool.and_eq_true_iff.2 ⟨hcatalog, rfl⟩

/-- A query for a whole table. -/
def dump : Query := .ofItems [.star] (List.cons_ne_nil _ _)

example : dump.verdict Pg.crushing true = .crushed ∧
    (dump.upTo 10 (by decide)).verdict Pg.crushing true = .loose := by decide

end EtherealDb
