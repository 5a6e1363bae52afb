import EtherealDb.Proof.Classify
import EtherealDb.Proof.Faint
import EtherealDb.Proof.PgWire
import EtherealDb.Proof.Responders

/-!
# Literals echo back

A list of string literals, whatever is in them: the scanners see one statement and no word
but `select`, and every frontend sends the strings back.

* `extract_selectItems`: the shape of a select that ends with its list.
* `query_fixed`, `portal_fixed`: a select of literals alone is answered with them.
* `literals_echo`: **string literals are answered with what they stand for.**
* `echoes_literals_iff`: the other way round, **what is reported as a text literal is one
  exactly when the quotes in it are paired**: only the outer two are looked at.
-/

namespace EtherealDb

open Str Reading

variable {C : Crates}

/-! ## A select that ends with its list -/

/-- `select` and a list of items. -/
def selectItems (items : List Item) : Str := "select".toList ++ ' ' :: renderItems items

section Items

variable {i : Item} {l : List Item} (hends : Ends Solid Solid (renderItems (i :: l)))

include hends in
theorem ends_selectItems : Ends Solid Solid (selectItems (i :: l)) := by
  have hselect : Ends Solid Solid "select".toList := ends_word (by decide) (by decide)
  have happend := hselect.append hends [' ']
  rw [List.append_assoc, List.singleton_append] at happend
  exact happend

theorem words_selectItems (items : List Item) : wordsOf (selectItems items) =
    ⟨"select", 0, 6⟩ :: readWords (at' 7 .start) (renderItems items) :=
  readWords_sep (r := at' 0 .start) (a := "select".toList) (b := renderItems items) (by decide)

/-- No word of the items ends a select list. -/
theorem free_items (i : Item) (l : List Item) :
    ∀ w ∈ texts (readWords (at' 7 .start) (renderItems (i :: l))), w ∉ listEnd := by
  have htexts : texts (readWords (at' 7 .start) (renderItems (i :: l))) =
      textsOf (renderItems (i :: l)) := texts_readWords _ _ _ _
  rw [htexts]
  exact renderItems_words i l

theorem texts_selectItems {kw : Str} (hkw : kw ∈ listEnd) (i : Item) (l : List Item) :
    kw ∉ texts (wordsOf (selectItems (i :: l))) := by
  rw [words_selectItems]
  intro h
  rcases List.mem_cons.1 h with rfl | h
  · revert hkw
    decide
  · exact free_items i l _ h hkw

/-- The items are the list. -/
theorem slice_selectItems (i : Item) (l : List Item) :
    slice (selectItems (i :: l)) 6 ((((readWords (at' 7 .start) (renderItems (i :: l))).find?
      fun w => w.text ∈ listEnd).map Word.start).getD (len (selectItems (i :: l)))) =
        some (' ' :: renderItems (i :: l)) := by
  have hend : (readWords (at' 7 .start) (renderItems (i :: l))).find? (fun w => w.text ∈ listEnd) =
      none :=
    find_none_of_texts (p := fun t => t ∈ listEnd) fun w hw => decide_eq_false (free_items i l w hw)
  rw [hend]
  exact slice_append_end "select".toList (' ' :: renderItems (i :: l))

/-- There is no table. -/
theorem rawAfter_selectItems (i : Item) (l : List Item) :
    rawAfter (wordsOf (selectItems (i :: l))) (selectItems (i :: l)) "from" = some none := by
  have hfrom : (wordsOf (selectItems (i :: l))).find? (·.text = ("from" : Str)) = none := by
    refine find_none_of_texts (p := fun t => t = ("from" : Str)) ?_
    intro w hw
    rw [decide_eq_false_iff_not]
    rintro rfl
    exact texts_selectItems (by decide) i l hw
  rw [rawAfter, hfrom]

include hends in
/-- **The shape of a select of items alone.** -/
theorem extract_selectItems : extract (selectItems (i :: l)) = some
    { ResultShape.of .select none with
      columns := (i :: l).flatMap Item.columns
      selectStar := (i :: l).any Item.isStar } := by
  have hbare : bareStmt (selectItems (i :: l)) = selectItems (i :: l) :=
    (ends_selectItems hends).bareStmt
  have htrim : trim (' ' :: renderItems (i :: l)) = renderItems (i :: l) := by
    have hblank := hends.firm.trim_blank (b := []) blank_space (by simp)
    rwa [List.append_nil] at hblank
  have hlimit : limitOf (texts (wordsOf (selectItems (i :: l)))) = none :=
    limitOf_none (texts_selectItems (by decide) i l)
  have hwhere : (texts (wordsOf (selectItems (i :: l)))).any (· = ("where" : Str)) = false := by
    rw [List.any_eq_false]
    intro w hw h
    rw [of_decide_eq_true h] at hw
    exact texts_selectItems (by decide) i l hw
  have hraw := rawAfter_selectItems i l
  have hextract := extract_select (s := selectItems (i :: l))
    (by rw [hbare]; exact words_selectItems _) (.inl rfl)
  rw [words_selectItems] at hraw hlimit hwhere
  rw [hextract, hbare, words_selectItems, extractSelect_eq rfl (slice_selectItems i l) hraw]
  unfold selectShape
  simp only [htrim, skipKeyword_led (renderItems_led i l) (.inl rfl),
    skipKeyword_led (renderItems_led i l) (.inr rfl), pieces_renderItems, parseItems_render,
    any_isStar_render, hlimit, hwhere, Option.bind_eq_bind, Option.bind_some]
  rfl

end Items

/-! ## Lists of string literals -/

/-- `select 's1', …, 'sk'`, with the quotes in each string doubled. -/
def echoQuery (ss : List Str) : Str :=
  "select".toList ++ ' ' :: List.intercalate [',', ' '] (ss.map quoted)

/-- Its shape: each string is echoed. -/
def echoShape (ss : List Str) : ResultShape :=
  { ResultShape.of .select none with columns := ss.map fun s => .echo unnamed s .text }

/-- A string literal as an item. -/
def literalItem (s : Str) : Item := .expr (.literal s) none none

theorem echoQuery_eq (s : Str) (ss : List Str) :
    echoQuery (s :: ss) = selectItems (literalItem s :: ss.map literalItem) := by
  have hlist : List.intercalate [',', ' '] ((s :: ss).map quoted) =
      renderItems (literalItem s :: ss.map literalItem) := by
    induction ss generalizing s with
    | nil => simp [List.intercalate, literalItem, renderItems, Item.render, renderCast, Expr.render]
    | cons t ss ih =>
      rw [List.map_cons, List.map_cons, List.intercalate_cons_cons, ← List.map_cons, ih t,
        List.map_cons, renderItems_cons, List.append_assoc]
      rfl
  unfold echoQuery selectItems
  rw [hlist]

theorem ends_literals (s : Str) (ss : List Str) :
    Ends Solid Solid (renderItems (literalItem s :: ss.map literalItem)) := by
  have hquoted : ∀ s, Ends Solid Solid (literalItem s).render := fun s => (Expr.literal s).ends
  induction ss generalizing s with
  | nil => exact hquoted s
  | cons t ss ih =>
    have happend := (hquoted s).append (ih t) [',', ' ']
    rw [List.append_assoc] at happend
    exact happend

/-- **The semicolons of literals are hidden.** -/
theorem hides_literals (s : Str) (ss : List Str) :
    Hides (· ≠ ';') .start (renderItems (literalItem s :: ss.map literalItem)) := by
  have hquoted : ∀ s, Hides (· ≠ ';') .start (literalItem s).render := fun s =>
    (opaque_quoted Scan.open_start s).1.hides
  induction ss generalizing s with
  | nil => exact hquoted s
  | cons t ss ih =>
    rw [List.map_cons, renderItems_cons, hides_append, (literalItem s).closed]
    exact ⟨hquoted s, .inr (.inr (by decide)), .inr (.inr (by decide)), ih t⟩

theorem extract_echoQuery {ss : List Str} (hne : ss ≠ []) :
    extract (echoQuery ss) = some (echoShape ss) := by
  obtain ⟨s, ss, rfl⟩ := List.exists_cons_of_ne_nil hne
  have hcolumns : ((s :: ss).map literalItem).flatMap Item.columns =
      (s :: ss).map fun s => .echo unnamed s .text := by
    rw [List.flatMap_map, List.map_eq_flatMap]
    rfl
  have hstar : ((s :: ss).map literalItem).any Item.isStar = false := by
    rw [List.any_map]
    simp [Function.comp_def, literalItem, Item.isStar]
  rw [List.map_cons] at hcolumns hstar
  rw [echoQuery_eq, extract_selectItems (ends_literals s ss), hcolumns, hstar]
  rfl

theorem splitStatements_echoQuery {ss : List Str} (hne : ss ≠ []) :
    splitStatements (echoQuery ss) = some [echoQuery ss] := by
  obtain ⟨s, ss, rfl⟩ := List.exists_cons_of_ne_nil hne
  have hends := ends_selectItems (ends_literals s ss)
  have hhides : Hides (· ≠ ';') .start (selectItems (literalItem s :: ss.map literalItem)) := by
    unfold selectItems
    rw [hides_append, run_word_chars (by decide)]
    exact ⟨hides_word (by decide) (by rintro c hc rfl; exact absurd hc (by decide)),
      .inr (.inr (by decide)), hides_literals s ss⟩
  rw [echoQuery_eq]
  exact splitStatements_single hhides hends.firm.trim hends.ne

/-! ## Answers that are written in the query -/

/-- A select of literals alone: one row, and these are its texts. -/
structure Fixed (shape : ResultShape) (ss : List Str) : Prop where
  select : shape.kind = .select
  table : shape.tableHint = none
  limit : shape.limit = none
  full : shape.forceEmpty = false
  literals : shape.columns.map (fun c => c.literal.map Prod.fst) = ss.map some

section Fixed

variable {shape : ResultShape} {ss : List Str} (h : Fixed shape ss) (cfg : Config)

/-- **A row of literals draws nothing.** -/
theorem rowTexts_literals {cols : List Resolved} (hcols : cols.map Resolved.literal = ss.map some)
    (g : Gen) (rng : C.Rng) : Pg.rowTexts g cols rng = (ss, rng) := by
  induction cols generalizing ss with
  | nil =>
    obtain rfl := List.map_eq_nil_iff.1 hcols.symm
    rfl
  | cons c cols ih =>
    obtain ⟨s, ss, rfl⟩ : ∃ s l, ss = s :: l := by
      refine List.exists_cons_of_ne_nil ?_
      rintro rfl
      cases hcols
    obtain ⟨hc, hrest⟩ := List.cons.inj hcols
    have hstep : Pg.rowTexts g (c :: cols) rng =
        (s :: (Pg.rowTexts g cols rng).1, (Pg.rowTexts g cols rng).2) := by
      change ((Pg.cellText c g rng).1 :: (Pg.rowTexts g cols (Pg.cellText c g rng).2).1, _) = _
      rw [Pg.cellText, hc]
      rfl
    rw [hstep, ih hrest]

include h in
theorem resolveCols_literals : (Pg.resolveCols shape cfg).map Resolved.literal = ss.map some := by
  have hspec : ∀ c, (Resolved.fromSpec c cfg.rules).literal = c.literal.map Prod.fst := by
    intro c
    unfold Resolved.fromSpec
    cases c.literal with
    | some l => rfl
    | none => cases c.cast <;> rfl
  rw [← h.literals, Pg.resolveCols, List.map_map]
  exact List.map_congr_left fun c _ => hspec c

include h in
/-- The remap of the binary path keeps the literals. -/
theorem binarize_literals :
    (Pg.binarize (Pg.resolveCols shape cfg)).map Resolved.literal = ss.map some := by
  rw [← resolveCols_literals h cfg, Pg.binarize, List.map_map]
  refine List.map_congr_left fun c _ => ?_
  dsimp only [Function.comp_apply]
  split <;> rfl

include h in
theorem rowCount_fixed (rng : C.Rng) : Pg.rowCount shape cfg rng = (1, rng) := by
  have hband : (Pg.rowBand shape cfg : Draw C ℕ) = pure 1 := by
    have hfull : ¬shape.forceEmpty = true := by rw [h.full]; exact Bool.false_ne_true
    rw [Pg.rowBand, if_neg hfull, if_pos (.inr h.table)]
  have hlimit : Pg.limited shape 1 = 1 := by rw [Pg.limited, h.limit]; rfl
  rw [Pg.rowCount, hband]
  exact congrArg (·, rng) hlimit

include h in
theorem crushClass_fixed : cfg.crushClass shape = .safe := by
  have hsafe : ∀ threshold, shape.crushClass threshold = .safe := by
    intro threshold
    rw [ResultShape.crushClass, if_pos (.inr (.inl h.table))]
  rw [Config.crushClass, hsafe, ite_self]

include h in
theorem selectTexts_fixed (rng : C.Rng) : selectTexts cfg shape rng = [ss] := by
  have htimes : ((Pg.rowTexts cfg.genCtx (Pg.resolveCols shape cfg)).times 1 rng).1 =
      [(Pg.rowTexts cfg.genCtx (Pg.resolveCols shape cfg) rng).1] := rfl
  rw [selectTexts, rowCount_fixed h, htimes, rowTexts_literals (resolveCols_literals h cfg)]

variable {sql : Str} (hshape : extract sql = some shape)

include h hshape in
/-- **The simple path** sends the literals as they are. -/
theorem query_fixed (hsplit : splitStatements sql = some [sql]) (o : Outcome C) :
    ∃ out, Pg.query cfg o sql = some out ∧
      out.all = [Pg.putRowDescription (Pg.resolveCols shape cfg), .dataRow (ss.map .text),
        .commandComplete "SELECT 1", .readyForQuery] := by
  have htag : Pg.selectTag 1 = ("SELECT 1" : Str) := by decide
  obtain ⟨out, hout, hall⟩ := query_select (crushClass_fixed h cfg) hsplit hshape h.select o
  rw [selectTexts_fixed h, List.length_singleton, htag] at hall
  exact ⟨out, hout, hall⟩

include h hshape in
/-- **The extended path** sends them in the formats of their columns. -/
theorem portal_fixed (slot : Bool) (os : C.Rng) (formats : List ℤ) (maxRows : ℤ) :
    ∃ out, Pg.executePortal cfg slot os ⟨sql, formats⟩ maxRows .new = some out ∧
      out.all = [.dataRow (Pg.putTexts formats 0 (Pg.binarize (Pg.resolveCols shape cfg)) ss),
        .commandComplete "SELECT 1"] := by
  have htag : Pg.selectTag 1 = ("SELECT 1" : Str) := by decide
  have hbound : Pg.boundRows maxRows 1 = 1 := by
    unfold Pg.boundRows
    split_ifs <;> omega
  refine ⟨_, executePortal_safe (crushClass_fixed h cfg) hshape h.select formats maxRows slot os,
    ?_⟩
  rw [Pg.all_putAll, Pg.portalRows_eq, rowCount_fixed h, hbound, Pg.times_putDataRowFmt, htag]
  change Pg.Backend.dataRow (Pg.putTexts formats 0 _ (Pg.rowTexts cfg.genCtx _ _).1) :: _ = _
  rw [rowTexts_literals (binarize_literals h cfg)]
  rfl

end Fixed

/-! ## The answers to string literals -/

/-- The columns of a row of echoes. -/
def echoColumns (ss : List Str) : List Resolved :=
  ss.map fun s => ⟨unnamed, .loremShort, .text, some s⟩

theorem resolveCols_echo (ss : List Str) (cfg : Config) :
    Pg.resolveCols (echoShape ss) cfg = echoColumns ss := List.map_map

theorem binarize_echo (ss : List Str) : Pg.binarize (echoColumns ss) = echoColumns ss := by
  simp [Pg.binarize, echoColumns, Function.comp_def]

theorem fixed_echo (ss : List Str) : Fixed (echoShape ss) ss where
  select := rfl
  table := rfl
  limit := rfl
  full := rfl
  literals := by simp [echoShape, ColumnSpec.echo, Function.comp_def]

/-- The binary form of a text is the text. -/
theorem bytes_echo (formats : List ℤ) (i : ℕ) (ss : List Str) :
    (Pg.putTexts formats i (echoColumns ss) ss).map Pg.Cell.bytes = ss.map Utf8.encode := by
  induction ss generalizing i with
  | nil => rfl
  | cons s ss ih =>
    have hcell : (Pg.putCell formats i ⟨unnamed, .loremShort, .text, some s⟩ s).bytes =
        Utf8.encode s := by
      unfold Pg.putCell
      split <;> rfl
    rw [List.map_cons, ← ih (i + 1), ← hcell]
    rfl

theorem mysqlText_echo (ss : List Str) : List.zipWith mysqlText (echoColumns ss) ss = ss := by
  induction ss with
  | nil => rfl
  | cons s ss ih =>
    rw [echoColumns, List.map_cons, List.zipWith_cons_cons]
    exact congrArg (s :: ·) ih

/-- **String literals echo back.** A list of them is one statement, whose columns are texts
with no table, limit or condition, and every frontend answers it with one row: the strings. -/
theorem literals_echo {ss : List Str} (hne : ss ≠ []) :
    splitStatements (echoQuery ss) = some [echoQuery ss] ∧
      extract (echoQuery ss) = some (echoShape ss) ∧
      (∀ (cfg : Config) (o : Outcome C), ∃ out, Pg.query cfg o (echoQuery ss) = some out ∧
        out.all = [Pg.putRowDescription (echoColumns ss), .dataRow (ss.map .text),
          .commandComplete "SELECT 1", .readyForQuery]) ∧
      (∀ (cfg : Config) (slot : Bool) (os : C.Rng) (formats : List ℤ) (maxRows : ℤ),
        ∃ out cells, Pg.executePortal cfg slot os ⟨echoQuery ss, formats⟩ maxRows .new = some out ∧
          out.all = [.dataRow cells, .commandComplete "SELECT 1"] ∧
          cells.map Pg.Cell.bytes = ss.map Utf8.encode) ∧
      ∀ (cfg : Config) (slot : Bool) (os : C.Rng), MySql.runQuery cfg slot os (echoQuery ss) =
        some (MySql.resultSet (echoColumns ss) [ss]) := by
  have hsplit := splitStatements_echoQuery hne
  have hshape := extract_echoQuery hne
  have hfixed := fixed_echo ss
  refine ⟨hsplit, hshape, ?_, ?_, ?_⟩
  · intro cfg o
    have hquery := query_fixed hfixed cfg hshape hsplit o
    rwa [resolveCols_echo] at hquery
  · intro cfg slot os formats maxRows
    obtain ⟨out, hout, hall⟩ := portal_fixed hfixed cfg hshape slot os formats maxRows
    rw [resolveCols_echo, binarize_echo] at hall
    exact ⟨out, _, hout, hall, bytes_echo formats 0 ss⟩
  · intro cfg slot os
    rw [runQuery_select (crushClass_fixed hfixed cfg) hsplit hshape rfl, selectTexts_fixed hfixed,
      resolveCols_echo, List.map_singleton, mysqlText_echo]
    rfl

/-- A quote, a semicolon and a keyword echo back. -/
theorem literals_echo_two : extract "select 'it''s; ', ' from t'" = some
    (echoShape ["it's; ", " from t"]) := by
  have hquery : ("select 'it''s; ', ' from t'" : Str) = echoQuery ["it's; ", " from t"] := by decide
  rw [hquery]
  exact (literals_echo (C := .least) (List.cons_ne_nil _ _)).2.1

/-! ## What is reported as a literal -/

/-- Whether the single quotes of a text come in adjacent pairs. -/
def paired : Str → Bool
  | '\'' :: '\'' :: s => paired s
  | c :: s => c != '\'' && paired s
  | [] => true

/-- **Doubling undoes the undoing** where the quotes are paired. -/
theorem double_undouble (m : Str) : double (undouble m) = m ↔ paired m = true := by
  fun_induction undouble m with
  | case1 s ih =>
    rw [double_cons, if_pos rfl, paired, ← ih]
    simp
  | case2 c s hne ih =>
    rw [double_cons]
    by_cases hc : c = '\''
    · -- the next character is no quote, but one would be written
      subst hc
      have hlone : paired ('\'' :: s) = false := by
        rw [paired]
        · rfl
        · exact fun s' _ hs => hne s' rfl hs
      rw [if_pos rfl, hlone]
      refine iff_of_false ?_ Bool.false_ne_true
      intro h
      have hs : '\'' :: double (undouble s) = s := by simpa using h
      exact hne _ rfl hs.symm
    · have hother : paired (c :: s) = paired s := by
        rw [paired]
        · simp [hc]
        · exact fun s' hc' _ => hc hc'
      rw [if_neg hc, hother, ← ih]
      simp
  | case3 => exact iff_of_true rfl rfl

/-- What is reported as a text literal of the expression's own is the expression. -/
def EchoesLiterals (e : Str) : Prop :=
  ∀ spec v, classifyExpr e = some spec → ¬FromTable spec → spec.literal = some (v, .text) →
    quoted v = trim e

/-- **A reported literal is one literal exactly when the quotes in it are paired.** -/
theorem echoes_literals_iff (e : Str) :
    EchoesLiterals e ↔ ∀ m, trim e = '\'' :: m ++ ['\''] → paired m = true := by
  constructor
  · intro h m hm
    have htable : ¬FromTable (.echo unnamed (undouble m) .text) := by
      rintro ⟨name, col, value, wt, hname, heq⟩
      exact scalarIntrospection_named hname (congrArg ColumnSpec.name heq).symm
    have hquoted := h _ _ (classifyExpr_quotes hm) htable rfl
    rw [hm, quoted] at hquoted
    exact (double_undouble m).1 (by simpa using hquoted)
  · rintro h spec v hspec htable hv
    obtain ⟨wt, rfl, hwt⟩ | ⟨m, hm, rfl⟩ | hfrom | hnone := classifyExpr_cases hspec
    · cases hv
      exact absurd rfl hwt
    · cases hv
      rw [quoted, (double_undouble m).2 (h m hm), hm]
    · exact absurd hfrom htable
    · rw [hnone] at hv
      cases hv

/-- **Two literals are echoed as one.** -/
theorem concat_echoed : classifyExpr "'a' || 'b'" = some (.echo unnamed "a' || 'b" .text) ∧
    ¬EchoesLiterals "'a' || 'b'" := by
  have hecho : classifyExpr "'a' || 'b'" = some (.echo unnamed "a' || 'b" .text) := by decide
  refine ⟨hecho, ?_⟩
  intro h
  have htable : ¬FromTable (.echo unnamed "a' || 'b" .text) := by
    rintro ⟨name, col, value, wt, hname, heq⟩
    exact scalarIntrospection_named hname (congrArg ColumnSpec.name heq).symm
  have hquoted := h _ _ hecho htable rfl
  revert hquoted
  decide

end EtherealDb
