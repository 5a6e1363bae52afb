import EtherealDb.Proof.Pieces
import EtherealDb.Proof.Words

/-!
# Extraction never panics

Every offset the extractor slices at comes from a word or a cut, so each step has a
value that can be said without offsets:

* `rawAfter_eq`: the token after a keyword is read off the text after the word.
* `peelAlias_eq`, `peelCast_eq`: an item is cut at its first `as` and its last cast.
* `extract_isSome`: **no statement makes the extractor panic**, so `shapeOf` and
  `statementsOf` are total.
-/

namespace EtherealDb

open Str Reading

theorem trim_sublist (s : Str) : (trim s).Sublist s :=
  (List.rdropWhile_prefix _ _).sublist.trans (List.dropWhile_sublist _)

/-! ## The token after a keyword -/

/-- The token at the start of a text. -/
def token (s : Str) : Option Str :=
  let raw := trim ((trimStart s).takeWhile fun c => !isDelimiter c)
  if raw = [] then none else some raw

/-- The table a token names. -/
def tableOf (raw : Str) : Option Str :=
  let name := trimMatches '"' (rsplitNext '.' raw)
  if name = [] then none else some (lower name)

theorem rawAfter_eq {words : List Word} {s kw b : Str} {w : Word}
    (hw : words.find? (·.text = kw) = some w) (hb : sliceFrom s w.stop = some b) :
    rawAfter words s kw = some (token b) := by
  unfold rawAfter
  rw [hw]
  simp only [hb, Option.bind_eq_bind, Option.bind_some, sliceTo_find]
  rfl

theorem wordAfter_eq {words : List Word} {s kw : Str} {raw : Option Str}
    (h : rawAfter words s kw = some raw) :
    wordAfter words s kw = some (raw.bind tableOf) := by
  unfold wordAfter
  rw [h]
  cases raw <;> rfl

theorem rawAfter_total (s kw : Str) : ∃ r, rawAfter (wordsOf s) s kw = some r := by
  cases hw : (wordsOf s).find? (·.text = kw) with
  | none => exact ⟨none, by rw [rawAfter, hw]⟩
  | some w =>
    obtain ⟨_, _, b, -, -, -, hb⟩ := (piece_of_mem (List.mem_of_find?_eq_some hw)).cut
    exact ⟨token b, rawAfter_eq hw hb⟩

theorem wordAfter_total (s kw : Str) : ∃ r, wordAfter (wordsOf s) s kw = some r := by
  obtain ⟨r, hr⟩ := rawAfter_total s kw
  exact ⟨_, wordAfter_eq hr⟩

/-! ## Items -/

/-- **The alias step** when the first `as` stands between `a` and `b`. -/
theorem peelAlias_eq {item a b : Str} {w : Word}
    (hw : (wordsOf item).find? (·.text = ("as" : Str)) = some w)
    (ha : sliceTo item w.start = some a) (hb : sliceFrom item w.stop = some b) :
    peelAlias item = some (trim a, some (trimMatches '"' (trim b))) := by
  unfold peelAlias
  simp only [scanWords_eq, Option.bind_eq_bind, Option.bind_some, hw, ha, hb]
  rfl

theorem peelAlias_none {item : Str}
    (hw : (wordsOf item).find? (·.text = ("as" : Str)) = none) :
    peelAlias item = some (item, none) := by
  unfold peelAlias
  simp only [scanWords_eq, Option.bind_eq_bind, Option.bind_some, hw]
  rfl

theorem peelAlias_total (item : Str) : ∃ r, peelAlias item = some r := by
  cases hw : (wordsOf item).find? (·.text = ("as" : Str)) with
  | none => exact ⟨_, peelAlias_none hw⟩
  | some w =>
    obtain ⟨_, _, _, -, -, ha, hb⟩ := (piece_of_mem (List.mem_of_find?_eq_some hw)).cut
    exact ⟨_, peelAlias_eq hw ha hb⟩

/-- **The cast step** when the last cast cuts the text. -/
theorem peelCast_eq {expr a b : Str} (h : lastCast .start expr = some (a, b)) :
    peelCast expr = some (trim a, wireTypeFromSql ((trim b).takeWhile isWordChar)) := by
  have hcut : expr = a ++ ':' :: ':' :: b := lastCast_some h
  have hto : sliceTo expr (len a) = some a := by rw [hcut]; exact sliceTo_append a _
  have hfrom : sliceFrom expr (len a + 2) = some b := by
    have := sliceFrom_append (a ++ [':', ':']) b
    rw [hcut]
    simpa [show ':'.utf8Size = 1 from rfl] using this
  unfold peelCast
  simp only [findTopLevelCast_eq, h, Option.map_some, hto, hfrom, Option.bind_eq_bind,
    Option.bind_some]
  rfl

theorem peelCast_none {expr : Str} (h : lastCast .start expr = none) :
    peelCast expr = some (expr, none) := by
  unfold peelCast
  simp only [findTopLevelCast_eq, h, Option.map_none]
  rfl

theorem peelCast_total (expr : Str) : ∃ r, peelCast expr = some r := by
  cases h : lastCast .start expr with
  | none => exact ⟨_, peelCast_none h⟩
  | some p => exact ⟨_, peelCast_eq h⟩

/-- The text between two quotes. -/
theorem slice_quotes {s : Str} (h2 : 2 ≤ len s) (hh : s.head? = some '\'')
    (hl : s.getLast? = some '\'') :
    ∃ m, s = '\'' :: m ++ ['\''] ∧ slice s 1 (len s - 1) = some m := by
  obtain ⟨t, rfl⟩ : ∃ t, s = t ++ ['\''] := List.getLast?_eq_some_iff.1 hl
  cases t with
  | nil => exact absurd h2 (by decide)
  | cons c m =>
    obtain rfl : c = '\'' := by simpa using hh
    refine ⟨m, rfl, ?_⟩
    have := slice_append ['\''] m ['\'']
    simpa [show '\''.utf8Size = 1 from rfl, Nat.add_comm] using this

theorem classifyCall_total {expr : Str} {paren : ℕ}
    (h : find (· == '(') expr = some paren) : ∃ r, classifyCall expr paren = some r := by
  have hto := sliceTo_find (· == '(') expr
  rw [h, Option.getD_some] at hto
  unfold classifyCall
  simp only [hto, Option.bind_eq_bind, Option.bind_some]
  split
  · exact ⟨_, rfl⟩
  · split <;> exact ⟨_, rfl⟩

theorem classifyExpr_total (expr : Str) : ∃ r, classifyExpr expr = some r := by
  unfold classifyExpr
  simp only
  split
  · exact ⟨_, rfl⟩
  · split
    · rename_i h
      obtain ⟨m, -, hm⟩ := slice_quotes h.1 h.2.1 h.2.2
      rw [hm]
      exact ⟨_, rfl⟩
    · split
      · rename_i paren h
        obtain ⟨r, hr⟩ := classifyCall_total h
        rw [hr]
        exact ⟨_, rfl⟩
      · exact ⟨_, rfl⟩

theorem parseItem_total (item : Str) : ∃ r, parseItem item = some r := by
  unfold parseItem
  simp only
  split
  · exact ⟨_, rfl⟩
  · split
    · exact ⟨_, rfl⟩
    · obtain ⟨⟨e, n⟩, h1⟩ := peelAlias_total (trim item)
      obtain ⟨⟨e', c⟩, h2⟩ := peelCast_total e
      obtain ⟨spec, h3⟩ := classifyExpr_total e'
      simp only [h1, h2, h3, Option.bind_eq_bind, Option.bind_some]
      exact ⟨_, rfl⟩

theorem mapM_total {α β : Type*} {f : α → Option β} (h : ∀ a, ∃ b, f a = some b) (l : List α) :
    ∃ r, l.mapM f = some r := by
  induction l with
  | nil => exact ⟨[], rfl⟩
  | cons a l ih =>
    obtain ⟨b, hb⟩ := h a
    obtain ⟨r, hr⟩ := ih
    exact ⟨b :: r, by simp [hb, hr]⟩

theorem mapM_map_some {α β γ : Type*} {f : β → Option γ} {g : α → β} {e : α → γ} {l : List α}
    (h : ∀ a ∈ l, f (g a) = some (e a)) : (l.map g).mapM f = some (l.map e) := by
  induction l with
  | nil => rfl
  | cons a l ih =>
    have ha := h a (by simp)
    have hl := ih fun b hb => h b (by simp [hb])
    simp [ha, hl]

/-! ## Select lists -/

/-- A keyword in front of a text, in whatever case, cuts it. -/
theorem lower_isPrefix {kw s : Str} (h : kw.isPrefixOf (lower s)) :
    ∃ a b, s = a ++ b ∧ lower a = kw ∧ len a = len kw := by
  obtain ⟨t, ht⟩ := List.isPrefixOf_iff_prefix.1 h
  have hl : kw = lower (s.take kw.length) := by
    rw [lower, List.map_take]
    change kw = (lower s).take kw.length
    rw [← ht, List.take_left]
  refine ⟨s.take kw.length, s.drop kw.length, (List.take_append_drop _ _).symm, hl.symm, ?_⟩
  conv_rhs => rw [hl]
  rw [len_lower]

theorem skipKeyword_eq {kw a b : Str} (h : lower a = kw) :
    skipKeyword kw (a ++ b) =
      some (if b.head?.any isWhitespace then trimStart b else a ++ b) := by
  have hpre : kw.isPrefixOf (lower (a ++ b)) := by
    rw [List.isPrefixOf_iff_prefix, lower_append, h]
    exact List.prefix_append _ _
  have hlen : len kw = len a := by rw [← h, len_lower]
  unfold skipKeyword
  rw [if_pos hpre, hlen]
  simp only [sliceFrom_append, Option.bind_eq_bind, Option.bind_some]
  rfl

theorem skipKeyword_total (kw cols : Str) : ∃ r, skipKeyword kw cols = some r := by
  by_cases h : kw.isPrefixOf (lower cols)
  · obtain ⟨a, b, rfl, ha, -⟩ := lower_isPrefix h
    exact ⟨_, skipKeyword_eq ha⟩
  · exact ⟨cols, by rw [skipKeyword, if_neg h]⟩

/-- The select list ends at a word after `select`, or with the text. -/
theorem slice_list (s : Str) {a b : List Word} {sel : Word} (h : wordsOf s = a ++ sel :: b)
    (p : Word → Bool) : ∃ r, slice s sel.stop (((b.find? p).map Word.start).getD (len s)) =
      some r := by
  obtain ⟨x, u, y, rfl, hw, -, -⟩ := piece_of_mem (w := sel) (by rw [h]; simp)
  have hstop : sel.stop = len (x ++ u) := by rw [hw]; simp
  cases hf : b.find? p with
  | none =>
    rw [Option.map_none, Option.getD_none, hstop]
    exact ⟨y, slice_append_end (x ++ u) y⟩
  | some w =>
    -- the word that ends the list starts after the one that begins it
    have hmem := List.mem_of_find?_eq_some hf
    have hle := ((h ▸ ordered_wordsOf (x ++ u ++ y)).suffix).le_start w hmem
    obtain ⟨x', u', y', hs', hw', -, -⟩ := piece_of_mem (s := x ++ u ++ y) (w := w)
      (by rw [h]; simp [hmem])
    have hstart : w.start = len x' := by rw [hw']
    rw [hstop, hstart] at hle
    -- both cuts are beginnings of one text
    obtain ⟨m, rfl, -⟩ := append_eq_append_of_len_le (d := u' ++ y')
      (hs'.trans (List.append_assoc ..)) hle
    rw [Option.map_some, Option.getD_some, hstop, hstart, hs', len_append (x ++ u) m]
    have := slice_append (x ++ u) m (u' ++ y')
    exact ⟨m, by simpa using this⟩

/-- **A select list that ends inside a text** is the same whatever follows the text. -/
theorem list_inside {s : Str} {a b : List Word} {sel w : Word} (h : wordsOf s = a ++ sel :: b)
    (hw : w ∈ b) (hend : w.text ∈ listEnd) : ∃ l, ∀ (t : Str) (more : List Word),
      slice (s ++ t) sel.stop ((((b ++ more).find? fun v => v.text ∈ listEnd).map
        Word.start).getD (len (s ++ t))) = some l := by
  obtain ⟨stop, hfound⟩ : ∃ v, b.find? (fun v => v.text ∈ listEnd) = some v := by
    rw [← Option.isSome_iff_exists, List.find?_isSome]
    exact ⟨w, hw, decide_eq_true hend⟩
  have hmem : stop ∈ wordsOf s := by
    rw [h]
    exact List.mem_append_right a (List.mem_cons_of_mem sel (List.mem_of_find?_eq_some hfound))
  obtain ⟨l, hl⟩ := slice_list s h fun v => v.text ∈ listEnd
  rw [hfound, Option.map_some, Option.getD_some] at hl
  refine ⟨l, ?_⟩
  intro t more
  rw [List.find?_append, hfound, Option.some_or, Option.map_some, Option.getD_some,
    slice_append_of_le (word_le_len hmem).1]
  exact hl

/-- The `LIMIT` among the texts of the words. -/
def limitOf (ts : List Str) : Option ℕ :=
  ((ts.dropWhile (· ≠ ("limit" : Str)))[1]?).bind (parseUnsigned (2 ^ 64))

theorem limitOf_texts (ws : List Word) :
    ((ws.dropWhile (·.text ≠ ("limit" : Str)))[1]?).bind (fun w => parseUnsigned (2 ^ 64) w.text) =
      limitOf (texts ws) := by
  unfold limitOf texts
  rw [List.dropWhile_map, List.getElem?_map, Option.bind_map]
  rfl

/-- **What the words of a select fix of its shape.** -/
theorem extractSelect_some {s : Str} {words : List Word} {sel : Word} {rest : List Word}
    {shape : ResultShape} (hsel : words.dropWhile (·.text ≠ ("select" : Str)) = sel :: rest)
    (h : extractSelect s words = some shape) :
    shape.kind = .select ∧ shape.limit = limitOf (texts words) ∧
      shape.hasWhere = (texts words).any (· = ("where" : Str)) ∧
      wordAfter words s "from" = some shape.tableHint := by
  have hwhere : words.any (·.text = ("where" : Str)) =
      (texts words).any (· = ("where" : Str)) := by
    rw [texts, List.any_map]
    rfl
  unfold extractSelect at h
  rw [hsel] at h
  simp only [Option.bind_eq_bind, Option.bind_eq_some_iff] at h
  obtain ⟨_, _, _, _, _, _, _, _, _, _, table, htable, _, _, h⟩ := h
  rw [← Option.some.inj h]
  exact ⟨rfl, limitOf_texts words, hwhere, htable⟩

/-- The shape of a select from its list, its target and the texts of its words: what
`extract_select` computes once the offsets are gone. -/
def selectShape (list : Str) (raw : Option Str) (ts : List Str) : Option ResultShape := do
  let cols ← skipKeyword "distinct" (trim list)
  let cols ← skipKeyword "all" cols
  let columns ← (keep (pieces ',' .start cols)).mapM parseItem
  return {
    kind := .select
    columns := columns.flatten
    tableHint := raw.bind tableOf
    limit := limitOf ts
    selectStar := (keep (pieces ',' .start cols)).any fun item => isStar (trim item)
    hasWhere := ts.any (· = ("where" : Str))
    forceEmpty := raw.any isSystemCatalog }

/-- The list of a select counts without the blanks around it. -/
theorem selectShape_congr {l l' : Str} (h : trim l = trim l') (raw : Option Str) (ts : List Str) :
    selectShape l raw ts = selectShape l' raw ts := by
  unfold selectShape
  rw [h]

/-- **A select list gives columns and a star** whatever stands around it. -/
theorem selectShape_eq (l : Str) : ∃ columns star, ∀ raw ts, selectShape l raw ts = some {
    kind := .select
    columns := columns
    tableHint := raw.bind tableOf
    limit := limitOf ts
    selectStar := star
    hasWhere := ts.any (· = ("where" : Str))
    forceEmpty := raw.any isSystemCatalog } := by
  obtain ⟨c1, h1⟩ := skipKeyword_total "distinct" (trim l)
  obtain ⟨c2, h2⟩ := skipKeyword_total "all" c1
  obtain ⟨columns, h3⟩ := mapM_total parseItem_total (keep (pieces ',' .start c2))
  refine ⟨columns.flatten, (keep (pieces ',' .start c2)).any fun item => isStar (trim item), ?_⟩
  intro raw ts
  unfold selectShape
  simp only [h1, h2, h3, Option.bind_eq_bind, Option.bind_some]
  rfl

/-- **A statement with the word `select`** has this shape. -/
theorem extractSelect_of_select {s l : Str} {words : List Word} {sel : Word} {ws : List Word}
    {raw : Option Str} (hdrop : words.dropWhile (·.text ≠ ("select" : Str)) = sel :: ws)
    (hlist : slice s sel.stop (((ws.find? fun w => w.text ∈ listEnd).map Word.start).getD (len s))
      = some l)
    (hraw : rawAfter words s "from" = some raw) :
    extractSelect s words = selectShape l raw (texts words) := by
  have hwhere : words.any (·.text = ("where" : Str)) =
      (texts words).any (· = ("where" : Str)) := by
    rw [texts, List.any_map]; rfl
  unfold extractSelect selectShape
  rw [hdrop]
  simp only [hlist, splitTopLevel_eq, wordAfter_eq hraw, hraw, limitOf_texts, hwhere,
    Option.bind_eq_bind, Option.bind_some]

/-- Nothing stands before a first word `select`. -/
theorem drop_select {sel : Word} (hsel : sel.text = ("select" : Str)) (ws : List Word) :
    (sel :: ws).dropWhile (·.text ≠ ("select" : Str)) = sel :: ws := by
  have hstop : ¬decide (sel.text ≠ ("select" : Str)) = true := by
    rw [decide_eq_true_eq, not_not]
    exact hsel
  exact List.dropWhile_cons_of_neg hstop

/-- **A select whose first word is `select`** has this shape. -/
theorem extractSelect_eq {s l : Str} {sel : Word} {ws : List Word} {raw : Option Str}
    (hsel : sel.text = ("select" : Str))
    (hlist : slice s sel.stop (((ws.find? fun w => w.text ∈ listEnd).map Word.start).getD (len s))
      = some l)
    (hraw : rawAfter (sel :: ws) s "from" = some raw) :
    extractSelect s (sel :: ws) = selectShape l raw (texts (sel :: ws)) :=
  extractSelect_of_select (drop_select hsel ws) hlist hraw

/-- What is not dropped begins with an entry that stops the dropping. -/
theorem exists_dropWhile {α : Type*} {p : α → Bool} {l : List α} {a : α} (ha : a ∈ l)
    (hp : p a = false) : ∃ b rest, l.dropWhile p = b :: rest ∧ p b = false := by
  cases hl : l.dropWhile p with
  | nil =>
    rw [List.dropWhile_eq_nil_iff.1 hl a ha] at hp
    cases hp
  | cons b rest =>
    have hhead := List.head?_dropWhile_not p l
    rw [hl] at hhead
    exact ⟨b, rest, rfl, hhead⟩

/-- **The first word `select`**, where there is one. -/
theorem exists_select {ws : List Word} (h : ("select" : Str) ∈ texts ws) : ∃ sel rest,
    ws.dropWhile (·.text ≠ ("select" : Str)) = sel :: rest ∧ sel.text = ("select" : Str) := by
  obtain ⟨w, hw, htext⟩ := List.mem_map.1 h
  obtain ⟨sel, rest, hdrop, hsel⟩ := exists_dropWhile
    (p := fun w : Word => decide (w.text ≠ ("select" : Str))) hw (by simp [htext])
  exact ⟨sel, rest, hdrop, not_not.1 (of_decide_eq_false hsel)⟩

/-- A list splits at the first entry that is not dropped. -/
theorem split_dropWhile {α : Type*} {p : α → Bool} {l rest : List α} {a : α}
    (h : l.dropWhile p = a :: rest) : l = l.takeWhile p ++ a :: rest := by
  rw [← h]
  exact List.takeWhile_append_dropWhile.symm

/-- **The list and the target of a statement with the word `select`** are there, and fix its
shape with the texts of its words. -/
theorem extractSelect_spec {s : Str} {sel : Word} {ws : List Word}
    (hdrop : (wordsOf s).dropWhile (·.text ≠ ("select" : Str)) = sel :: ws) :
    ∃ l raw,
      slice s sel.stop (((ws.find? fun w => w.text ∈ listEnd).map Word.start).getD (len s)) =
        some l ∧
      rawAfter (wordsOf s) s "from" = some raw ∧
      extractSelect s (wordsOf s) = selectShape l raw (texts (wordsOf s)) := by
  obtain ⟨l, hlist⟩ := slice_list s (split_dropWhile hdrop) fun w => w.text ∈ listEnd
  obtain ⟨raw, hraw⟩ := rawAfter_total s "from"
  exact ⟨l, raw, hlist, hraw, extractSelect_of_select hdrop hlist hraw⟩

/-- A statement without the word `select` is no select. -/
theorem extractSelect_nil {s : Str} {words : List Word}
    (hdrop : words.dropWhile (·.text ≠ ("select" : Str)) = []) :
    extractSelect s words = some (.of (.command "SELECT") none) := by
  unfold extractSelect
  rw [hdrop]
  rfl

theorem extractSelect_total (s : Str) : ∃ r, extractSelect s (wordsOf s) = some r := by
  cases hdrop : (wordsOf s).dropWhile (·.text ≠ ("select" : Str)) with
  | nil => exact ⟨_, extractSelect_nil hdrop⟩
  | cons sel ws =>
    obtain ⟨l, raw, -, -, hshape⟩ := extractSelect_spec hdrop
    obtain ⟨columns, star, hselect⟩ := selectShape_eq l
    exact ⟨_, hshape.trans (hselect raw _)⟩

/-- **No statement makes the extractor panic.** -/
theorem extract_isSome (s : Str) : (extract s).isSome := by
  rw [Option.isSome_iff_exists]
  unfold extract
  simp only
  split
  · exact ⟨_, rfl⟩
  · obtain ⟨sh, h1⟩ := extractSelect_total (bareStmt s)
    obtain ⟨r1, h2⟩ := wordAfter_total (bareStmt s) "into"
    obtain ⟨r2, h3⟩ := wordAfter_total (bareStmt s) "update"
    obtain ⟨r3, h4⟩ := wordAfter_total (bareStmt s) "from"
    simp only [scanWords_eq, h1, h2, h3, h4, Option.bind_eq_bind, Option.bind_some]
    split
    · exact ⟨_, rfl⟩
    · split
      · exact ⟨_, rfl⟩
      · split
        · exact ⟨_, rfl⟩
        · split
          · exact ⟨_, rfl⟩
          · split <;> exact ⟨_, rfl⟩

/-- The shape of a statement. -/
def shapeOf (s : Str) : ResultShape := (extract s).get (extract_isSome s)

theorem extract_eq (s : Str) : extract s = some (shapeOf s) := by simp [shapeOf]

theorem shapeOf_congr {s t : Str} (h : extract s = extract t) : shapeOf s = shapeOf t := by
  rw [← Option.some.injEq, ← extract_eq, ← extract_eq, h]

/-- The statements of a script, in order. -/
def statementsOf (sql : Str) : List Str := (splitStatements sql).get
  (by rw [splitStatements, splitTopLevel_eq]; rfl)

theorem splitStatements_eq (sql : Str) : splitStatements sql = some (statementsOf sql) := by
  simp [statementsOf]

/-- **A text whose semicolons are all hidden is one statement.** -/
theorem splitStatements_single {s : Str} (h : Hides (· ≠ ';') Scan.start s) (ht : trim s = s)
    (hne : s ≠ []) : splitStatements s = some [s] := by
  rw [splitStatements, splitTopLevel_eq, pieces_self h, keep, List.map_singleton, ht]
  simp [hne]

/-- **One statement hides its semicolons.** -/
theorem hides_of_single {s : Str} (h : splitStatements s = some [s]) :
    Hides (· ≠ ';') Scan.start s := by
  rw [splitStatements, splitTopLevel_eq] at h
  have hmem : s ∈ (pieces ';' Scan.start s).map trim :=
    List.mem_of_mem_filter (Option.some.inj h ▸ List.mem_singleton_self s)
  obtain ⟨p, hp, htrim⟩ := List.mem_map.1 hmem
  -- no piece is longer than the text, and each cut makes them shorter
  have hle : s.length ≤ p.length := htrim ▸ (trim_sublist p).length_le
  have hflat : p.length ≤ (pieces ';' Scan.start s).flatten.length :=
    (List.sublist_flatten_of_mem hp).length_le
  have hlen := length_pieces ';' Scan.start s
  have hne := List.length_pos_iff.2 (pieces_ne_nil ';' Scan.start s)
  exact hides_of_pieces (by omega)

end EtherealDb
