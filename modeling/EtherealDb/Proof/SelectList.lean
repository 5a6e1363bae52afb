import EtherealDb.Proof.Classify
import EtherealDb.Proof.Faint

/-!
# The columns of a select list

A select list is cut at its commas, blank pieces are dropped, and every other piece gives one
column, or five for a star. So a select has no columns when its list holds nothing but blanks
and commas.

* `keep_eq_nil_iff`: when nothing is left of a list.
* `parseItem_columns`: the columns of one item.
* `select_cases`: where the kind `select` comes from.
* `columns_select`: **a select has columns exactly when its list is filled**, and never many
  more than its statement has characters.
-/

namespace EtherealDb

open Str Reading

/-! ## Pieces of a list -/

/-- Every character of a text is in a piece, or is a separator. -/
theorem mem_pieces (sep : Char) (σ : Scan) {c : Char} {s : Str} (h : c ∈ s) :
    c = sep ∨ ∃ p ∈ pieces sep σ s, c ∈ p := by
  induction s generalizing σ with
  | nil => cases h
  | cons d s ih =>
    rw [pieces]
    -- a cut drops the separator, and any other character goes to the first piece
    split
    · rename_i hcut
      rcases List.mem_cons.1 h with rfl | h
      · exact .inl hcut.2.1
      · rcases ih σ h with h | ⟨p, hp, hc⟩
        · exact .inl h
        · exact .inr ⟨p, List.mem_cons_of_mem _ hp, hc⟩
    · obtain ⟨p, ps, hps⟩ := List.exists_cons_of_ne_nil (pieces_ne_nil sep (σ.step d) s)
      rw [hps]
      rcases List.mem_cons.1 h with rfl | h
      · exact .inr ⟨c :: p, List.mem_cons_self, List.mem_cons_self⟩
      · rcases ih (σ.step d) h with h | ⟨q, hq, hc⟩
        · exact .inl h
        · rw [hps] at hq
          rcases List.mem_cons.1 hq with rfl | hq
          · exact .inr ⟨d :: q, List.mem_cons_self, List.mem_cons_of_mem d hc⟩
          · exact .inr ⟨q, List.mem_cons_of_mem _ hq, hc⟩

/-- The pieces of blanks and commas are blank. -/
theorem pieces_blank_comma {s : Str} (h : ∀ c ∈ s, isWhitespace c = true ∨ c = ',') :
    ∀ p ∈ pieces ',' .start s, ∀ c ∈ p, isWhitespace c = true := by
  induction s with
  | nil => exact List.forall_mem_singleton.2 (by rintro c ⟨⟩)
  | cons d s ih =>
    have hrest := ih fun c hc => h c (List.mem_cons_of_mem d hc)
    rw [pieces]
    split
    · intro p hp
      rcases List.mem_cons.1 hp with rfl | hp
      · rintro c ⟨⟩
      · exact hrest p hp
    · rename_i hcut
      have hblank : isWhitespace d = true := by
        refine (h d List.mem_cons_self).resolve_right ?_
        rintro rfl
        exact hcut (by decide)
      -- a blank opens nothing
      have hstep : Scan.start.step d = Scan.start := run_faint
        (List.forall_mem_singleton.2 (faint_blank hblank)) Scan.start
      obtain ⟨p, ps, hps⟩ := List.exists_cons_of_ne_nil (pieces_ne_nil ',' .start s)
      rw [hps] at hrest
      rw [hstep, hps]
      intro q hq
      rcases List.mem_cons.1 hq with rfl | hq
      · intro c hc
        rcases List.mem_cons.1 hc with rfl | hc
        · exact hblank
        · exact hrest p List.mem_cons_self c hc
      · exact hrest q (List.mem_cons_of_mem p hq)

theorem trim_eq_nil_iff {s : Str} : trim s = [] ↔ ∀ c ∈ s, isWhitespace c = true := by
  constructor
  · intro h c hc
    by_contra hblank
    have hmem : c ∈ trim s := mem_dropEnds hc (by simpa using hblank)
    rw [h] at hmem
    cases hmem
  · intro h
    have hstart : trimStart s = [] := List.dropWhile_eq_nil_iff.2 h
    rw [trim, hstart]
    rfl

/-- **Nothing is left of a list** of blanks and commas. -/
theorem keep_eq_nil_iff {s : Str} : keep (pieces ',' .start s) = [] ↔
    ∀ c ∈ s, isWhitespace c = true ∨ c = ',' := by
  have hkeep : keep (pieces ',' .start s) = [] ↔ ∀ p ∈ pieces ',' .start s, trim p = [] := by
    simp [keep]
  rw [hkeep]
  constructor
  · intro h c hc
    rcases mem_pieces ',' .start hc with hsep | ⟨p, hp, hcp⟩
    · exact .inr hsep
    · exact .inl (trim_eq_nil_iff.1 (h p hp) c hcp)
  · intro h p hp
    exact trim_eq_nil_iff.2 (pieces_blank_comma h p hp)

theorem length_keep (ps : List Str) : (keep ps).length ≤ ps.length := by
  have hfilter := List.length_filter_le (· ≠ []) (ps.map trim)
  rwa [List.length_map] at hfilter

theorem length_pieces_le (sep : Char) (σ : Scan) (s : Str) :
    (pieces sep σ s).length ≤ s.length + 1 := by
  have hlen := length_pieces sep σ s
  omega

/-- What is kept of a text is no longer than it. -/
theorem length_of_mem_keep {sep : Char} {σ : Scan} {s p : Str} (h : p ∈ keep (pieces sep σ s)) :
    p.length ≤ s.length := by
  obtain ⟨q, hq, rfl⟩ := List.mem_map.1 (List.mem_of_mem_filter h)
  have htrim := (trim_sublist q).length_le
  have hflat : q.length ≤ (pieces sep σ s).flatten.length :=
    (List.sublist_flatten_of_mem hq).length_le
  have hlen := length_pieces sep σ s
  have hne := List.length_pos_iff.2 (pieces_ne_nil sep σ s)
  omega

/-! ## Columns of the items -/

/-- **An item that is not blank gives a column**, and none gives more than a star. -/
theorem parseItem_columns {item : Str} {cs : List ColumnSpec} (h : parseItem item = some cs) :
    (trim item ≠ [] → cs ≠ []) ∧ cs.length ≤ 5 := by
  unfold parseItem at h
  dsimp only at h
  by_cases hnil : trim item = []
  · rw [if_pos hnil] at h
    obtain rfl := Option.some.inj h
    exact ⟨fun hne => absurd hnil hne, Nat.zero_le 5⟩
  rw [if_neg hnil] at h
  by_cases hstar : isStar (trim item) = true
  · rw [if_pos hstar] at h
    obtain rfl := Option.some.inj h
    exact ⟨fun _ => List.cons_ne_nil _ _, le_rfl⟩
  rw [if_neg hstar] at h
  obtain ⟨⟨e, a⟩, h1⟩ := peelAlias_total (trim item)
  obtain ⟨⟨e', c⟩, h2⟩ := peelCast_total e
  obtain ⟨spec, h3⟩ := classifyExpr_total e'
  simp only [h1, h2, h3, Option.bind_eq_bind, Option.bind_some] at h
  cases c with
  | none =>
    obtain rfl := Option.some.inj h
    exact ⟨fun _ => List.cons_ne_nil _ _, (by decide : 1 ≤ 5)⟩
  | some t =>
    obtain rfl := Option.some.inj h
    exact ⟨fun _ => List.cons_ne_nil _ _, (by decide : 1 ≤ 5)⟩

theorem parseItems_columns {items : List Str} (hitems : ∀ p ∈ items, trim p ≠ [])
    {columns : List (List ColumnSpec)} (h : items.mapM parseItem = some columns) :
    (columns.flatten = [] ↔ items = []) ∧ columns.flatten.length ≤ 5 * items.length := by
  induction items generalizing columns with
  | nil =>
    obtain rfl := Option.some.inj h
    exact ⟨iff_of_true rfl rfl, le_rfl⟩
  | cons p items ih =>
    obtain ⟨cs, hcs⟩ := parseItem_total p
    obtain ⟨rest, hrest⟩ := mapM_total parseItem_total items
    simp only [List.mapM_cons, hcs, hrest, Option.bind_eq_bind, Option.bind_some] at h
    obtain rfl := Option.some.inj h
    obtain ⟨hne, hlen⟩ := parseItem_columns hcs
    obtain ⟨-, hmore⟩ := ih (fun q hq => hitems q (List.mem_cons_of_mem p hq)) hrest
    rw [List.flatten_cons, List.length_append, List.length_cons]
    refine ⟨iff_of_false ?_ (List.cons_ne_nil _ _), by omega⟩
    intro hnil
    exact hne (hitems p List.mem_cons_self) (List.append_eq_nil_iff.1 hnil).1

theorem length_skipKeyword {kw s r : Str} (h : skipKeyword kw s = some r) :
    r.length ≤ s.length := by
  by_cases hpre : kw.isPrefixOf (lower s)
  · obtain ⟨a, b, rfl, ha, -⟩ := lower_isPrefix hpre
    rw [skipKeyword_eq ha] at h
    obtain rfl := Option.some.inj h
    have hstart := (List.dropWhile_sublist isWhitespace (l := b)).length_le
    split
    · rw [trimStart, List.length_append]
      omega
    · exact le_rfl
  · rw [skipKeyword, if_neg hpre] at h
    obtain rfl := Option.some.inj h
    exact le_rfl

theorem length_slice {s l : Str} {i j : ℕ} (h : slice s i j = some l) : l.length ≤ s.length := by
  unfold slice at h
  split at h
  · obtain ⟨t, ht, hl⟩ := Option.bind_eq_some_iff.1 h
    obtain ⟨⟨a, b⟩, hab, rfl⟩ := Option.map_eq_some_iff.1 ht
    obtain ⟨⟨c, d⟩, hcd, rfl⟩ := Option.map_eq_some_iff.1 hl
    obtain ⟨rfl, -⟩ := splitAt?_eq_some.1 hab
    obtain ⟨hcut, -⟩ := splitAt?_eq_some.1 hcd
    dsimp only at hcut ⊢
    rw [List.length_append, hcut, List.length_append]
    omega
  · cases h

/-- **The columns of a select**, from its list without its quantifier. -/
theorem selectShape_columns {l c1 c2 : Str} {raw : Option Str} {ts : List Str}
    {shape : ResultShape} (h : selectShape l raw ts = some shape)
    (h1 : skipKeyword "distinct" (trim l) = some c1) (h2 : skipKeyword "all" c1 = some c2) :
    (shape.columns = [] ↔ ∀ c ∈ c2, isWhitespace c = true ∨ c = ',') ∧
      shape.columns.length ≤ 5 * (l.length + 1) ∧ (shape.selectStar → shape.columns ≠ []) := by
  obtain ⟨columns, h3⟩ := mapM_total parseItem_total (keep (pieces ',' .start c2))
  have hitems : ∀ p ∈ keep (pieces ',' .start c2), trim p ≠ [] := by
    intro p hp
    obtain ⟨hmem, hne⟩ := List.mem_filter.1 hp
    obtain ⟨q, -, rfl⟩ := List.mem_map.1 hmem
    rw [trim_trim]
    exact of_decide_eq_true hne
  obtain ⟨hnil, hlen⟩ := parseItems_columns hitems h3
  unfold selectShape at h
  simp only [h1, h2, h3, Option.bind_eq_bind, Option.bind_some] at h
  obtain rfl := Option.some.inj h
  refine ⟨hnil.trans keep_eq_nil_iff, ?_, ?_⟩
  · have hkeep := length_keep (pieces ',' .start c2)
    have hpieces := length_pieces_le ',' .start c2
    have hall := length_skipKeyword h2
    have hdistinct := length_skipKeyword h1
    have htrim := (trim_sublist l).length_le
    dsimp only
    omega
  · intro hstar hempty
    rw [hnil.1 hempty] at hstar
    cases hstar

/-! ## Statements -/

/-- **The select list of a statement**: what stands between its `SELECT` and the word that ends
the list, without a quantifier. -/
def listText (stmt : Str) : Option Str := do
  let after := (wordsOf stmt).dropWhile (·.text ≠ ("select" : Str))
  let sel ← after.head?
  let list ← slice stmt sel.stop
    (((after.tail.find? fun w => listEnd.contains w.text).map Word.start).getD (len stmt))
  let list ← skipKeyword "distinct" (trim list)
  skipKeyword "all" list

/-- The first word of a statement, as `extract` reads it. -/
def firstWord (stmt : Str) : Str := ((wordsOf (bareStmt stmt)).head?.map Word.text).getD []

/-- **A statement with something to select**: a `SHOW`, or a select list with a character that is
neither blank nor a comma. -/
def Filled (stmt : Str) : Prop :=
  firstWord stmt = "show" ∨
    ∃ l, listText (bareStmt stmt) = some l ∧ ∃ c ∈ l, isWhitespace c = false ∧ c ≠ ','

/-- The words that a select begins with. -/
def selectWords : List Str := ["select", "with", "table"]

/-- **A select is a `SHOW` or a statement with the word `select`.** -/
theorem select_cases {s : Str} (h : (shapeOf s).kind = .select) :
    (firstWord s = "show" ∧ ∃ words, shapeOf s = showShape words) ∨
      (firstWord s ∈ selectWords ∧ ∃ sel ws l raw ts,
        (wordsOf (bareStmt s)).dropWhile (·.text ≠ ("select" : Str)) = sel :: ws ∧
        slice (bareStmt s) sel.stop (((ws.find? fun w => w.text ∈ listEnd).map Word.start).getD
          (len (bareStmt s))) = some l ∧
        selectShape l raw ts = some (shapeOf s)) := by
  have hs := extract_eq s
  obtain ⟨r1, h1⟩ := wordAfter_total (bareStmt s) "into"
  obtain ⟨r2, h2⟩ := wordAfter_total (bareStmt s) "update"
  obtain ⟨r3, h3⟩ := wordAfter_total (bareStmt s) "from"
  unfold extract at hs
  simp only [scanWords_eq, h1, h2, h3, Option.bind_eq_bind, Option.bind_some] at hs
  have hfirst : ((wordsOf (bareStmt s)).head?.map Word.text).getD [] = firstWord s := rfl
  rw [hfirst] at hs
  -- the arms of `extract`: only two of them give a select
  split_ifs at hs with hnil hselect hinsert hupdate hdelete hshow
  · rw [← Option.some.inj hs] at h
    cases h
  · refine .inr ⟨?_, ?_⟩
    · rcases hselect with hselect | hselect | hselect <;> rw [hselect] <;> decide
    cases hdrop : (wordsOf (bareStmt s)).dropWhile (·.text ≠ ("select" : Str)) with
    | nil =>
      rw [extractSelect_nil hdrop] at hs
      rw [← Option.some.inj hs] at h
      cases h
    | cons sel ws =>
      obtain ⟨l, raw, hl, -, hshape⟩ := extractSelect_spec hdrop
      exact ⟨sel, ws, l, raw, _, rfl, hl, hshape.symm.trans hs⟩
  · rw [← Option.some.inj hs] at h
    cases h
  · rw [← Option.some.inj hs] at h
    cases h
  · rw [← Option.some.inj hs] at h
    cases h
  · exact .inl ⟨hshow, _, (Option.some.inj hs).symm⟩
  · rw [← Option.some.inj hs] at h
    cases h

/-- **A select has columns exactly when it has something to select**, and never many more than
its statement has characters. A star is always there to select. -/
theorem columns_select {s : Str} (h : (shapeOf s).kind = .select) :
    ((shapeOf s).columns ≠ [] ↔ Filled s) ∧
      (shapeOf s).columns.length ≤ 5 * (s.length + 1) ∧
      ((shapeOf s).selectStar → (shapeOf s).columns ≠ []) := by
  rcases select_cases h with
    ⟨hshow, words, hshape⟩ | ⟨hfirst, sel, ws, l, raw, ts, hdrop, hl, hshape⟩
  · rw [hshape]
    refine ⟨iff_of_true (List.cons_ne_nil _ _) (.inl hshow), ?_, fun _ => List.cons_ne_nil _ _⟩
    have hone : (showShape words).columns.length = 1 := rfl
    omega
  · obtain ⟨c1, h1⟩ := skipKeyword_total "distinct" (trim l)
    obtain ⟨c2, h2⟩ := skipKeyword_total "all" c1
    obtain ⟨hnil, hlen, hstar⟩ := selectShape_columns hshape h1 h2
    have htext : listText (bareStmt s) = some c2 := by
      unfold listText
      simp only [hdrop, List.head?_cons, List.tail_cons, List.contains_eq_mem, hl, h1, h2,
        Option.bind_eq_bind, Option.bind_some]
    have hslice := length_slice hl
    have hbare : (bareStmt s).length ≤ s.length :=
      ((trim_sublist _).length_le.trans (List.rdropWhile_prefix _ _).length_le).trans
        (trim_sublist s).length_le
    refine ⟨?_, by omega, hstar⟩
    have hshow : firstWord s ≠ "show" := by
      intro hshow
      rw [hshow] at hfirst
      exact absurd hfirst (by decide)
    rw [Ne, hnil, Filled, or_iff_right hshow, htext]
    simp only [not_forall, not_or, Bool.not_eq_true, Option.some.injEq, exists_eq_left',
      exists_prop]

end EtherealDb
