import EtherealDb.Proof.Limit

/-!
# Quoted tables

The table of a select is one token. `is_system_catalog` trims the quotes at the ends of the
token, and the ones around its dot stay.

* `isSystemCatalog_write`: a quoted part never names a catalog.
* `TableSlot.shape`: the shape of a select is read off its list, its table and its words.
* `crushClass_congr_iff`: when two shapes with the same list have the same crush class.
* `quoting_iff`: **quotes around the parts of a table change nothing exactly when some part
  still names the catalog, and no clause is read off the parts.**
-/

namespace EtherealDb

open Str Reading

/-! ## Tables -/

/-- The name of a schema or a relation. -/
structure RelName where
  text : Str
  ne : text ≠ []
  word : text.all isWordChar

/-- A name as it is written, in double quotes or not. -/
def RelName.write (x : RelName) (quote : Bool) : Str := if quote then dquoted x.text else x.text

/-- The words of a name as it is written. -/
def RelName.words (x : RelName) (quote : Bool) : List Str := if quote then [] else [lower x.text]

/-- A relation in a schema. -/
structure Table where
  schema : RelName
  relation : RelName

/-- The table with quotes around its schema, its relation, both or neither. -/
def Table.write (t : Table) (qs qr : Bool) : Str := t.schema.write qs ++ '.' :: t.relation.write qr

/-- Whether a part that is not quoted names a system catalog. -/
def Table.catalog (t : Table) (qs qr : Bool) : Bool :=
  !qs && (lower t.schema.text == "pg_catalog".toList ||
    lower t.schema.text == "information_schema".toList) ||
  !qr && "pg_".toList.isPrefixOf (lower t.relation.text)

theorem RelName.not_mem (x : RelName) {c : Char} (hc : isWordChar c = false) :
    c ∉ lower x.text := by
  intro hmem
  have hword := List.all_eq_true.1 ((all_isWordChar_lower x.text).trans x.word) c hmem
  rw [hc] at hword
  cases hword

/-- The quote that one side of a quoted name has. -/
def mark (quote : Bool) : Str := if quote then ['"'] else []

theorem RelName.write_eq (x : RelName) (quote : Bool) :
    x.write quote = mark quote ++ x.text ++ mark quote := by
  cases quote
  · simp [RelName.write, mark]
  · rfl

theorem trimMatches_marks {p q : Bool} {m : Str} (hne : m ≠ [])
    (hfirst : ∀ c ∈ m.head?, c ≠ '"') (hlast : ∀ c ∈ m.getLast?, c ≠ '"') :
    trimMatches '"' (mark p ++ m ++ mark q) = m := by
  have hall : ∀ b, ∀ c ∈ mark b, (c == '"') = true := by
    intro b c hc
    cases b
    · cases hc
    · rw [List.mem_singleton.1 hc]
      rfl
  obtain ⟨c, r, rfl⟩ := List.exists_cons_of_ne_nil hne
  obtain ⟨l, d, hd⟩ : ∃ l d, c :: r = l ++ [d] :=
    ⟨_, _, (List.dropLast_append_getLast hne).symm⟩
  have hstart : (c :: r ++ mark q).dropWhile (· == '"') = c :: r ++ mark q :=
    List.dropWhile_cons_of_neg (by simpa using hfirst c rfl)
  have hd' : (d == '"') = false := by
    rw [beq_eq_false_iff_ne]
    exact hlast d (by rw [hd, List.getLast?_concat]; rfl)
  have hend : (l ++ [d] ++ mark q).rdropWhile (· == '"') =
      l ++ [d] ++ (mark q).rdropWhile (· == '"') := rdropWhile_append hd'
  unfold trimMatches
  rw [List.append_assoc, List.dropWhile_append_of_pos (hall p), hstart, hd, hend,
    List.rdropWhile_eq_nil_iff.2 (hall q), List.append_nil]

theorem beq_mark {kw : Str} (hkw : '"' ∉ kw) (u : Str) (q : Bool) :
    (u ++ mark q == kw) = (!q && u == kw) := by
  cases q with
  | false => exact congrArg (· == kw) (List.append_nil u)
  | true =>
    refine beq_eq_false_iff_ne.2 ?_
    rintro rfl
    exact hkw (List.mem_append_right u (List.mem_singleton_self '"'))

theorem isPrefixOf_mark {kw v : Str} (hkw : '"' ∉ kw) (hne : kw ≠ []) (q : Bool) :
    kw.isPrefixOf (mark q ++ v) = (!q && kw.isPrefixOf v) := by
  cases q with
  | false => rfl
  | true =>
    obtain ⟨c, r, rfl⟩ := List.exists_cons_of_ne_nil hne
    have hc : (c == '"') = false := by
      rw [beq_eq_false_iff_ne]
      rintro rfl
      exact hkw List.mem_cons_self
    exact congrArg (· && r.isPrefixOf v) hc

/-- **A quoted part never names a catalog.** -/
theorem isSystemCatalog_write (t : Table) (qs qr : Bool) :
    isSystemCatalog (t.write qs qr) = t.catalog qs qr := by
  have hquote := t.schema.not_mem (c := '"') (by decide)
  have hquote' := t.relation.not_mem (c := '"') (by decide)
  have hmark : ∀ b, lower (mark b) = mark b ∧ '.' ∉ mark b := by decide
  have hdot : ∀ x, lower ('.' :: x) = '.' :: lower x := fun _ => rfl
  have hlow : lower (t.write qs qr) = mark qs ++ ((lower t.schema.text ++ mark qs) ++
      '.' :: (mark qr ++ lower t.relation.text)) ++ mark qr := by
    rw [Table.write, RelName.write_eq, RelName.write_eq]
    simp only [lower_append, hdot, (hmark _).1, List.append_assoc, List.cons_append]
  have hschema : '.' ∉ lower t.schema.text ++ mark qs := by
    rw [List.mem_append, not_or]
    exact ⟨t.schema.not_mem (by decide), (hmark qs).2⟩
  have hrelation : '.' ∉ mark qr ++ lower t.relation.text := by
    rw [List.mem_append, not_or]
    exact ⟨(hmark qr).2, t.relation.not_mem (by decide)⟩
  have htrim : trimMatches '"' (lower (t.write qs qr)) =
      (lower t.schema.text ++ mark qs) ++ '.' :: (mark qr ++ lower t.relation.text) := by
    -- what is left between the quotes begins and ends in a name
    rw [hlow]
    refine trimMatches_marks (by simp) ?_ ?_
    · rintro c hc rfl
      obtain ⟨d, r, hd⟩ := List.exists_cons_of_ne_nil (mt lower_eq_nil.1 t.schema.ne)
      rw [hd] at hc hquote
      obtain rfl : d = '"' := Option.some.inj hc
      exact hquote List.mem_cons_self
    · rintro c hc rfl
      have hne := mt lower_eq_nil.1 t.relation.ne
      rw [← List.cons_append, ← List.append_assoc, List.getLast?_append_of_ne_nil _ hne] at hc
      exact hquote' (List.mem_of_mem_getLast? hc)
  unfold isSystemCatalog Table.catalog
  simp only [htrim, splitNext_append hschema, rsplitNext_append hrelation]
  rw [isPrefixOf_mark (by decide) (by decide), Bool.and_or_distrib_left, beq_mark (by decide),
    beq_mark (by decide)]

theorem tableOf_write (t : Table) (qs qr : Bool) :
    tableOf (t.write qs qr) = some (lower t.relation.text) := by
  have hword := not_mem_of_word t.relation.word (c := '"') (by decide)
  have hdot : '.' ∉ t.relation.write qr := by
    have := not_mem_of_word t.relation.word (c := '.') (by decide)
    cases qr <;> simp [RelName.write, dquoted, this]
  have htrim : trimMatches '"' (t.relation.write qr) = t.relation.text := by
    rw [RelName.write_eq]
    refine trimMatches_marks t.relation.ne ?_ ?_
    · rintro c hc rfl
      exact hword (List.mem_of_mem_head? hc)
    · rintro c hc rfl
      exact hword (List.mem_of_mem_getLast? hc)
  unfold tableOf
  rw [Table.write, rsplitNext_append hdot, htrim, if_neg t.relation.ne]

theorem RelName.ends (x : RelName) (q : Bool) : Ends Solid Solid (x.write q) := by
  cases q with
  | false => exact ends_word x.ne x.word
  | true => exact ends_wrap '"' '"' x.text (by decide) (by decide)

theorem Table.ends (t : Table) (qs qr : Bool) : Ends Solid Solid (t.write qs qr) := by
  have h := (t.schema.ends qs).append (t.relation.ends qr) ['.']
  rwa [List.append_assoc] at h

theorem isDelimiter_word {c : Char} (hc : isWordChar c = true) : isDelimiter c = false := by
  have hne : ∀ d, isWordChar d = false → (c == d) = false := by
    intro d hd
    rw [beq_eq_false_iff_ne]
    rintro rfl
    rw [hc] at hd
    cases hd
  unfold isDelimiter
  rw [not_isWhitespace_of_isWordChar hc, hne ',' (by decide), hne ';' (by decide),
    hne '(' (by decide), hne ')' (by decide)]
  rfl

/-- No delimiter stands in a table. -/
theorem Table.not_delimiter (t : Table) (qs qr : Bool) :
    ∀ c ∈ t.write qs qr, isDelimiter c = false := by
  have hname : ∀ (x : RelName) (q : Bool), ∀ c ∈ x.write q, isDelimiter c = false := by
    intro x q c hc
    have hall : c = '"' ∨ isWordChar c = true := by
      cases q with
      | false => exact .inr (List.all_eq_true.1 x.word c hc)
      | true =>
        rcases List.mem_append.1 hc with hc | hc
        · rcases List.mem_cons.1 hc with rfl | hc
          · exact .inl rfl
          · exact .inr (List.all_eq_true.1 x.word c hc)
        · exact .inl (List.mem_singleton.1 hc)
    rcases hall with rfl | hc
    · decide
    · exact isDelimiter_word hc
  intro c hc
  rcases List.mem_append.1 hc with hc | hc
  · exact hname _ _ c hc
  · rcases List.mem_cons.1 hc with rfl | hc
    · decide
    · exact hname _ _ c hc

/-! ## Words -/

/-- **The words of two parts** from a scan state. -/
theorem textsFrom_append {σ : Scan} {a b : Str} (hb : Breaks (σ.run a) b) :
    textsFrom σ (a ++ b) = textsFrom σ a ++ textsFrom (σ.run a) b := by
  rw [textsFrom, readWords_append hb, texts, List.map_append]
  exact congrArg (_ ++ ·) (texts_readWords _ _ _ _)

/-- Faint characters in front of a text do not touch its words. -/
theorem textsFrom_faint {σ : Scan} {g : Str} (h : ∀ c ∈ g, Faint c) (b : Str) :
    textsFrom σ (g ++ b) = textsFrom σ b := by
  rw [textsFrom, readWords_faint h]
  exact texts_readWords _ _ _ _

/-- Outside quotes and brackets, a name leaves the scan alone and shows its words. -/
theorem RelName.scan (x : RelName) (q : Bool) {σ : Scan} (hσ : ¬σ.Nested) :
    σ.run (x.write q) = σ ∧ textsFrom σ (x.write q) = x.words q := by
  cases q with
  | false =>
    refine ⟨run_word_chars x.word σ, ?_⟩
    rw [textsFrom]
    exact congrArg texts (readWords_word hσ x.ne x.word)
  | true =>
    have hopen : σ.Open := by
      simp only [Scan.Nested, not_or, Bool.not_eq_true] at hσ
      exact ⟨hσ.1, hσ.2.1⟩
    obtain ⟨hhidden, hrun⟩ := opaque_ident hopen (not_mem_of_word x.word (by decide))
    have hread := readWords_hidden (i := 0) hhidden []
    rw [List.append_nil] at hread
    exact ⟨hrun, congrArg texts hread⟩

/-- **The words of a table** are its unquoted parts. -/
theorem textsFrom_write {σ : Scan} (hσ : ¬σ.Nested) (t : Table) (qs qr : Bool) {b : Str}
    (hb : Breaks σ b) :
    textsFrom σ (t.write qs qr ++ b) =
      t.schema.words qs ++ t.relation.words qr ++ textsFrom σ b := by
  obtain ⟨hrun, htexts⟩ := t.schema.scan qs hσ
  obtain ⟨hrun', htexts'⟩ := t.relation.scan qr hσ
  have hdot : ∀ c ∈ ['.'], Faint c := List.forall_mem_singleton.2 (by decide)
  have hcut : t.write qs qr ++ b = t.schema.write qs ++ (['.'] ++ (t.relation.write qr ++ b)) := by
    simp [Table.write]
  have hbreaks : Breaks (σ.run (t.schema.write qs)) (['.'] ++ (t.relation.write qr ++ b)) :=
    breaks_cons (by decide) _
  rw [hcut, textsFrom_append hbreaks, htexts, hrun, textsFrom_faint hdot,
    textsFrom_append (by rw [hrun']; exact hb), htexts', hrun', List.append_assoc]

/-! ## A select and its table -/

/-- **A select with a place for its table**: the text up to the first `from`, a gap, and what
a delimiter parts from the table. -/
structure TableSlot where
  lead : Str
  head : Str
  gap : Str
  rest : Str
  blank : lead.all isWhitespace
  begins : ∀ c ∈ head.head?, isWordChar c
  select : SelectText head
  closed : ¬(Scan.start.run head).Nested
  source : ∃ w ∈ (wordsOf head).getLast?, w.text = ("from" : Str) ∧ w.stop = len head
  only : ("from" : Str) ∉ (textsOf head).dropLast
  apart : gap ≠ []
  gapBlank : gap.all isWhitespace
  parted : ∀ c ∈ rest.head?, isDelimiter c

namespace TableSlot

variable (S : TableSlot)

/-- The select from a table. -/
def fill (t : Str) : Str := S.lead ++ (S.head ++ (S.gap ++ (t ++ S.rest)))

/-- The words of the select from a table. -/
def words (t : Table) (qs qr : Bool) : List Str :=
  textsOf S.head ++ (t.schema.words qs ++ t.relation.words qr ++
    textsFrom (Scan.start.run S.head) S.rest)

/-- The text up to the table ends in the word `from`. -/
theorem head_cut : ∃ a u, S.head = a ++ u ∧ u ≠ [] ∧ u.all isWordChar := by
  obtain ⟨w, hw, -, hstop⟩ := S.source
  obtain ⟨a, u, b, hs, hword, hne, hall⟩ := piece_of_mem (List.mem_of_mem_getLast? hw)
  have hb : b = [] := by
    rw [hword] at hstop
    have hlen : len S.head = len a + len u + len b := by
      conv_lhs => rw [hs]
      simp only [len_append]
    exact len_eq_zero.1 (by simp only at hstop; omega)
  exact ⟨a, u, by rw [hs, hb, List.append_nil], hne, hall⟩

theorem head_ends : Ends Solid Solid S.head := by
  obtain ⟨a, u, hs, hne, hall⟩ := S.head_cut
  refine ⟨by simp [hs, hne], fun c hc => solid_word (S.begins c hc), ?_⟩
  intro c hc
  rw [hs, List.getLast?_append_of_ne_nil _ hne] at hc
  exact (ends_word hne hall).last c hc

/-- **What is read of a select before its table.** -/
theorem extractSelect_head : ∃ list, ∀ y, Breaks (Scan.start.run S.head) y →
    extractSelect (S.head ++ y) (wordsOf (S.head ++ y)) =
      selectShape list (token y) (textsOf S.head ++ textsFrom (Scan.start.run S.head) y) := by
  obtain ⟨w, hlast, hfrom, hstop⟩ := S.source
  obtain ⟨pre, hwords⟩ := List.getLast?_eq_some_iff.1 hlast
  -- no other word is `from`, so the first one is the last
  have hfind : (wordsOf S.head).find? (·.text = ("from" : Str)) = some w := by
    have honly := S.only
    rw [textsOf, hwords, texts, List.map_append, List.map_singleton, List.dropLast_concat] at honly
    rw [hwords, List.find?_append, find_none_of_texts (p := fun t => t = ("from" : Str)),
      Option.none_or, List.find?_cons_of_pos (by simpa using hfrom)]
    intro v hv
    simp only [decide_eq_false_iff_not]
    rintro rfl
    exact honly hv
  obtain ⟨sel, rest, hdrop, hsel⟩ := exists_select S.select.select
  have hsplit : wordsOf S.head =
      (wordsOf S.head).takeWhile (·.text ≠ ("select" : Str)) ++ sel :: rest :=
    split_dropWhile hdrop
  -- the list ends inside the text, at `from` or before it
  have hmem : w ∈ rest := by
    have hw : (sel :: rest).getLast? = some w := by
      rw [hsplit, List.getLast?_append_of_ne_nil _ (by simp)] at hlast
      exact hlast
    have hne : rest ≠ [] := by
      rintro rfl
      have hw' : sel = w := Option.some.inj hw
      rw [← hw', hsel] at hfrom
      exact absurd hfrom (by decide)
    rw [List.getLast?_cons_of_ne_nil hne] at hw
    exact List.mem_of_mem_getLast? hw
  obtain ⟨list, hlist⟩ := list_inside hsplit hmem (by rw [hfrom]; decide)
  refine ⟨list, ?_⟩
  intro y hy
  have hmore := readWords_append (r := at' 0 .start) (a := S.head) (b := y) hy
  have htexts : texts (readWords (at' (len S.head) (Scan.start.run S.head)) y) =
      textsFrom (Scan.start.run S.head) y := texts_readWords _ _ _ _
  simp only [at', Nat.zero_add] at hmore htexts
  have hdrop' : (wordsOf (S.head ++ y)).dropWhile (·.text ≠ ("select" : Str)) =
      sel :: (rest ++ readWords ⟨len S.head, Scan.start.run S.head, none⟩ y) := by
    rw [wordsOf, at', hmore, List.dropWhile_append, ← at', ← wordsOf, hdrop]
    rfl
  have hraw : rawAfter (wordsOf (S.head ++ y)) (S.head ++ y) "from" = some (token y) := by
    refine rawAfter_eq (w := w) ?_ ?_
    · rw [wordsOf, at', hmore, List.find?_append, ← at', ← wordsOf, hfind]
      rfl
    · rw [hstop]
      exact sliceFrom_append _ _
  rw [extractSelect_of_select hdrop' (hlist y _) hraw, wordsOf, at', hmore, texts, List.map_append,
    ← texts, ← texts, htexts]
  rfl

theorem gap_blank : ∀ c ∈ S.gap, isWhitespace c = true := List.all_eq_true.1 S.gapBlank

/-- A select with its table, trimmed. -/
theorem bareStmt_fill (t : Table) (qs qr : Bool) : bareStmt (S.fill (t.write qs qr)) =
    S.head ++ (S.gap ++ (t.write qs qr ++ bareEnd S.rest)) := by
  have hsolid := S.head_ends.append (t.ends qs qr) S.gap
  have hcut : S.head ++ (S.gap ++ (t.write qs qr ++ S.rest)) =
      S.head ++ S.gap ++ t.write qs qr ++ S.rest := by
    simp only [List.append_assoc]
  rw [fill, bareStmt_lead S.blank, hcut, bareStmt_solid hsolid]
  simp only [List.append_assoc]

/-- **The table is the token after `from`.** -/
theorem token_fill (t : Table) (qs qr : Bool) :
    token (S.gap ++ (t.write qs qr ++ bareEnd S.rest)) = some (t.write qs qr) := by
  obtain ⟨d, hd, -⟩ := bareEnd_append S.rest
  obtain ⟨c, r, hc⟩ := List.exists_cons_of_ne_nil (t.ends qs qr).ne
  have hfirst : isWhitespace c = false := ((t.ends qs qr).first c (by rw [hc]; rfl)).1
  have hstart : trimStart (S.gap ++ (t.write qs qr ++ bareEnd S.rest)) =
      t.write qs qr ++ bareEnd S.rest := by
    unfold trimStart
    rw [List.dropWhile_append_of_pos S.gap_blank, hc, List.cons_append,
      List.dropWhile_cons_of_neg (by simp [hfirst])]
  have htake : (t.write qs qr ++ bareEnd S.rest).takeWhile (fun c => !isDelimiter c) =
      t.write qs qr := by
    rw [List.takeWhile_append_of_pos fun c hc => by simp [t.not_delimiter qs qr c hc]]
    cases hrest : bareEnd S.rest with
    | nil => rw [List.takeWhile_nil, List.append_nil]
    | cons e l =>
      have he : isDelimiter e = true := S.parted e (by rw [hd, hrest]; rfl)
      rw [List.takeWhile_cons_of_neg (by simp [he]), List.append_nil]
  unfold token
  rw [hstart, htake, (t.ends qs qr).firm.trim, if_neg (t.ends qs qr).ne]

/-- **The shape of a select from a table**, with the columns of the text up to it. -/
theorem shape : ∃ star, ∀ (t : Table) (qs qr : Bool), shapeOf (S.fill (t.write qs qr)) = {
    kind := .select
    columns := (shapeOf S.head).columns
    tableHint := some (lower t.relation.text)
    limit := limitOf (S.words t qs qr)
    selectStar := star
    hasWhere := (S.words t qs qr).any (· = ("where" : Str))
    forceEmpty := t.catalog qs qr } := by
  obtain ⟨list, hlist⟩ := S.extractSelect_head
  obtain ⟨columns, star, hshape⟩ := selectShape_eq list
  obtain ⟨w, ws, hwords, hfirst⟩ : ∃ w ws, wordsOf S.head = w :: ws ∧
      (w.text = ("select" : Str) ∨ w.text = ("with" : Str) ∨ w.text = ("table" : Str)) := by
    obtain ⟨t, ht, hfirst⟩ := S.select.first
    rw [textsOf, texts, List.head?_map] at ht
    obtain ⟨w, hw, rfl⟩ := Option.map_eq_some_iff.1 ht
    exact ⟨w, _, (List.cons_head?_tail hw).symm, hfirst⟩
  have hextract : ∀ s y, bareStmt s = S.head ++ y → Breaks (Scan.start.run S.head) y →
      extract s =
        selectShape list (token y) (textsOf S.head ++ textsFrom (Scan.start.run S.head) y) := by
    intro s y hbare hy
    obtain ⟨vs, hvs⟩ : ∃ vs, wordsOf (bareStmt s) = w :: vs := by
      rw [hbare, wordsOf, readWords_append hy, ← wordsOf, hwords]
      exact ⟨_, rfl⟩
    rw [extract_select hvs hfirst, hbare, hlist y hy]
  have hcolumns : (shapeOf S.head).columns = columns := by
    have hhead := hextract S.head [] (by rw [S.head_ends.bareStmt, List.append_nil]) (breaks_nil _)
    rw [hshape, extract_eq] at hhead
    rw [Option.some.inj hhead]
  refine ⟨star, ?_⟩
  intro t qs qr
  have hgap : ∀ c ∈ S.gap, Faint c := fun c hc => faint_blank (S.gap_blank c hc)
  have hbreaks : Breaks (Scan.start.run S.head) (S.gap ++ (t.write qs qr ++ bareEnd S.rest)) :=
    fun c hc => .inr (breaks_blank S.gapBlank S.apart _ c hc)
  have htrail : Breaks (Scan.start.run S.head) (bareEnd S.rest) ∧
      textsFrom (Scan.start.run S.head) (bareEnd S.rest) =
        textsFrom (Scan.start.run S.head) S.rest := by
    obtain ⟨d, hd, hall⟩ := bareEnd_append S.rest
    have hfaint : ∀ c ∈ d, Faint c := by
      intro c hc
      rcases hall c hc with h | rfl
      · exact faint_blank h
      · decide
    constructor
    · intro c hc
      have hdelim := S.parted c (by rw [hd]; exact List.mem_head?_append_of_mem_head? hc)
      refine .inr ?_
      by_contra hword
      rw [isDelimiter_word (by simpa using hword)] at hdelim
      cases hdelim
    · conv_rhs => rw [hd]
      rw [textsFrom, textsFrom, words_trail hfaint]
  have hfill := hextract _ _ (S.bareStmt_fill t qs qr) hbreaks
  rw [S.token_fill, hshape, textsFrom_faint hgap, textsFrom_write S.closed t qs qr htrail.1,
    htrail.2, extract_eq] at hfill
  rw [Option.some.inj hfill, hcolumns, Option.bind_some, tableOf_write, Option.any_some,
    isSystemCatalog_write]
  rfl

end TableSlot

/-! ## Verdicts -/

/-- Two shapes with the same list, both of a select from a table. -/
structure SameList (a b : ResultShape) : Prop where
  select : a.kind = .select ∧ b.kind = .select
  table : a.tableHint ≠ none ∧ b.tableHint ≠ none
  columns : a.columns = b.columns
  star : a.selectStar = b.selectStar

/-- **The signals decide the crush class**: two shapes with the same list that no rule
exempts have the same class at every threshold only with the same signals. -/
theorem crushClass_congr_iff {a b : ResultShape} (h : SameList a b)
    (hempty : a.forceEmpty = b.forceEmpty) :
    (∀ th, a.crushClass th = b.crushClass th) ↔ b.forceEmpty = true ∨ b.aggregateOnly = true ∨
      (a.hasWhere = b.hasWhere ∧ a.limit.isNone = b.limit.isNone) := by
  obtain ⟨⟨hka, hkb⟩, ⟨hta, htb⟩, hcolumns, hstar⟩ := h
  have hagg : a.aggregateOnly = b.aggregateOnly := by
    unfold ResultShape.aggregateOnly
    rw [hcolumns]
  by_cases hsafe : b.aggregateOnly = true ∨ b.forceEmpty = true
  · refine iff_of_true ?_ (by tauto)
    intro th
    unfold ResultShape.crushClass
    rw [hagg, hempty, if_pos (.inr (.inr hsafe)), if_pos (.inr (.inr hsafe))]
  · have hclass : ∀ s : ResultShape, s.kind = .select → s.tableHint ≠ none →
        s.aggregateOnly = b.aggregateOnly → s.forceEmpty = b.forceEmpty →
        ¬(s.kind ≠ .select ∨ s.tableHint = none ∨ s.aggregateOnly ∨ s.forceEmpty) := by
      intro s hk ht hs hf
      rw [hs, hf]
      tauto
    constructor
    · intro hsame
      refine .inr (.inr ?_)
      have hwhere := hsame .where'
      have hlimit := hsame .limit
      unfold ResultShape.crushClass at hwhere hlimit
      rw [if_neg (hclass a hka hta hagg hempty), if_neg (hclass b hkb htb rfl rfl), hstar]
        at hwhere hlimit
      revert hwhere hlimit
      generalize a.hasWhere = wa, b.hasWhere = wb, a.limit.isNone = la, b.limit.isNone = lb,
        b.selectStar = star
      revert wa wb la lb star
      decide
    · rintro (h | h | ⟨hwhere, hlimit⟩)
      · exact absurd (.inr h) hsafe
      · exact absurd (.inl h) hsafe
      · intro th
        unfold ResultShape.crushClass
        rw [if_neg (hclass a hka hta hagg hempty), if_neg (hclass b hkb htb rfl rfl), hstar, hwhere,
          hlimit]

/-- Two shapes are empty alike and have the same crush class at every threshold. -/
structure SameVerdict (a b : ResultShape) : Prop where
  empty : a.forceEmpty = b.forceEmpty
  crush : ∀ th, a.crushClass th = b.crushClass th

/-- The quotes around the parts of the table hide no clause: neither a name that is read as
`where`, nor a limit read off the names. -/
def TableSlot.Steady (S : TableSlot) (t : Table) (qs qr : Bool) : Prop :=
  (("where" : Str) ∈ S.words t false false → ("where" : Str) ∈ S.words t qs qr) ∧
    (limitOf (S.words t qs qr)).isNone = (limitOf (S.words t false false)).isNone

/-- Quotes only take words away. -/
theorem TableSlot.words_subset (S : TableSlot) (t : Table) (qs qr : Bool) :
    S.words t qs qr ⊆ S.words t false false := by
  have hname : ∀ (x : RelName) (q : Bool), x.words q ⊆ x.words false := by
    intro x q
    cases q with
    | false => exact List.Subset.refl _
    | true => exact List.nil_subset _
  intro v hv
  simp only [TableSlot.words, List.mem_append] at hv ⊢
  rcases hv with h | (h | h) | h
  · exact .inl h
  · exact .inr (.inl (.inl (hname _ qs h)))
  · exact .inr (.inl (.inr (hname _ qr h)))
  · exact .inr (.inr h)

/-- **Quotes around the parts of a table change nothing exactly** when some part that is not
quoted still names the catalog that the plain table names, and where the plain table names
none, when the list has aggregates only or no clause is read off the names. -/
theorem quoting_iff (S : TableSlot) (t : Table) (qs qr : Bool) :
    SameVerdict (shapeOf (S.fill (t.write qs qr))) (shapeOf (S.fill (t.write false false))) ↔
      if t.catalog false false then t.catalog qs qr = true
      else (shapeOf S.head).aggregateOnly = true ∨ S.Steady t qs qr := by
  obtain ⟨star, hshape⟩ := S.shape
  have hlist : SameList (shapeOf (S.fill (t.write qs qr)))
      (shapeOf (S.fill (t.write false false))) := by
    rw [hshape, hshape]
    exact ⟨⟨rfl, rfl⟩, ⟨Option.some_ne_none _, Option.some_ne_none _⟩, rfl, rfl⟩
  have hverdict : SameVerdict (shapeOf (S.fill (t.write qs qr)))
      (shapeOf (S.fill (t.write false false))) ↔ t.catalog qs qr = t.catalog false false ∧
        (t.catalog false false = true ∨ (shapeOf S.head).aggregateOnly = true ∨
          S.Steady t qs qr) := by
    have hempty : (shapeOf (S.fill (t.write qs qr))).forceEmpty = t.catalog qs qr ∧
        (shapeOf (S.fill (t.write false false))).forceEmpty = t.catalog false false := by
      rw [hshape, hshape]
      exact ⟨rfl, rfl⟩
    have hagg : (shapeOf (S.fill (t.write false false))).aggregateOnly =
        (shapeOf S.head).aggregateOnly := by
      rw [hshape]
      rfl
    have hsteady : (shapeOf (S.fill (t.write qs qr))).hasWhere =
          (shapeOf (S.fill (t.write false false))).hasWhere ∧
        (shapeOf (S.fill (t.write qs qr))).limit.isNone =
          (shapeOf (S.fill (t.write false false))).limit.isNone ↔ S.Steady t qs qr := by
      rw [hshape, hshape]
      refine and_congr ?_ Iff.rfl
      rw [Bool.eq_iff_iff]
      simp only [List.any_eq_true, decide_eq_true_eq, exists_eq_right]
      exact ⟨fun h => h.2, fun h => ⟨fun hw => S.words_subset t qs qr hw, h⟩⟩
    constructor
    · rintro ⟨he, hc⟩
      have hcrush := (crushClass_congr_iff hlist he).1 hc
      rw [hempty.1, hempty.2] at he
      rw [hempty.2, hagg, hsteady] at hcrush
      exact ⟨he, hcrush⟩
    · rintro ⟨he, hc⟩
      rw [← hempty.1, ← hempty.2] at he
      rw [← hempty.2, ← hagg, ← hsteady] at hc
      exact ⟨he, (crushClass_congr_iff hlist he).2 hc⟩
  -- what the plain table does not name, no quoted one does
  have hless : t.catalog false false = false → t.catalog qs qr = false := by
    unfold Table.catalog
    cases qs <;> cases qr <;> simp +contextual
  rw [hverdict]
  split
  · rename_i h
    rw [h]
    exact ⟨fun hc => hc.1, fun hc => ⟨hc, .inl rfl⟩⟩
  · rename_i h
    rw [Bool.not_eq_true] at h
    rw [h, hless h]
    simp

/-- **A quoted catalog is read as a table**, and a bare read of it is crushed. -/
theorem quoted_catalog_crushed : ∃ (S : TableSlot) (t : Table),
    S.fill (t.write true true) = "select * from \"pg_catalog\".\"pg_class\"" ∧
      S.fill (t.write false false) = "select * from pg_catalog.pg_class" ∧
      (shapeOf (S.fill (t.write true true))).crushClass .star = .crush ⟨true, true, true⟩ ∧
      (shapeOf (S.fill (t.write false false))).crushClass .star = .safe ∧
      ¬SameVerdict (shapeOf (S.fill (t.write true true)))
        (shapeOf (S.fill (t.write false false))) := by
  have hbegins : ∀ c ∈ ("select * from" : Str).head?, isWordChar c := by
    intro c hc
    obtain rfl : 's' = c := Option.some.inj hc
    decide
  let S : TableSlot := {
    lead := []
    head := "select * from"
    gap := " "
    rest := []
    blank := by decide
    begins := hbegins
    select := ⟨⟨"select", by decide, .inl rfl⟩, by decide⟩
    closed := by decide
    source := ⟨⟨"from", 9, 13⟩, by decide, by decide, by decide⟩
    only := by decide
    apart := by decide
    gapBlank := by decide
    parted := by rintro c ⟨⟩ }
  let t : Table := ⟨⟨"pg_catalog", by decide, by decide⟩, ⟨"pg_class", by decide, by decide⟩⟩
  have hquoted : S.fill (t.write true true) =
      "select * from \"pg_catalog\".\"pg_class\"" := rfl
  have hplain : S.fill (t.write false false) = "select * from pg_catalog.pg_class" := rfl
  refine ⟨S, t, hquoted, hplain, ?_⟩
  rw [hquoted, hplain]
  have hcrush : (shapeOf "select * from \"pg_catalog\".\"pg_class\"").crushClass .star =
      .crush ⟨true, true, true⟩ := by decide +kernel
  have hsafe : (shapeOf "select * from pg_catalog.pg_class").crushClass .star = .safe := by
    decide +kernel
  refine ⟨hcrush, hsafe, ?_⟩
  intro h
  have hsame := h.crush .star
  rw [hcrush, hsafe] at hsame
  cases hsame

end EtherealDb
