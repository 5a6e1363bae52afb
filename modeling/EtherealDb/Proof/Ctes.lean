import EtherealDb.Proof.Dml
import EtherealDb.Proof.SelectList

/-!
# Statements behind a `WITH` list

The entries of a `WITH` list have their bodies in brackets, where no scanner sees them, so
the extractor sees the words of their heads and then the main statement, further on.

* `readWords_shift`: text in front of a statement moves its words.
* `extractSelect_behind`, `extract_behind`: a select is read alike behind a text with none of its
  keywords.
* `extract_with`: **the shape of a statement with CTEs is that of its main select.**
-/

namespace EtherealDb

open Str Reading

/-! ## Words further on -/

/-- A word `k` bytes further on. -/
def Word.shift (k : ℕ) (w : Word) : Word := ⟨w.text, k + w.start, k + w.stop⟩

namespace Reading

/-- A reading `k` bytes further on. -/
def shift (k : ℕ) (r : Reading) : Reading :=
  ⟨k + r.pos, r.scan, r.pend.map fun p => (k + p.1, p.2)⟩

theorem flush_shift (k : ℕ) (r : Reading) : (r.shift k).flush = r.flush.map (Word.shift k) := by
  obtain ⟨pos, scan, p⟩ := r
  cases p <;> rfl

theorem step_shift (k : ℕ) (r : Reading) (c : Char) :
    (r.shift k).step c = ((r.step c).1.shift k, (r.step c).2.map (Word.shift k)) := by
  have hscan : (r.shift k).scan = r.scan := rfl
  have hpos : (r.shift k).pos + c.utf8Size = k + (r.pos + c.utf8Size) := Nat.add_assoc ..
  unfold step
  rw [hscan, hpos, flush_shift]
  by_cases hc : r.scan.Nested ∨ isWordChar c = false
  · rw [if_pos hc, if_pos hc]
    rfl
  · rw [if_neg hc, if_neg hc]
    have hextend : (r.shift k).extend c = (k + (r.extend c).1, (r.extend c).2) := by
      obtain ⟨pos, scan, p⟩ := r
      cases p <;> rfl
    rw [hextend]
    rfl

/-- **Words move with their text.** -/
theorem readWords_shift (k : ℕ) (r : Reading) (s : Str) :
    readWords (r.shift k) s = (readWords r s).map (Word.shift k) := by
  induction s generalizing r with
  | nil => exact flush_shift k r
  | cons c s ih => rw [readWords_cons, readWords_cons, step_shift, ih, List.map_append]

end Reading

@[simp] theorem texts_shift (k : ℕ) (ws : List Word) : texts (ws.map (Word.shift k)) = texts ws := by
  simp [texts, Function.comp_def, Word.shift]

/-! ## A select further on -/

/-- The words that the extractor looks for in a whole statement. -/
def soughtWords : List Str := ["select", "from", "where", "limit"]

/-- A text in front of a statement that the extractor passes over: it leaves the scan at the
start, ends no word of the statement's, and has none of the words that are looked for. -/
structure PassedOver (pre : Str) : Prop where
  closed : Scan.start.run pre = .start
  ends : ∃ x c, pre = x ++ [c] ∧ isWordChar c = false
  free : ∀ t ∈ textsOf pre, t ∉ soughtWords

/-- **The words behind a text that ends none of them.** -/
theorem wordsOf_ended {x : Str} {c : Char} (hclosed : Scan.start.run (x ++ [c]) = .start)
    (hc : isWordChar c = false) (m : Str) :
    wordsOf (x ++ [c] ++ m) = wordsOf (x ++ [c]) ++ (wordsOf m).map (Word.shift (len (x ++ [c]))) := by
  rw [Scan.run_append, Scan.run_cons, Scan.run_nil] at hclosed
  have hwhole := readWords_sep (r := at' 0 .start) (a := x) (b := m) hc
  have hfront := readWords_sep (r := at' 0 .start) (a := x) (b := []) hc
  simp only [at', hclosed, Nat.zero_add] at hwhole hfront
  have hshift := readWords_shift (len (x ++ [c])) (at' 0 .start) m
  have hlen : len (x ++ [c]) = len x + c.utf8Size := by simp
  simp only [Reading.shift, at', Nat.add_zero, Option.map_none, hlen] at hshift
  unfold wordsOf
  rw [List.append_assoc, List.singleton_append, at', hwhole, hshift, hfront, hlen]
  simp [flush]

theorem PassedOver.words {pre : Str} (hpre : PassedOver pre) (m : Str) :
    wordsOf (pre ++ m) = wordsOf pre ++ (wordsOf m).map (Word.shift (len pre)) := by
  obtain ⟨x, c, rfl, hc⟩ := hpre.ends
  exact wordsOf_ended hpre.closed hc m

theorem find_shift (k : ℕ) (p : Str → Bool) (ws : List Word) :
    (ws.map (Word.shift k)).find? (fun w => p w.text) =
      (ws.find? fun w => p w.text).map (Word.shift k) := by
  rw [List.find?_map]
  rfl

/-- The token after a keyword is found alike. -/
theorem PassedOver.rawAfter {pre : Str} (hpre : PassedOver pre) {kw : Str} (hkw : kw ∈ soughtWords)
    (m : Str) :
    EtherealDb.rawAfter (wordsOf (pre ++ m)) (pre ++ m) kw =
      EtherealDb.rawAfter (wordsOf m) m kw := by
  have hnone : (wordsOf pre).find? (·.text = kw) = none := by
    refine find_none_of_texts (p := fun t => t = kw) ?_
    intro t ht
    rw [decide_eq_false_iff_not]
    rintro rfl
    exact hpre.free _ ht hkw
  have hfind := find_shift (len pre) (fun t => t = kw) (wordsOf m)
  unfold EtherealDb.rawAfter
  rw [hpre.words, List.find?_append, hnone, Option.none_or, hfind]
  cases (wordsOf m).find? (·.text = kw) with
  | none => rfl
  | some w =>
    simp only [Option.map_some, Word.shift, sliceFrom_add]

/-- Words that are not looked for change no field. -/
theorem selectShape_behind {pre ts : List Str} (hfree : ∀ t ∈ pre, t ∉ soughtWords) (l : Str)
    (raw : Option Str) : selectShape l raw (pre ++ ts) = selectShape l raw ts := by
  have hlimit : ("limit" : Str) ∉ pre := fun h => hfree _ h (by decide)
  have hwhere : pre.any (· = ("where" : Str)) = false := by
    rw [List.any_eq_false]
    intro t ht h
    rw [of_decide_eq_true h] at ht
    exact hfree _ ht (by decide)
  unfold selectShape
  rw [limitOf_append hlimit, List.any_append, hwhere, Bool.false_or]

/-- **A select is read alike behind a text that is passed over.** -/
theorem extractSelect_behind {pre m : Str} (hpre : PassedOver pre) {sel : Word} {rest : List Word}
    (hwords : wordsOf m = sel :: rest) (hsel : sel.text = ("select" : Str)) :
    extractSelect (pre ++ m) (wordsOf (pre ++ m)) = extractSelect m (wordsOf m) := by
  obtain ⟨raw, hraw⟩ := rawAfter_total m "from"
  have hfrom : ("from" : Str) ∈ soughtWords := by decide
  have hraw' := hpre.rawAfter hfrom m
  rw [hraw] at hraw'
  obtain ⟨l, hlist⟩ := slice_list m (a := []) (b := rest) hwords fun v => v.text ∈ listEnd
  have hdrop : (wordsOf (pre ++ m)).dropWhile (·.text ≠ ("select" : Str)) =
      sel.shift (len pre) :: rest.map (Word.shift (len pre)) := by
    have hall : ∀ w ∈ wordsOf pre, decide (w.text ≠ ("select" : Str)) = true := by
      intro w hw
      rw [decide_eq_true_eq]
      intro h
      exact hpre.free _ (List.mem_map_of_mem hw) (by rw [h]; decide)
    rw [hpre.words, List.dropWhile_append_of_pos hall, hwords, List.map_cons]
    exact @drop_select (sel.shift (len pre)) hsel _
  have hlist' : slice (pre ++ m) (sel.shift (len pre)).stop
      ((((rest.map (Word.shift (len pre))).find? fun v => v.text ∈ listEnd).map Word.start).getD
        (len (pre ++ m))) = some l := by
    have hfind := find_shift (len pre) (fun t => t ∈ listEnd) rest
    have hstop : (((rest.find? fun v => v.text ∈ listEnd).map (Word.shift (len pre))).map
        Word.start).getD (len (pre ++ m)) =
        len pre + ((rest.find? fun v => v.text ∈ listEnd).map Word.start).getD (len m) := by
      cases rest.find? fun v => v.text ∈ listEnd with
      | none => exact len_append pre m
      | some v => rfl
    rw [hfind, hstop]
    exact (slice_add pre m _ _).trans hlist
  have htexts : texts (wordsOf (pre ++ m)) = textsOf pre ++ texts (sel :: rest) := by
    rw [hpre.words, ← hwords, texts, List.map_append]
    exact congrArg _ (texts_shift _ _)
  rw [extractSelect_of_select hdrop hlist' hraw', htexts, selectShape_behind hpre.free]
  rw [hwords] at hraw ⊢
  rw [extractSelect_eq hsel hlist hraw]

/-! ## `WITH` lists -/

/-- A text that leaves the scan at the start. -/
def Closed (s : Str) : Prop := Scan.start.run s = .start

/-- A name that the extractor does not look for: a word (`cteName_word`), a text in double
quotes (`cteName_quoted`), or a name with other letters, of which only the word characters
are seen. -/
structure CteName (s : Str) : Prop where
  closed : Closed s
  free : ∀ t ∈ textsOf s, t ∉ soughtWords

/-- What may stand between the name and `AS`: blanks, and a column list in brackets. -/
inductive CteColumns : Str → Prop where
  | none {b : Str} (hb : ∀ c ∈ b, isWhitespace c = true) : CteColumns b
  | some {a cols b : Str} (ha : ∀ c ∈ a, isWhitespace c = true) (hcols : Balanced cols)
      (hb : ∀ c ∈ b, isWhitespace c = true) : CteColumns (a ++ group cols ++ b)

/-- The head of an entry: a name, perhaps a column list, and `AS`, with blanks between them. -/
inductive CteHead : Str → Prop where
  | mk {a name cols as b : Str} (ha : ∀ c ∈ a, isWhitespace c = true) (hname : CteName name)
      (hcols : CteColumns cols) (hapart : cols = [] → ∃ x c, name = x ++ [c] ∧ isWordChar c = false)
      (has : lower as = ("as" : Str)) (hb : ∀ c ∈ b, isWhitespace c = true) :
      CteHead (a ++ (name ++ (cols ++ (as ++ b))))

/-- A `WITH` list of such entries, in which the word `RECURSIVE` ends before the first. -/
structure WithList.Plain (w : WithList) : Prop where
  heads : ∀ c ∈ w.ctes, CteHead c.head
  apart : ∀ k ∈ w.recursive, Breaks .start (k.gap ++ renderCtes w.ctes)

/-- A main statement: it begins with the word `select`. -/
structure MainSelect (m : Str) : Prop where
  begins : ∃ u r, m = u ++ r ∧ lower u = ("select" : Str) ∧ ∀ c ∈ r.head?, isWordChar c = false

/-! ### Texts without a word -/

theorem Closed.append {a b : Str} (ha : Closed a) (hb : Closed b) : Closed (a ++ b) := by
  unfold Closed
  rw [Scan.run_append, ha, hb]

theorem closed_faint {g : Str} (h : ∀ c ∈ g, isWhitespace c = true) : Closed g :=
  run_faint (fun c hc => faint_blank (h c hc)) _

/-- Blanks in front of a text do not touch its words. -/
theorem textsOf_lead {g : Str} (h : ∀ c ∈ g, isWhitespace c = true) (s : Str) :
    textsOf (g ++ s) = textsOf s := by
  have hread := readWords_faint (i := 0) (σ := .start) (fun c hc => faint_blank (h c hc)) s
  rw [textsOf, wordsOf, hread]
  exact texts_readWords _ _ _ _

theorem textsOf_blank {g : Str} (h : ∀ c ∈ g, isWhitespace c = true) : textsOf g = [] := by
  have hlead := textsOf_lead h []
  rw [List.append_nil] at hlead
  rw [hlead]
  rfl

theorem textsOf_hidden {u : Str} (h : Opaque .start u) (hr : Closed u) (s : Str) :
    textsOf (u ++ s) = textsOf s := by
  have hread := readWords_hidden (i := 0) h s
  rw [hr] at hread
  rw [textsOf, wordsOf, hread]
  exact texts_readWords _ _ _ _

theorem hidden_group {s : Str} (h : Balanced s) : Opaque .start (group s) ∧ Closed (group s) :=
  opaque_group Scan.open_start le_rfl h

theorem hidden_quoted {parts : List Str} (h : ∀ s ∈ parts, '"' ∉ s) :
    Opaque .start (parts.flatMap dquoted) ∧ Closed (parts.flatMap dquoted) := by
  induction parts with
  | nil => exact ⟨trivial, rfl⟩
  | cons s parts ih =>
    obtain ⟨h1, h2⟩ := opaque_ident Scan.open_start (h s (by simp))
    obtain ⟨h3, h4⟩ := ih fun t ht => h t (by simp [ht])
    rw [List.flatMap_cons]
    exact ⟨Opaque.append h1 (by rw [h2]; exact h3), Closed.append h2 h4⟩

theorem cteName_word {u : Str} (hne : u ≠ []) (hu : u.all isWordChar)
    (hfree : lower u ∉ soughtWords) : CteName u := by
  refine ⟨run_word_chars hu _, ?_⟩
  rw [textsOf_word hne hu]
  simpa using hfree

/-- A doubled quote ends a quoted part and begins the next. -/
theorem cteName_quoted {parts : List Str} (h : ∀ s ∈ parts, '"' ∉ s) :
    CteName (parts.flatMap dquoted) := by
  obtain ⟨h1, h2⟩ := hidden_quoted h
  refine ⟨h2, ?_⟩
  have htexts := textsOf_hidden h1 h2 []
  rw [List.append_nil] at htexts
  rw [htexts, show textsOf [] = [] from rfl]
  simp

/-- **Words behind a text that ends none of them.** -/
theorem textsOf_behind {a b : Str} (ha : Closed a)
    (h : Breaks .start b ∨ ∃ x c, a = x ++ [c] ∧ isWordChar c = false) :
    textsOf (a ++ b) = textsOf a ++ textsOf b := by
  rcases h with h | ⟨x, c, rfl, hc⟩
  · exact textsOf_append ha h
  · rw [textsOf, textsOf, textsOf, wordsOf_ended ha hc, texts, List.map_append]
    exact congrArg _ (texts_shift _ _)

theorem breaks_blanks {g : Str} (h : ∀ c ∈ g, isWhitespace c = true) : Breaks .start g :=
  breaks_faint (fun c hc => faint_blank (h c hc)) _

theorem Breaks.append {σ : Scan} {a b : Str} (ha : Breaks σ a) (hb : a = [] → Breaks σ b) :
    Breaks σ (a ++ b) := by
  cases a with
  | nil => exact hb rfl
  | cons c a => exact fun d hd => ha d (by simpa using hd)

/-! ### Heads and entries -/

theorem CteColumns.words {cols : Str} (h : CteColumns cols) (s : Str) :
    textsOf (cols ++ s) = textsOf s ∧ Closed cols := by
  cases h with
  | none hb => exact ⟨textsOf_lead hb s, closed_faint hb⟩
  | @some a cols b ha hcols hb =>
    obtain ⟨h1, h2⟩ := hidden_group hcols
    refine ⟨?_, ((closed_faint ha).append h2).append (closed_faint hb)⟩
    rw [List.append_assoc, List.append_assoc, textsOf_lead ha, textsOf_hidden h1 h2, textsOf_lead hb]

theorem CteColumns.breaks {cols : Str} (h : CteColumns cols) : Breaks .start cols := by
  cases h with
  | none hb => exact breaks_blanks hb
  | some ha hcols hb =>
    rw [List.append_assoc]
    exact Breaks.append (breaks_blanks ha) fun _ => breaks_cons (by decide) _

/-- **The extractor looks for no word of a head.** -/
theorem CteHead.free {h : Str} (hh : CteHead h) : ∀ t ∈ textsOf h, t ∉ soughtWords := by
  obtain ⟨ha, hname, hcols, hapart, has, hb⟩ := hh
  rename_i a name cols as b
  obtain ⟨hasne, hasword⟩ := spelled_word has (by decide) (by decide)
  have hastext : textsOf (as ++ b) = [("as" : Str)] := by
    rw [textsOf_append (run_word_chars hasword _) (breaks_blanks hb), textsOf_word hasne hasword,
      textsOf_blank hb, has]
    rfl
  have hrest : textsOf (cols ++ (as ++ b)) = [("as" : Str)] := by
    rw [(hcols.words (as ++ b)).1, hastext]
  -- the name ends before `AS`
  have hends : Breaks .start (cols ++ (as ++ b)) ∨
      ∃ x c, name = x ++ [c] ∧ isWordChar c = false := by
    by_cases hnil : cols = []
    · exact .inr (hapart hnil)
    · exact .inl (Breaks.append hcols.breaks fun h => absurd h hnil)
  rw [textsOf_lead ha, textsOf_behind hname.closed hends, hrest]
  intro t ht
  rcases List.mem_append.1 ht with ht | ht
  · exact hname.free t ht
  · rw [List.mem_singleton.1 ht]
    decide

theorem Cte.blank_gap (c : Cte) : ∀ d ∈ c.gap, isWhitespace d = true := List.all_eq_true.1 c.blank

theorem Cte.closed (c : Cte) : Closed c.render :=
  Closed.append (Closed.append c.headBalanced.closed (hidden_group c.bodyBalanced).2)
    (closed_faint c.blank_gap)

/-- **Only the head of an entry has words.** -/
theorem Cte.words (c : Cte) : textsOf c.render = textsOf c.head := by
  obtain ⟨h1, h2⟩ := hidden_group c.bodyBalanced
  have hbreaks : Breaks .start (group c.body ++ c.gap) := breaks_cons (by decide) _
  rw [Cte.render, List.append_assoc, textsOf_append c.headBalanced.closed hbreaks,
    textsOf_hidden h1 h2, textsOf_blank c.blank_gap, List.append_nil]

theorem renderCtes_cons (c d : Cte) (l : List Cte) :
    renderCtes (c :: d :: l) = c.render ++ ',' :: renderCtes (d :: l) := rfl

theorem closed_ctes (c : Cte) (l : List Cte) : Closed (renderCtes (c :: l)) := by
  induction l generalizing c with
  | nil => exact c.closed
  | cons d l ih =>
    rw [renderCtes_cons, Closed, run_sep c.closed rfl]
    exact ih d

theorem free_ctes {c : Cte} {l : List Cte} (h : ∀ e ∈ c :: l, CteHead e.head) :
    ∀ t ∈ textsOf (renderCtes (c :: l)), t ∉ soughtWords := by
  induction l generalizing c with
  | nil =>
    rw [renderCtes, c.words]
    exact (h c (by simp)).free
  | cons d l ih =>
    rw [renderCtes_cons, textsOf_sep c.closed (by decide) rfl, c.words]
    intro t ht
    rcases List.mem_append.1 ht with ht | ht
    · exact (h c (by simp)).free t ht
    · exact ih (fun e he => h e (List.mem_cons_of_mem _ he)) t ht

/-- A list of entries ends with a bracket or a blank. -/
theorem ends_ctes (c : Cte) (l : List Cte) :
    ∃ x d, renderCtes (c :: l) = x ++ [d] ∧ isWordChar d = false := by
  induction l generalizing c with
  | nil =>
    rcases List.eq_nil_or_concat c.gap with hgap | ⟨g, d, hgap⟩
    · refine ⟨c.head ++ '(' :: c.body, ')', ?_, by decide⟩
      simp [renderCtes, Cte.render, group, hgap]
    · rw [List.concat_eq_append] at hgap
      refine ⟨c.head ++ group c.body ++ g, d, ?_, ?_⟩
      · simp [renderCtes, Cte.render, hgap]
      · exact (faint_blank (c.blank_gap d (by rw [hgap]; simp))).1
  | cons d l ih =>
    obtain ⟨x, e, hx, he⟩ := ih d
    exact ⟨c.render ++ ',' :: x, e, by rw [renderCtes_cons, hx]; simp, he⟩

/-! ### Selects behind a text -/

/-- A text whose first character is not trimmed, and which ends no word. -/
def Fore (p : Str) : Prop := Ends Solid (fun c => isWordChar c = false) p

theorem Fore.ends {p : Str} (hp : Fore p) : ∃ x c, p = x ++ [c] ∧ isWordChar c = false := by
  rcases List.eq_nil_or_concat p with hnil | ⟨x, c, hx⟩
  · exact absurd hnil hp.ne
  · rw [List.concat_eq_append] at hx
    exact ⟨x, c, hx, hp.last c (by rw [hx]; simp)⟩

/-- A select behind a text is trimmed at its end alone. -/
theorem Fore.bare {p m : Str} (hp : Fore p) (hm : MainSelect m) :
    bareStmt (p ++ m) = p ++ bareStmt m := by
  obtain ⟨u, r, rfl, hu, -⟩ := hm.begins
  obtain ⟨hne, hword⟩ := spelled_word hu (by decide) (by decide)
  have hends : Ends Solid Solid (p ++ u) := by
    have happend := Ends.append hp (ends_word hne hword) []
    rwa [List.append_nil] at happend
  rw [bareStmt_solid (ends_word hne hword), ← List.append_assoc, bareStmt_solid hends,
    List.append_assoc]

/-- The first word of a select. -/
theorem MainSelect.words {m : Str} (hm : MainSelect m) :
    ∃ w ws, wordsOf (bareStmt m) = w :: ws ∧ w.text = ("select" : Str) := by
  obtain ⟨u, r, rfl, hu, hr⟩ := hm.begins
  obtain ⟨hne, hword⟩ := spelled_word hu (by decide) (by decide)
  obtain ⟨ws, hws⟩ := @first_word [] u r rfl hne hword hr
  exact ⟨_, ws, hws, hu⟩

/-- **A select behind a text** is read with the words of the text. -/
theorem extract_fore {p m : Str} (hp : Fore p) (hclosed : Closed p)
    (hfirst : ∀ t ∈ (textsOf p).head?, t ∈ selectWords) (hm : MainSelect m) :
    extract (p ++ m) = extractSelect (p ++ bareStmt m) (wordsOf (p ++ bareStmt m)) := by
  obtain ⟨sel, ws, hws, hsel⟩ := hm.words
  -- the first word of the whole is the text's, or `select`
  obtain ⟨w, rest, hwords, hw⟩ : ∃ w rest,
      wordsOf (p ++ bareStmt m) = w :: rest ∧ w.text ∈ selectWords := by
    obtain ⟨x, c, rfl, hc⟩ := hp.ends
    rw [wordsOf_ended hclosed hc, hws]
    cases hfront : wordsOf (x ++ [c]) with
    | nil =>
      refine ⟨_, _, rfl, ?_⟩
      change sel.text ∈ selectWords
      rw [hsel]
      decide
    | cons v vs =>
      refine ⟨v, _, rfl, hfirst v.text ?_⟩
      rw [textsOf, hfront]
      rfl
  rw [← hp.bare hm] at hwords ⊢
  refine extract_select hwords ?_
  simpa [selectWords] using hw

/-- **A select has its shape behind a text that is passed over.** -/
theorem extract_behind {p m : Str} (hp : Fore p) (hpassed : PassedOver p)
    (hfirst : ∀ t ∈ (textsOf p).head?, t ∈ selectWords) (hm : MainSelect m) :
    extract (p ++ m) = extract m := by
  obtain ⟨w, ws, hwords, hw⟩ := hm.words
  rw [extract_fore hp hpassed.closed hfirst hm, extractSelect_behind hpassed hwords hw,
    extract_select hwords (.inl hw)]

/-! ### Statements -/

/-- The text up to the main statement. -/
def WithList.prefix' (w : WithList) : Str := w.keyword.text ++ w.renderRest

/-- **A `WITH` list is passed over.** -/
theorem WithList.Plain.passedOver {w : WithList} (hw : w.Plain) : PassedOver w.prefix' := by
  obtain ⟨c, l, hl⟩ := List.exists_cons_of_ne_nil w.ctes_ne
  obtain ⟨hne, hword⟩ := spelled_word w.keyword.spells (by decide) (by decide)
  have hgap : ∀ d ∈ w.keyword.gap, isWhitespace d = true := List.all_eq_true.1 w.keyword.blank
  -- from `RECURSIVE` on
  obtain ⟨hclosed, hfree⟩ : Closed ((w.recursive.map Keyword.render).getD [] ++ renderCtes w.ctes) ∧
      ∀ t ∈ textsOf ((w.recursive.map Keyword.render).getD [] ++ renderCtes w.ctes),
        t ∉ soughtWords := by
    have hctes : Closed (renderCtes w.ctes) := hl ▸ closed_ctes c l
    have hctesfree : ∀ t ∈ textsOf (renderCtes w.ctes), t ∉ soughtWords :=
      hl ▸ free_ctes (hl ▸ hw.heads)
    cases hrec : w.recursive with
    | none => exact ⟨hctes, hctesfree⟩
    | some k =>
      obtain ⟨hkne, hkword⟩ := spelled_word k.spells (by decide) (by decide)
      have hkgap : ∀ d ∈ k.gap, isWhitespace d = true := List.all_eq_true.1 k.blank
      have hbreaks := hw.apart k hrec
      rw [Option.map_some, Option.getD_some, Keyword.render, List.append_assoc]
      refine ⟨Closed.append (run_word_chars hkword _) ((closed_faint hkgap).append hctes), ?_⟩
      rw [textsOf_append (run_word_chars hkword _) hbreaks, textsOf_word hkne hkword, k.spells,
        textsOf_lead hkgap]
      intro t ht
      rcases List.mem_cons.1 ht with rfl | ht
      · decide
      · exact hctesfree t ht
  have hrest : w.renderRest =
      w.keyword.gap ++ ((w.recursive.map Keyword.render).getD [] ++ renderCtes w.ctes) := by
    rw [WithList.renderRest, List.append_assoc]
  refine ⟨?_, ?_, ?_⟩
  · rw [WithList.prefix', hrest]
    exact Closed.append (run_word_chars hword _) ((closed_faint hgap).append hclosed)
  · obtain ⟨x, d, hx, hd⟩ := ends_ctes c l
    refine ⟨w.keyword.text ++ (w.keyword.gap ++ ((w.recursive.map Keyword.render).getD [] ++ x)),
      d, ?_, hd⟩
    rw [WithList.prefix', hrest, hl, hx]
    simp only [List.append_assoc]
  · have hbreaks : Breaks .start w.renderRest := by
      rw [hrest]
      exact Breaks.append (breaks_blanks hgap) fun h => absurd h w.apart
    rw [WithList.prefix', textsOf_append (run_word_chars hword _) hbreaks, textsOf_word hne hword,
      w.keyword.spells, hrest, textsOf_lead hgap]
    intro t ht
    rcases List.mem_cons.1 ht with rfl | ht
    · decide
    · exact hfree t ht

/-- The first word of a statement with a `WITH` list is `with`. -/
theorem WithList.head (w : WithList) : (textsOf w.prefix').head? = some ("with" : Str) := by
  obtain ⟨hne, hword⟩ := spelled_word w.keyword.spells (by decide) (by decide)
  have hbreaks : Breaks .start w.renderRest := by
    intro c hc
    rw [WithList.renderRest, List.append_assoc] at hc
    exact .inr (breaks_blank w.keyword.blank w.apart _ c hc)
  obtain ⟨ws, hws⟩ := wordsOf_first hne hword hbreaks
  rw [WithList.prefix', textsOf, hws, w.keyword.spells]
  rfl

theorem WithList.Plain.fore {w : WithList} (hw : w.Plain) : Fore w.prefix' := by
  obtain ⟨hne, hword⟩ := spelled_word w.keyword.spells (by decide) (by decide)
  obtain ⟨x, d, hx, hd⟩ := hw.passedOver.ends
  have hends := (ends_word hne hword).append (ends_word hne hword) w.renderRest
  refine ⟨List.append_ne_nil_of_left_ne_nil hne _, ?_, ?_⟩
  · intro c hc
    refine hends.first c ?_
    rw [List.append_assoc, ← List.append_assoc]
    exact List.mem_head?_append_of_mem_head? hc
  · intro c hc
    rw [hx, List.getLast?_concat] at hc
    exact Option.some.inj hc ▸ hd

/-- **CTEs are transparent.** A statement with a `WITH` list has the shape of its main select,
and so its crush class at every threshold. -/
theorem extract_with {w : WithList} (hw : w.Plain) {m : Str} (hm : MainSelect m) :
    extract (w.prefix' ++ m) = extract m ∧
      ∀ th, (shapeOf (w.prefix' ++ m)).crushClass th = (shapeOf m).crushClass th := by
  have hfirst : ∀ t ∈ (textsOf w.prefix').head?, t ∈ selectWords := by
    rw [w.head]
    rintro t ⟨⟩
    decide
  have heq : extract (w.prefix' ++ m) = extract m := extract_behind hw.fore hw.passedOver hfirst hm
  refine ⟨heq, ?_⟩
  intro th
  rw [shapeOf_congr heq]

/-- `WITH RECURSIVE x (a) as (select b from u where c = 'limit)' limit 9), "y" as (select 2)`,
with line breaks behind `WITH` and the last body. -/
def nestedWith : WithList where
  keyword := ⟨"WITH", "\n", by decide, by decide⟩
  apart := by decide
  recursive := some ⟨"RECURSIVE", "\t", by decide, by decide⟩
  ctes := [
    ⟨"x (a) as ", "select b from u where c = 'limit)' limit 9", "", by decide, by decide, by decide⟩,
    ⟨" \"y\" as ", "select 2", "\n", by decide, by decide, by decide⟩]
  ctes_ne := by decide

theorem nestedWith_plain : nestedWith.Plain := by
  have hblank : ∀ c ∈ (" " : Str), isWhitespace c = true := blank_space
  have hx : CteHead "x (a) as " := by
    have hname : CteName "x" := cteName_word (by decide) (by decide) (by decide)
    have hbalanced : Balanced "a" := by decide
    have hcols : CteColumns " (a) " := .some hblank hbalanced hblank
    have has : lower "as" = ("as" : Str) := by decide
    exact .mk (a := []) (by simp) hname hcols (by simp) has hblank
  have hy : CteHead " \"y\" as " := by
    have hname : CteName "\"y\"" := by
      have hparts : ∀ s ∈ [("y" : Str)], '"' ∉ s := by decide
      exact cteName_quoted hparts
    have has : lower "as" = ("as" : Str) := by decide
    exact .mk hblank hname (.none hblank) (by simp) has hblank
  refine ⟨?_, ?_⟩
  · intro c hc
    rcases List.mem_pair.1 hc with rfl | rfl
    · exact hx
    · exact hy
  · rintro k ⟨⟩
    exact breaks_cons (by decide) _

/-- **The limit in a CTE's body is not the query's.** -/
theorem nestedWith_limit :
    (extract (nestedWith.prefix' ++ "select a from x limit 5")).map (·.limit) = some (some 5) := by
  have hmain : MainSelect "select a from x limit 5" :=
    ⟨"select", " a from x limit 5", by decide, by decide, by rintro c ⟨⟩; decide⟩
  rw [(extract_with nestedWith_plain hmain).1]
  decide +kernel

end EtherealDb
