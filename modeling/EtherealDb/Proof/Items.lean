import EtherealDb.Proof.Extract
import EtherealDb.Spec.Query

/-!
# Reading an item back

`parseItem` on the text of an item gives the item's columns (`parseItem_render`). An
item's text is a run of **quiet** parts: each ends the scan where it began and has no
keyword among its words (`Quiet`).

* `classifyExpr_render`: an expression is classified as itself.
* `peelCast_render`, `peelAlias_render`: the cast and the alias are cut off.
* `parseItem_render`: **the columns of an item.**
-/

namespace EtherealDb

open Str Reading

/-! ## Quiet texts -/

/-- The texts of the words of a text. -/
def textsOf (s : Str) : List Str := texts (wordsOf s)

/-- A text that leaves the scan at the start and has no keyword among its words. -/
structure Quiet (s : Str) : Prop where
  closed : Scan.start.run s = Scan.start
  free : ∀ w ∈ textsOf s, w ∉ reserved

/-- **Words of two parts**, when the second does not continue a word of the first. -/
theorem textsOf_append {a b : Str} (ha : Scan.start.run a = Scan.start)
    (hb : Breaks Scan.start b) : textsOf (a ++ b) = textsOf a ++ textsOf b := by
  unfold textsOf wordsOf
  rw [readWords_append (by simpa [at', ha] using hb)]
  simp only [texts, List.map_append, at', ha]
  congr 1
  exact texts_readWords _ _ _ _

/-- **Words around a separator.** -/
theorem textsOf_sep {a b : Str} {c : Char} (ha : Scan.start.run a = Scan.start)
    (hc : isWordChar c = false) (hs : Scan.start.step c = Scan.start) :
    textsOf (a ++ c :: b) = textsOf a ++ textsOf b := by
  unfold textsOf wordsOf
  rw [readWords_sep hc]
  simp only [texts, List.map_append, at', ha, hs]
  congr 1
  exact texts_readWords _ _ _ _

theorem run_sep {a b : Str} {c : Char} (ha : Scan.start.run a = Scan.start)
    (hs : Scan.start.step c = Scan.start) :
    Scan.start.run (a ++ c :: b) = Scan.start.run b := by
  rw [Scan.run_append, ha, Scan.run_cons, hs]

theorem quiet_nil : Quiet [] := ⟨rfl, by simp [textsOf, wordsOf, at', texts, flush]⟩

theorem Quiet.append {a b : Str} (ha : Quiet a) (hb : Quiet b) (h : Breaks Scan.start b) :
    Quiet (a ++ b) := by
  refine ⟨by rw [Scan.run_append, ha.closed, hb.closed], ?_⟩
  rw [textsOf_append ha.closed h]
  intro w hw
  rcases List.mem_append.1 hw with hw | hw
  · exact ha.free w hw
  · exact hb.free w hw

theorem Quiet.sep {a b : Str} {c : Char} (ha : Quiet a) (hb : Quiet b)
    (hc : isWordChar c = false) (hs : Scan.start.step c = Scan.start) :
    Quiet (a ++ c :: b) := by
  refine ⟨by rw [run_sep ha.closed hs, hb.closed], ?_⟩
  rw [textsOf_sep ha.closed hc hs]
  intro w hw
  rcases List.mem_append.1 hw with hw | hw
  · exact ha.free w hw
  · exact hb.free w hw

theorem textsOf_word {u : Str} (hne : u ≠ []) (hu : u.all isWordChar) :
    textsOf u = [lower u] := by
  rw [textsOf, wordsOf, readWords_word Scan.not_nested_start hne hu]
  rfl

theorem quiet_word {u : Str} (hne : u ≠ []) (hu : u.all isWordChar) (hr : lower u ∉ reserved) :
    Quiet u := by
  refine ⟨run_word_chars hu _, ?_⟩
  rw [textsOf_word hne hu]
  simpa using hr

theorem quiet_hidden {u : Str} (h : Opaque Scan.start u) (hr : Scan.start.run u = Scan.start) :
    Quiet u := by
  refine ⟨hr, ?_⟩
  have := readWords_hidden (i := 0) h []
  rw [List.append_nil] at this
  rw [textsOf, wordsOf, this]
  simp [at', texts, flush]

/-! ## Identifiers and types -/

theorem isIdent_spec {s : Str} (h : isIdent s) : s ≠ [] ∧ s.all isWordChar ∧
    ∀ c ∈ s.head?, c.isDigit = false ∧ c ≠ '.' ∧ c ≠ '-' := by
  cases s with
  | nil => simp [isIdent] at h
  | cons c r =>
    simp only [isIdent, Bool.and_eq_true, Bool.or_eq_true, beq_iff_eq] at h
    have hw : isWordChar c = true := by
      rcases h.1 with h | h <;> simp [isWordChar, Char.isAlphanum, h]
    refine ⟨by simp, by simp [hw, h.2], ?_⟩
    intro d hd
    obtain rfl : c = d := by simpa using hd
    refine ⟨?_, ?_, ?_⟩
    · rcases h.1 with h | rfl
      · rw [isAlpha_iff] at h
        rw [Bool.eq_false_iff, Ne, isDigit_iff]
        omega
      · decide
    · rintro rfl; exact absurd hw (by decide)
    · rintro rfl; exact absurd hw (by decide)

theorem Ident.ne_nil (x : Ident) : x.text ≠ [] := (isIdent_spec x.ident).1

theorem Ident.all_word (x : Ident) : x.text.all isWordChar := (isIdent_spec x.ident).2.1

theorem Ident.quiet (x : Ident) : Quiet x.text := quiet_word x.ne_nil x.all_word x.free

/-- A known type is a word, and no keyword. -/
theorem SqlType.spec (t : SqlType) :
    t.text ≠ [] ∧ t.text.all isWordChar ∧ lower t.text ∉ reserved := by
  have htable : ∀ e ∈ sqlTypes, e.1 ≠ [] ∧ e.1.all isWordChar ∧ e.1 ∉ reserved := by decide
  have hk := t.known
  unfold wireTypeFromSql at hk
  obtain ⟨e, he, -⟩ := Option.map_eq_some_iff.1 hk
  have hname : e.1 = lower t.text := by simpa using List.find?_some he
  obtain ⟨h1, h2, h3⟩ := htable e (List.mem_of_find?_eq_some he)
  rw [hname] at h1 h2 h3
  exact ⟨by simpa using h1, by rwa [all_isWordChar_lower] at h2, h3⟩

theorem SqlType.quiet (t : SqlType) : Quiet t.text :=
  quiet_word t.spec.1 t.spec.2.1 t.spec.2.2

/-! ## Expressions -/

/-- The characters of an expression outside quotes and brackets. -/
def ExprChar (c : Char) : Prop := isWordChar c = true ∨ c = '.' ∨ c = '-'

theorem digit_word {c : Char} (h : c.isDigit = true) : isWordChar c = true := by
  simp [isWordChar, Char.isAlphanum, h]

theorem digits_word {s : Str} (h : s.all Char.isDigit) : s.all isWordChar := by
  rw [List.all_eq_true] at h ⊢
  exact fun c hc => digit_word (h c hc)

/-- Digits are no keyword. -/
theorem digits_free {s : Str} (hne : s ≠ []) (h : s.all Char.isDigit) : lower s ∉ reserved := by
  have hhead : ∀ r ∈ reserved, r.head?.any Char.isDigit = false := by decide
  have hfix : ∀ c : Char, c.isDigit = true → c.toLower = c := by
    intro c hc
    rw [isDigit_iff] at hc
    exact toLower_eq_self (by omega)
  cases s with
  | nil => exact absurd rfl hne
  | cons c s =>
    rw [List.all_cons, Bool.and_eq_true] at h
    intro hmem
    have hc : c.toLower.isDigit = false := hhead _ hmem
    rw [hfix c h.1, h.1] at hc
    cases hc

theorem quiet_digits {s : Str} (hne : s ≠ []) (h : s.all Char.isDigit) : Quiet s :=
  quiet_word hne (digits_word h) (digits_free hne h)

theorem quiet_qualified (quals : List Ident) (name : Ident) :
    Quiet (qualified quals name.text) := by
  induction quals with
  | nil => exact name.quiet
  | cons q quals ih => exact q.quiet.sep ih (by decide) (by decide)

theorem Expr.quiet (e : Expr) : Quiet e.render := by
  cases e with
  | column quals name => exact quiet_qualified quals name.toIdent
  | int neg digits ne digit =>
    have hd := quiet_digits ne digit
    cases neg with
    | true => exact quiet_nil.sep hd (by decide) (by decide)
    | false => exact hd
  | literal s =>
    obtain ⟨h1, h2⟩ := opaque_quoted Scan.open_start s
    exact quiet_hidden h1 h2
  | call f args hargs =>
    obtain ⟨h1, h2⟩ := opaque_group Scan.open_start le_rfl hargs
    exact f.quiet.append (quiet_hidden h1 h2) (breaks_cons (by decide) _)

theorem hides_word {P : Char → Prop} {σ : Scan} {s : Str} (h : s.all isWordChar)
    (hP : ∀ c, isWordChar c = true → P c) : Hides P σ s :=
  hides_of_forall fun c hc => hP c (List.all_eq_true.1 h c hc)

theorem qualified_chars (quals : List Ident) (name : Ident) :
    ∀ c ∈ qualified quals name.text, ExprChar c := by
  have hid : ∀ (x : Ident) c, c ∈ x.text → ExprChar c := fun x c hc =>
    Or.inl (List.all_eq_true.1 x.all_word c hc)
  induction quals with
  | nil => exact hid name
  | cons q quals ih =>
    intro c hc
    rcases List.mem_append.1 hc with hc | hc
    · exact hid q c hc
    · rcases List.mem_cons.1 hc with rfl | hc
      · exact Or.inr (Or.inl rfl)
      · exact ih c hc

/-- **Nothing else is seen of an expression.** -/
theorem Expr.hides (e : Expr) : Hides ExprChar Scan.start e.render := by
  cases e with
  | column quals name => exact hides_of_forall (qualified_chars quals name.toIdent)
  | int neg digits ne digit =>
    have hd : Hides ExprChar Scan.start digits := hides_word (digits_word digit) fun _ => Or.inl
    cases neg with
    | true => exact ⟨Or.inr (Or.inr (Or.inr (Or.inr rfl))), hd⟩
    | false => exact hd
  | literal s => exact (opaque_quoted Scan.open_start s).1.hides
  | call f args hargs =>
    show Hides ExprChar Scan.start (f.text ++ group args)
    rw [hides_append, run_word_chars f.all_word]
    exact ⟨hides_word f.all_word fun _ => Or.inl,
      (opaque_group Scan.open_start le_rfl hargs).1.hides⟩

/-- The characters at the ends of a text. -/
structure Ends (p q : Char → Prop) (s : Str) : Prop where
  ne : s ≠ []
  first : ∀ c ∈ s.head?, p c
  last : ∀ c ∈ s.getLast?, q c

theorem Ends.append {p q r t : Char → Prop} {a b : Str} (ha : Ends p q a) (hb : Ends r t b)
    (m : Str) : Ends p t (a ++ m ++ b) := by
  obtain ⟨c, a', rfl⟩ := List.exists_cons_of_ne_nil ha.ne
  refine ⟨by simp, fun d hd => ha.first d (by simpa using hd), fun d hd => hb.last d ?_⟩
  rwa [List.getLast?_append_of_ne_nil _ hb.ne] at hd

theorem ends_of_forall {p : Char → Prop} {s : Str} (hne : s ≠ []) (h : ∀ c ∈ s, p c) :
    Ends p p s :=
  ⟨hne, fun c hc => h c (List.mem_of_mem_head? hc), fun c hc => h c (List.mem_of_mem_getLast? hc)⟩

/-- Neither blank nor a star nor a semicolon: no trimming removes it. -/
def Solid (c : Char) : Prop := isWhitespace c = false ∧ c ≠ '*' ∧ c ≠ ';'

instance (c : Char) : Decidable (Solid c) := by unfold Solid; infer_instance

theorem solid_word {c : Char} (h : isWordChar c = true) : Solid c := by
  refine ⟨not_isWhitespace_of_isWordChar h, ?_, ?_⟩
  · rintro rfl; exact absurd h (by decide)
  · rintro rfl; exact absurd h (by decide)

theorem ends_word {s : Str} (hne : s ≠ []) (h : s.all isWordChar) : Ends Solid Solid s :=
  ends_of_forall hne fun c hc => solid_word (List.all_eq_true.1 h c hc)

theorem ends_wrap {p : Char → Prop} (a b : Char) (m : Str) (ha : p a) (hb : p b) :
    Ends p p (a :: m ++ [b]) := by
  refine ⟨by simp, ?_, ?_⟩
  · intro c hc; obtain rfl : a = c := by simpa using hc
    exact ha
  · intro c hc
    rw [List.getLast?_concat, Option.mem_def, Option.some.injEq] at hc
    exact hc ▸ hb

/-- Not blank. -/
def Firm (c : Char) : Prop := isWhitespace c = false

theorem Ends.firm {s : Str} (h : Ends Solid Solid s) : Ends Firm Firm s :=
  ⟨h.ne, fun c hc => (h.first c hc).1, fun c hc => (h.last c hc).1⟩

/-- **Trimming removes the blanks around a firm text.** -/
theorem Ends.trim_blank {s : Str} (h : Ends Firm Firm s) {a b : Str}
    (ha : ∀ c ∈ a, isWhitespace c = true) (hb : ∀ c ∈ b, isWhitespace c = true) :
    trim (a ++ s ++ b) = s := by
  obtain ⟨m, d, hm⟩ : ∃ m d, s = m ++ [d] := by
    rcases List.eq_nil_or_concat s with hs | ⟨m, d, hs⟩
    · exact absurd hs h.ne
    · exact ⟨m, d, by simpa using hs⟩
  have hstart : trimStart (a ++ s ++ b) = s ++ b := by
    obtain ⟨c, r, rfl⟩ := List.exists_cons_of_ne_nil h.ne
    unfold trimStart
    rw [List.append_assoc, List.dropWhile_append_of_pos ha, List.cons_append,
      List.dropWhile_cons_of_neg (by simp [show isWhitespace c = false from h.first c rfl])]
  have hd : isWhitespace d = false := h.last d (by simp [hm])
  unfold trim
  rw [hstart, hm, trimEnd, rdropWhile_append hd, List.rdropWhile_eq_nil_iff.2 hb, List.append_nil]

theorem Ends.trim {s : Str} (h : Ends Firm Firm s) : trim s = s := by
  simpa using h.trim_blank (a := []) (b := []) (by simp) (by simp)

/-- A statement with solid ends is trimmed already. -/
theorem Ends.bareStmt {s : Str} (h : Ends Solid Solid s) : bareStmt s = s := by
  have htrim := h.firm.trim
  have hsemi : trimEndMatches ';' s = s := by
    unfold trimEndMatches
    rw [List.rdropWhile_eq_self_iff]
    intro hne
    have hlast := h.last _ (List.getLast?_eq_some_getLast hne)
    simpa using hlast.2.2
  unfold EtherealDb.bareStmt
  rw [htrim, hsemi, htrim]

theorem Expr.ends (e : Expr) : Ends Solid Solid e.render := by
  cases e with
  | column quals name =>
    induction quals with
    | nil => exact ends_word name.ne_nil name.all_word
    | cons q quals ih =>
      have := (ends_word q.ne_nil q.all_word).append ih ['.']
      simpa [Expr.render, qualified] using this
  | int neg digits ne digit =>
    have hd := ends_word ne (digits_word digit)
    cases neg with
    | true =>
      have := (ends_of_forall (p := Solid) (s := ['-']) (by simp)
        (List.forall_mem_singleton.2 (by decide))).append
        hd []
      simpa [Expr.render] using this
    | false => exact hd
  | literal s => exact ends_wrap '\'' '\'' _ (by decide) (by decide)
  | call f args hargs =>
    have := (ends_word f.ne_nil f.all_word).append (ends_wrap (p := Solid) '(' ')' args
      (by decide) (by decide)) []
    simpa [Expr.render, group] using this

/-! ## Classification -/

theorem isNumeric_of_head {c : Char} {r : Str} (h : c.isDigit = false ∧ c ≠ '.' ∧ c ≠ '-') :
    isNumeric (c :: r) = false := by
  obtain ⟨h1, h2, h3⟩ := h
  simp [isNumeric, h1, h2, h3]

/-- **A text that begins like a name**: not like a number, and not with a single quote. -/
def NameLed (s : Str) : Prop :=
  ∃ c r, s = c :: r ∧ (c.isDigit = false ∧ c ≠ '.' ∧ c ≠ '-') ∧ c ≠ '\''

theorem NameLed.append {a : Str} (h : NameLed a) (b : Str) : NameLed (a ++ b) := by
  obtain ⟨c, r, rfl, hc⟩ := h
  exact ⟨c, r ++ b, rfl, hc⟩

theorem NameLed.ne_nil {s : Str} (h : NameLed s) : s ≠ [] := by
  obtain ⟨c, r, rfl, -⟩ := h
  exact List.cons_ne_nil c r

theorem NameLed.not_numeric {s : Str} (h : NameLed s) : isNumeric s = false := by
  obtain ⟨c, r, rfl, hc, -⟩ := h
  exact isNumeric_of_head hc

theorem NameLed.head_ne {s : Str} (h : NameLed s) : s.head? ≠ some '\'' := by
  obtain ⟨c, r, rfl, -, hq⟩ := h
  exact fun hhead => hq (Option.some.inj hhead)

theorem nameLed_ident {s : Str} (h : isIdent s) : NameLed s := by
  obtain ⟨hne, hword, hfirst⟩ := isIdent_spec h
  obtain ⟨c, r, rfl⟩ := List.exists_cons_of_ne_nil hne
  refine ⟨c, r, rfl, hfirst c rfl, ?_⟩
  rintro rfl
  exact absurd (List.all_eq_true.1 hword _ List.mem_cons_self) (by decide)

theorem nameLed_dquoted (s : Str) : NameLed (dquoted s) :=
  ⟨'"', s ++ ['"'], rfl, by decide, by decide⟩

theorem isNumeric_int (neg : Bool) {digits : Str} (ne : digits ≠ [])
    (digit : digits.all Char.isDigit) :
    isNumeric (if neg then '-' :: digits else digits) = true := by
  obtain ⟨c, r, rfl⟩ := List.exists_cons_of_ne_nil ne
  rw [List.all_cons, Bool.and_eq_true, List.all_eq_true] at digit
  have hr : ∀ d ∈ r, (d.isDigit || d == '.') = true := fun d hd => by simp [digit.2 d hd]
  cases neg <;> simp [isNumeric, digit.1, List.all_eq_true] <;> simpa using hr

/-- Undoing the doubling of quotes. -/
theorem undouble_double (s : Str) : undouble (double s) = s := by
  induction s with
  | nil => rfl
  | cons c s ih =>
    rw [double_cons]
    by_cases hc : c = '\''
    · subst hc
      rw [if_pos rfl]
      exact congrArg _ ih
    · rw [if_neg hc, List.singleton_append]
      have : ∀ r, undouble (c :: r) = c :: undouble r := by
        intro r
        rw [undouble]
        rintro _ rfl
        exact absurd rfl hc
      rw [this, ih]

theorem rsplitNext_self {c : Char} {s : Str} (h : c ∉ s) : rsplitNext c s = s := by
  rw [rsplitNext, List.rtakeWhile_eq_self_iff]
  intro d hd
  simp only [bne_iff_ne, ne_eq]
  rintro rfl
  exact h hd

theorem rsplitNext_append {c : Char} {a b : Str} (h : c ∉ b) :
    rsplitNext c (a ++ c :: b) = b := by
  have hb := rsplitNext_self h
  unfold rsplitNext List.rtakeWhile at *
  rw [List.reverse_append, List.reverse_cons, List.append_assoc]
  have hall : ∀ d ∈ b.reverse, (d != c) = true := by
    intro d hd
    simp only [bne_iff_ne, ne_eq]
    rintro rfl
    exact h (List.mem_reverse.1 hd)
  rw [List.takeWhile_append_of_pos hall]
  simp

theorem rsplitNext_qualified (quals : List Ident) {name : Str} (h : '.' ∉ name) :
    rsplitNext '.' (qualified quals name) = name := by
  cases quals with
  | nil => exact rsplitNext_self h
  | cons q quals =>
    -- the last qualifier ends at the last dot
    have : ∃ a, qualified (q :: quals) name = a ++ '.' :: name := by
      induction quals generalizing q with
      | nil => exact ⟨q.text, rfl⟩
      | cons p quals ih =>
        obtain ⟨a, ha⟩ := ih p
        refine ⟨q.text ++ '.' :: a, ?_⟩
        have hq : qualified (q :: p :: quals) name = q.text ++ '.' :: qualified (p :: quals) name :=
          rfl
        rw [hq, ha]
        simp
    obtain ⟨a, ha⟩ := this
    rw [ha, rsplitNext_append h]

theorem not_mem_of_word {s : Str} (h : s.all isWordChar) {c : Char} (hc : isWordChar c = false) :
    c ∉ s := by
  intro hm
  rw [List.all_eq_true.1 h c hm] at hc
  exact absurd hc (by decide)

theorem trimMatches_self {s : Str} (h : '"' ∉ s) : trimMatches '"' s = s := by
  have hd : s.dropWhile (· == '"') = s := by
    cases s with
    | nil => rfl
    | cons c s =>
      rw [List.dropWhile_cons_of_neg]
      intro hc
      obtain rfl : c = '"' := by simpa using hc
      exact h (by simp)
  rw [trimMatches, hd, List.rdropWhile_eq_self_iff]
  intro hne hc
  have hq : s.getLast hne = '"' := by simpa using hc
  exact h (hq ▸ List.getLast_mem hne)

/-- The name of a plain identifier is classified as itself. -/
theorem classifyIdent_qualified (quals : List Ident) (name : PlainIdent) :
    classifyIdent (qualified quals name.text) = .named name.text := by
  have hname : trimMatches '"' (trim (rsplitNext '.' (qualified quals name.text))) = name.text := by
    rw [rsplitNext_qualified _ (not_mem_of_word name.all_word (by decide)),
      (ends_word name.ne_nil name.all_word).firm.trim,
      trimMatches_self (not_mem_of_word name.all_word (by decide))]
  unfold classifyIdent
  simp only [hname]
  rw [if_pos, name.plain]
  refine ⟨name.ne_nil, ?_⟩
  rw [List.all_eq_true]
  intro c hc
  rw [List.all_eq_true.1 name.all_word c hc]
  rfl

/-- An expression that is no number and no literal. -/
theorem classifyExpr_other {s : Str} (hs : NameLed s) (hends : Ends Solid Solid s) :
    classifyExpr s = match find (· == '(') s with
      | some paren => (classifyCall s paren).map fun o => o.getD (classifyIdent s)
      | none => some (classifyIdent s) := by
  unfold classifyExpr
  simp only [hends.firm.trim]
  have hlit : ¬(2 ≤ len s ∧ s.head? = some '\'' ∧ s.getLast? = some '\'') :=
    fun h => hs.head_ne h.2.1
  refine (if_neg (by rw [hs.not_numeric]; decide)).trans ((if_neg hlit).trans ?_)
  cases find (· == '(') s <;> rfl

/-- **An expression is classified as itself.** -/
theorem classifyExpr_render (e : Expr) : classifyExpr e.render = some e.spec := by
  have hends := e.ends
  cases e with
  | column quals name =>
    have hled : NameLed (qualified quals name.text) := by
      cases quals with
      | nil => exact nameLed_ident name.ident
      | cons q quals => exact (nameLed_ident q.ident).append _
    -- a name has no bracket, so it is no call
    have hnone : find (· == '(') (qualified quals name.text) = none := by
      unfold find
      rw [if_neg]
      rw [List.any_eq_true]
      rintro ⟨d, hd, hp⟩
      obtain rfl : d = '(' := by simpa using hp
      rcases qualified_chars quals name.toIdent _ hd with h | h | h <;> exact absurd h (by decide)
    rw [Expr.render, classifyExpr_other hled hends, hnone]
    exact congrArg _ (classifyIdent_qualified quals name)
  | int neg digits ne digit =>
    -- without a dot the literal is an integer
    have hdot : (if neg then '-' :: digits else digits).contains '.' = false := by
      have hm := not_mem_of_word (digits_word digit) (c := '.') (by decide)
      cases neg <;> simp [hm]
    unfold classifyExpr
    simp only [hends.firm.trim]
    simp only [Expr.render, isNumeric_int neg ne digit, hdot, if_true, Bool.false_eq_true, if_false,
      Expr.spec]
  | literal s =>
    have h2 : 2 ≤ len (quoted s) := by
      simp only [quoted, List.cons_append, len_cons, len_append, show '\''.utf8Size = 1 from rfl]
      omega
    have hlast : (quoted s).getLast? = some '\'' := List.getLast?_concat
    -- the text between the quotes is the doubled literal
    obtain ⟨m, hm, hslice⟩ := slice_quotes h2 rfl hlast
    have hmd : double s = m := by
      have : double s ++ ['\''] = m ++ ['\''] := (List.cons.inj hm).2
      exact List.append_cancel_right this
    unfold classifyExpr
    simp only [hends.firm.trim]
    rw [if_neg (by rw [Expr.render, quoted, List.cons_append, isNumeric_of_head (by decide)]; decide),
      if_pos ⟨h2, rfl, hlast⟩]
    simp only [Expr.render, hslice, Option.map_some, ← hmd, undouble_double, Expr.spec]
  | call f args hargs =>
    -- the first bracket stands right after the function name
    have hparen := not_mem_of_word f.all_word (c := '(') (by decide)
    have hfind : find (· == '(') (f.text ++ group args) = some (len f.text) := by
      unfold find
      rw [if_pos (by simp [group])]
      have htake : (f.text ++ group args).takeWhile (fun c => !(c == '(')) = f.text := by
        rw [List.takeWhile_append_of_pos]
        · simp [group]
        · intro d hd
          have : d ≠ '(' := by rintro rfl; exact hparen hd
          simp [this]
      rw [htake]
    have hdot : '.' ∉ lower f.text :=
      not_mem_of_word (by rw [all_isWordChar_lower]; exact f.all_word) (by decide)
    rw [Expr.render, classifyExpr_other ((nameLed_ident f.ident).append _) hends, hfind]
    unfold classifyCall
    simp only [sliceTo_append, Option.bind_eq_bind, Option.bind_some,
      (ends_word f.ne_nil f.all_word).firm.trim, rsplitNext_self hdot, f.plain]
    rw [if_pos ⟨by simpa using f.ne_nil, by rw [all_isWordChar_lower]; exact f.all_word⟩]
    rfl

/-! ## Casts -/

theorem quiet_cast (e : Expr) (c : Option SqlType) : Quiet (renderCast e c) := by
  cases c with
  | none => exact e.quiet
  | some t =>
    have h := quiet_nil.sep t.quiet (c := ':') (by decide) (by decide)
    exact e.quiet.sep h (by decide) (by decide)

theorem ends_cast (e : Expr) (c : Option SqlType) : Ends Solid Solid (renderCast e c) := by
  cases c with
  | none => exact e.ends
  | some t =>
    have := e.ends.append (ends_word t.spec.1 t.spec.2.1) [':', ':']
    simpa [renderCast] using this

/-- **The last cast is cut off**, whatever stands before it outside quotes and brackets. -/
theorem peelCast_cast {a : Str} (ha : Scan.start.run a = Scan.start) (t : SqlType) :
    peelCast (a ++ ':' :: ':' :: t.text) = some (trim a, some t.wt) := by
  obtain ⟨hne, hall, -⟩ := t.spec
  obtain ⟨d, r, hdr⟩ := List.exists_cons_of_ne_nil hne
  have hcolon : ∀ {σ}, Hides (· ≠ ':') σ t.text := hides_word hall fun c hc hcol => by
    rw [hcol] at hc; exact absurd hc (by decide)
  have hd : d ≠ ':' := by
    rintro rfl
    rw [hdr, List.all_cons] at hall
    exact absurd hall (by simp [show isWordChar ':' = false from rfl])
  -- the second colon starts no cast of its own
  have hlast : lastCast (Scan.start.run a) (':' :: ':' :: t.text) = some ([], t.text) := by
    have h2 : lastCast Scan.start (':' :: t.text) = none := by
      rw [lastCast, show Scan.start.step ':' = Scan.start from rfl, lastCast_hides hcolon]
      simp [hdr, hd]
    rw [ha, lastCast, show Scan.start.step ':' = Scan.start from rfl, h2]
    rfl
  have htake : (trim t.text).takeWhile isWordChar = t.text := by
    rw [(ends_word hne hall).firm.trim, List.takeWhile_eq_self_iff]
    exact List.all_eq_true.1 hall
  rw [peelCast_eq (lastCast_append hlast), htake, t.known, List.append_nil]

/-- **The cast is cut off.** -/
theorem peelCast_render (e : Expr) (c : Option SqlType) :
    peelCast (renderCast e c) = some (e.render, c.map SqlType.wt) := by
  cases c with
  | none =>
    refine peelCast_none (lastCast_hides (e.hides.mono ?_))
    rintro d hd rfl
    rcases hd with h | h | h <;> exact absurd h (by decide)
  | some t =>
    rw [renderCast, peelCast_cast e.quiet.closed, e.ends.firm.trim]
    rfl

/-! ## Aliases -/

/-- **A keyword between two parts.** -/
theorem words_keyword (kw : Str) {i : ℕ} {a b : Str} (ha : Scan.start.run a = Scan.start)
    (hne : kw ≠ []) (hkw : kw.all isWordChar) :
    readWords (at' i .start) (a ++ ' ' :: kw ++ ' ' :: b) =
      readWords (at' i .start) a ++ ⟨lower kw, i + len a + 1, i + len a + 1 + len kw⟩ ::
        readWords (at' (i + len a + 1 + len kw + 1) .start) b := by
  have hspace : ' '.utf8Size = 1 := rfl
  have hstep : Scan.start.step ' ' = Scan.start := rfl
  rw [List.append_assoc, List.cons_append, readWords_sep (by decide)]
  simp only [at', ha, hstep, hspace]
  rw [readWords_sep (by decide)]
  have hword := readWords_word (i := i + len a + 1) Scan.not_nested_start hne hkw
  simp only [at'] at hword
  rw [hword, run_word_chars hkw, hstep, hspace]
  rfl

theorem textsOf_keyword (kw : Str) {a b : Str} (ha : Scan.start.run a = Scan.start)
    (hne : kw ≠ []) (hkw : kw.all isWordChar) :
    textsOf (a ++ ' ' :: kw ++ ' ' :: b) = textsOf a ++ lower kw :: textsOf b := by
  unfold textsOf wordsOf
  rw [words_keyword kw ha hne hkw]
  simp only [texts, List.map_append, List.map_cons]
  congr 2
  exact texts_readWords _ _ _ _

theorem find_none_of_texts {ws : List Word} {p : Str → Bool} (h : ∀ w ∈ texts ws, p w = false) :
    ws.find? (fun w => p w.text) = none := by
  rw [List.find?_eq_none]
  intro w hw
  simpa using h w.text (List.mem_map_of_mem hw)

theorem Quiet.find_none {s kw : Str} (h : Quiet s) (hkw : kw ∈ reserved) :
    (wordsOf s).find? (·.text = kw) = none := by
  refine find_none_of_texts (p := fun t => t = kw) ?_
  intro w hw
  simp only [decide_eq_false_iff_not]
  rintro rfl
  exact h.free _ hw hkw

theorem Alias.quiet (a : Alias) : Quiet a.render := by
  cases a with
  | ident a => exact a.quiet
  | quoted s free =>
    obtain ⟨h1, h2⟩ := opaque_ident Scan.open_start free
    exact quiet_hidden h1 h2

theorem Alias.ends (a : Alias) : Ends Solid Solid a.render := by
  cases a with
  | ident a => exact ends_word a.ne_nil a.all_word
  | quoted s free => exact ends_wrap '"' '"' s (by decide) (by decide)

/-- The quotes around an alias are trimmed off. -/
theorem Alias.trimMatches_render (a : Alias) : trimMatches '"' a.render = a.name := by
  cases a with
  | ident a => exact trimMatches_self (not_mem_of_word a.all_word (by decide))
  | quoted s free =>
    have hself := trimMatches_self free
    unfold trimMatches at hself ⊢
    simp only [Alias.render, dquoted, Alias.name, List.cons_append, List.dropWhile_cons, beq_self_eq_true,
      if_true]
    cases s with
    | nil => rfl
    | cons c s =>
      have hc : (c == '"') = false := by
        simp only [beq_eq_false_iff_ne]
        rintro rfl
        exact free (by simp)
      rw [List.dropWhile_cons_of_neg (by simp [hc])] at hself
      rw [List.cons_append, List.dropWhile_cons_of_neg (by simp [hc]), ← List.cons_append,
        List.rdropWhile_concat_pos _ _ _ (by simp), hself]

/-- **The alias is cut off.** -/
theorem peelAlias_render (e : Expr) (c : Option SqlType) (a : Alias) :
    peelAlias (renderCast e c ++ ' ' :: "AS".toList ++ ' ' :: a.render) =
      some (renderCast e c, some a.name) := by
  have hq := quiet_cast e c
  have hwords := words_keyword "AS".toList (i := 0) (b := a.render) hq.closed (by decide)
    (by decide)
  rw [Nat.zero_add] at hwords
  have hfind : (wordsOf (renderCast e c ++ ' ' :: "AS".toList ++ ' ' :: a.render)).find?
      (·.text = ("as" : Str)) = some ⟨lower "AS".toList, len (renderCast e c) + 1,
        len (renderCast e c) + 1 + len "AS".toList⟩ := by
    rw [wordsOf, hwords, List.find?_append,
      show (readWords (at' 0 Scan.start) (renderCast e c)).find? (·.text = ("as" : Str)) = none from
        hq.find_none (by decide)]
    rfl
  have hto : sliceTo (renderCast e c ++ ' ' :: "AS".toList ++ ' ' :: a.render)
      (len (renderCast e c) + 1) = some (renderCast e c ++ [' ']) := by
    have := sliceTo_append (renderCast e c ++ [' ']) ("AS".toList ++ ' ' :: a.render)
    simpa [show ' '.utf8Size = 1 from rfl] using this
  have hfrom : sliceFrom (renderCast e c ++ ' ' :: "AS".toList ++ ' ' :: a.render)
      (len (renderCast e c) + 1 + len "AS".toList) = some (' ' :: a.render) := by
    have := sliceFrom_append (renderCast e c ++ ' ' :: "AS".toList) (' ' :: a.render)
    rwa [len_append, len_cons, ← Nat.add_assoc] at this
  have htrim : trim (renderCast e c ++ [' ']) = renderCast e c := by
    simpa using (ends_cast e c).firm.trim_blank (a := []) (b := [' ']) (by simp)
      (List.forall_mem_singleton.2 (by decide))
  have htrim' : trim (' ' :: a.render) = a.render := a.ends.firm.trim
  rw [peelAlias_eq hfind hto hfrom, htrim, htrim', a.trimMatches_render]

/-! ## Items -/

theorem Item.ends (i : Item) : Ends Firm Firm i.render := by
  cases i with
  | star => exact ⟨by decide, by simp [Item.render, Firm]; decide, by simp [Item.render, Firm]; decide⟩
  | starOf q =>
    have hstar : Ends Firm Firm ".*".toList := ends_of_forall (by decide) (by simp [Firm]; decide)
    have := (ends_word q.ne_nil q.all_word).firm.append hstar []
    simpa [Item.render] using this
  | expr e c a =>
    cases a with
    | none => exact (ends_cast e c).firm
    | some a =>
      have := (ends_cast e c).firm.append a.ends.firm (' ' :: "AS".toList ++ [' '])
      simpa [Item.render] using this

/-- A text that does not end in a star is none. -/
theorem isStar_solid {s : Str} (h : Ends Solid Solid s) : isStar s = false := by
  have hlast : s.getLast? ≠ some '*' := fun hs => (h.last '*' hs).2.1 rfl
  unfold isStar
  rw [Bool.or_eq_false_iff]
  constructor
  · rw [beq_eq_false_iff_ne]
    rintro rfl
    exact hlast rfl
  · rw [Bool.eq_false_iff, Ne, List.isSuffixOf_iff_suffix]
    rintro ⟨t, rfl⟩
    exact hlast (by simp)

/-- **Only stars look like stars.** -/
theorem Item.isStar_render (i : Item) : EtherealDb.isStar i.render = i.isStar := by
  cases i with
  | star => rfl
  | starOf q =>
    simp [EtherealDb.isStar, Item.render, Item.isStar]
  | expr e c a =>
    cases a with
    | none => exact isStar_solid (ends_cast e c)
    | some a =>
      have := (ends_cast e c).append a.ends (' ' :: "AS".toList ++ [' '])
      exact isStar_solid (by simpa [Item.render] using this)

/-- **The columns of an item.** -/
theorem parseItem_render (i : Item) : parseItem i.render = some i.columns := by
  unfold parseItem
  simp only [i.ends.trim]
  rw [if_neg i.ends.ne]
  cases hs : i.isStar with
  | true =>
    rw [i.isStar_render, hs, if_pos rfl]
    cases i with
    | star => rfl
    | starOf q => rfl
    | expr e c a => simp [Item.isStar] at hs
  | false =>
    rw [i.isStar_render, hs, if_neg (by decide)]
    cases i with
    | star => simp [Item.isStar] at hs
    | starOf q => simp [Item.isStar] at hs
    | expr e c a =>
      have halias : peelAlias (Item.expr e c a).render = some (renderCast e c, a.map Alias.name) := by
        cases a with
        | none => exact peelAlias_none ((quiet_cast e c).find_none (by decide))
        | some a => exact peelAlias_render e c a
      simp only [halias, peelCast_render, classifyExpr_render, Option.bind_eq_bind,
        Option.bind_some, Item.columns]
      cases c <;> rfl

/-- An item leaves the scan at the start. -/
theorem Item.closed (i : Item) : Scan.start.run i.render = Scan.start := by
  cases i with
  | star => rfl
  | starOf q => rw [Item.render, Scan.run_append, q.quiet.closed]; rfl
  | expr e c a =>
    cases a with
    | none => exact (quiet_cast e c).closed
    | some a =>
      rw [Item.render, Scan.run_append, Scan.run_append, (quiet_cast e c).closed, Scan.run_cons]
      exact a.quiet.closed

/-- **No word of an item ends the select list.** -/
theorem Item.words (i : Item) : ∀ w ∈ textsOf i.render, w ∉ listEnd := by
  have hquiet : ∀ {s}, Quiet s → ∀ w ∈ textsOf s, w ∉ listEnd := by
    intro s hs w hw hmem
    exact hs.free w hw (by simp [reserved, hmem])
  have hdot : Quiet "*".toList := by
    refine ⟨rfl, ?_⟩
    rw [show textsOf "*".toList = [] from rfl]
    simp
  cases i with
  | star => exact hquiet hdot
  | starOf q =>
    exact hquiet (q.quiet.sep hdot (c := '.') (by decide) (by decide))
  | expr e c a =>
    cases a with
    | none => exact hquiet (quiet_cast e c)
    | some a =>
      intro w hw
      rw [Item.render, textsOf_keyword _ (quiet_cast e c).closed (by decide) (by decide)] at hw
      rcases List.mem_append.1 hw with hw | hw
      · exact hquiet (quiet_cast e c) w hw
      · rcases List.mem_cons.1 hw with rfl | hw
        · decide
        · exact hquiet a.quiet w hw

/-- **No comma of an item is seen.** -/
theorem Item.hides (i : Item) : Hides (· ≠ ',') Scan.start i.render := by
  have hword : ∀ {s : Str} {σ}, s.all isWordChar → Hides (· ≠ ',') σ s := fun h =>
    hides_word h fun c hc hcom => by rw [hcom] at hc; exact absurd hc (by decide)
  have hexpr : ∀ e : Expr, Hides (· ≠ ',') Scan.start e.render := fun e => e.hides.mono (by
    rintro d hd rfl
    rcases hd with h | h | h <;> exact absurd h (by decide))
  have hcast : ∀ e c, Hides (· ≠ ',') Scan.start (renderCast e c) := by
    intro e c
    cases c with
    | none => exact hexpr e
    | some t =>
      rw [renderCast, hides_append, e.quiet.closed]
      exact ⟨hexpr e, Or.inr (Or.inr (by decide)), Or.inr (Or.inr (by decide)), hword t.spec.2.1⟩
  cases i with
  | star => exact ⟨Or.inr (Or.inr (by decide)), trivial⟩
  | starOf q =>
    rw [Item.render, hides_append, q.quiet.closed]
    exact ⟨hword q.all_word, hides_of_forall (by simp)⟩
  | expr e c a =>
    cases a with
    | none => exact hcast e c
    | some a =>
      have ha : Hides (· ≠ ',') Scan.start a.render := by
        cases a with
        | ident a => exact hword a.all_word
        | quoted s free => exact (opaque_ident Scan.open_start free).1.hides
      rw [Item.render, hides_append, hides_append, Scan.run_append, (quiet_cast e c).closed]
      exact ⟨⟨hcast e c, hides_of_forall (by simp)⟩, Or.inr (Or.inr (by decide)), ha⟩

end EtherealDb
