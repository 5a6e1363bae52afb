import EtherealDb.Proof.Items
import EtherealDb.Proof.Opacity

/-!
# Extraction recovers the shape of a query

* `pieces_joinItems`: a select list is split into its items.
* `selectShape_render`: the quantifier is skipped and every item read.
* `token_target`: the token after `FROM` is the table with its schema.
* `Tail.limit`, `Tail.where'`: what the words after the table say.
* `extract_render`: **`extract` gives back the shape of every rendered query.**
-/

namespace EtherealDb

open Str Reading

/-! ## The select list -/

/-- A text that starts with an identifier, or with no letter. -/
def Led (s : Str) : Prop :=
  (∃ (x : Ident) (y : Str), s = x.text ++ y ∧ Breaks Scan.start y) ∨
    ∃ c r, s = c :: r ∧ c.isAlpha = false

theorem Led.append {s y : Str} (h : Led s) (hy : Breaks Scan.start y) : Led (s ++ y) := by
  rcases h with ⟨x, z, rfl, hz⟩ | ⟨c, r, rfl, hc⟩
  · refine Or.inl ⟨x, z ++ y, by simp, ?_⟩
    cases z with
    | nil => exact hy
    | cons d z => exact fun e he => hz e (by simpa using he)
  · exact Or.inr ⟨c, r ++ y, rfl, hc⟩

theorem Ident.led (x : Ident) {y : Str} (hy : Breaks Scan.start y) : Led (x.text ++ y) :=
  Or.inl ⟨x, y, rfl, hy⟩

theorem Expr.led (e : Expr) : Led e.render := by
  cases e with
  | column quals name =>
    cases quals with
    | nil => simpa [Expr.render, qualified] using name.led (breaks_nil _)
    | cons q quals => exact q.led (breaks_cons (by decide) _)
  | int neg digits ne digit =>
    obtain ⟨c, r, rfl⟩ := List.exists_cons_of_ne_nil ne
    cases neg with
    | true => exact Or.inr ⟨'-', _, rfl, by decide⟩
    | false =>
      refine Or.inr ⟨c, r, rfl, ?_⟩
      rw [List.all_cons, Bool.and_eq_true] at digit
      have hd := digit.1
      rw [isDigit_iff] at hd
      rw [Bool.eq_false_iff, Ne, isAlpha_iff]
      omega
  | literal s => exact Or.inr ⟨'\'', _, rfl, by decide⟩
  | call f args hargs => exact f.led (breaks_cons (by decide) _)

theorem Item.led (i : Item) : Led i.render := by
  have hcast : ∀ e c, Led (renderCast e c) := by
    intro e c
    cases c with
    | none => exact e.led
    | some t => exact e.led.append (breaks_cons (by decide) _)
  cases i with
  | star => exact Or.inr ⟨'*', [], rfl, by decide⟩
  | starOf q => exact q.led (breaks_cons (by decide) _)
  | expr e c a =>
    cases a with
    | none => exact hcast e c
    | some a =>
      rw [Item.render, List.append_assoc]
      exact (hcast e c).append (breaks_cons (by decide) _)

/-- **A text that stands as an item in a list**: the scanners pass over it, and it shows no
comma and no word that ends the list. -/
structure Listed (s : Str) : Prop where
  ends : Ends Firm Firm s
  closed : Scan.start.run s = Scan.start
  words : ∀ w ∈ textsOf s, w ∉ listEnd
  hides : Hides (· ≠ ',') Scan.start s

theorem Item.listed (i : Item) : Listed i.render := ⟨i.ends, i.closed, i.words, i.hides⟩

/-- Texts, separated by commas. -/
def joinItems : List Str → Str
  | [] => []
  | [i] => i
  | i :: j :: l => i ++ ',' :: ' ' :: joinItems (j :: l)

theorem joinItems_cons (i j : Str) (l : List Str) :
    joinItems (i :: j :: l) = i ++ ',' :: ' ' :: joinItems (j :: l) := rfl

theorem renderItems_cons (i j : Item) (l : List Item) :
    renderItems (i :: j :: l) = i.render ++ ',' :: ' ' :: renderItems (j :: l) := rfl

theorem renderItems_eq (l : List Item) : renderItems l = joinItems (l.map Item.render) := by
  induction l with
  | nil => rfl
  | cons i l ih =>
    cases l with
    | nil => rfl
    | cons j l =>
      rw [renderItems_cons, ih]
      rfl

/-- What is said of every item and kept by `", "` holds of a select list. -/
theorem joinItems_ends {p : Char → Prop} {i : Str} {l : List Str}
    (h : ∀ s ∈ i :: l, Ends p p s) : Ends p p (joinItems (i :: l)) := by
  induction l generalizing i with
  | nil => exact h i (by simp)
  | cons j l ih =>
    have := (h i (by simp)).append (ih fun s hs => h s (List.mem_cons_of_mem i hs)) [',', ' ']
    simpa [joinItems_cons] using this

theorem run_sep₂ {a b : Str} (ha : Scan.start.run a = Scan.start) :
    Scan.start.run (a ++ ',' :: ' ' :: b) = Scan.start.run b := by
  rw [run_sep ha rfl]; rfl

/-- A blank in front of the first piece is trimmed. -/
theorem keep_glue_blank {ps : List Str} (h : ps ≠ []) : keep (glue [' '] ps) = keep ps := by
  cases ps with
  | nil => exact absurd rfl h
  | cons p ps => rfl

theorem keep_cons {p : Str} (h : Ends Firm Firm p) (ps : List Str) : keep (p :: ps) = p :: keep ps := by
  simp [keep, h.trim, h.ne]

theorem pieces_blank (s : Str) :
    keep (pieces ',' .start (' ' :: s)) = keep (pieces ',' .start s) := by
  have hhide : Hides (· ≠ ',') Scan.start [' '] := hides_of_forall (by simp)
  have := pieces_hides (b := s) hhide
  rw [List.singleton_append] at this
  rw [this]
  exact keep_glue_blank (pieces_ne_nil _ _ _)

section Listed

variable {i : Str} {l : List Str} (h : ∀ s ∈ i :: l, Listed s)

include h

theorem joinItems_closed : Scan.start.run (joinItems (i :: l)) = Scan.start := by
  induction l generalizing i with
  | nil => exact (h i (by simp)).closed
  | cons j l ih =>
    rw [joinItems_cons, run_sep₂ (h i (by simp)).closed]
    exact ih fun s hs => h s (List.mem_cons_of_mem i hs)

theorem joinItems_words : ∀ w ∈ textsOf (joinItems (i :: l)), w ∉ listEnd := by
  induction l generalizing i with
  | nil => exact (h i (by simp)).words
  | cons j l ih =>
    intro w hw
    rw [joinItems_cons, textsOf_sep (h i (by simp)).closed (by decide) rfl,
      ← List.nil_append (' ' :: _), textsOf_sep rfl (by decide) rfl] at hw
    rcases List.mem_append.1 hw with hw | hw
    · exact (h i (by simp)).words w hw
    · rcases List.mem_append.1 hw with hw | hw
      · rw [show textsOf [] = [] from rfl] at hw; exact absurd hw (by simp)
      · exact ih (fun s hs => h s (List.mem_cons_of_mem i hs)) w hw

/-- **The list is split into its items.** -/
theorem pieces_joinItems : keep (pieces ',' .start (joinItems (i :: l))) = i :: l := by
  have hcut : Cuts ',' Scan.start ',' := by decide
  induction l generalizing i with
  | nil =>
    rw [joinItems, pieces_self (h i (by simp)).hides, keep_cons (h i (by simp)).ends]
    rfl
  | cons j l ih =>
    rw [joinItems_cons, pieces_hides (h i (by simp)).hides, (h i (by simp)).closed,
      pieces_cut hcut, glue, List.append_nil, keep_cons (h i (by simp)).ends, pieces_blank,
      ih fun s hs => h s (List.mem_cons_of_mem i hs)]

end Listed

theorem joinItems_led {i : Str} (h : Led i) (l : List Str) : Led (joinItems (i :: l)) := by
  cases l with
  | nil => exact h
  | cons j l => exact h.append (breaks_cons (by decide) _)

/-- The items of a query stand as items in its list. -/
theorem listed_items (i : Item) (l : List Item) : ∀ s ∈ i.render :: l.map Item.render, Listed s := by
  intro s hs
  rw [← List.map_cons] at hs
  obtain ⟨j, -, rfl⟩ := List.mem_map.1 hs
  exact j.listed

theorem renderItems_ends (i : Item) (l : List Item) : Ends Firm Firm (renderItems (i :: l)) := by
  rw [renderItems_eq]
  exact joinItems_ends fun s hs => (listed_items i l s hs).ends

theorem renderItems_closed (i : Item) (l : List Item) :
    Scan.start.run (renderItems (i :: l)) = Scan.start := by
  rw [renderItems_eq]
  exact joinItems_closed (listed_items i l)

theorem renderItems_words (i : Item) (l : List Item) :
    ∀ w ∈ textsOf (renderItems (i :: l)), w ∉ listEnd := by
  rw [renderItems_eq]
  exact joinItems_words (listed_items i l)

theorem pieces_renderItems (i : Item) (l : List Item) :
    keep (pieces ',' .start (renderItems (i :: l))) = (i :: l).map Item.render := by
  rw [renderItems_eq]
  exact pieces_joinItems (listed_items i l)

theorem renderItems_led (i : Item) (l : List Item) : Led (renderItems (i :: l)) := by
  rw [renderItems_eq]
  exact joinItems_led i.led _

theorem parseItems_render (l : List Item) :
    (l.map Item.render).mapM parseItem = some (l.map Item.columns) :=
  mapM_map_some fun i _ => parseItem_render i

theorem any_isStar_render (l : List Item) :
    (l.map Item.render).any (fun item => isStar (trim item)) = l.any Item.isStar := by
  induction l with
  | nil => rfl
  | cons i l ih => rw [List.map_cons, List.any_cons, List.any_cons, ih, i.ends.trim, i.isStar_render]

/-! ## The quantifier -/

/-- **A list that does not begin with the keyword keeps its text.** -/
theorem skipKeyword_led {s kw : Str} (hs : Led s) (hkw : kw = "distinct" ∨ kw = "all") :
    skipKeyword kw s = some s := by
  have hword : kw.all isWordChar := by rcases hkw with rfl | rfl <;> decide
  have hres : kw ∈ reserved := by rcases hkw with rfl | rfl <;> decide
  by_cases hpre : kw.isPrefixOf (lower s)
  · obtain ⟨a, b, hab, ha, -⟩ := lower_isPrefix hpre
    have haw : a.all isWordChar := by rw [← all_isWordChar_lower, ha]; exact hword
    rw [hab, skipKeyword_eq ha]
    suffices hb : b.head?.any isWhitespace = false by rw [hb]; rfl
    rcases hs with ⟨x, y, hxy, hy⟩ | ⟨c, r, hc, hal⟩
    · have h1 : a <+: s := ⟨b, hab.symm⟩
      have h2 : x.text <+: s := ⟨y, hxy.symm⟩
      rcases List.prefix_or_prefix_of_prefix h1 h2 with ⟨m, hm⟩ | ⟨m, hm⟩
      · -- the keyword ends inside the identifier
        cases m with
        | nil =>
          rw [List.append_nil] at hm
          exact absurd hres (by rw [← ha, hm]; exact x.free)
        | cons d m =>
          have hb : b = d :: m ++ y := by
            rw [hab, ← hm, List.append_assoc] at hxy
            exact List.append_cancel_left hxy
          have hd : isWordChar d = true := List.all_eq_true.1 x.all_word d (by simp [← hm])
          simp [hb, not_isWhitespace_of_isWordChar hd]
      · -- the identifier ends inside the keyword
        cases m with
        | nil =>
          rw [List.append_nil] at hm
          exact absurd hres (by rw [← ha, ← hm]; exact x.free)
        | cons d m =>
          have hyd : y = d :: m ++ b := by
            rw [hab, ← hm, List.append_assoc] at hxy
            exact (List.append_cancel_left hxy).symm
          have hd : isWordChar d = true := List.all_eq_true.1 haw d (by simp [← hm])
          rcases hy d (by simp [hyd]) with h | h
          · exact absurd h Scan.not_nested_start
          · rw [hd] at h; exact absurd h (by decide)
    · -- keywords begin with a letter
      exfalso
      cases a with
      | nil => rcases hkw with rfl | rfl <;> exact absurd ha (by decide)
      | cons d a =>
        obtain rfl : c = d := by rw [hc] at hab; exact (List.cons.inj hab).1
        rw [Bool.eq_false_iff, Ne, isAlpha_iff] at hal
        have hlow : c.toLower = c := toLower_eq_self (by omega)
        have hk : kw = c :: lower a := by rw [← ha, ← hlow]; simp [lower, hlow]
        rcases hkw with rfl | rfl
        · obtain rfl : 'd' = c := (List.cons.inj hk).1
          exact hal (by decide)
        · obtain rfl : 'a' = c := (List.cons.inj hk).1
          exact hal (by decide)
  · rw [skipKeyword, if_neg hpre]

/-- **A keyword in front of a list is skipped.** -/
theorem skipKeyword_blank {kw a b : Str} (h : lower a = kw) (hb : Ends Firm Firm b) :
    skipKeyword kw (a ++ ' ' :: b) = some b := by
  obtain ⟨c, r, rfl⟩ := List.exists_cons_of_ne_nil hb.ne
  have hc : isWhitespace c = false := hb.first c rfl
  have hspace : isWhitespace ' ' = true := rfl
  rw [skipKeyword_eq h, List.head?_cons, Option.any_some, if_pos hspace]
  simp [trimStart, hc, hspace]

theorem items_ends (q : Query) : Ends Firm Firm (renderItems q.items) := by
  obtain ⟨i, l, hl⟩ := List.exists_cons_of_ne_nil q.items_ne
  exact hl ▸ renderItems_ends i l

theorem items_led (q : Query) : Led (renderItems q.items) := by
  obtain ⟨i, l, hl⟩ := List.exists_cons_of_ne_nil q.items_ne
  exact hl ▸ renderItems_led i l

/-- **The list after the quantifier steps.** -/
theorem skip_renderList (q : Query) :
    (skipKeyword "distinct" q.renderList).bind (skipKeyword "all") =
      some (renderItems q.items) := by
  unfold Query.renderList
  cases q.quantifier with
  | none =>
    simp only [skipKeyword_led (items_led q) (Or.inl rfl), Option.bind_some,
      skipKeyword_led (items_led q) (Or.inr rfl)]
  | some k =>
    cases k with
    | distinct =>
      have h : skipKeyword "distinct" (Quantifier.distinct.render ++ ' ' :: renderItems q.items) =
          some (renderItems q.items) := skipKeyword_blank (by decide) (items_ends q)
      simp only [h, Option.bind_some, skipKeyword_led (items_led q) (Or.inr rfl)]
    | all =>
      have h : skipKeyword "all" (Quantifier.all.render ++ ' ' :: renderItems q.items) =
          some (renderItems q.items) := skipKeyword_blank (by decide) (items_ends q)
      have hno : skipKeyword "distinct" (Quantifier.all.render ++ ' ' :: renderItems q.items) =
          some (Quantifier.all.render ++ ' ' :: renderItems q.items) :=
        if_neg Bool.false_ne_true
      simp only [hno, Option.bind_some, h]

theorem renderList_ends (q : Query) : Ends Firm Firm q.renderList := by
  have h := items_ends q
  have hk : ∀ k : Quantifier, Ends Firm Firm k.render := by
    intro k
    exact (ends_word (by cases k <;> decide) (by cases k <;> decide)).firm
  unfold Query.renderList
  cases q.quantifier with
  | none => exact h
  | some k => simpa using (hk k).append h [' ']

theorem renderList_closed (q : Query) : Scan.start.run q.renderList = Scan.start := by
  obtain ⟨i, l, hl⟩ := List.exists_cons_of_ne_nil q.items_ne
  have h : Scan.start.run (renderItems q.items) = Scan.start := hl ▸ renderItems_closed i l
  unfold Query.renderList
  cases q.quantifier with
  | none => exact h
  | some k => rw [run_sep (by cases k <;> rfl) rfl]; exact h

theorem renderList_words (q : Query) : ∀ w ∈ textsOf q.renderList, w ∉ listEnd := by
  obtain ⟨i, l, hl⟩ := List.exists_cons_of_ne_nil q.items_ne
  have h : ∀ w ∈ textsOf (renderItems q.items), w ∉ listEnd := hl ▸ renderItems_words i l
  have hk : ∀ k : Quantifier, ∀ w ∈ textsOf k.render, w ∉ listEnd := by
    intro k; cases k <;> decide
  unfold Query.renderList
  cases q.quantifier with
  | none => exact h
  | some k =>
    intro w hw
    rw [textsOf_sep (by cases k <;> rfl) (by decide) rfl] at hw
    rcases List.mem_append.1 hw with hw | hw
    · exact hk k w hw
    · exact h w hw

/-- **The select list gives the columns.** -/
theorem selectShape_render (q : Query) (raw : Option Str) (ts : List Str) :
    selectShape (' ' :: q.renderList ++ [' ']) raw ts = some {
      kind := .select
      columns := q.items.flatMap Item.columns
      tableHint := raw.bind tableOf
      limit := limitOf ts
      selectStar := q.items.any Item.isStar
      hasWhere := ts.any (· = ("where" : Str))
      forceEmpty := raw.any isSystemCatalog } := by
  obtain ⟨i, l, hl⟩ := List.exists_cons_of_ne_nil q.items_ne
  have hblank : ∀ c ∈ [' '], isWhitespace c = true := List.forall_mem_singleton.2 (by decide)
  have htrim : trim (' ' :: q.renderList ++ [' ']) = q.renderList :=
    (renderList_ends q).trim_blank hblank hblank
  have hpieces : keep (pieces ',' .start (renderItems q.items)) = q.items.map Item.render := by
    rw [hl]; exact pieces_renderItems i l
  have hskip := skip_renderList q
  unfold selectShape
  rw [htrim]
  simp only [Option.bind_eq_bind, ← Option.bind_assoc, hskip]
  simp only [Option.bind_some, hpieces, parseItems_render, any_isStar_render, List.flatMap]
  rfl

/-! ## The table -/

theorem Query.target_eq (q : Query) :
    q.target = qualified q.schema.toList q.table.text := by
  unfold Query.target
  cases q.schema <;> rfl

theorem target_quiet (q : Query) : Quiet q.target := by
  rw [q.target_eq]; exact quiet_qualified _ _

theorem target_chars (q : Query) : ∀ c ∈ q.target, isDelimiter c = false := by
  intro c hc
  rw [q.target_eq] at hc
  have hd : ∀ c, ExprChar c → isDelimiter c = false := by
    rintro c (h | rfl | rfl)
    · have hne : c ≠ ',' ∧ c ≠ ';' ∧ c ≠ '(' ∧ c ≠ ')' := by
        refine ⟨?_, ?_, ?_, ?_⟩ <;> (rintro rfl; exact absurd h (by decide))
      simp [isDelimiter, not_isWhitespace_of_isWordChar h, hne]
    · decide
    · decide
  exact hd c (qualified_chars _ _ c hc)

theorem target_ends (q : Query) : Ends Solid Solid q.target := by
  unfold Query.target
  cases q.schema with
  | none => exact ends_word q.table.ne_nil q.table.all_word
  | some s =>
    have := (ends_word s.ne_nil s.all_word).append (ends_word q.table.ne_nil q.table.all_word) ['.']
    simpa using this

/-- **The token after `FROM`** is the table with its schema. -/
theorem token_target (q : Query) {t : Str} (ht : ∀ c ∈ t.head?, c = ' ') :
    token (' ' :: (q.target ++ t)) = some q.target := by
  obtain ⟨c, r, hc⟩ := List.exists_cons_of_ne_nil (target_ends q).ne
  have hf : isWhitespace c = false := ((target_ends q).first c (by simp [hc])).1
  have hstart : trimStart (' ' :: (q.target ++ t)) = q.target ++ t := by
    rw [hc]
    simp [trimStart, hf, show isWhitespace ' ' = true from rfl]
  have htake : (q.target ++ t).takeWhile (fun c => !isDelimiter c) = q.target := by
    rw [List.takeWhile_append_of_pos (fun c hc => by simp [target_chars q c hc])]
    cases t with
    | nil => simp
    | cons d t =>
      obtain rfl : d = ' ' := ht d rfl
      simp [show isDelimiter ' ' = true from rfl]
  unfold token
  rw [hstart, htake, (target_ends q).firm.trim, if_neg (target_ends q).ne]

theorem tableOf_target (q : Query) : tableOf q.target = some (lower q.table.text) := by
  unfold tableOf
  rw [q.target_eq, rsplitNext_qualified _ (not_mem_of_word q.table.all_word (by decide)),
    trimMatches_self (not_mem_of_word q.table.all_word (by decide)), if_neg q.table.ne_nil]

theorem splitNext_self {c : Char} {s : Str} (h : c ∉ s) : splitNext c s = s := by
  unfold splitNext
  rw [List.takeWhile_eq_self_iff]
  intro d hd
  simp only [bne_iff_ne, ne_eq]
  rintro rfl
  exact h hd

theorem splitNext_append {c : Char} {a b : Str} (h : c ∉ a) : splitNext c (a ++ c :: b) = a := by
  have hall := List.takeWhile_eq_self_iff.1 (splitNext_self h)
  unfold splitNext
  rw [List.takeWhile_append_of_pos hall]
  simp

theorem isSystemCatalog_target (q : Query) : isSystemCatalog q.target = q.readsCatalog := by
  have hlow : ∀ x : Ident, ∀ d, isWordChar d = false → d ∉ lower x.text := fun x d hd =>
    not_mem_of_word (by rw [all_isWordChar_lower]; exact x.all_word) hd
  unfold isSystemCatalog Query.readsCatalog Query.target
  cases q.schema with
  | none =>
    simp only [trimMatches_self (hlow q.table '"' (by decide)),
      splitNext_self (hlow q.table '.' (by decide)), rsplitNext_self (hlow q.table '.' (by decide)),
      Option.getD_none]
  | some s =>
    have heq : lower (s.text ++ '.' :: q.table.text) = lower s.text ++ '.' :: lower q.table.text := by
      rw [lower_append]; rfl
    have hq : '"' ∉ lower s.text ++ '.' :: lower q.table.text := by
      simp [hlow s '"' (by decide), hlow q.table '"' (by decide)]
    simp only [heq, trimMatches_self hq, splitNext_append (hlow s '.' (by decide)),
      rsplitNext_append (hlow q.table '.' (by decide)), Option.getD_some]

/-! ## What follows the table -/

theorem limitOf_append {a b : List Str} (h : ("limit" : Str) ∉ a) :
    limitOf (a ++ b) = limitOf b := by
  unfold limitOf
  rw [List.dropWhile_append_of_pos]
  intro w hw
  simp only [ne_eq, decide_eq_true_eq]
  rintro rfl
  exact h hw

theorem limitOf_none {ts : List Str} (h : ("limit" : Str) ∉ ts) : limitOf ts = none := by
  have := limitOf_append (b := []) h
  rw [List.append_nil] at this
  rw [this]
  rfl

theorem limitOf_limit {n : ℕ} (h : n < 2 ^ 64) : limitOf [("limit" : Str), decimal n] = some n := by
  rw [← parseUnsigned_decimal h]
  rfl

theorem lower_decimal (n : ℕ) : lower (decimal n) = decimal n := by
  unfold lower
  conv_rhs => rw [← List.map_id (decimal n)]
  refine List.map_congr_left ?_
  intro c hc
  have hd := (isDigit_iff c).1 (isDigit_of_mem_decimal hc)
  exact toLower_eq_self (by omega)

/-- Trimming the end of a text cuts off blanks and semicolons. -/
theorem bareEnd_append (s : Str) :
    ∃ d, s = bareEnd s ++ d ∧ ∀ c ∈ d, isWhitespace c = true ∨ c = ';' := by
  have hcut : ∀ (p : Char → Bool) (s : Str), ∃ d, s = s.rdropWhile p ++ d ∧ ∀ c ∈ d, p c = true := by
    intro p s
    refine ⟨s.rtakeWhile p, ?_, fun c hc => List.mem_rtakeWhile_imp hc⟩
    exact (List.rdropWhile_append_rtakeWhile).symm
  obtain ⟨d1, h1, hd1⟩ := hcut isWhitespace s
  obtain ⟨d2, h2, hd2⟩ := hcut (· == ';') (trimEnd s)
  obtain ⟨d3, h3, hd3⟩ := hcut isWhitespace (trimEndMatches ';' (trimEnd s))
  refine ⟨d3 ++ d2 ++ d1, ?_, ?_⟩
  · calc s = trimEnd s ++ d1 := h1
      _ = trimEndMatches ';' (trimEnd s) ++ d2 ++ d1 := congrArg (· ++ d1) h2
      _ = bareEnd s ++ d3 ++ d2 ++ d1 := congrArg (· ++ d2 ++ d1) h3
      _ = bareEnd s ++ (d3 ++ d2 ++ d1) := by simp
  · intro c hc
    rcases List.mem_append.1 hc with hc | hc
    · rcases List.mem_append.1 hc with hc | hc
      · exact Or.inl (hd3 c hc)
      · exact Or.inr (by simpa using hd2 c hc)
    · exact Or.inl (hd1 c hc)

/-- **Trimming the end of a text adds no word.** -/
theorem textsOf_bareEnd (s : Str) : ∀ w ∈ textsOf (bareEnd s), w ∈ textsOf s := by
  obtain ⟨d, hd, hall⟩ := bareEnd_append s
  intro w hw
  have hb : Breaks (Scan.start.run (bareEnd s)) d := by
    intro c hc
    rcases hall c (List.mem_of_mem_head? hc) with h | rfl
    · refine Or.inr ?_
      rw [Bool.eq_false_iff]
      intro hwc
      rw [not_isWhitespace_of_isWordChar hwc] at h
      exact absurd h (by decide)
    · exact Or.inr (by decide)
  have hsplit : wordsOf s = wordsOf (bareEnd s) ++
      readWords (at' (0 + len (bareEnd s)) (Scan.start.run (bareEnd s))) d := by
    conv_lhs => rw [hd]
    exact readWords_append hb
  unfold textsOf at hw ⊢
  rw [hsplit, texts, List.map_append]
  exact List.mem_append_left _ hw

/-- What the words after the table of a query say. -/
structure Tail (q : Query) (t : Str) : Prop where
  blank : ∀ c ∈ t.head?, c = ' '
  limit : limitOf (textsOf t) = q.limit
  where' : (textsOf t).any (· = ("where" : Str)) = q.cond.isSome

theorem Cond.no_limit (c : Cond) : ("limit" : Str) ∉ textsOf c.text := by
  intro h
  obtain ⟨w, hw, ht⟩ := List.mem_map.1 h
  exact c.noLimit _ (scanWords_eq c.text) w hw ht

/-- The text of `WHERE`. -/
def renderCond : Option Cond → Str
  | none => []
  | some c => ' ' :: "WHERE".toList ++ ' ' :: c.text

theorem renderCond_texts (c : Option Cond) :
    textsOf (renderCond c) = c.elim [] fun c => ("where" : Str) :: textsOf c.text := by
  cases c with
  | none => rfl
  | some c => exact textsOf_keyword "WHERE".toList (a := []) rfl (by decide) (by decide)

theorem renderCond_closed (c : Option Cond) : Scan.start.run (renderCond c) = Scan.start := by
  cases c with
  | none => rfl
  | some c => exact c.balanced.closed

theorem renderCond_no_limit (c : Option Cond) : ("limit" : Str) ∉ textsOf (renderCond c) := by
  rw [renderCond_texts]
  cases c with
  | none => simp
  | some c =>
    simp only [Option.elim, List.mem_cons, not_or]
    exact ⟨by decide, c.no_limit⟩

theorem render_ofItems (items : List Item) (items_ne : items ≠ []) :
    (Query.ofItems items items_ne).render =
      "SELECT ".toList ++ (renderItems items ++ " FROM t".toList) := by
  have hlist : (Query.ofItems items items_ne).renderList = renderItems items := rfl
  have htarget : (Query.ofItems items items_ne).target = "t".toList := rfl
  have htail : (Query.ofItems items items_ne).renderTail = [] := rfl
  unfold Query.render
  rw [hlist, htarget, htail, List.append_nil]
  simp

theorem renderTail_eq (q : Query) : q.renderTail = renderCond q.cond ++ q.limit.elim []
    fun n => ' ' :: "LIMIT".toList ++ ' ' :: decimal n := by
  unfold Query.renderTail renderCond
  cases q.cond <;> cases q.limit <;> rfl

/-- A limit's last digit protects the whole end of the statement. -/
theorem bareEnd_limit {q : Query} {n : ℕ} (hl : q.limit = some n) : bareEnd q.renderTail =
    renderCond q.cond ++ ' ' :: "LIMIT".toList ++ ' ' :: decimal n := by
  obtain ⟨m, d, hd⟩ : ∃ m d, decimal n = m ++ [d] := by
    rcases List.eq_nil_or_concat (decimal n) with h | ⟨m, d, h⟩
    · exact absurd h (decimal_ne_nil n)
    · exact ⟨m, d, by simpa using h⟩
  have hdigit : d.isDigit := isDigit_of_mem_decimal (n := n) (by simp [hd])
  have hsolid : Solid d := solid_word (digit_word hdigit)
  have heq : q.renderTail =
      (renderCond q.cond ++ ' ' :: "LIMIT".toList ++ ' ' :: m) ++ [d] ++ [] := by
    rw [renderTail_eq, hl]
    simp [hd]
  unfold bareEnd trimEnd trimEndMatches
  rw [heq, rdropWhile_append hsolid.1, List.rdropWhile_nil,
    rdropWhile_append (by simpa using hsolid.2.2), List.rdropWhile_nil,
    rdropWhile_append hsolid.1, List.rdropWhile_nil, hd]
  simp

/-- Trimming stops at `WHERE`. -/
theorem bareEnd_where (c : Cond) :
    bareEnd (renderCond (some c)) = ' ' :: "WHERE".toList ++ bareEnd (' ' :: c.text) := by
  have heq : renderCond (some c) = ' ' :: "WHER".toList ++ ['E'] ++ (' ' :: c.text) := rfl
  unfold bareEnd trimEnd trimEndMatches
  rw [heq, rdropWhile_append (by decide), rdropWhile_append (by decide),
    rdropWhile_append (by decide)]
  rfl

theorem textsOf_bareEnd_where (c : Cond) : textsOf (bareEnd (renderCond (some c))) =
    ("where" : Str) :: textsOf (bareEnd (' ' :: c.text)) := by
  obtain ⟨d, hd, -⟩ := bareEnd_append (' ' :: c.text)
  have hbreaks : Breaks Scan.start (bareEnd (' ' :: c.text)) := by
    cases hz : bareEnd (' ' :: c.text) with
    | nil => exact breaks_nil _
    | cons e z =>
      rw [hz] at hd
      obtain rfl : ' ' = e := (List.cons.inj hd).1
      exact breaks_cons (by decide) z
  rw [bareEnd_where, textsOf_append rfl hbreaks]
  rfl

theorem Cond.no_limit_bareEnd (c : Cond) :
    ("limit" : Str) ∉ textsOf (bareEnd (' ' :: c.text)) := by
  intro h
  have hblank := textsOf_sep (a := []) (b := c.text) (c := ' ') rfl (by decide) rfl
  rw [List.nil_append] at hblank
  have hmem := textsOf_bareEnd _ _ h
  rw [hblank] at hmem
  rcases List.mem_append.1 hmem with hmem | hmem
  · rw [show textsOf [] = [] from rfl] at hmem
    simp at hmem
  · exact c.no_limit hmem

/-- The tail of a query with a limit. -/
theorem tail_limit {q : Query} {n : ℕ} (hl : q.limit = some n) : Tail q (bareEnd q.renderTail) := by
  have hbare := bareEnd_limit hl
  have hkey := textsOf_keyword "LIMIT".toList (b := decimal n)
    (renderCond_closed q.cond) (by decide) (by decide)
  have hdec : textsOf (decimal n) = [decimal n] := by
    rw [textsOf_word (decimal_ne_nil n) (digits_word (decimal_digits n)), lower_decimal]
  have htexts : textsOf (bareEnd q.renderTail) =
      textsOf (renderCond q.cond) ++ [("limit" : Str), decimal n] := by
    rw [hbare, hkey, hdec]
    rfl
  refine ⟨?_, ?_, ?_⟩
  · intro c hc
    rw [hbare] at hc
    cases hcond : q.cond <;> (rw [hcond] at hc; simp [renderCond] at hc; exact hc.symm)
  · rw [htexts, limitOf_append (renderCond_no_limit q.cond), limitOf_limit (q.limit_lt n hl), hl]
  · -- a number is no `where`
    have hdig : ¬decimal n = ("where" : Str) := by
      intro h
      have := decimal_cons (c := 'w') (r := "here".toList) h
      exact absurd this (by decide)
    rw [htexts, renderCond_texts]
    cases q.cond with
    | none => simpa using hdig
    | some c => simp

/-- **The words after the table**, once the end of the statement is trimmed. -/
theorem tail_render (q : Query) : Tail q (bareEnd q.renderTail) := by
  cases hl : q.limit with
  | some n => exact tail_limit hl
  | none =>
    have htail : q.renderTail = renderCond q.cond := by
      rw [renderTail_eq, hl, Option.elim_none, List.append_nil]
    rw [htail]
    cases hcond : q.cond with
    | none =>
      have hnil : bareEnd (renderCond none) = [] := by
        simp [renderCond, bareEnd, trimEnd, trimEndMatches]
      rw [hnil]
      exact ⟨by simp, by rw [hl]; rfl, by rw [hcond]; rfl⟩
    | some c =>
      refine ⟨?_, ?_, ?_⟩
      · intro e he
        rw [bareEnd_where] at he
        simp at he
        exact he.symm
      · rw [textsOf_bareEnd_where, hl]
        apply limitOf_none
        simp only [List.mem_cons, not_or]
        exact ⟨by decide, c.no_limit_bareEnd⟩
      · rw [textsOf_bareEnd_where, hcond]
        simp

/-! ## The statement -/

section Find

variable {ws rest : List Word} {sel fr : Word}

/-- The list ends at `from`. -/
theorem find_end (hfree : ∀ w ∈ texts ws, w ∉ listEnd) (hfr : fr.text = ("from" : Str)) :
    (ws ++ fr :: rest).find? (fun w => w.text ∈ listEnd) = some fr := by
  have hend : ("from" : Str) ∈ listEnd := by decide
  rw [List.find?_append, find_none_of_texts (p := fun t => t ∈ listEnd) (by simpa using hfree),
    Option.none_or, List.find?_cons_of_pos (by rw [hfr]; exact decide_eq_true hend)]

/-- It is the first `from` of the statement. -/
theorem find_from (hfree : ∀ w ∈ texts ws, w ∉ listEnd) (hsel : sel.text = ("select" : Str))
    (hfr : fr.text = ("from" : Str)) :
    (sel :: (ws ++ fr :: rest)).find? (·.text = ("from" : Str)) = some fr := by
  have hend : ("from" : Str) ∈ listEnd := by decide
  have hnone : ∀ w ∈ texts ws, (decide (w = ("from" : Str))) = false := by
    intro w hw
    simp only [decide_eq_false_iff_not]
    rintro rfl
    exact hfree _ hw hend
  rw [List.find?_cons_of_neg (by rw [hsel]; decide), List.find?_append,
    find_none_of_texts (p := fun t => t = ("from" : Str)) hnone, Option.none_or,
    List.find?_cons_of_pos (by rw [hfr]; decide)]

end Find

section Statement

variable (q : Query)

/-- The text of a query once its end is trimmed. -/
def Query.bare : Str :=
  "SELECT".toList ++ ' ' :: q.renderList ++ ' ' :: "FROM".toList ++
    ' ' :: (q.target ++ bareEnd q.renderTail)

/-- The length of a query up to the end of its select list. -/
def Query.stop : ℕ := len ("SELECT".toList ++ ' ' :: q.renderList)

theorem bareStmt_render : bareStmt q.render = q.bare := by
  obtain ⟨m, d, hd⟩ : ∃ m d, q.target = m ++ [d] := by
    rcases List.eq_nil_or_concat q.target with h | ⟨m, d, h⟩
    · exact absurd h (target_ends q).ne
    · exact ⟨m, d, by simpa using h⟩
  have hsolid : Solid d := (target_ends q).last d (by simp [hd])
  -- the last character of the table protects what stands before it
  have heq : q.render = 'S' :: ("ELECT".toList ++ ' ' :: q.renderList ++ ' ' :: "FROM".toList ++
      ' ' :: m) ++ [d] ++ q.renderTail := by
    unfold Query.render
    rw [hd]
    simp
  unfold Query.bare
  rw [heq, bareStmt_append (by decide) hsolid.1 hsolid.2.2, hd]
  simp

/-- The words of the select list. -/
def Query.listWords : List Word := readWords (at' 7 .start) q.renderList

/-- The words after `from`. -/
def Query.tailWords : List Word :=
  readWords (at' (q.stop + 6) .start) (q.target ++ bareEnd q.renderTail)

/-- **The words of a query**, at their offsets. -/
theorem wordsOf_bare : wordsOf q.bare =
    ⟨"select", 0, 6⟩ :: (q.listWords ++ ⟨"from", q.stop + 1, q.stop + 5⟩ :: q.tailWords) := by
  have hselect : wordsOf ("SELECT".toList ++ ' ' :: q.renderList) =
      ⟨"select", 0, 6⟩ :: q.listWords := by
    rw [wordsOf, readWords_sep (by decide)]
    rfl
  have hclosed : Scan.start.run ("SELECT".toList ++ ' ' :: q.renderList) = Scan.start :=
    renderList_closed q
  have hfrom := words_keyword "FROM".toList (i := 0) (b := q.target ++ bareEnd q.renderTail)
    hclosed (by decide) (by decide)
  rw [Nat.zero_add] at hfrom
  unfold Query.bare
  rw [wordsOf, hfrom, ← wordsOf, hselect]
  rfl

/-- No word of the list ends it. -/
theorem listWords_free : ∀ w ∈ texts q.listWords, w ∉ listEnd := by
  have htexts : texts q.listWords = textsOf q.renderList := texts_readWords _ _ _ _
  rw [htexts]
  exact renderList_words q

/-- The select list between its two words. -/
theorem slice_bare : slice q.bare 6 (q.stop + 1) = some (' ' :: q.renderList ++ [' ']) := by
  have hstop : q.stop + 1 = 6 + len (' ' :: q.renderList ++ [' ']) := by
    have hlen : q.stop = 6 + (1 + len q.renderList) := by unfold Query.stop; rw [len_append]; rfl
    rw [hlen, List.cons_append, len_cons, len_append]
    rfl
  have hslice := slice_append "SELECT".toList (' ' :: q.renderList ++ [' ']) ("FROM".toList ++
    ' ' :: (q.target ++ bareEnd q.renderTail))
  rw [show len "SELECT".toList = 6 from rfl] at hslice
  unfold Query.bare
  rw [hstop]
  simpa using hslice

/-- The text after `from`. -/
theorem sliceFrom_bare :
    sliceFrom q.bare (q.stop + 5) = some (' ' :: (q.target ++ bareEnd q.renderTail)) := by
  have hfrom := sliceFrom_append ("SELECT".toList ++ ' ' :: q.renderList ++ ' ' :: "FROM".toList)
    (' ' :: (q.target ++ bareEnd q.renderTail))
  rw [len_append, show len (' ' :: "FROM".toList) = 5 from rfl] at hfrom
  exact hfrom

/-- The texts of the words up to the table. -/
def Query.headTexts : List Str :=
  ("select" : Str) :: texts q.listWords ++ ("from" : Str) :: textsOf q.target

theorem texts_bare :
    texts (wordsOf q.bare) = q.headTexts ++ textsOf (bareEnd q.renderTail) := by
  have hbreaks : Breaks Scan.start (bareEnd q.renderTail) := by
    intro c hc
    rw [(tail_render q).blank c hc]
    exact Or.inr (by decide)
  have htail : texts q.tailWords = textsOf q.target ++ textsOf (bareEnd q.renderTail) := by
    rw [← textsOf_append (target_quiet q).closed hbreaks]
    exact texts_readWords _ _ _ _
  rw [wordsOf_bare, Query.headTexts]
  simp only [texts, List.map_cons, List.map_append] at htail ⊢
  rw [htail]
  simp

/-- Neither `limit` nor `where` stands before the table's end. -/
theorem headTexts_ne : ∀ w ∈ q.headTexts, w ≠ ("limit" : Str) ∧ w ≠ ("where" : Str) := by
  intro w hw
  have hend : ("limit" : Str) ∈ listEnd ∧ ("where" : Str) ∈ listEnd := by decide
  have hres : ("limit" : Str) ∈ reserved ∧ ("where" : Str) ∈ reserved := by decide
  rcases List.mem_append.1 hw with hw | hw
  · rcases List.mem_cons.1 hw with rfl | hw
    · decide
    · have hfree := listWords_free q w hw
      exact ⟨fun h => hfree (h ▸ hend.1), fun h => hfree (h ▸ hend.2)⟩
  · rcases List.mem_cons.1 hw with rfl | hw
    · decide
    · have hfree := (target_quiet q).free w hw
      exact ⟨fun h => hfree (h ▸ hres.1), fun h => hfree (h ▸ hres.2)⟩

theorem limitOf_bare : limitOf (texts (wordsOf q.bare)) = q.limit := by
  rw [texts_bare, limitOf_append (fun h => (headTexts_ne q _ h).1 rfl)]
  exact (tail_render q).limit

theorem where_bare :
    (texts (wordsOf q.bare)).any (· = ("where" : Str)) = q.cond.isSome := by
  rw [texts_bare, List.any_append, (tail_render q).where', Bool.or_eq_right_iff_imp]
  intro h
  obtain ⟨w, hw, he⟩ := List.any_eq_true.1 h
  exact absurd (of_decide_eq_true he) (headTexts_ne q w hw).2

theorem shapeOf_render : shapeOf q.render = q.shape := by
  have hwords := wordsOf_bare q
  have hlimit := limitOf_bare q
  have hwhere := where_bare q
  have hfind : (⟨"select", 0, 6⟩ :: (q.listWords ++ ⟨"from", q.stop + 1, q.stop + 5⟩ ::
      q.tailWords) : List Word).find? (·.text = ("from" : Str)) =
        some ⟨"from", q.stop + 1, q.stop + 5⟩ := find_from (listWords_free q) rfl rfl
  -- the token after `from` is the table
  have hraw := rawAfter_eq hfind (sliceFrom_bare q)
  rw [token_target q (tail_render q).blank] at hraw
  -- the list ends there
  have hlist : slice q.bare 6 ((((q.listWords ++ ⟨"from", q.stop + 1, q.stop + 5⟩ ::
      q.tailWords).find? fun w => w.text ∈ listEnd).map Word.start).getD (len q.bare)) =
        some (' ' :: q.renderList ++ [' ']) := by
    rw [find_end (listWords_free q) rfl]
    exact slice_bare q
  have hwords' := hwords
  rw [← bareStmt_render] at hwords'
  have hextract : extract q.render = some q.shape := by
    rw [extract_select hwords' (.inl rfl), bareStmt_render]
    rw [hwords] at hlimit hwhere ⊢
    rw [extractSelect_eq rfl hlist hraw, selectShape_render, hlimit, hwhere]
    simp only [Option.bind_some, tableOf_target, Option.any_some, isSystemCatalog_target]
    rfl
  exact Option.some.inj ((extract_eq q.render).symm.trans hextract)

/-- **Extraction recovers the shape of every query.** -/
theorem extract_render : extract q.render = some q.shape := by
  rw [extract_eq, shapeOf_render]

/-- A query that ends with its table is one statement. -/
theorem splitStatements_render (hcond : q.cond = none) (hlimit : q.limit = none)
    (hsemi : ';' ∉ q.render) : splitStatements q.render = some [q.render] := by
  have hends : Ends Firm Firm q.render := by
    have hselect : Ends Solid Solid "SELECT".toList := ends_word (by decide) (by decide)
    have happend := (hselect.append (target_ends q)
      (' ' :: q.renderList ++ ' ' :: "FROM".toList ++ [' '])).firm
    have htail : q.renderTail = [] := by rw [renderTail_eq, hcond, hlimit]; rfl
    unfold Query.render
    rw [htail]
    simpa using happend
  have hhides : Hides (· ≠ ';') Scan.start q.render := by
    refine hides_of_forall ?_
    rintro c hc rfl
    exact hsemi hc
  exact splitStatements_single hhides hends.trim hends.ne

end Statement

end EtherealDb
