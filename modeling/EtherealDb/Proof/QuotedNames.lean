import EtherealDb.Proof.Classify
import EtherealDb.Proof.Faint

/-!
# Quoted names

The scanners see nothing between the quotes, so a quoted item is always one column. Its name is
read behind the last dot, in the quotes or not, and dropped when it is not made of word
characters and spaces.

* `extract_list`: the columns of a select are those of its list, whatever clause follows.
* `parseItem_quoted`: a quoted item is one column.
* `extract_cut`: a qualifier that is a keyword ends the list.
* `quoted_names_iff`: **quoted items keep their names exactly when each is made of word
  characters and spaces, or is the name of a column without one.**
-/

namespace EtherealDb

open Str Reading

/-! ## A list and what follows it -/

/-- What can follow a select list: nothing, or a gap and a word that ends it. -/
inductive ListTail : Str → Prop where
  | none : ListTail []
  | clause {gap kw rest : Str} (blank : gap.all isWhitespace) (apart : gap ≠ [])
      (ends : lower kw ∈ listEnd) (breaks : ∀ c ∈ rest.head?, isWordChar c = false) :
      ListTail (gap ++ (kw ++ rest))

/-- A select of a list. -/
def selectList (list tail : Str) : Str := "select".toList ++ list ++ tail

theorem selectList_eq (l t : Str) : selectList l t = "select".toList ++ l ++ t := rfl

section List

variable {l : Str} (hends : Ends Solid Solid ("select".toList ++ l)) (hbreaks : Breaks .start l)
  (hclosed : Scan.start.run l = Scan.start) (hwords : ∀ w ∈ textsOf l, w ∉ listEnd)

include hbreaks in
theorem words_selectList :
    wordsOf ("select".toList ++ l) = ⟨"select", 0, 6⟩ :: readWords (at' 6 .start) l :=
  readWords_append (r := at' 0 .start) (a := "select".toList) hbreaks

include hwords in
theorem find_selectList :
    (readWords (at' 6 .start) l).find? (fun w => w.text ∈ listEnd) = none := by
  have htexts : texts (readWords (at' 6 .start) l) = textsOf l := texts_readWords _ _ _ _
  refine find_none_of_texts (p := fun t => t ∈ listEnd) ?_
  intro w hw
  exact decide_eq_false (hwords w (htexts ▸ hw))

/-- The word that begins the clause behind a list. -/
def clauseWord (l gap kw : Str) : Word :=
  ⟨lower kw, len ("select".toList ++ l) + len gap, len ("select".toList ++ l) + len gap + len kw⟩

include hbreaks hclosed in
/-- The words of a select with a clause. -/
theorem words_clause {gap kw rest : Str} (hgap : ∀ c ∈ gap, Faint c) (apart : gap ≠ [])
    (hne : kw ≠ []) (hword : kw.all isWordChar) (hrest : Breaks .start rest) :
    ∃ ws, wordsOf ("select".toList ++ l ++ (gap ++ (kw ++ rest))) =
      ⟨"select", 0, 6⟩ :: (readWords (at' 6 .start) l ++ clauseWord l gap kw :: ws) := by
  have hrun : Scan.start.run ("select".toList ++ l) = Scan.start := hclosed
  have hfront := words_gap (r := at' 0 .start) (a := "select".toList ++ l) hgap apart (kw ++ rest)
  rw [← wordsOf, ← wordsOf, words_selectList hbreaks] at hfront
  simp only [at', hrun, Nat.zero_add] at hfront
  have hread := readWords_append
    (r := at' (len ("select".toList ++ l) + len gap) .start) (a := kw) (b := rest)
    (by rw [at', run_word_chars hword]; exact hrest)
  rw [readWords_word Scan.not_nested_start hne hword] at hread
  simp only [at'] at hread
  rw [hfront, hread]
  exact ⟨_, rfl⟩

include hwords in
/-- **The list ends where its clause begins.** -/
theorem slice_clause (gap : Str) {kw : Str} (hend : lower kw ∈ listEnd) (rest : Str) (ws : List Word) :
    slice ("select".toList ++ l ++ (gap ++ (kw ++ rest))) 6
      ((((readWords (at' 6 .start) l ++ clauseWord l gap kw :: ws).find?
        fun w => w.text ∈ listEnd).map Word.start).getD
          (len ("select".toList ++ l ++ (gap ++ (kw ++ rest))))) = some (l ++ gap) := by
  have hfind : ((clauseWord l gap kw :: ws).find? fun w => w.text ∈ listEnd) =
      some (clauseWord l gap kw) := List.find?_cons_of_pos (decide_eq_true hend)
  have hslice := slice_append "select".toList (l ++ gap) (kw ++ rest)
  have hlen : len "select".toList = 6 := by decide
  rw [hlen] at hslice
  rw [List.find?_append, find_selectList hwords, Option.none_or, hfind, Option.map_some,
    Option.getD_some, clauseWord]
  simpa only [len_append, hlen, List.append_assoc, Nat.add_assoc] using hslice

include hends hbreaks hclosed hwords in
/-- **The columns of a select are those of its list**, whatever clause follows. -/
theorem extract_list {t : Str} (ht : ListTail t) :
    ∃ raw ts, extract (selectList l t) = selectShape l raw ts := by
  cases ht with
  | none =>
    -- the list ends with the text
    have hbare : bareStmt (selectList l []) = "select".toList ++ l := by
      rw [selectList_eq, List.append_nil, hends.bareStmt]
    have hlist : slice ("select".toList ++ l) 6 ((((readWords (at' 6 .start) l).find?
        fun w => w.text ∈ listEnd).map Word.start).getD (len ("select".toList ++ l))) =
          some l := by
      rw [find_selectList hwords]
      exact slice_append_end "select".toList l
    obtain ⟨raw, hraw⟩ := rawAfter_total ("select".toList ++ l) "from"
    rw [words_selectList hbreaks] at hraw
    have hextract := extract_select (s := selectList l [])
      (by rw [hbare]; exact words_selectList hbreaks) (.inl rfl)
    rw [hextract, hbare, words_selectList hbreaks, extractSelect_eq rfl hlist hraw]
    exact ⟨_, _, rfl⟩
  | @clause gap kw rest blank apart ends breaks =>
    have hblank := List.all_eq_true.1 blank
    obtain ⟨hne, hword⟩ : kw ≠ [] ∧ kw.all isWordChar := by
      have hlist : ∀ k ∈ listEnd, k ≠ [] ∧ k.all isWordChar := by decide
      obtain ⟨hne, hword⟩ := hlist _ ends
      exact spelled_word rfl hne hword
    have hrest : Breaks Scan.start (bareEnd rest) := by
      obtain ⟨d, hd, -⟩ := bareEnd_append rest
      intro c hc
      exact .inr (breaks c (by rw [hd]; exact List.mem_head?_append_of_mem_head? hc))
    have hbare : bareStmt (selectList l (gap ++ (kw ++ rest))) =
        "select".toList ++ l ++ (gap ++ (kw ++ bareEnd rest)) := by
      have hkeep := bareStmt_solid (hends.append (ends_word hne hword) gap) rest
      simpa only [selectList_eq, List.append_assoc] using hkeep
    obtain ⟨ws, hws⟩ := words_clause hbreaks hclosed (fun c hc => faint_blank (hblank c hc)) apart
      hne hword hrest
    obtain ⟨raw, hraw⟩ := rawAfter_total
      ("select".toList ++ l ++ (gap ++ (kw ++ bareEnd rest))) "from"
    rw [hws] at hraw
    have hextract := extract_select (s := selectList l (gap ++ (kw ++ rest)))
      (by rw [hbare]; exact hws) (.inl rfl)
    have hlist := slice_clause hwords gap ends (bareEnd rest) ws
    have htrim : trim (l ++ gap) = trim l := trim_blanks (a := []) l (by simp) hblank
    rw [hextract, hbare, hws, extractSelect_eq rfl hlist hraw, selectShape_congr htrim]
    exact ⟨_, _, rfl⟩

end List

/-! ## Quoted items -/

/-- A word of any kind, a keyword or not. -/
structure AnyWord where
  text : Str
  ne : text ≠ []
  word : text.all isWordChar

/-- **A double-quoted item**, alone or behind a qualifier. -/
structure QuotedItem where
  qual : Option AnyWord
  text : Str
  ne : text ≠ []
  free : '"' ∉ text
  plain : scalarIntrospection text = none

namespace QuotedItem

variable (i : QuotedItem)

/-- The qualifier with its dot. -/
def front : Str :=
  match i.qual with
  | none => []
  | some q => q.text ++ ['.']

def render : Str := i.front ++ dquoted i.text

/-- The qualifier does not end the list. -/
def Open : Prop := ∀ q ∈ i.qual, lower q.text ∉ listEnd

/-- **The item keeps its name**: its qualifier is no `AS`, and its text is made of word
characters and spaces, or is the name of a column without one. -/
def Kept : Prop :=
  (∀ q ∈ i.qual, lower q.text ≠ "as") ∧
    (((i.text.all fun c => isWordChar c || c == ' ') ∧ scalarIntrospection (lower i.text) = none) ∨
      i.text = unnamed)

/-! ### What the scanners see of it -/

theorem front_chars : ∀ c ∈ i.front, isWordChar c = true ∨ c = '.' := by
  intro c hc
  unfold front at hc
  cases hq : i.qual with
  | none =>
    rw [hq] at hc
    cases hc
  | some q =>
    rw [hq] at hc
    rcases List.mem_append.1 hc with hc | hc
    · exact .inl (List.all_eq_true.1 q.word c hc)
    · exact .inr (List.mem_singleton.1 hc)

theorem run_front : Scan.start.run i.front = Scan.start := by
  refine Scan.run_of_arm ?_
  intro c hc
  rcases i.front_chars c hc with h | rfl
  · exact Scan.arm_eq_none (Scan.isWordChar_ne h)
  · decide

theorem closed : Scan.start.run i.render = Scan.start := by
  rw [render, Scan.run_append, run_front, (opaque_ident Scan.open_start i.free).2]

theorem ends : Ends Solid Solid i.render := by
  have hquoted : Ends Solid Solid (dquoted i.text) :=
    ends_wrap '"' '"' i.text (by decide) (by decide)
  unfold render front
  cases i.qual with
  | none => exact hquoted
  | some q => exact (ends_word q.ne q.word).append hquoted ['.']

/-- A separator that is no word character and no dot is hidden. -/
theorem hides {P : Char → Prop} (h : ∀ c, isWordChar c = true ∨ c = '.' → P c) :
    Hides P .start i.render := by
  refine hides_append.2 ⟨hides_of_forall fun c hc => h c (i.front_chars c hc), ?_⟩
  rw [run_front]
  exact (opaque_ident Scan.open_start i.free).1.hides

theorem texts_render : textsOf i.render = (i.qual.map fun q => lower q.text).toList := by
  have hquoted : textsOf (dquoted i.text) = [] := by
    obtain ⟨hhidden, hrun⟩ := opaque_ident Scan.open_start i.free
    have hread := readWords_hidden (i := 0) hhidden []
    rw [List.append_nil, hrun] at hread
    rw [textsOf, wordsOf, hread]
    rfl
  unfold render front
  cases i.qual with
  | none => exact hquoted
  | some q =>
    rw [List.append_assoc, List.singleton_append,
      textsOf_sep (run_word_chars q.word _) (by decide) rfl, textsOf_word q.ne q.word, hquoted]
    rfl

theorem listed (hopen : i.Open) : Listed i.render := by
  refine ⟨i.ends.firm, i.closed, ?_, i.hides ?_⟩
  · rw [texts_render]
    intro w hw
    obtain ⟨q, hq, rfl⟩ := Option.map_eq_some_iff.1 (Option.mem_toList.1 hw)
    exact hopen q hq
  · rintro c (h | rfl)
    · rintro rfl
      cases h
    · decide

/-! ### Its name -/

/-- The expression is no literal. -/
theorem classifyExpr_render :
    classifyExpr i.render = some ((called i.render).getD (classifyIdent i.render)) := by
  have hlast : i.render.getLast? = some '"' := by
    rw [render, dquoted, ← List.append_assoc]
    exact List.getLast?_concat
  have htrim := i.ends.firm.trim
  rw [classifyExpr_of, htrim]
  · rw [htrim, Bool.eq_false_iff]
    intro hnumber
    have hquote := (isNumeric_chars hnumber).2 '"' (List.mem_of_getLast? hlast)
    exact absurd hquote (by decide)
  · rintro ⟨m, hm⟩
    rw [htrim] at hm
    rw [hm, List.getLast?_concat] at hlast
    exact absurd hlast (by decide)

/-- A bracket or a dot in the quotes leaves the item without its name. -/
theorem not_kept {c : Char} (hc : c ∈ i.text) (hword : (isWordChar c || c == ' ') = false)
    (hunnamed : c ∉ unnamed) : ¬i.Kept := by
  rintro ⟨-, ⟨hall, -⟩ | h⟩
  · rw [List.all_eq_true.1 hall c hc] at hword
    cases hword
  · exact hunnamed (h ▸ hc)

/-- An item that is read as a call has a bracket in its quotes, and another name. -/
theorem name_call {spec : ColumnSpec} (hcall : called i.render = some spec) :
    '(' ∈ i.text ∧ spec.name ≠ i.text := by
  have hparen : '(' ∈ i.render := by
    by_contra h
    rw [called_none h] at hcall
    cases hcall
  have htext : '(' ∈ i.text := by
    rcases List.mem_append.1 hparen with h | h
    · rcases i.front_chars _ h with h | h <;> exact absurd h (by decide)
    · simpa [dquoted] using h
  refine ⟨htext, ?_⟩
  intro h
  have hword := called_word hcall
  rw [h] at hword
  exact not_mem_of_word hword (by decide) htext

/-- What stands behind the last dot has none. -/
theorem name_dot (hdot : '.' ∈ i.text) : (classifyIdent i.render).name ≠ i.text := by
  intro h
  have hlast : '.' ∉ lastName i.render := fun hmem =>
    not_mem_rsplitNext '.' i.render (mem_of_trim (mem_of_trimMatches hmem))
  rw [classifyIdent_eq] at h
  split at h
  · cases htable : scalarIntrospection (lower (lastName i.render)) with
    | some r =>
      rw [htable] at h
      have hword := (scalarIntrospection_col htable).1
      rw [show r.1 = i.text from h] at hword
      exact not_mem_of_word hword (by decide) hdot
    | none =>
      rw [htable] at h
      have hname : lastName i.render = i.text := h
      exact hlast (hname.symm ▸ hdot)
  · rw [← show unnamed = i.text from h] at hdot
    exact absurd hdot (by decide)

/-- Without a dot in the quotes, the last name is what they hold. -/
theorem lastName_render (hdot : '.' ∉ i.text) : lastName i.render = i.text := by
  have hseg : rsplitNext '.' i.render = dquoted i.text := by
    have hfree : '.' ∉ dquoted i.text := by simpa [dquoted] using hdot
    unfold render front
    cases i.qual with
    | none => exact rsplitNext_self hfree
    | some q =>
      rw [List.append_assoc, List.singleton_append]
      exact rsplitNext_append hfree
  have hends : Ends Solid Solid (dquoted i.text) :=
    ends_wrap '"' '"' i.text (by decide) (by decide)
  rw [lastName, hseg, hends.firm.trim]
  exact (Alias.quoted i.text i.free).trimMatches_render

/-- **The name of a quoted item** that is read as an expression. -/
theorem name_iff (has : ∀ q ∈ i.qual, lower q.text ≠ "as") :
    ((called i.render).getD (classifyIdent i.render)).name = i.text ↔ i.Kept := by
  cases hcall : called i.render with
  | some spec =>
    obtain ⟨htext, hname⟩ := i.name_call hcall
    exact iff_of_false hname (i.not_kept htext (by decide) (by decide))
  | none =>
    rw [Option.getD_none]
    by_cases hdot : '.' ∈ i.text
    · exact iff_of_false (i.name_dot hdot) (i.not_kept hdot (by decide) (by decide))
    · have hlast := i.lastName_render hdot
      unfold Kept
      rw [classifyIdent_eq, hlast, and_iff_right has]
      -- the name is reported as it is, unless the table has one for it
      by_cases hall : i.text.all fun c => isWordChar c || c == ' '
      · have hno : i.text ≠ unnamed := by
          intro h
          rw [h] at hall
          exact absurd hall (by decide)
        have hnamed : Named i.render := by
          rw [Named, hlast]
          exact ⟨i.ne, hall⟩
        rw [if_pos hnamed, or_iff_left hno, and_iff_right hall]
        cases htable : scalarIntrospection (lower i.text) with
        | none => exact iff_of_true rfl rfl
        | some r =>
          refine iff_of_false ?_ (Option.some_ne_none r)
          intro h
          have hcol := (scalarIntrospection_col htable).2
          rw [show r.1 = i.text from h, i.plain] at hcol
          cases hcol
      · have hnamed : ¬Named i.render := by
          rw [Named, hlast]
          exact fun h => hall h.2
        rw [if_neg hnamed, or_iff_right fun h => hall h.1]
        exact eq_comm

/-! ### Its column -/

/-- Behind the alias word stands no name. -/
theorem trim_dot : trimMatches '"' (trim ('.' :: dquoted i.text)) = '.' :: '"' :: i.text := by
  have hends : Ends Firm Firm ('.' :: dquoted i.text) := by
    refine ⟨List.cons_ne_nil _ _, ?_, ?_⟩
    · rintro c hc
      obtain rfl : '.' = c := Option.some.inj hc
      rfl
    · intro c hc
      rw [dquoted, ← List.cons_append, List.getLast?_concat] at hc
      obtain rfl : '"' = c := Option.some.inj hc
      rfl
  obtain ⟨m, d, hm⟩ := (List.eq_nil_or_concat i.text).resolve_left i.ne
  rw [List.concat_eq_append] at hm
  have hd : ¬(d == '"') = true := by
    intro h
    refine i.free ?_
    rw [hm, ← beq_iff_eq.1 h]
    exact List.mem_append_right m (List.mem_singleton_self d)
  have hstart : ('.' :: dquoted i.text).dropWhile (· == '"') = '.' :: dquoted i.text :=
    List.dropWhile_cons_of_neg (by decide)
  have hcut : '.' :: dquoted i.text = ('.' :: '"' :: m ++ [d]) ++ ['"'] := by
    rw [dquoted, hm]
    simp
  rw [hends.trim, trimMatches, hstart, hcut,
    List.rdropWhile_concat_pos (· == '"') _ '"' rfl,
    List.rdropWhile_concat_neg (· == '"') _ d hd, hm]
  simp

/-- **A quoted item is one column.** -/
theorem parseItem_quoted : ∃ spec, parseItem i.render = some [spec] ∧
    (spec.name = i.text ↔ i.Kept) := by
  unfold parseItem
  dsimp only
  rw [i.ends.firm.trim, if_neg i.ends.ne, isStar_solid i.ends]
  by_cases has : ∀ q ∈ i.qual, lower q.text ≠ "as"
  · have halias : peelAlias i.render = some (i.render, none) := by
      refine peelAlias_none (find_none_of_texts (p := fun t => t = ("as" : Str)) ?_)
      intro t ht
      rw [← textsOf, texts_render] at ht
      obtain ⟨q, hq, rfl⟩ := Option.map_eq_some_iff.1 (Option.mem_toList.1 ht)
      exact decide_eq_false (has q hq)
    have hcast : peelCast i.render = some (i.render, none) := by
      refine peelCast_none (lastCast_hides (i.hides ?_))
      rintro c (h | rfl)
      · rintro rfl
        cases h
      · decide
    refine ⟨(called i.render).getD (classifyIdent i.render), ?_, i.name_iff has⟩
    simp only [halias, hcast, i.classifyExpr_render, Option.bind_eq_bind, Option.bind_some]
    rfl
  · -- the qualifier is read as the alias word, and all behind it as the alias
    simp only [not_forall, not_not] at has
    obtain ⟨q, hq, hlower⟩ := has
    have hrender : i.render = q.text ++ '.' :: dquoted i.text := by
      rw [render, front, Option.mem_def.1 hq]
      exact List.append_assoc _ _ _
    have hdot : Breaks .start ('.' :: dquoted i.text) := breaks_cons (by decide) _
    obtain ⟨ws, hws⟩ := wordsOf_first q.ne q.word hdot
    have hfind : (wordsOf i.render).find? (·.text = ("as" : Str)) =
        some ⟨lower q.text, 0, len q.text⟩ := by
      rw [hrender, hws]
      exact List.find?_cons_of_pos (decide_eq_true hlower)
    have hto : sliceTo i.render 0 = some [] := sliceTo_append [] i.render
    have hfrom : sliceFrom i.render (len q.text) = some ('.' :: dquoted i.text) := by
      rw [hrender]
      exact sliceFrom_append _ _
    obtain ⟨spec, hspec⟩ := classifyExpr_total []
    refine ⟨{ spec with name := trimMatches '"' (trim ('.' :: dquoted i.text)) }, ?_, ?_⟩
    · simp only [peelAlias_eq hfind hto hfrom, Option.bind_eq_bind, Option.bind_some]
      rw [show peelCast (trim []) = some ([], none) from rfl, Option.bind_some, hspec]
      rfl
    · refine iff_of_false ?_ fun h => h.1 q hq hlower
      intro h
      rw [i.trim_dot] at h
      have hname : '.' :: '"' :: i.text = i.text := h
      have hlen := congrArg List.length hname
      simp only [List.length_cons] at hlen
      omega

end QuotedItem

/-! ## Lists of quoted items -/

/-- **A select of quoted items.** -/
structure QuotedSelect where
  items : List QuotedItem
  items_ne : items ≠ []
  tail : Str
  tailed : ListTail tail

def QuotedSelect.render (q : QuotedSelect) : Str :=
  selectList (' ' :: joinItems (q.items.map QuotedItem.render)) q.tail

theorem joinItems_append (i j : Str) (l m : List Str) :
    joinItems (i :: l ++ j :: m) = joinItems (i :: l) ++ ',' :: ' ' :: joinItems (j :: m) := by
  induction l generalizing i with
  | nil => rfl
  | cons k l ih =>
    rw [List.cons_append, List.cons_append, joinItems_cons, ← List.cons_append, ih k,
      joinItems_cons]
    simp

theorem joinItems_head (i : Str) (l : List Str) : ∃ y, joinItems (i :: l) = i ++ y := by
  cases l with
  | nil => exact ⟨[], (List.append_nil i).symm⟩
  | cons j l => exact ⟨',' :: ' ' :: joinItems (j :: l), rfl⟩

/-- A text that begins with a word and a character that is neither blank nor part of it keeps a
quantifier that it begins with. -/
theorem skipKeyword_solid {kw u y : Str} {c : Char} (hkw : kw.all isWordChar)
    (hu : u.all isWordChar) (hc : isWordChar c = false) (hblank : isWhitespace c = false) :
    skipKeyword kw (u ++ c :: y) = some (u ++ c :: y) := by
  by_cases hpre : kw.isPrefixOf (lower (u ++ c :: y))
  · obtain ⟨a, b, hab, ha, -⟩ := lower_isPrefix hpre
    have haw : a.all isWordChar := by rw [← all_isWordChar_lower, ha]; exact hkw
    suffices hb : b.head?.any isWhitespace = false by
      rw [hab, skipKeyword_eq ha, hb]
      rfl
    rcases List.append_eq_append_iff.1 hab with ⟨m, hm, hy⟩ | ⟨m, hm, hy⟩
    · cases m with
      | nil =>
        rw [← show c :: y = b from hy]
        exact hblank
      | cons d m =>
        -- the keyword would hold the character
        obtain rfl : c = d := (List.cons.inj hy).1
        refine absurd (List.mem_append_right u List.mem_cons_self) (hm ▸ not_mem_of_word haw hc)
    · cases m with
      | nil =>
        rw [show b = c :: y from hy]
        exact hblank
      | cons d m =>
        have hd := List.all_eq_true.1 hu d (by rw [hm]; simp)
        rw [hy]
        exact not_isWhitespace_of_isWordChar hd
  · rw [skipKeyword, if_neg hpre]

/-- No quantifier is skipped in front of a quoted item. -/
theorem QuotedItem.keeps_quantifier (i : QuotedItem) {kw : Str} (hkw : kw.all isWordChar)
    (y : Str) : skipKeyword kw (i.render ++ y) = some (i.render ++ y) := by
  unfold QuotedItem.render QuotedItem.front dquoted
  cases i.qual with
  | none =>
    have hskip := skipKeyword_solid (u := []) (c := '"') (y := i.text ++ ['"'] ++ y) hkw rfl
      (by decide) (by decide)
    simpa using hskip
  | some q =>
    have hskip := skipKeyword_solid (u := q.text) (c := '.') (y := '"' :: i.text ++ ['"'] ++ y) hkw
      q.word (by decide) (by decide)
    simpa using hskip

/-- A list that is split into quoted items, and begins with no quantifier. -/
structure Splits (l : Str) (is : List QuotedItem) : Prop where
  distinct : skipKeyword "distinct" (trim l) = some (trim l)
  all : skipKeyword "all" (trim l) = some (trim l)
  pieces : keep (pieces ',' .start (trim l)) = is.map QuotedItem.render

/-- **Each item of a list is one column.** -/
theorem columns_quoted : ∃ column : QuotedItem → ColumnSpec,
    (∀ i, (column i).name = i.text ↔ i.Kept) ∧
      ∀ {l : Str} {is : List QuotedItem}, Splits l is → ∀ {raw ts shape},
        selectShape l raw ts = some shape → shape.columns = is.map column := by
  choose column hparse hkept using QuotedItem.parseItem_quoted
  refine ⟨column, hkept, ?_⟩
  intro l is h raw ts shape hshape
  have hmap : (is.map QuotedItem.render).mapM parseItem = some (is.map fun i => [column i]) :=
    mapM_map_some fun i _ => hparse i
  have hflat : (is.map fun i => [column i]).flatten = is.map column := by
    rw [← List.flatMap_def]
    exact List.flatMap_pure_eq_map column is
  unfold selectShape at hshape
  simp only [h.distinct, h.all, h.pieces, hmap, hflat, Option.bind_eq_bind,
    Option.bind_some] at hshape
  rw [← Option.some.inj hshape]

section Front

variable {i : QuotedItem} {is : List QuotedItem} (hopen : ∀ j ∈ i :: is, j.Open)

include hopen

theorem listed_quoted : ∀ s ∈ i.render :: is.map QuotedItem.render, Listed s := by
  intro s hs
  rw [← List.map_cons] at hs
  obtain ⟨j, hj, rfl⟩ := List.mem_map.1 hs
  exact j.listed (hopen j hj)

theorem splits_joinItems :
    Splits (' ' :: joinItems (i.render :: is.map QuotedItem.render)) (i :: is) := by
  have hlisted := listed_quoted hopen
  have htrim : trim (' ' :: joinItems (i.render :: is.map QuotedItem.render)) =
      joinItems (i.render :: is.map QuotedItem.render) := by
    have hends := joinItems_ends fun s hs => (hlisted s hs).ends
    have hblank := hends.trim_blank blank_space (b := []) (by simp)
    rwa [List.append_nil] at hblank
  obtain ⟨y, hy⟩ := joinItems_head i.render (is.map QuotedItem.render)
  refine ⟨?_, ?_, ?_⟩
  · rw [htrim, hy]
    exact i.keeps_quantifier (by decide) y
  · rw [htrim, hy]
    exact i.keeps_quantifier (by decide) y
  · rw [htrim]
    exact pieces_joinItems hlisted

/-- A comma behind the list adds no item. -/
theorem splits_comma :
    Splits (' ' :: joinItems (i.render :: is.map QuotedItem.render) ++ [',']) (i :: is) := by
  have hlisted := listed_quoted hopen
  have htrim : trim (' ' :: joinItems (i.render :: is.map QuotedItem.render) ++ [',']) =
      joinItems (i.render :: is.map QuotedItem.render) ++ [','] := by
    have hcomma : Ends Firm Firm [','] :=
      ends_of_forall (by decide) (List.forall_mem_singleton.2 rfl)
    have hends := (joinItems_ends fun s hs => (hlisted s hs).ends).append hcomma []
    have hblank := hends.trim_blank blank_space (b := []) (by simp)
    simpa using hblank
  obtain ⟨y, hy⟩ := joinItems_head i.render (is.map QuotedItem.render)
  refine ⟨?_, ?_, ?_⟩
  · rw [htrim, hy, List.append_assoc]
    exact i.keeps_quantifier (by decide) _
  · rw [htrim, hy, List.append_assoc]
    exact i.keeps_quantifier (by decide) _
  · have hcut :
        Cuts ',' (Scan.start.run (joinItems (i.render :: is.map QuotedItem.render))) ',' := by
      rw [joinItems_closed hlisted]
      decide
    have hkeep : ∀ ps qs : List Str, keep (ps ++ qs) = keep ps ++ keep qs := by
      intro ps qs
      rw [keep, List.map_append, List.filter_append]
      rfl
    rw [htrim, pieces_sep hcut, hkeep, pieces_joinItems hlisted]
    exact List.append_nil _

end Front

theorem textsOf_space (s : Str) : textsOf (' ' :: s) = textsOf s :=
  textsOf_sep (a := []) rfl (by decide) rfl

theorem ends_list {l : Str} (h : Ends Solid Solid l) :
    Ends Solid Solid ("select".toList ++ ' ' :: l) := by
  have hselect : Ends Solid Solid "select".toList := ends_word (by decide) (by decide)
  have happend := hselect.append h [' ']
  rwa [List.append_assoc] at happend

/-- **A list of items that do not end it** is read. -/
theorem extract_open {i : QuotedItem} {is : List QuotedItem} (hopen : ∀ j ∈ i :: is, j.Open)
    {t : Str} (ht : ListTail t) : ∃ raw ts,
      extract (selectList (' ' :: joinItems (i.render :: is.map QuotedItem.render)) t) =
        selectShape (' ' :: joinItems (i.render :: is.map QuotedItem.render)) raw ts := by
  have hlisted := listed_quoted hopen
  have hends : Ends Solid Solid (joinItems (i.render :: is.map QuotedItem.render)) := by
    refine joinItems_ends ?_
    intro s hs
    rw [← List.map_cons] at hs
    obtain ⟨j, -, rfl⟩ := List.mem_map.1 hs
    exact j.ends
  refine extract_list (ends_list hends) (breaks_cons (by decide) _) ?_ ?_ ht
  · exact joinItems_closed hlisted
  · rw [textsOf_space]
    exact joinItems_words hlisted

/-- **A list is cut in front of a qualifier that ends it.** -/
theorem extract_cut {front : List QuotedItem} (hopen : ∀ j ∈ front, j.Open) {bad : QuotedItem}
    (hbad : ¬bad.Open) (back : List QuotedItem) (t : Str) : ∃ l raw ts,
      extract (selectList (' ' :: joinItems ((front ++ bad :: back).map QuotedItem.render)) t) =
        selectShape l raw ts ∧ Splits l front := by
  simp only [QuotedItem.Open, not_forall, not_not] at hbad
  obtain ⟨q, hq, hlist⟩ := hbad
  have hrender : bad.render = q.text ++ '.' :: dquoted bad.text := by
    rw [QuotedItem.render, QuotedItem.front, Option.mem_def.1 hq]
    exact List.append_assoc _ _ _
  obtain ⟨y, hy⟩ := joinItems_head bad.render (back.map QuotedItem.render)
  have htail : ListTail ([' '] ++ (q.text ++ ('.' :: dquoted bad.text ++ y ++ t))) := by
    refine .clause rfl (List.cons_ne_nil _ _) hlist ?_
    rintro c hc
    obtain rfl : '.' = c := Option.some.inj hc
    rfl
  cases front with
  | nil =>
    have htext : selectList (' ' :: joinItems (([] ++ bad :: back).map QuotedItem.render)) t =
        selectList [] ([' '] ++ (q.text ++ ('.' :: dquoted bad.text ++ y ++ t))) := by
      rw [List.nil_append, List.map_cons, hy, hrender, selectList_eq, selectList_eq]
      simp
    obtain ⟨raw, ts, hextract⟩ := extract_list (l := [])
      (by rw [List.append_nil]; exact ends_word (by decide) (by decide)) (breaks_nil _) rfl
      (by rintro w ⟨⟩) htail
    rw [← htext] at hextract
    exact ⟨_, _, _, hextract, rfl, rfl, rfl⟩
  | cons i is =>
    have hlisted := listed_quoted hopen
    have htext : selectList (' ' :: joinItems ((i :: is ++ bad :: back).map QuotedItem.render)) t =
        selectList (' ' :: joinItems (i.render :: is.map QuotedItem.render) ++ [','])
          ([' '] ++ (q.text ++ ('.' :: dquoted bad.text ++ y ++ t))) := by
      rw [List.map_append, List.map_cons, List.map_cons, joinItems_append, hy, hrender,
        selectList_eq, selectList_eq]
      simp
    have hends : Ends Solid Solid
        (joinItems (i.render :: is.map QuotedItem.render) ++ [] ++ [',']) := by
      refine Ends.append (q := Solid) (r := Solid) (joinItems_ends ?_) ?_ []
      · intro s hs
        rw [← List.map_cons] at hs
        obtain ⟨j, -, rfl⟩ := List.mem_map.1 hs
        exact j.ends
      · exact ends_of_forall (by decide) (List.forall_mem_singleton.2 (by decide))
    rw [List.append_nil] at hends
    have hclosed := joinItems_closed hlisted
    obtain ⟨raw, ts, hextract⟩ := extract_list
      (l := ' ' :: joinItems (i.render :: is.map QuotedItem.render) ++ [','])
      (by rw [List.cons_append]; exact ends_list hends) (breaks_cons (by decide) _)
      (by
        rw [Scan.run_append, show Scan.start.run (' ' :: joinItems (i.render :: is.map _)) = .start
          from hclosed]
        rfl)
      (by
        intro w hw
        rw [textsOf_sep (a := ' ' :: joinItems (i.render :: is.map QuotedItem.render)) (b := [])
          hclosed (by decide) rfl, textsOf_space] at hw
        rcases List.mem_append.1 hw with hw | hw
        · exact joinItems_words hlisted w hw
        · cases hw)
      htail
    rw [← htext] at hextract
    exact ⟨_, _, _, hextract, splits_comma hopen⟩

/-- **The items in front of the first that ends the list** are read. -/
theorem extract_quoted (q : QuotedSelect) : ∃ l raw ts is, extract q.render = selectShape l raw ts ∧
    Splits l is ∧ ((∀ i ∈ q.items, i.Open) ∧ is = q.items ∨
      ¬(∀ i ∈ q.items, i.Open) ∧ is.length < q.items.length) := by
  by_cases hopen : ∀ i ∈ q.items, i.Open
  · obtain ⟨i, is, his⟩ := List.exists_cons_of_ne_nil q.items_ne
    rw [his] at hopen
    obtain ⟨raw, ts, hextract⟩ := extract_open hopen q.tailed
    rw [QuotedSelect.render, his, List.map_cons]
    exact ⟨_, raw, ts, _, hextract, splits_joinItems hopen, .inl ⟨hopen, rfl⟩⟩
  · classical
    have hbad : ∃ i ∈ q.items, ¬i.Open := by simpa using hopen
    obtain ⟨bad, hfind⟩ := Option.isSome_iff_exists.1
      (List.find?_isSome (p := fun i : QuotedItem => decide ¬i.Open).2 (by simpa using hbad))
    obtain ⟨hclosed, front, back, hitems, hfront⟩ := List.find?_eq_some_iff_append.1 hfind
    have hopened : ∀ j ∈ front, j.Open := by simpa using hfront
    obtain ⟨l, raw, ts, hextract, hsplits⟩ :=
      extract_cut hopened (by simpa using hclosed) back q.tail
    rw [QuotedSelect.render]
    refine ⟨l, raw, ts, front, ?_, hsplits, .inr ⟨hopen, ?_⟩⟩
    · rw [hitems, hextract]
    · rw [hitems, List.length_append, List.length_cons]
      omega

/-- **Quoted items keep their names exactly when** no qualifier is `AS` or a word that ends the
list, and each text is made of word characters and spaces and names no introspection function, or
is the name of a column without one. -/
theorem quoted_names_iff (q : QuotedSelect) :
    (shapeOf q.render).columns.map ColumnSpec.name = q.items.map QuotedItem.text ↔
      ∀ i ∈ q.items, i.Open ∧ i.Kept := by
  obtain ⟨column, hkept, hcolumns⟩ := columns_quoted
  obtain ⟨l, raw, ts, is, hextract, hsplits, hcases⟩ := extract_quoted q
  have hshape : (shapeOf q.render).columns = is.map column :=
    hcolumns hsplits (hextract.symm.trans (extract_eq _))
  rw [hshape, List.map_map]
  rcases hcases with ⟨hopen, rfl⟩ | ⟨hcut, hlen⟩
  · rw [List.map_inj_left]
    constructor
    · intro h i hi
      exact ⟨hopen i hi, (hkept i).1 (h i hi)⟩
    · intro h i hi
      exact (hkept i).2 (h i hi).2
  · refine iff_of_false ?_ fun h => hcut fun i hi => (h i hi).1
    intro h
    have hsame := congrArg List.length h
    rw [List.length_map, List.length_map] at hsame
    omega

/-- **A quoted name with a dot loses what stands before it**, and one with a dash is none. -/
theorem quoted_dot :
    (shapeOf "select \"a.b\", \"a-b\"").columns.map ColumnSpec.name = ["b", "?column?"] ∧
      ∃ q : QuotedSelect, q.render = "select \"a.b\", \"a-b\"" ∧
        q.items.map QuotedItem.text = ["a.b", "a-b"] ∧
        (shapeOf q.render).columns.map ColumnSpec.name ≠ q.items.map QuotedItem.text := by
  have hnames : (shapeOf "select \"a.b\", \"a-b\"").columns.map ColumnSpec.name =
      ["b", "?column?"] := by
    have hextract : (extract "select \"a.b\", \"a-b\"").map (fun shape =>
        shape.columns.map ColumnSpec.name) = some (["b", "?column?"] : List Str) := by
      decide +kernel
    rw [extract_eq] at hextract
    exact Option.some.inj hextract
  refine ⟨hnames, ⟨[⟨none, "a.b", by decide, by decide, by decide⟩,
    ⟨none, "a-b", by decide, by decide, by decide⟩], by decide, [], .none⟩, rfl, rfl, ?_⟩
  intro h
  exact absurd (hnames.symm.trans h) (by decide)

end EtherealDb
