import EtherealDb.Proof.Items

/-!
# Classifying an expression

`classify_expr` without offsets: a number, a text between two quotes, and otherwise a call,
by the text before the first bracket, or a name, by the text after the last dot.

* `classifyExpr_of`: an expression that is no literal is a call or a name.
* `called_append`: what follows the first bracket does not change the call.
* `classifyIdent_unnamed`, `classifyIdent_named`: a name is reported exactly when the text after
  the last dot is one.
* `classifyExpr_cases`: **what `classify_expr` reports.**
-/

namespace EtherealDb

open Str Reading

/-! ## Parts of a text -/

/-- What is not dropped from the ends of a text stays in it. -/
theorem mem_dropEnds {p : Char → Bool} {s : Str} {c : Char} (h : c ∈ s) (hc : p c = false) :
    c ∈ (s.dropWhile p).rdropWhile p := by
  have hne : ∀ l : Str, (∀ d ∈ l, p d = true) → c ∉ l := by
    intro l hl hmem
    rw [hl c hmem] at hc
    cases hc
  have hstart : c ∈ s.dropWhile p := by
    rw [← List.takeWhile_append_dropWhile (p := p) (l := s)] at h
    exact (List.mem_append.1 h).resolve_left (hne _ fun d hd => List.mem_takeWhile_imp hd)
  rw [← List.rdropWhile_append_rtakeWhile (p := p) (l := s.dropWhile p)] at hstart
  exact (List.mem_append.1 hstart).resolve_right (hne _ fun d hd => List.mem_rtakeWhile_imp hd)

theorem mem_trimMatches {s : Str} {c d : Char} (h : c ∈ s) (hc : c ≠ d) : c ∈ trimMatches d s :=
  mem_dropEnds h (beq_eq_false_iff_ne.2 hc)

/-- The last segment of a text lies behind any separator. -/
theorem rsplitNext_sep (c : Char) (a b : Str) : rsplitNext c (a ++ c :: b) = rsplitNext c b := by
  have hstop : ∀ l, (c :: l).takeWhile (· != c) = [] := fun l =>
    List.takeWhile_cons_of_neg (by simp)
  unfold rsplitNext List.rtakeWhile
  rw [List.reverse_append, List.reverse_cons, List.append_assoc, List.singleton_append,
    List.takeWhile_append, hstop, List.append_nil]
  split
  · rename_i h
    rw [(List.takeWhile_prefix _).eq_of_length h]
  · rfl

/-- A text without a separator continues the last segment. -/
theorem rsplitNext_continue {c : Char} {a b : Str} (h : c ∉ b) :
    rsplitNext c (a ++ b) = rsplitNext c a ++ b := by
  have hall : ∀ d ∈ b.reverse, (d != c) = true := by
    intro d hd
    rw [bne_iff_ne]
    rintro rfl
    exact h (List.mem_reverse.1 hd)
  unfold rsplitNext List.rtakeWhile
  rw [List.reverse_append, List.takeWhile_append_of_pos hall, List.reverse_append,
    List.reverse_reverse]

/-- A number is a run of digits, dots and a minus. -/
theorem isNumeric_chars {s : Str} (h : isNumeric s) :
    s ≠ [] ∧ ∀ c ∈ s, c.isDigit = true ∨ c = '.' ∨ c = '-' := by
  cases s with
  | nil => cases h
  | cons c r =>
    refine ⟨List.cons_ne_nil c r, ?_⟩
    simp only [isNumeric, Bool.and_eq_true, Bool.or_eq_true, beq_iff_eq, List.all_eq_true] at h
    obtain ⟨⟨-, hc, hr⟩, -⟩ := h
    intro d hd
    rcases List.mem_cons.1 hd with rfl | hd
    · tauto
    · have := hr d hd
      tauto

/-- No separator stands in the last segment. -/
theorem not_mem_rsplitNext (c : Char) (s : Str) : c ∉ rsplitNext c s := by
  intro h
  have hc : (c != c) = true := List.mem_rtakeWhile_imp (p := (· != c)) h
  exact absurd rfl (bne_iff_ne.1 hc)

theorem mem_rsplitNext {c d : Char} {s : Str} (h : d ∈ rsplitNext c s) : d ∈ s :=
  (List.rtakeWhile_suffix (p := (· != c)) s).subset h

theorem mem_of_trim {c : Char} {s : Str} (h : c ∈ trim s) : c ∈ s := (trim_sublist s).subset h

theorem mem_of_trimMatches {c d : Char} {s : Str} (h : c ∈ trimMatches d s) : c ∈ s :=
  (List.dropWhile_suffix _).subset ((List.rdropWhile_prefix _ _).subset h)

/-! ## Calls -/

/-- The text before the first bracket, as `classify_expr` reads a function's name. -/
def functionName (s : Str) : Str := lower (trim (s.takeWhile fun c => !(c == '(')))

/-- The column of the call that an expression is read as. -/
def called (s : Str) : Option ColumnSpec :=
  if '(' ∈ s then
    match scalarIntrospection (rsplitNext '.' (functionName s)) with
    | some (col, value, wt) => some (.echo col value wt)
    | none =>
      if functionName s ≠ [] ∧ (functionName s).all isWordChar then
        some { ColumnSpec.named (rsplitNext '.' (functionName s)) with
          aggregate := aggregates.contains (functionName s) }
      else none
  else none

/-- **What follows the first bracket does not change the call.** -/
theorem called_append {a : Str} (h : '(' ∈ a) (b : Str) : called (a ++ b) = called a := by
  have hname : functionName (a ++ b) = functionName a := by
    unfold functionName
    rw [List.takeWhile_append, if_neg]
    intro hlen
    have hall := List.takeWhile_eq_self_iff.1
      ((List.takeWhile_prefix fun c => !(c == '(')).eq_of_length hlen)
    exact absurd (hall _ h) (by decide)
  unfold called
  rw [hname, if_pos h, if_pos (List.mem_append_left _ h)]

/-- The columns of the introspection table are words, and names of the table themselves. -/
theorem scalarIntrospection_col {name col value : Str} {wt : WireType}
    (h : scalarIntrospection name = some (col, value, wt)) :
    col.all isWordChar ∧ (scalarIntrospection col).isSome := by
  unfold scalarIntrospection at h
  split_ifs at h <;> · cases h; decide

/-- **The column of a call is a word.** -/
theorem called_word {s : Str} {spec : ColumnSpec} (h : called s = some spec) :
    spec.name.all isWordChar := by
  unfold called at h
  split at h
  · cases htable : scalarIntrospection (rsplitNext '.' (functionName s)) with
    | some r =>
      -- the column comes from the table, whatever the function is called
      rw [htable] at h
      obtain rfl := Option.some.inj h
      exact (scalarIntrospection_col htable).1
    | none =>
      rw [htable] at h
      dsimp only at h
      split at h
      · rename_i hname
        obtain rfl := Option.some.inj h
        rw [List.all_eq_true]
        intro c hc
        exact List.all_eq_true.1 hname.2 c (mem_rsplitNext hc)
      · cases h
  · cases h

/-- **An expression is read as a call** by the text before its first bracket. -/
def CallLike (s : Str) : Prop :=
  '(' ∈ s ∧ ((scalarIntrospection (rsplitNext '.' (functionName s))).isSome ∨
    functionName s ≠ [] ∧ (functionName s).all isWordChar)

theorem called_isSome {s : Str} : (called s).isSome ↔ CallLike s := by
  unfold called CallLike
  by_cases hmem : '(' ∈ s
  · rw [if_pos hmem]
    cases htable : scalarIntrospection (rsplitNext '.' (functionName s)) with
    | some r => simp [hmem]
    | none =>
      dsimp only
      by_cases hname : functionName s ≠ [] ∧ (functionName s).all isWordChar
      · rw [if_pos hname]
        simp [hmem, hname]
      · rw [if_neg hname]
        refine iff_of_false Bool.false_ne_true ?_
        rintro ⟨-, h | h⟩
        · cases h
        · exact hname h
  · rw [if_neg hmem]
    simp [hmem]

theorem called_none {s : Str} (h : '(' ∉ s) : called s = none := if_neg h

/-- **An expression that is no literal is a call or a name.** -/
theorem classifyExpr_of {s : Str} (hnumber : isNumeric (trim s) = false)
    (hquotes : ¬∃ m, trim s = '\'' :: m ++ ['\'']) :
    classifyExpr s = some ((called (trim s)).getD (classifyIdent (trim s))) := by
  have hlit : ¬(2 ≤ len (trim s) ∧ (trim s).head? = some '\'' ∧ (trim s).getLast? = some '\'') := by
    rintro ⟨hlen, hhead, hlast⟩
    obtain ⟨m, hm, -⟩ := slice_quotes hlen hhead hlast
    exact hquotes ⟨m, hm⟩
  unfold classifyExpr
  dsimp only
  rw [if_neg (by rw [hnumber]; decide), if_neg hlit]
  generalize trim s = e
  -- the text before the first bracket is a slice
  have hto := sliceTo_find (· == '(') e
  unfold called
  cases hfind : find (· == '(') e with
  | none =>
    have hmem : '(' ∉ e := by
      intro h
      unfold find at hfind
      rw [if_pos (List.any_eq_true.2 ⟨'(', h, rfl⟩)] at hfind
      cases hfind
    rw [if_neg hmem]
    rfl
  | some paren =>
    have hmem : '(' ∈ e := by
      unfold find at hfind
      split at hfind
      · rename_i h
        obtain ⟨c, hc, heq⟩ := List.any_eq_true.1 h
        rwa [← beq_iff_eq.1 heq]
      · cases hfind
    have hname : lower (trim (e.takeWhile fun c => !(c == '('))) = functionName e := rfl
    rw [hfind, Option.getD_some] at hto
    rw [if_pos hmem]
    unfold classifyCall
    simp only [hto, Option.bind_eq_bind, Option.bind_some, hname]
    cases scalarIntrospection (rsplitNext '.' (functionName e)) with
    | some r => rfl
    | none =>
      dsimp only
      split <;> rfl

/-! ## Names -/

/-- The text after the last dot, as `classify_expr` reads a name. -/
def lastName (s : Str) : Str := trimMatches '"' (trim (rsplitNext '.' s))

/-- The last name is a name. -/
def Named (s : Str) : Prop := lastName s ≠ [] ∧ (lastName s).all fun c => isWordChar c || c == ' '

instance (s : Str) : Decidable (Named s) := inferInstanceAs (Decidable (_ ∧ _))

/-- The columns of the introspection table have names. -/
theorem scalarIntrospection_named {name col value : Str} {wt : WireType}
    (h : scalarIntrospection name = some (col, value, wt)) : col ≠ unnamed := by
  rintro rfl
  exact absurd (scalarIntrospection_col h).1 (by decide)

theorem classifyIdent_eq (s : Str) : classifyIdent s =
    if Named s then
      match scalarIntrospection (lower (lastName s)) with
      | some (col, value, wt) => .echo col value wt
      | none => .named (lastName s)
    else .named unnamed := rfl

/-- **Without a name nothing is reported of a name.** -/
theorem classifyIdent_unnamed {s : Str} (h : ¬Named s) : classifyIdent s = .named unnamed := by
  rw [classifyIdent_eq, if_neg h]

theorem classifyIdent_named {s : Str} (h : Named s) : (classifyIdent s).name ≠ unnamed := by
  rw [classifyIdent_eq, if_pos h]
  cases htable : scalarIntrospection (lower (lastName s)) with
  | some r => exact scalarIntrospection_named htable
  | none =>
    intro hname
    have hlast : lastName s = unnamed := hname
    exact absurd (hlast ▸ h.2) (by decide)

/-- A character after the last dot that no name has. -/
theorem not_named {s : Str} {c : Char} (h : c ∈ rsplitNext '.' s) (hword : isWordChar c = false)
    (hblank : isWhitespace c = false) (hquote : c ≠ '"') : ¬Named s := by
  rintro ⟨-, hall⟩
  have hmem : c ∈ lastName s := mem_trimMatches (mem_dropEnds h hblank) hquote
  -- it could only be a space, and a blank is trimmed or is white
  have hc := List.all_eq_true.1 hall c hmem
  rw [hword, Bool.false_or, beq_iff_eq] at hc
  rw [hc] at hblank
  cases hblank

/-- A call ends in a bracket, and no name does. -/
theorem call_not_named (s args : Str) : ¬Named (s ++ group args) := by
  have hcut : s ++ group args = (s ++ '(' :: args) ++ [')'] := by simp [group]
  refine not_named (c := ')') ?_ (by decide) (by decide) (by decide)
  rw [hcut, rsplitNext_continue (by decide)]
  exact List.mem_append_right _ (List.mem_singleton_self ')')

/-! ## What is reported -/

/-- What begins like a name is a call or a name. -/
theorem classifyExpr_name {s : Str} (hs : NameLed s) (ht : trim s = s) :
    classifyExpr s = some ((called s).getD (classifyIdent s)) := by
  rw [classifyExpr_of, ht]
  · rw [ht, hs.not_numeric]
  · rintro ⟨m, hm⟩
    refine hs.head_ne ?_
    rw [ht] at hm
    rw [hm]
    rfl

/-- A column from the introspection table. -/
def FromTable (spec : ColumnSpec) : Prop :=
  ∃ name col value wt, scalarIntrospection name = some (col, value, wt) ∧ spec = .echo col value wt

theorem called_cases {s : Str} {spec : ColumnSpec} (h : called s = some spec) :
    FromTable spec ∨ spec.literal = none := by
  unfold called at h
  split at h
  · cases htable : scalarIntrospection (rsplitNext '.' (functionName s)) with
    | some r =>
      rw [htable] at h
      exact .inl ⟨_, _, _, _, htable, (Option.some.inj h).symm⟩
    | none =>
      rw [htable] at h
      dsimp only at h
      split at h
      · rw [← Option.some.inj h]
        exact .inr rfl
      · cases h
  · cases h

theorem classifyIdent_cases (e : Str) :
    FromTable (classifyIdent e) ∨ (classifyIdent e).literal = none := by
  unfold classifyIdent
  dsimp only
  split
  · cases htable : scalarIntrospection (lower (trimMatches '"' (trim (rsplitNext '.' e)))) with
    | some r => exact .inl ⟨_, _, _, _, htable, rfl⟩
    | none => exact .inr rfl
  · exact .inr rfl

/-- A number is reported as a literal. -/
theorem classifyExpr_number {e : Str} (h : isNumeric (trim e) = true) : classifyExpr e =
    some (.echo unnamed (trim e) (if (trim e).contains '.' then .numeric else .int4)) := by
  unfold classifyExpr
  dsimp only
  rw [if_pos h]

/-- A text between two quotes is reported as a literal. -/
theorem classifyExpr_quotes {e m : Str} (h : trim e = '\'' :: m ++ ['\'']) :
    classifyExpr e = some (.echo unnamed (undouble m) .text) := by
  have hlen : 2 ≤ len (trim e) := by
    have hq : '\''.utf8Size = 1 := rfl
    rw [h, List.cons_append, len_cons, len_append, len_cons, hq]
    omega
  have hhead : (trim e).head? = some '\'' := by rw [h]; rfl
  have hlast : (trim e).getLast? = some '\'' := by rw [h]; exact List.getLast?_concat
  obtain ⟨m', hm, hslice⟩ := slice_quotes hlen hhead hlast
  have hnum : isNumeric (trim e) = false := by
    rw [h]
    exact isNumeric_of_head (by decide)
  obtain rfl : m = m' := by
    rw [h] at hm
    simpa using hm
  unfold classifyExpr
  simp only [hnum, hlen, hhead, hlast, hslice, and_self, if_true, Bool.false_eq_true, if_false,
    Option.map_some]

/-- **What `classify_expr` reports.** -/
theorem classifyExpr_cases {e : Str} {spec : ColumnSpec} (h : classifyExpr e = some spec) :
    (∃ wt, spec = .echo unnamed (trim e) wt ∧ wt ≠ .text) ∨
      (∃ m, trim e = '\'' :: m ++ ['\''] ∧ spec = .echo unnamed (undouble m) .text) ∨
      FromTable spec ∨ spec.literal = none := by
  by_cases hnumber : isNumeric (trim e) = true
  · rw [classifyExpr_number hnumber] at h
    refine .inl ⟨_, (Option.some.inj h).symm, ?_⟩
    split <;> simp
  by_cases hquotes : ∃ m, trim e = '\'' :: m ++ ['\'']
  · obtain ⟨m, hm⟩ := hquotes
    rw [classifyExpr_quotes hm] at h
    exact .inr (.inl ⟨m, hm, (Option.some.inj h).symm⟩)
  rw [classifyExpr_of (Bool.eq_false_iff.2 hnumber) hquotes] at h
  refine .inr (.inr ?_)
  obtain rfl := Option.some.inj h
  cases hcall : called (trim e) with
  | some call =>
    rw [Option.getD_some]
    exact called_cases hcall
  | none =>
    rw [Option.getD_none]
    exact classifyIdent_cases (trim e)

end EtherealDb
