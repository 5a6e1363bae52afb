import EtherealDb.Proof.Classify

/-!
# Qualified items

A name is read behind its last dot. A call is recognised by the whole text before its bracket,
qualifiers included, so a qualified function is none, unless it is an introspection function.

* `functionName_qualified`: the qualifiers are part of the function's name.
* `called_qualified`: a qualified call is an introspection function or no call.
* `qualified_iff`: **qualifiers change nothing exactly when there are none, or the item is a
  name, or its function is quoted or an introspection function.**
-/

namespace EtherealDb

open Str Reading

/-! ## Items -/

/-- `[A-Za-z_][A-Za-z0-9_]*`, a keyword or not. -/
structure Qualifier where
  text : Str
  ident : isIdent text

/-- The qualifiers in front of an item. -/
def qualify (quals : List Qualifier) (s : Str) : Str :=
  quals.foldr (fun q s => q.text ++ '.' :: s) s

/-- An identifier, in double quotes or not. -/
inductive ItemName where
  | plain (x : Qualifier)
  | quoted (s : Str) (free : '"' ∉ s)

def ItemName.render : ItemName → Str
  | .plain x => x.text
  | .quoted s _ => dquoted s

/-- What qualifiers stand in front of. -/
inductive ItemCore where
  | name (x : ItemName)
  /-- A function call with its arguments as they are written. -/
  | call (f : ItemName) (args : Str) (balanced : Balanced args)

def ItemCore.render : ItemCore → Str
  | .name x => x.render
  | .call f args _ => f.render ++ group args

theorem ItemName.nameLed (x : ItemName) : NameLed x.render := by
  cases x with
  | plain x => exact nameLed_ident x.ident
  | quoted s free => exact nameLed_dquoted s

theorem ItemName.ends (x : ItemName) : Ends Solid Solid x.render := by
  cases x with
  | plain x =>
    obtain ⟨hne, hword, -⟩ := isIdent_spec x.ident
    exact ends_word hne hword
  | quoted s free => exact ends_wrap '"' '"' s (by decide) (by decide)

theorem ItemCore.ends (e : ItemCore) : Ends Solid Solid e.render := by
  cases e with
  | name x => exact x.ends
  | call f args balanced =>
    have hends := f.ends.append (ends_wrap (p := Solid) '(' ')' args (by decide) (by decide)) []
    rwa [List.append_nil] at hends

theorem ItemCore.nameLed (e : ItemCore) : NameLed e.render := by
  cases e with
  | name x => exact x.nameLed
  | call f args balanced => exact f.nameLed.append _

/-- The qualifiers end in a dot. -/
theorem qualify_cut {quals : List Qualifier} (hne : quals ≠ []) :
    ∃ p, NameLed p ∧ (∀ c ∈ p, isWordChar c = true ∨ c = '.') ∧
      ∀ s, qualify quals s = p ++ '.' :: s := by
  have hword : ∀ q : Qualifier, ∀ c ∈ q.text, isWordChar c = true := fun q =>
    List.all_eq_true.1 (isIdent_spec q.ident).2.1
  obtain ⟨q, quals, rfl⟩ := List.exists_cons_of_ne_nil hne
  induction quals generalizing q with
  | nil => exact ⟨q.text, nameLed_ident q.ident, fun c hc => .inl (hword q c hc), fun _ => rfl⟩
  | cons p quals ih =>
    obtain ⟨m, -, hchars, hcut⟩ := ih p (List.cons_ne_nil _ _)
    refine ⟨q.text ++ '.' :: m, (nameLed_ident q.ident).append _, ?_, ?_⟩
    · intro c hc
      rcases List.mem_append.1 hc with hc | hc
      · exact .inl (hword q c hc)
      · rcases List.mem_cons.1 hc with rfl | hc
        · exact .inr rfl
        · exact hchars c hc
    · intro s
      have hstep : qualify (q :: p :: quals) s = q.text ++ '.' :: qualify (p :: quals) s := rfl
      rw [hstep, hcut, List.append_assoc, List.cons_append]

/-! ## Names of functions -/

section Behind

variable {q s : Str} (hq : NameLed q) (hchars : ∀ c ∈ q, isWordChar c = true ∨ c = '.')
  (hs : Ends Firm Firm s)

include hq hchars hs

/-- **Qualifiers are part of the function's name.** -/
theorem functionName_qualified :
    functionName (q ++ '.' :: s) = lower q ++ '.' :: functionName s := by
  have htake : (q ++ '.' :: s).takeWhile (fun c => !(c == '(')) =
      q ++ ['.'] ++ s.takeWhile fun c => !(c == '(') := by
    rw [List.takeWhile_append_of_pos, List.takeWhile_cons_of_pos (by decide), List.append_assoc]
    · rfl
    · intro c hc
      rcases hchars c hc with h | rfl
      · have hne : c ≠ '(' := by
          rintro rfl
          exact absurd h (by decide)
        simpa using hne
      · decide
  -- the name begins with a qualifier, and without it with the first character of the item
  have hfront : ∀ t, trimStart (q ++ ['.'] ++ t) = q ++ ['.'] ++ t := by
    intro t
    obtain ⟨c, r, rfl⟩ := List.exists_cons_of_ne_nil hq.ne_nil
    have hc : isWhitespace c = false := by
      rcases hchars c List.mem_cons_self with h | rfl
      · exact not_isWhitespace_of_isWordChar h
      · decide
    exact List.dropWhile_cons_of_neg (by simp [hc])
  have hbare : trimStart (s.takeWhile fun c => !(c == '(')) = s.takeWhile fun c => !(c == '(') := by
    obtain ⟨c, r, rfl⟩ := List.exists_cons_of_ne_nil hs.ne
    have hc : isWhitespace c = false := hs.first c rfl
    by_cases hparen : c = '('
    · rw [hparen]
      rfl
    · rw [List.takeWhile_cons_of_pos (by simpa using hparen)]
      exact List.dropWhile_cons_of_neg (by simp [hc])
  unfold functionName trim
  rw [htake, hfront, hbare, trimEnd, rdropWhile_append (by decide), lower_append, lower_append,
    List.append_assoc]
  rfl

/-- **A qualified call is an introspection function or no call.** -/
theorem called_qualified : called (q ++ '.' :: s) =
    if (scalarIntrospection (rsplitNext '.' (functionName s))).isSome then called s else none := by
  have hparen : '(' ∈ q ++ '.' :: s ↔ '(' ∈ s := by
    rw [List.mem_append, List.mem_cons]
    constructor
    · rintro (h | h | h)
      · rcases hchars _ h with h | h <;> exact absurd h (by decide)
      · exact absurd h (by decide)
      · exact h
    · exact fun h => .inr (.inr h)
  by_cases hmem : '(' ∈ s
  · -- the dots of the qualifiers are in the name
    have hdot : ¬(lower q ++ '.' :: functionName s).all isWordChar = true := by
      rw [List.all_append, List.all_cons]
      simp [show isWordChar '.' = false from rfl]
    unfold called
    rw [functionName_qualified hq hchars hs, rsplitNext_sep, if_pos (hparen.2 hmem), if_pos hmem]
    cases scalarIntrospection (rsplitNext '.' (functionName s)) with
    | some r => rfl
    | none => exact if_neg fun h => hdot h.2
  · rw [called_none hmem, called_none (mt hparen.1 hmem), ite_self]

/-- The last name of a qualified item is that of the item. -/
theorem classifyExpr_qualified : classifyExpr (q ++ '.' :: s) =
    some ((called (q ++ '.' :: s)).getD (classifyIdent s)) := by
  have hfirm : Ends Firm Firm q := by
    refine ends_of_forall hq.ne_nil ?_
    intro d hd
    rcases hchars d hd with h | rfl
    · exact not_isWhitespace_of_isWordChar h
    · exact rfl
  have hends := hfirm.append hs ['.']
  rw [List.append_assoc] at hends
  have hident : classifyIdent (q ++ '.' :: s) = classifyIdent s := by
    unfold classifyIdent
    rw [rsplitNext_sep]
  rw [classifyExpr_name (hq.append ('.' :: s)) hends.trim, hident]

end Behind

/-! ## Qualified items -/

/-- **An item that its qualifiers do not change**: a name, or a call of a function that is in
double quotes or in the introspection table. -/
def ItemCore.Transparent : ItemCore → Prop
  | .name _ => True
  | .call (.quoted ..) _ _ => True
  | .call (.plain f) _ _ => (scalarIntrospection (lower f.text)).isSome

/-- A quoted function's name is no word. -/
theorem functionName_quote (r : Str) : ¬(functionName ('"' :: r)).all isWordChar = true := by
  intro hall
  have hmem : '"' ∈ trim (('"' :: r).takeWhile fun c => !(c == '(')) :=
    mem_dropEnds List.mem_cons_self (by decide)
  have hlower : '"' ∈ functionName ('"' :: r) := List.mem_map.2 ⟨'"', hmem, rfl⟩
  exact absurd (List.all_eq_true.1 hall _ hlower) (by decide)

/-- What is in the introspection table or no call at all is the same call behind qualifiers. -/
theorem called_of_quote (r : Str) :
    (if (scalarIntrospection (rsplitNext '.' (functionName ('"' :: r)))).isSome
      then called ('"' :: r) else none) = called ('"' :: r) := by
  unfold called
  cases scalarIntrospection (rsplitNext '.' (functionName ('"' :: r))) with
  | some col => rfl
  | none =>
    have hno : ¬(functionName ('"' :: r) ≠ [] ∧ (functionName ('"' :: r)).all isWordChar) :=
      fun h => functionName_quote r h.2
    dsimp only
    rw [if_neg hno, ite_self]
    rfl

theorem functionName_call (f : Qualifier) (args : Str) :
    functionName (f.text ++ group args) = lower f.text := by
  obtain ⟨hne, hword, -⟩ := isIdent_spec f.ident
  have htake : (f.text ++ group args).takeWhile (fun c => !(c == '(')) = f.text := by
    rw [List.takeWhile_append_of_pos]
    · exact List.append_nil _
    · intro c hc
      have hparen : c ≠ '(' := by
        rintro rfl
        exact not_mem_of_word hword (by decide) hc
      simpa using hparen
  rw [functionName, htake, (ends_word hne hword).firm.trim]

/-- **Qualifiers change nothing exactly when there are none, or the item is a name, or its
function is quoted or an introspection function**: they are no longer read as part of a call. -/
theorem qualified_iff (quals : List Qualifier) (e : ItemCore) :
    classifyExpr (qualify quals e.render) = classifyExpr e.render ↔
      quals = [] ∨ e.Transparent := by
  by_cases hquals : quals = []
  · exact iff_of_true (by rw [hquals]; rfl) (.inl hquals)
  rw [or_iff_right hquals]
  obtain ⟨p, hled, hchars, hcut⟩ := qualify_cut hquals
  have hfirm := e.ends.firm
  rw [hcut, classifyExpr_qualified hled hchars hfirm, called_qualified hled hchars hfirm,
    classifyExpr_name e.nameLed hfirm.trim]
  -- what begins with a double quote is the same call
  have hsame : ∀ t, e.render = '"' :: t →
      (if (scalarIntrospection (rsplitNext '.' (functionName e.render))).isSome
        then called e.render else none) = called e.render := by
    intro t ht
    rw [ht]
    exact called_of_quote t
  cases e with
  | name x =>
    refine iff_of_true ?_ trivial
    cases x with
    | quoted s free => rw [hsame (s ++ ['"']) rfl]
    | plain x =>
      have hparen : '(' ∉ (ItemCore.name (.plain x)).render :=
        not_mem_of_word (isIdent_spec x.ident).2.1 (by decide)
      rw [called_none hparen, ite_self]
  | call f args balanced =>
    cases f with
    | quoted s free => exact iff_of_true (by rw [hsame (s ++ ['"'] ++ group args) rfl]) trivial
    | plain f =>
      obtain ⟨hne, hword, -⟩ := isIdent_spec f.ident
      have hlower : (lower f.text).all isWordChar := by rw [all_isWordChar_lower]; exact hword
      have hname : functionName (ItemCore.call (.plain f) args balanced).render = lower f.text :=
        functionName_call f args
      have hdot : rsplitNext '.' (lower f.text) = lower f.text :=
        rsplitNext_self (not_mem_of_word hlower (by decide))
      rw [hname, hdot]
      cases htable : scalarIntrospection (lower f.text) with
      | some col =>
        refine iff_of_true rfl ?_
        rw [ItemCore.Transparent, htable]
        rfl
      | none =>
        -- a call without qualifiers, and a name that is none with them
        have hcalled : called (ItemCore.call (.plain f) args balanced).render =
            some { ColumnSpec.named (lower f.text) with
              aggregate := aggregates.contains (lower f.text) } := by
          have hmem : '(' ∈ (ItemCore.call (.plain f) args balanced).render :=
            List.mem_append_right _ List.mem_cons_self
          unfold called
          rw [if_pos hmem, hname, hdot, htable]
          exact if_pos ⟨mt lower_eq_nil.1 hne, hlower⟩
        have hident : classifyIdent (ItemCore.call (.plain f) args balanced).render =
            .named unnamed := classifyIdent_unnamed (call_not_named f.text args)
        refine iff_of_false ?_ ?_
        · rw [hcalled, hident]
          intro h
          have hunnamed : unnamed = lower f.text :=
            congrArg ColumnSpec.name (Option.some.inj h)
          rw [← hunnamed] at hlower
          exact absurd hlower (by decide)
        · rw [ItemCore.Transparent, htable]
          exact Bool.false_ne_true

/-- **A qualified count is no aggregate.** -/
theorem qualified_count : classifyExpr "pg_catalog.count(*)" = some (.named unnamed) ∧
    classifyExpr "count(*)" = some { ColumnSpec.named "count" with aggregate := true } ∧
    ∃ (quals : List Qualifier) (e : ItemCore), qualify quals e.render = "pg_catalog.count(*)" ∧
      e.render = "count(*)" ∧ classifyExpr (qualify quals e.render) ≠ classifyExpr e.render := by
  have hqualified : classifyExpr "pg_catalog.count(*)" = some (.named unnamed) := by decide +kernel
  have hplain : classifyExpr "count(*)" =
      some { ColumnSpec.named "count" with aggregate := true } := by decide +kernel
  refine ⟨hqualified, hplain, [⟨"pg_catalog", by decide⟩],
    .call (.plain ⟨"count", by decide⟩) "*" (by decide), rfl, rfl, ?_⟩
  intro h
  exact absurd ((hqualified.symm.trans h).trans hplain) (by decide)

end EtherealDb
