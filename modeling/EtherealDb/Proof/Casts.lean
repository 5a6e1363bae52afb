import EtherealDb.Proof.Classify

/-!
# Chains of casts

`find_top_level_cast` keeps the last `::` of an item, and what stands before it is classified
with the casts that are still in it.

* `parseItem_cast`: the last cast types the classification of the text before it.
* `classifyExpr_casts`: behind a cast an expression is a call or has no name.
* `casts_collapse_iff`: **a chain of casts gives the column of its last cast exactly when it
  is that cast alone, or the core is a call or has no name to lose.**
-/

namespace EtherealDb

open Str Reading

/-! ## Cores -/

/-- A name with its qualifiers, each in double quotes or not. -/
structure DottedName where
  quals : List Alias
  last : Alias

def DottedName.render (n : DottedName) : Str :=
  n.quals.foldr (fun q s => q.render ++ '.' :: s) n.last.render

/-- What casts are applied to. -/
inductive Core where
  | name (n : DottedName)
  | number (s : Str) (numeric : isNumeric s)
  | literal (s : Str)
  /-- A function call with its arguments as they are written. -/
  | call (f : DottedName) (args : Str) (balanced : Balanced args)

def Core.render : Core → Str
  | .name n => n.render
  | .number s _ => s
  | .literal s => quoted s
  | .call f args _ => f.render ++ group args

/-- A chain of casts. -/
def casts (ts : List SqlType) : Str := ts.flatMap fun t => ':' :: ':' :: t.text

theorem casts_append (ts us : List SqlType) : casts (ts ++ us) = casts ts ++ casts us :=
  List.flatMap_append

/-! ## Quiet texts with solid ends -/

/-- A text that the scanners pass over from end to end. -/
structure Intact (s : Str) : Prop where
  quiet : Quiet s
  ends : Ends Solid Solid s

theorem Intact.sep {a b : Str} (ha : Intact a) (hb : Intact b) : Intact (a ++ '.' :: b) := by
  have hends := ha.ends.append hb.ends ['.']
  rw [List.append_assoc] at hends
  exact ⟨ha.quiet.sep hb.quiet (by decide) (by decide), hends⟩

theorem Alias.intact (a : Alias) : Intact a.render := ⟨a.quiet, a.ends⟩

theorem DottedName.intact (n : DottedName) : Intact n.render := by
  obtain ⟨quals, last⟩ := n
  induction quals with
  | nil => exact last.intact
  | cons q quals ih => exact q.intact.sep ih

theorem Intact.group {a args : Str} (ha : Intact a) (hargs : Balanced args) :
    Intact (a ++ group args) := by
  obtain ⟨hhidden, hrun⟩ := opaque_group Scan.open_start le_rfl hargs
  have hends := ha.ends.append (ends_wrap (p := Solid) '(' ')' args (by decide) (by decide)) []
  rw [List.append_nil] at hends
  exact ⟨ha.quiet.append (quiet_hidden hhidden hrun) (breaks_cons (by decide) _), hends⟩

theorem intact_number {s : Str} (h : isNumeric s) : Intact s := by
  obtain ⟨hne, hchars⟩ := isNumeric_chars h
  have hsolid : ∀ c ∈ s, Solid c := by
    intro c hc
    rcases hchars c hc with h | rfl | rfl
    · exact solid_word (digit_word h)
    · decide
    · decide
  have harm : ∀ c ∈ s, Scan.start.arm c = none := by
    intro c hc
    rcases hchars c hc with h | rfl | rfl
    · exact Scan.arm_eq_none (Scan.isWordChar_ne (digit_word h))
    · exact Scan.arm_eq_none (by decide)
    · exact Scan.arm_eq_none (by decide)
  refine ⟨⟨Scan.run_of_arm harm, ?_⟩, ends_of_forall hne hsolid⟩
  -- the words of a number are runs of digits
  intro w hw
  obtain ⟨v, hv, rfl⟩ := List.mem_map.1 hw
  obtain ⟨a, u, b, hs, rfl, hne', hword⟩ := piece_of_mem hv
  refine digits_free hne' (List.all_eq_true.2 ?_)
  intro c hc
  have hcw := List.all_eq_true.1 hword c hc
  rcases hchars c (by rw [hs]; simp [hc]) with h | rfl | rfl
  · exact h
  · exact absurd hcw (by decide)
  · exact absurd hcw (by decide)

theorem Core.intact (e : Core) : Intact e.render := by
  cases e with
  | name n => exact n.intact
  | number s numeric => exact intact_number numeric
  | literal s =>
    obtain ⟨hhidden, hrun⟩ := opaque_quoted Scan.open_start s
    exact ⟨quiet_hidden hhidden hrun, ends_wrap '\'' '\'' (double s) (by decide) (by decide)⟩
  | call f args balanced => exact f.intact.group balanced

/-- A text with a cast. -/
theorem Intact.cast {a : Str} (ha : Intact a) (t : SqlType) : Intact (a ++ ':' :: ':' :: t.text) := by
  have hends := ha.ends.append (ends_word t.spec.1 t.spec.2.1) [':', ':']
  rw [List.append_assoc] at hends
  have hquiet := quiet_nil.sep t.quiet (c := ':') (by decide) (by decide)
  exact ⟨ha.quiet.sep hquiet (by decide) (by decide), hends⟩

theorem Intact.casts {a : Str} (ha : Intact a) (ts : List SqlType) : Intact (a ++ casts ts) := by
  induction ts generalizing a with
  | nil => rwa [EtherealDb.casts, List.flatMap_nil, List.append_nil]
  | cons t ts ih =>
    have hcons : a ++ EtherealDb.casts (t :: ts) =
        a ++ ':' :: ':' :: t.text ++ EtherealDb.casts ts := by
      simp [EtherealDb.casts]
    rw [hcons]
    exact ih (ha.cast t)

/-! ## The last cast -/

/-- **The last cast types the classification of the text before it.** -/
theorem parseItem_cast {a : Str} (ha : Intact a) (t : SqlType) :
    parseItem (a ++ ':' :: ':' :: t.text) =
      (classifyExpr a).map fun spec => [spec.retype (some t)] := by
  have hcast := ha.cast t
  unfold parseItem
  simp only [hcast.ends.firm.trim]
  rw [if_neg hcast.ends.ne, isStar_solid hcast.ends, if_neg (by decide)]
  simp only [peelAlias_none (hcast.quiet.find_none (by decide)), peelCast_cast ha.quiet.closed,
    ha.ends.firm.trim, Option.bind_eq_bind, Option.bind_some]
  cases classifyExpr a <;> rfl

/-- **Behind a cast an expression is a call or has no name.** -/
theorem classifyExpr_casts {a : Str} (ha : Intact a) {ts : List SqlType} (hne : ts ≠ []) :
    classifyExpr (a ++ casts ts) = some ((called a).getD (.named unnamed)) := by
  obtain ⟨t, ts, rfl⟩ := List.exists_cons_of_ne_nil hne
  have hchars : ∀ c ∈ casts (t :: ts), c = ':' ∨ isWordChar c = true := by
    intro c hc
    obtain ⟨u, -, hu⟩ := List.mem_flatMap.1 hc
    rcases List.mem_cons.1 hu with h | hu
    · exact .inl h
    rcases List.mem_cons.1 hu with h | hu
    · exact .inl h
    · exact .inr (List.all_eq_true.1 u.spec.2.1 c hu)
  -- a chain has colons and word characters: no quote, no bracket and no dot
  have hfree : ∀ {c}, c ≠ ':' → isWordChar c = false → c ∉ casts (t :: ts) := by
    intro c hcolon hword hmem
    rcases hchars c hmem with h | h
    · exact hcolon h
    · rw [hword] at h
      cases h
  have hcolon : ':' ∈ casts (t :: ts) := List.mem_cons_self
  have hintact := ha.casts (t :: ts)
  have htrim := hintact.ends.firm.trim
  have hnumber : isNumeric (a ++ casts (t :: ts)) = false := by
    by_contra h
    have hall := (isNumeric_chars (by simpa using h)).2 ':' (List.mem_append_right a hcolon)
    exact absurd hall (by decide)
  have hquotes : ¬∃ m, a ++ casts (t :: ts) = '\'' :: m ++ ['\''] := by
    rintro ⟨m, hm⟩
    have hlast : (a ++ casts (t :: ts)).getLast? = some '\'' := by rw [hm, List.getLast?_concat]
    rw [List.getLast?_append_of_ne_nil _ (List.ne_nil_of_mem hcolon)] at hlast
    exact hfree (by decide) (by decide) (List.mem_of_mem_getLast? hlast)
  have hident : classifyIdent (a ++ casts (t :: ts)) = .named unnamed := by
    refine classifyIdent_unnamed (not_named (c := ':') ?_ (by decide) (by decide) (by decide))
    rw [rsplitNext_continue (hfree (by decide) (by decide))]
    exact List.mem_append_right _ hcolon
  have hcalled : called (a ++ casts (t :: ts)) = called a := by
    by_cases hparen : '(' ∈ a
    · exact called_append hparen _
    · rw [called_none hparen, called_none]
      rw [List.mem_append, not_or]
      exact ⟨hparen, hfree (by decide) (by decide)⟩
  rw [classifyExpr_of (by rw [htrim]; exact hnumber) (by rw [htrim]; exact hquotes), htrim, hident,
    hcalled]

/-! ## Chains -/

theorem DottedName.nameLed (n : DottedName) : NameLed n.render := by
  have halias : ∀ a : Alias, NameLed a.render := by
    intro a
    cases a with
    | ident x => exact nameLed_ident x.ident
    | quoted s free => exact nameLed_dquoted s
  obtain ⟨quals, last⟩ := n
  cases quals with
  | nil => exact halias last
  | cons q quals => exact (halias q).append _

/-- **The column of a core does not change when a chain of casts is put between it and its
cast**: a call is read by its name, and a name that is none cannot be lost. -/
def Core.Steady : Core → Prop
  | .name n => ¬Named n.render ∨ CallLike n.render
  | .number .. | .literal _ => False
  | .call .. => True

/-- What is reported of a call or a name is no literal of its own. -/
theorem echo_ne {spec : ColumnSpec} (h : FromTable spec ∨ spec.literal = none) (v : Str)
    (wt : WireType) (t : SqlType) :
    spec.retype (some t) ≠ (ColumnSpec.echo unnamed v wt).retype (some t) := by
  intro heq
  rcases h with ⟨name, col, value, wt', hname, rfl⟩ | hnone
  · exact scalarIntrospection_named hname (congrArg ColumnSpec.name heq)
  · have hliteral := congrArg ColumnSpec.literal heq
    simp only [ColumnSpec.retype, hnone] at hliteral
    cases hliteral

/-- A call or a name is told from a text without one exactly by its name. -/
theorem retype_name_iff (s : Str) (t : SqlType) :
    ((called s).getD (.named unnamed)).retype (some t) =
      ((called s).getD (classifyIdent s)).retype (some t) ↔ ¬Named s ∨ CallLike s := by
  rw [← called_isSome]
  cases called s with
  | some spec => exact iff_of_true rfl (.inr rfl)
  | none =>
    constructor
    · intro h
      refine .inl fun hnamed => classifyIdent_named hnamed ?_
      exact (congrArg ColumnSpec.name h).symm
    · rintro (h | h)
      · rw [Option.getD_none, Option.getD_none, classifyIdent_unnamed h]
      · cases h

/-- **Chains of casts collapse exactly when there is one cast, or the core is a call or has no
name**: only these are classified alike with casts behind them. -/
theorem casts_collapse_iff (e : Core) (ts : List SqlType) (t : SqlType) :
    parseItem (e.render ++ casts (ts ++ [t])) = parseItem (e.render ++ casts [t]) ↔
      ts = [] ∨ e.Steady := by
  by_cases hts : ts = []
  · exact iff_of_true (by rw [hts, List.nil_append]) (.inl hts)
  have hlast : casts [t] = ':' :: ':' :: t.text := by simp [casts]
  have hchain : e.render ++ casts (ts ++ [t]) =
      e.render ++ casts ts ++ ':' :: ':' :: t.text := by
    rw [casts_append, hlast, List.append_assoc]
  rw [hchain, hlast, parseItem_cast (e.intact.casts ts), parseItem_cast e.intact,
    classifyExpr_casts e.intact hts, Option.map_some]
  -- behind the chain no literal of the core is left
  have hbehind : FromTable ((called e.render).getD (.named unnamed)) ∨
      ((called e.render).getD (.named unnamed)).literal = none := by
    cases hcall : called e.render with
    | none => exact .inr rfl
    | some spec =>
      rw [Option.getD_some]
      exact called_cases hcall
  have hsteady : ts = [] ∨ e.Steady ↔ e.Steady := or_iff_right hts
  rw [hsteady]
  have hinj : ∀ a b : ColumnSpec, some [a] = some [b] ↔ a = b := by simp
  cases e with
  | number s numeric =>
    have hecho : ∃ wt, classifyExpr s = some (.echo unnamed s wt) := by
      unfold classifyExpr
      dsimp only
      rw [(intact_number numeric).ends.firm.trim, if_pos numeric]
      exact ⟨_, rfl⟩
    obtain ⟨wt, hecho⟩ := hecho
    refine iff_of_false ?_ id
    rw [Core.render, hecho, Option.map_some, hinj]
    exact echo_ne hbehind s wt t
  | literal s =>
    have hquoted : trim (quoted s) = '\'' :: double s ++ ['\''] :=
      (Core.literal s).intact.ends.firm.trim
    refine iff_of_false ?_ id
    rw [Core.render, classifyExpr_quotes hquoted, Option.map_some, hinj]
    exact echo_ne hbehind _ .text t
  | name n =>
    rw [Core.render, classifyExpr_name n.nameLed n.intact.ends.firm.trim, Option.map_some, hinj]
    exact retype_name_iff n.render t
  | call f args balanced =>
    rw [Core.render, classifyExpr_name (f.nameLed.append _)
      (f.intact.group balanced).ends.firm.trim, Option.map_some, hinj]
    exact iff_of_true ((retype_name_iff _ t).2 (.inl (call_not_named f.render args))) trivial

/-- **A chain of casts loses a column's name.** -/
theorem chain_unnamed : parseItem "a::text::int" = some [⟨unnamed, some .int4, none, false⟩] ∧
    parseItem "a::int" = some [⟨"a", some .int4, none, false⟩] ∧
    ∃ (e : Core) (ts : List SqlType) (t : SqlType), e.render ++ casts (ts ++ [t]) = "a::text::int" ∧
      e.render ++ casts [t] = "a::int" ∧
      parseItem (e.render ++ casts (ts ++ [t])) ≠ parseItem (e.render ++ casts [t]) := by
  have hchain : parseItem "a::text::int" = some [⟨unnamed, some .int4, none, false⟩] := by
    decide +kernel
  have hlast : parseItem "a::int" = some [⟨"a", some .int4, none, false⟩] := by decide +kernel
  refine ⟨hchain, hlast, .name ⟨[], .ident ⟨"a", by decide, by decide⟩⟩,
    [⟨"text", .text, by decide⟩], ⟨"int", .int4, by decide⟩, rfl, rfl, ?_⟩
  intro h
  exact absurd ((hchain.symm.trans h).trans hlast) (by decide)

end EtherealDb
