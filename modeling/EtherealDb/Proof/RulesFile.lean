import EtherealDb.Spec.Rules
import Mathlib.Data.List.Nodup
import Mathlib.Data.List.ReduceOption

/-!
# The grammar of a rules file

`RuleLine` says which lines a rules file may have, and which rule each of them adds.

* `parseLine_iff`: the body of the loop accepts the lines of the grammar.
* `parseLines_ok_iff`, `parseLines_error`: run lemmas: what the loop adds, and where it stops.
* `parse_grammar`: **`Rules::parse` accepts exactly its grammar**, and an error names the
  first line that breaks it.
-/

namespace EtherealDb

open Str

/-! ## Lines -/

/-- **A line that states a rule**: a match kind, a pattern and the name of a type. -/
structure StatesRule (raw : Str) (k : MatchKind) (pat : Str) (st : SemanticType) (kind ty : Str) :
    Prop where
  split : Fields isWhitespace (Rules.beforeComment raw) [kind, pat, ty]
  keyword : lower kind = k.keyword
  name : (lower ty, st) ∈ typeNames

/-- **A line of the grammar**, with the rule that it adds. -/
inductive RuleLine (raw : Str) : Option Rule → Prop where
  | blank (h : Blank isWhitespace (Rules.beforeComment raw)) : RuleLine raw none
  | rule {k : MatchKind} {pat : Str} {st : SemanticType} {kind ty : Str}
    (h : StatesRule raw k pat st kind ty) : RuleLine raw (some ⟨k, normalize pat, st⟩)

theorem matchKindFromStr_iff {s : Str} {k : MatchKind} :
    matchKindFromStr s = some k ↔ s = k.keyword := by
  constructor
  · intro h
    have hk := List.find?_some h
    exact (beq_iff_eq.1 hk).symm
  · rintro rfl
    cases k <;> decide

/-- No name is in the table twice. -/
theorem typeNames_unique : (typeNames.map Prod.fst).Nodup := by decide +kernel

theorem semanticFromStr_iff {s : Str} {st : SemanticType} :
    semanticFromStr s = some st ↔ (lower s, st) ∈ typeNames := by
  unfold semanticFromStr
  constructor
  · intro h
    obtain ⟨e, he, rfl⟩ := Option.map_eq_some_iff.1 h
    have hname := List.find?_some he
    rw [← beq_iff_eq.1 hname]
    exact List.mem_of_find?_eq_some he
  · intro h
    cases hfind : typeNames.find? fun e => e.1 == lower s with
    | none => exact absurd (List.find?_eq_none.1 hfind _ h) (by simp)
    | some e =>
      have hname := List.find?_some hfind
      rw [List.inj_on_of_nodup_map typeNames_unique (List.mem_of_find?_eq_some hfind) h
        (beq_iff_eq.1 hname)]
      rfl

namespace Rules

/-- **The lines that the loop accepts are those of the grammar.** -/
theorem parseLine_iff {i : ℕ} {raw : Str} {o : Option Rule} :
    parseLine i raw = .ok o ↔ RuleLine raw o := by
  have hfields : splitWhitespace (trim (beforeComment raw)) =
      fields isWhitespace (beforeComment raw) := splitWhitespace_trim _
  constructor
  · intro h
    unfold parseLine at h
    dsimp only at h
    split at h
    · next hnil =>
      obtain rfl := Except.ok.inj h
      rw [hnil] at hfields
      exact .blank (fields_eq_nil_iff.1 hfields.symm)
    · split at h
      · next kind pat ty more hsplit =>
        split at h
        · cases h
        · next hmore =>
          obtain rfl := not_not.1 hmore
          rw [hfields] at hsplit
          split at h
          · cases h
          · next k hk =>
            split at h
            · cases h
            · next st hst =>
              obtain rfl := Except.ok.inj h
              exact .rule ⟨fields_eq_iff.1 hsplit, matchKindFromStr_iff.1 hk,
                semanticFromStr_iff.1 hst⟩
      · cases h
  · intro h
    unfold parseLine
    cases h with
    | blank h => rw [trim_eq_nil h]; rfl
    | rule h =>
      have hsplit := fields_eq_iff.2 h.split
      rw [hsplit] at hfields
      have hne : trim (beforeComment raw) ≠ [] := by
        intro hnil
        rw [hnil] at hfields
        cases hfields
      simp only [if_neg hne, hfields, matchKindFromStr_iff.2 h.keyword, semanticFromStr_iff.2 h.name,
        ne_eq, not_true_eq_false, if_false]

theorem parseLine_error {i : ℕ} {raw e : Str} (h : parseLine i raw = .error e) :
    ∃ what, e = lineError i what := by
  unfold parseLine at h
  dsimp only at h
  split at h
  · cases h
  · split at h
    · split at h
      · exact ⟨_, (Except.error.inj h).symm⟩
      · split at h
        · exact ⟨_, (Except.error.inj h).symm⟩
        · split at h
          · exact ⟨_, (Except.error.inj h).symm⟩
          · cases h
    · exact ⟨_, (Except.error.inj h).symm⟩

/-- A line is refused whatever its number. -/
theorem parseLine_refused {i : ℕ} {raw e : Str} (h : parseLine i raw = .error e) (o : Option Rule) :
    ¬RuleLine raw o := by
  intro hline
  rw [parseLine_iff.2 hline] at h
  cases h

/-! ## Files -/

/-- **What the loop adds**: the rules of the lines, in order. -/
theorem parseLines_ok_iff {i : ℕ} {ls : List Str} {rs R : List Rule} :
    parseLines i ls rs = .ok R ↔ ∃ os, List.Forall₂ RuleLine ls os ∧ R = rs ++ os.reduceOption := by
  induction ls generalizing i rs with
  | nil =>
    rw [parseLines]
    constructor
    · intro h
      exact ⟨[], .nil, by simpa [List.reduceOption] using (Except.ok.inj h).symm⟩
    · rintro ⟨os, hos, rfl⟩
      cases hos
      simp [List.reduceOption]
  | cons raw rest ih =>
    rw [parseLines]
    cases hline : parseLine i raw with
    | error e =>
      refine iff_of_false (by simp) ?_
      rintro ⟨os, hos, -⟩
      cases hos with
      | cons h _ => exact parseLine_refused hline _ h
    | ok o =>
      have hmine := parseLine_iff.1 hline
      -- the grammar gives this line the same rule
      have huniq : ∀ o', RuleLine raw o' → o' = o := by
        intro o' h'
        exact Except.ok.inj ((parseLine_iff (i := i)).2 h' ▸ hline)
      have hcons : ∀ {rs' : List Rule}, (∀ os : List (Option Rule),
          rs ++ (o :: os).reduceOption = rs' ++ os.reduceOption) →
          (parseLines (i + 1) rest rs' = .ok R ↔
            ∃ os, List.Forall₂ RuleLine (raw :: rest) os ∧ R = rs ++ os.reduceOption) := by
        intro rs' hrs
        rw [ih]
        constructor
        · rintro ⟨os, hos, rfl⟩
          exact ⟨o :: os, .cons hmine hos, (hrs os).symm⟩
        · rintro ⟨_, hos, rfl⟩
          cases hos with
          | cons h hos =>
            obtain rfl := huniq _ h
            exact ⟨_, hos, hrs _⟩
      cases o with
      | none => exact hcons fun os => by rw [List.reduceOption_cons_of_none]
      | some r => exact hcons fun os => by rw [List.reduceOption_cons_of_some]; simp

/-- **Where the loop stops**: at the first line that is not of the grammar. -/
theorem parseLines_error {i : ℕ} {ls : List Str} {rs : List Rule} {e : Str}
    (h : parseLines i ls rs = .error e) : ∃ pre raw post what, ls = pre ++ raw :: post ∧
      (∀ l ∈ pre, ∃ o, RuleLine l o) ∧ (∀ o, ¬RuleLine raw o) ∧
      e = lineError (i + pre.length) what := by
  induction ls generalizing i rs with
  | nil => cases h
  | cons raw rest ih =>
    have hrest : ∀ {o rs'}, parseLine i raw = .ok o → parseLines (i + 1) rest rs' = .error e →
        ∃ pre raw' post what, raw :: rest = pre ++ raw' :: post ∧ (∀ l ∈ pre, ∃ o, RuleLine l o) ∧
          (∀ o, ¬RuleLine raw' o) ∧ e = lineError (i + pre.length) what := by
      intro o rs' hline hrest
      obtain ⟨pre, raw', post, what, rfl, hpre, hraw, rfl⟩ := ih hrest
      refine ⟨raw :: pre, raw', post, what, rfl, ?_, hraw, ?_⟩
      · intro l hl
        rcases List.mem_cons.1 hl with rfl | hl
        · exact ⟨o, parseLine_iff.1 hline⟩
        · exact hpre l hl
      · rw [List.length_cons, Nat.add_assoc, Nat.add_comm 1]
    rw [parseLines] at h
    split at h
    · next e' hline =>
      obtain rfl := Except.error.inj h
      obtain ⟨what, rfl⟩ := parseLine_error hline
      exact ⟨[], raw, rest, what, rfl, by simp, parseLine_refused hline, rfl⟩
    · next hline => exact hrest hline h
    · next hline => exact hrest hline h

theorem parse_ok_iff {text : Str} {R : Rules} : parse text = .ok R ↔
    ∃ os, List.Forall₂ RuleLine (lines text) os ∧ R.rules = os.reduceOption := by
  rw [← List.nil_append R.rules]
  have hloop : parseLines 0 (lines text) [] = .ok R.rules ↔ _ := parseLines_ok_iff
  simp only [List.nil_append] at hloop ⊢
  rw [← hloop, parse]
  cases parseLines 0 (lines text) [] with
  | error e => simp
  | ok rules =>
    simp only [Except.ok.injEq]
    constructor
    · rintro rfl
      rfl
    · rintro rfl
      rfl

/-- Lines that each are of the grammar are a file of it. -/
theorem exists_forall₂_iff {ls : List Str} :
    (∃ os, List.Forall₂ RuleLine ls os) ↔ ∀ raw ∈ ls, ∃ o, RuleLine raw o := by
  induction ls with
  | nil => exact iff_of_true ⟨[], .nil⟩ (by simp)
  | cons raw ls ih =>
    rw [List.forall_mem_cons, ← ih]
    constructor
    · rintro ⟨_, hos⟩
      cases hos with
      | cons h hos => exact ⟨⟨_, h⟩, _, hos⟩
    · rintro ⟨⟨o, h⟩, os, hos⟩
      exact ⟨o :: os, .cons h hos⟩

/-- The lines of a text that say something. -/
def statedLines (text : Str) : List Str :=
  (lines text).filter fun raw => ¬Blank isWhitespace (beforeComment raw)

/-- Blank lines add nothing. -/
theorem forall₂_stated {ls : List Str} {rs : List Rule} :
    (∃ os, List.Forall₂ RuleLine ls os ∧ rs = os.reduceOption) ↔
      List.Forall₂ (fun raw r => RuleLine raw (some r))
        (ls.filter fun raw => ¬Blank isWhitespace (beforeComment raw)) rs := by
  induction ls generalizing rs with
  | nil =>
    constructor
    · rintro ⟨_, ⟨⟩, rfl⟩
      exact .nil
    · rintro ⟨⟩
      exact ⟨[], .nil, rfl⟩
  | cons raw ls ih =>
    by_cases hb : Blank isWhitespace (beforeComment raw)
    · rw [List.filter_cons_of_neg (by simpa using hb), ← ih]
      constructor
      · rintro ⟨_, hos, rfl⟩
        cases hos with
        | cons h hos =>
          cases h with
          | blank => exact ⟨_, hos, by rw [List.reduceOption_cons_of_none]⟩
          | rule h => cases (fields_eq_nil_iff.2 hb).symm.trans (fields_eq_iff.2 h.split)
      · rintro ⟨os, hos, rfl⟩
        exact ⟨none :: os, .cons (.blank hb) hos, by rw [List.reduceOption_cons_of_none]⟩
    · rw [List.filter_cons_of_pos (by simpa using hb)]
      constructor
      · rintro ⟨_, hos, rfl⟩
        cases hos with
        | @cons _ o _ _ h hos =>
          cases o with
          | none => cases h with | blank h => exact absurd h hb
          | some r =>
            rw [List.reduceOption_cons_of_some]
            exact .cons h (ih.1 ⟨_, hos, rfl⟩)
      · intro h
        cases h with
        | @cons _ r _ _ h hrs =>
          obtain ⟨os, hos, rfl⟩ := ih.2 hrs
          exact ⟨some r :: os, .cons h hos, by rw [List.reduceOption_cons_of_some]⟩

/-- **The lines that say something decide.** -/
theorem parse_stated {text : Str} {R : Rules} : parse text = .ok R ↔
    List.Forall₂ (fun raw r => RuleLine raw (some r)) (statedLines text) R.rules := by
  rw [parse_ok_iff, forall₂_stated]
  rfl

end Rules

/-- **`Rules::parse` accepts exactly its grammar.** It succeeds when each line, without its
comment, is blank or states a rule; the rules are then those of the lines, in order, and
lines that say nothing change nothing, wherever they stand. An error names the first line that
breaks the grammar by its number, counted from one. -/
theorem parse_grammar (text : Str) :
    ((∃ R, Rules.parse text = .ok R) ↔ ∀ raw ∈ lines text, ∃ o, RuleLine raw o) ∧
    (∀ R, Rules.parse text = .ok R →
      ∃ os, List.Forall₂ RuleLine (lines text) os ∧ R.rules = os.reduceOption) ∧
    (∀ other, Rules.statedLines other = Rules.statedLines text →
      ∀ R, Rules.parse other = .ok R ↔ Rules.parse text = .ok R) ∧
    ∀ e, Rules.parse text = .error e → ∃ pre raw post what, lines text = pre ++ raw :: post ∧
      (∀ l ∈ pre, ∃ o, RuleLine l o) ∧ (∀ o, ¬RuleLine raw o) ∧
      e = "line ".toList ++ decimal (pre.length + 1) ++ ": ".toList ++ what := by
  refine ⟨?_, fun R => Rules.parse_ok_iff.1, ?_, ?_⟩
  · rw [← Rules.exists_forall₂_iff]
    constructor
    · rintro ⟨R, h⟩
      obtain ⟨os, hos, -⟩ := Rules.parse_ok_iff.1 h
      exact ⟨os, hos⟩
    · rintro ⟨os, hos⟩
      exact ⟨⟨os.reduceOption⟩, Rules.parse_ok_iff.2 ⟨os, hos, rfl⟩⟩
  · intro other h R
    rw [Rules.parse_stated, Rules.parse_stated, h]
  · intro e h
    unfold Rules.parse at h
    split at h
    · next e' hloop =>
      obtain rfl := Except.error.inj h
      obtain ⟨pre, raw, post, what, hsplit, hpre, hraw, rfl⟩ := Rules.parseLines_error hloop
      exact ⟨pre, raw, post, what, hsplit, hpre, hraw, by rw [Nat.zero_add]; rfl⟩
    · cases h

end EtherealDb
