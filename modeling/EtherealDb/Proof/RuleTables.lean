import EtherealDb.Proof.RulesFile

/-!
# User rules and built-in rules

`infer` goes through four tables; `Rules::infer` goes four times through one list of rules.

* `hits_iff`: what it is for a name to meet a pattern, kind by kind.
* `rulesInfer_eq`: `Rules::infer` is the four loops of `infer` over the rules of each kind.
* `inferWith_first`: **the first matching rule gives the type**, by kind and then by place.
* `tables_file_infer`: **the tables, written out as a rules file, are the built-in rules.**
-/

namespace EtherealDb

open Str

/-! ## Matching -/

/-- A character between the words of a name. -/
def isNameSep (c : Char) : Bool := c == '_' || c == '.' || c == ' '

/-- **What it is for a name to meet a pattern.** -/
def Meets (k : MatchKind) (name pat : Str) : Prop :=
  let n := normalize (trimMatches '"' (trim name))
  match k with
  | .exact => n = pat ∨ n.filter (· != '_') = pat
  | .suffix => pat <:+ n
  | .prefixed => pat <+: n
  -- a whole word of the name
  | .token => IsField isNameSep pat ∧ Placed isNameSep pat n

theorem hits_iff (k : MatchKind) (name pat : Str) :
    k.hits (nameForms name) pat = true ↔ Meets k name pat := by
  cases k with
  | exact => simp [MatchKind.hits, Meets, nameForms]
  | suffix => exact List.isSuffixOf_iff_suffix
  | prefixed => exact List.isPrefixOf_iff_prefix
  | token =>
    have hmem : (nameForms name).tokens.any (· == pat) = true ↔ pat ∈ (nameForms name).tokens := by
      simp
    exact hmem.trans mem_fields_iff

/-! ## Order -/

/-- The place of a kind in the order of matching. -/
def MatchKind.rank : MatchKind → ℕ
  | .exact => 0
  | .suffix => 1
  | .prefixed => 2
  | .token => 3

/-- The kinds, in the order of matching. -/
def MatchKind.order : List MatchKind := [.exact, .suffix, .prefixed, .token]

/-- The first hit among the patterns of a kind. -/
def firstHit (k : MatchKind) (f : NameForms) (t : List (Str × SemanticType)) : Option SemanticType :=
  (t.find? fun e => k.hits f e.1).map Prod.snd

/-- The patterns and types of the rules of a kind. -/
def Rules.table (R : Rules) (k : MatchKind) : List (Str × SemanticType) :=
  (R.rules.filter fun r => r.kind = k).map fun r => (r.pat, r.st)

/-- The built-in table of a kind. -/
def builtin : MatchKind → List (Str × SemanticType)
  | .exact => exactTable
  | .suffix => suffixTable
  | .prefixed => prefixTable
  | .token => tokenTable

/-- **`Rules::infer` goes through a table for each kind.** -/
theorem rulesInfer_eq (R : Rules) (name : Str) : R.infer name =
    MatchKind.order.findSome? fun k => firstHit k (nameForms name) (R.table k) := by
  have hkind : ∀ k : MatchKind, firstHit k (nameForms name) (R.table k) =
      ((R.rules.filter fun r => r.kind = k).find? fun r => k.hits (nameForms name) r.pat).map
        Rule.st := by
    intro k
    rw [firstHit, Rules.table, List.find?_map, Option.map_map]
    rfl
  unfold Rules.infer
  simp only [hkind]
  split
  · next hnil => simp [hnil, MatchKind.order]
  · rfl

/-- **So does `infer`.** -/
theorem infer_eq (name : Str) : infer name =
    (MatchKind.order.findSome? fun k => firstHit k (nameForms name) (builtin k)).getD
      .loremShort := by
  have horder : ∀ f : MatchKind → Option SemanticType, MatchKind.order.findSome? f =
      (f .exact <|> f .suffix <|> f .prefixed <|> f .token) := by
    intro f
    simp only [MatchKind.order, List.findSome?_cons, List.findSome?_nil]
    cases f .exact <;> cases f .suffix <;> cases f .prefixed <;> cases f .token <;> rfl
  rw [horder]
  rfl

/-! ## The first match -/

/-- The first kind that has a hit. -/
theorem findSome_order {f : MatchKind → Option SemanticType} {st : SemanticType}
    (h : MatchKind.order.findSome? f = some st) :
    ∃ k, f k = some st ∧ ∀ l : MatchKind, l.rank < k.rank → f l = none := by
  obtain ⟨pre, k, post, horder, hk, hpre⟩ := List.findSome?_eq_some_iff.1 h
  refine ⟨k, hk, fun l hl => hpre l ?_⟩
  -- the list is in the order of the ranks
  have hsorted : MatchKind.order.Pairwise fun a b => a.rank < b.rank := by decide
  have hmem : l ∈ MatchKind.order := by cases l <;> decide
  rw [horder] at hsorted hmem
  rcases List.mem_append.1 hmem with h | h
  · exact h
  · rcases List.mem_cons.1 h with rfl | h
    · exact absurd hl (Nat.lt_irrefl _)
    · have hlt := (List.pairwise_cons.1 (List.pairwise_append.1 hsorted).2.1).1 l h
      omega

variable {R : Rules} {name : Str} {st : SemanticType} {k : MatchKind}

theorem firstHit_table : firstHit k (nameForms name) (R.table k) =
    (R.rules.find? fun r => r.kind = k ∧ k.hits (nameForms name) r.pat).map Rule.st := by
  rw [firstHit, Rules.table, List.find?_map, List.find?_filter, Option.map_map]
  simp only [decide_eq_true_eq, Function.comp_apply]
  rfl

theorem firstHit_none (h : firstHit k (nameForms name) (R.table k) = none) {r : Rule}
    (hr : r ∈ R.rules) (hk : r.kind = k) : ¬Meets r.kind name r.pat := by
  rw [firstHit_table, Option.map_eq_none_iff, List.find?_eq_none] at h
  intro hm
  subst hk
  exact h r hr (by simpa using (hits_iff r.kind name r.pat).2 hm)

/-- **The first match**: a rule that a name meets, and before which, by kind and then by
place, it meets none. -/
structure FirstMatch (R : Rules) (name : Str) (i : ℕ) (r : Rule) : Prop where
  place : R.rules[i]? = some r
  meets : Meets r.kind name r.pat
  first : ∀ j r', R.rules[j]? = some r' → Meets r'.kind name r'.pat →
    r.kind.rank < r'.kind.rank ∨ r.kind = r'.kind ∧ i ≤ j

theorem rank_injective {k l : MatchKind} (h : k.rank = l.rank) : k = l := by
  revert h
  cases k <;> cases l <;> decide

theorem rulesInfer_some (h : R.infer name = some st) : ∃ i r, FirstMatch R name i r ∧ st = r.st := by
  rw [rulesInfer_eq] at h
  obtain ⟨k, hk, hbefore⟩ := findSome_order h
  rw [firstHit_table] at hk
  obtain ⟨r, hfind, rfl⟩ := Option.map_eq_some_iff.1 hk
  obtain ⟨hr, i, hi, hget, hearlier⟩ := List.find?_eq_some_iff_getElem.1 hfind
  obtain ⟨rfl, hhit⟩ : r.kind = k ∧ k.hits (nameForms name) r.pat = true := by simpa using hr
  refine ⟨i, r, ⟨by rw [List.getElem?_eq_getElem hi, hget], (hits_iff _ _ _).1 hhit, ?_⟩, rfl⟩
  intro j r' hj hm
  rcases Nat.lt_trichotomy r.kind.rank r'.kind.rank with hlt | heq | hgt
  · exact .inl hlt
  · refine .inr ⟨rank_injective heq, ?_⟩
    by_contra hji
    have hno := hearlier j (by omega)
    obtain ⟨hjlt, rfl⟩ := List.getElem?_eq_some_iff.1 hj
    have hkind := rank_injective heq.symm
    have hhit' := (hits_iff _ _ _).2 hm
    rw [hkind] at hhit'
    simp [hkind, hhit'] at hno
  · exact absurd hm (firstHit_none (hbefore _ hgt) (List.mem_of_getElem? hj) rfl)

theorem rulesInfer_none (h : R.infer name = none) : ∀ r ∈ R.rules, ¬Meets r.kind name r.pat := by
  rw [rulesInfer_eq, List.findSome?_eq_none_iff] at h
  intro r hr
  exact firstHit_none (h r.kind (by cases r.kind <;> decide)) hr rfl

/-- **The first matching rule gives the type**, and the built-in rules when there is none. -/
theorem inferWith_first (R : Rules) (name : Str) :
    (∃ i r, FirstMatch R name i r ∧ inferWith name R = r.st) ∨
      (∀ r ∈ R.rules, ¬Meets r.kind name r.pat) ∧ inferWith name R = infer name := by
  unfold inferWith
  cases h : R.infer name with
  | none => exact .inr ⟨rulesInfer_none h, rfl⟩
  | some st =>
    obtain ⟨i, r, hfirst, rfl⟩ := rulesInfer_some h
    exact .inl ⟨i, r, hfirst, rfl⟩

/-! ## The tables as a file -/

/-- A line for an entry of a table. -/
def EntryLine (raw : Str) (e : MatchKind × Str × SemanticType) : Prop :=
  ∃ kind ty, StatesRule raw e.1 e.2.1 e.2.2 kind ty

/-- **The built-in tables, written out**: a line for each entry, those of a table in its
order, and the tables mixed in any way. -/
def TablesFile (text : Str) : Prop :=
  ∃ es : List (MatchKind × Str × SemanticType), List.Forall₂ EntryLine (lines text) es ∧
    ∀ k, (es.filter fun e => e.1 = k).map Prod.snd = builtin k

/-- The rule of an entry. -/
def entryRule (e : MatchKind × Str × SemanticType) : Rule := ⟨e.1, normalize e.2.1, e.2.2⟩

theorem parse_entries {text : Str} {es : List (MatchKind × Str × SemanticType)}
    (h : List.Forall₂ EntryLine (lines text) es) :
    Rules.parse text = .ok ⟨es.map entryRule⟩ := by
  refine Rules.parse_ok_iff.2 ⟨(es.map entryRule).map some, ?_, ?_⟩
  · rw [List.map_map, List.forall₂_map_right_iff]
    refine h.imp ?_
    rintro raw e ⟨kind, ty, he⟩
    exact .rule he
  · simp [List.reduceOption]

/-- The patterns of the tables are normalized. -/
theorem normalize_builtin (k : MatchKind) : ∀ e ∈ builtin k, normalize e.1 = e.1 := by
  cases k <;> decide +kernel

theorem table_entries {es : List (MatchKind × Str × SemanticType)} (k : MatchKind)
    (h : (es.filter fun e => e.1 = k).map Prod.snd = builtin k) :
    (⟨es.map entryRule⟩ : Rules).table k = builtin k := by
  have hnorm := normalize_builtin k
  rw [← h] at hnorm ⊢
  rw [Rules.table, List.filter_map, List.map_map]
  refine List.map_congr_left ?_
  intro e he
  exact Prod.ext (hnorm e.2 (List.mem_map_of_mem he)) rfl

/-- **Rules files and built-in rules mean the same.** Written out as a rules file, the built-in
tables parse to rules that infer what they do; and whatever the rules, the first one that
matches gives the type, by kind and then by place, and the built-in rules when none does. -/
theorem tables_file_infer {text : Str} (h : TablesFile text) :
    (∃ R, Rules.parse text = .ok R ∧ ∀ name, (R.infer name).getD .loremShort = infer name) ∧
      ∀ (R : Rules) (name : Str), (∃ i r, FirstMatch R name i r ∧ inferWith name R = r.st) ∨
        (∀ r ∈ R.rules, ¬Meets r.kind name r.pat) ∧ inferWith name R = infer name := by
  obtain ⟨es, hes, htables⟩ := h
  refine ⟨⟨_, parse_entries hes, ?_⟩, inferWith_first⟩
  intro name
  rw [rulesInfer_eq, infer_eq]
  simp only [table_entries _ (htables _)]

/-- The entries of the tables, one table after another. -/
def tablesEntries : List (MatchKind × Str × SemanticType) :=
  MatchKind.order.flatMap fun k => (builtin k).map fun e => (k, e)

/-- The first name of a type. -/
def typeWord (st : SemanticType) : Str :=
  ((typeNames.find? fun e => e.2 = st).map Prod.fst).getD []

/-- An entry as a line. -/
def entryText (e : MatchKind × Str × SemanticType) : Str :=
  e.1.keyword ++ ' ' :: e.2.1 ++ ' ' :: typeWord e.2.2

/-- The tables as a file. -/
def tablesText : Str := tablesEntries.flatMap fun e => entryText e ++ ['\n']

/-- A word that stands in a file as it is. -/
def Plain (w : Str) : Prop := IsField isWhitespace w ∧ '#' ∉ w

instance (w : Str) : Decidable (Plain w) := inferInstanceAs (Decidable (_ ∧ _))

theorem plain_keyword (k : MatchKind) : Plain k.keyword ∧ lower k.keyword = k.keyword := by
  cases k <;> decide

theorem plain_builtin (k : MatchKind) : ∀ e ∈ builtin k, Plain e.1 := by
  cases k <;> decide +kernel

theorem plain_typeNames : ∀ e ∈ typeNames, Plain e.1 ∧ lower e.1 = e.1 := by decide +kernel

/-- Every type has a name. -/
theorem typeNames_find (st : SemanticType) : (typeNames.find? fun e => e.2 = st).isSome := by
  cases st <;> rfl

theorem plain_typeWord (st : SemanticType) :
    Plain (typeWord st) ∧ (lower (typeWord st), st) ∈ typeNames := by
  obtain ⟨e, he⟩ := Option.isSome_iff_exists.1 (typeNames_find st)
  have hmem := List.mem_of_find?_eq_some he
  have hst : e.2 = st := by simpa using List.find?_some he
  obtain ⟨hplain, hlower⟩ := plain_typeNames e hmem
  rw [typeWord, he, Option.map_some, Option.getD_some, hlower, ← hst]
  exact ⟨hplain, hmem⟩

/-- Three words with a space between them. -/
theorem fields_words {a b c : Str} (ha : Plain a) (hb : Plain b) (hc : Plain c) :
    Fields isWhitespace (Rules.beforeComment (a ++ ' ' :: b ++ ' ' :: c)) [a, b, c] := by
  have hspace : isWhitespace ' ' = true := by decide
  have hno : Blank isWhitespace [] := List.forall_mem_nil _
  have hcomment : Rules.beforeComment (a ++ ' ' :: b ++ ' ' :: c) = a ++ ' ' :: b ++ ' ' :: c := by
    refine List.takeWhile_eq_self_iff.2 fun d hd => ?_
    rw [bne_iff_ne]
    rintro rfl
    simp [ha.2, hb.2, hc.2] at hd
  rw [hcomment, List.append_assoc]
  refine .cons (g := []) hno ha.1 (by simp [hspace]) (.sep hspace ?_)
  refine .cons (g := []) hno hb.1 (by simp [hspace]) (.sep hspace ?_)
  exact .last hc.1

/-- A line feed and a carriage return are blank. -/
theorem not_mem_plain {w : Str} (h : Plain w) : '\n' ∉ w ∧ '\r' ∉ w := by
  constructor
  · intro hmem
    cases h.1.2 _ hmem
  · intro hmem
    cases h.1.2 _ hmem

theorem lines_entries {es : List (MatchKind × Str × SemanticType)} (h : ∀ e ∈ es, Plain e.2.1) :
    lines (es.flatMap fun e => entryText e ++ ['\n']) = es.map entryText := by
  induction es with
  | nil => rfl
  | cons e es ih =>
    have hk := not_mem_plain (plain_keyword e.1).1
    have hp := not_mem_plain (h e (by simp))
    have ht := not_mem_plain (plain_typeWord e.2.2).1
    have hn : '\n' ∉ entryText e := by simp [entryText, hk.1, hp.1, ht.1]
    have hr : (entryText e).getLast? ≠ some '\r' := by
      intro hlast
      have hmem := List.mem_of_getLast? hlast
      simp [entryText, hk.2, hp.2, ht.2] at hmem
    rw [List.flatMap_cons, List.append_assoc, List.singleton_append, lines_line hn hr,
      ih fun f hf => h f (by simp [hf]), List.map_cons]

theorem tablesFile_text : TablesFile tablesText := by
  have hplain : ∀ e ∈ tablesEntries, Plain e.2.1 := by
    intro e he
    obtain ⟨k, -, hk⟩ := List.mem_flatMap.1 he
    obtain ⟨f, hf, rfl⟩ := List.mem_map.1 hk
    exact plain_builtin k f hf
  refine ⟨tablesEntries, ?_, ?_⟩
  · rw [tablesText, lines_entries hplain, List.forall₂_map_left_iff, List.forall₂_same]
    intro e he
    obtain ⟨hkey, hlower⟩ := plain_keyword e.1
    obtain ⟨hty, hname⟩ := plain_typeWord e.2.2
    exact ⟨_, _, fields_words hkey (hplain e he) hty, hlower, hname⟩
  · intro k
    cases k <;> rfl

theorem tables_text_infer : TablesFile tablesText ∧
    ∃ R, Rules.parse tablesText = .ok R ∧ ∀ name, (R.infer name).getD .loremShort = infer name :=
  ⟨tablesFile_text, (tables_file_infer tablesFile_text).1⟩

end EtherealDb
