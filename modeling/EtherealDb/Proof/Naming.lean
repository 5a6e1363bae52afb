import EtherealDb.Proof.Items

/-!
# Naming conventions

A list of words can be written in snake case, in camel case or in Pascal case. The rules see
a name only through its normal form, and that is the snake case of all three.

* `normalize_idempotent`: nothing normalized has a capital letter.
* `normalize_joined`: words that go on with a capital letter come apart again.
* `naming_conventions`: **the three spellings of a name infer the same type.**
-/

namespace EtherealDb

open Str

/-! ## The normal form -/

theorem isUpper_iff (c : Char) : c.isUpper = true ↔ 65 ≤ c.toNat ∧ c.toNat ≤ 90 := by
  unfold Char.isUpper
  simp only [decide_eq_true_eq, UInt32.le_iff_toNat_le, ge_iff_le]
  rfl

theorem isUpper_toLower (c : Char) : c.toLower.isUpper = false := by
  rw [Bool.eq_false_iff, Ne, isUpper_iff, toNat_toLower]
  split_ifs <;> omega

/-- A text without capital letters is normal. -/
theorem normalizeFrom_plain {s : Str} (h : ∀ c ∈ s, c.isUpper = false) (prev : Bool) :
    normalizeFrom prev s = s := by
  induction s generalizing prev with
  | nil => rfl
  | cons c s ih =>
    rw [normalizeFrom, if_neg (by simp [h c (by simp)]), ih fun d hd => h d (by simp [hd])]

/-- **No capital letter is left.** -/
theorem normalizeFrom_lower (s : Str) (prev : Bool) :
    ∀ c ∈ normalizeFrom prev s, c.isUpper = false := by
  induction s generalizing prev with
  | nil => simp [normalizeFrom]
  | cons c s ih =>
    rw [normalizeFrom]
    by_cases hc : c.isUpper = true
    · rw [if_pos hc]
      have hlow := isUpper_toLower c
      split_ifs
      · simpa [hlow, show ('_' : Char).isUpper = false by decide] using ih false
      · simpa [hlow] using ih false
    · rw [if_neg hc]
      simpa [Bool.eq_false_iff.2 hc] using ih (c.isLower || c.isDigit)

theorem normalize_idempotent (s : Str) : normalize (normalize s) = normalize s :=
  normalizeFrom_plain (normalizeFrom_lower s false) false

/-! ## Words -/

/-- A lowercase letter or a digit. -/
def isSmall (c : Char) : Bool := c.isLower || c.isDigit

/-- **A word of a name**: a lowercase letter, and at least one more or a digit. -/
structure NameWord where
  first : Char
  rest : Str
  lower : first.isLower = true
  more : rest ≠ []
  small : rest.all isSmall

namespace NameWord

/-- The word itself. -/
def text (w : NameWord) : Str := w.first :: w.rest

/-- The word with a capital letter. -/
def capital (w : NameWord) : Str := w.first.toUpper :: w.rest

end NameWord

/-- `snake_case`. -/
def snakeCase (w : NameWord) (ws : List NameWord) : Str := w.text ++ ws.flatMap fun v => '_' :: v.text

/-- `camelCase`. -/
def camelCase (w : NameWord) (ws : List NameWord) : Str := w.text ++ ws.flatMap NameWord.capital

/-- `PascalCase`. -/
def pascalCase (w : NameWord) (ws : List NameWord) : Str :=
  w.capital ++ ws.flatMap NameWord.capital

/-- **The spellings of a list of words**, in double quotes or not, with spaces around. -/
inductive Spelling (w : NameWord) (ws : List NameWord) : Str → Prop where
  | name {s q : Str} (l r : ℕ) (hs : s = snakeCase w ws ∨ s = camelCase w ws ∨ s = pascalCase w ws)
    (hq : q = [] ∨ q = ['"']) :
    Spelling w ws (List.replicate l ' ' ++ (q ++ s ++ q) ++ List.replicate r ' ')

variable {c : Char} {w : NameWord} {ws : List NameWord}

theorem isLower_iff (c : Char) : c.isLower = true ↔ 97 ≤ c.toNat ∧ c.toNat ≤ 122 := by
  unfold Char.isLower
  simp only [Bool.and_eq_true, decide_eq_true_eq, UInt32.le_iff_toNat_le, ge_iff_le]
  rfl

theorem not_upper_of_small (h : isSmall c = true) : c.isUpper = false := by
  rw [Bool.eq_false_iff, Ne, isUpper_iff]
  rcases Bool.or_eq_true_iff.1 h with h | h
  · rw [isLower_iff] at h
    omega
  · rw [isDigit_iff] at h
    omega

/-- A capital letter is one, and its lowercase letter is the one it was made of. -/
theorem capital_lower (h : c.isLower = true) : c.toUpper.isUpper = true ∧ c.toUpper.toLower = c := by
  rw [isLower_iff] at h
  have hup : c.toUpper.toNat = c.toNat - 32 := by rw [toNat_toUpper, if_pos h]
  refine ⟨by rw [isUpper_iff, hup]; omega, ?_⟩
  rw [← Char.toNat_inj, toNat_toLower, hup, if_pos (by omega)]
  omega

theorem NameWord.small_text (w : NameWord) : w.text.all isSmall := by
  rw [NameWord.text, List.all_cons, w.small, Bool.and_true]
  simp [isSmall, w.lower]

/-- Small characters stay, and after one a capital letter begins a word. -/
theorem normalizeFrom_small {t : Str} (hne : t ≠ []) (h : t.all isSmall) (prev : Bool)
    (s : Str) : normalizeFrom prev (t ++ s) = t ++ normalizeFrom true s := by
  induction t generalizing prev with
  | nil => exact absurd rfl hne
  | cons c t ih =>
    rw [List.all_cons, Bool.and_eq_true] at h
    obtain ⟨hc, ht⟩ := h
    have hsmall : (c.isLower || c.isDigit) = true := hc
    rw [List.cons_append, normalizeFrom, if_neg (by simp [not_upper_of_small hc]), hsmall]
    cases t with
    | nil => rfl
    | cons d t => rw [ih (by simp) ht]; rfl

theorem normalizeFrom_text (w : NameWord) (prev : Bool) (s : Str) :
    normalizeFrom prev (w.text ++ s) = w.text ++ normalizeFrom true s := by
  exact normalizeFrom_small (by simp [NameWord.text]) w.small_text prev s

theorem normalizeFrom_capital (w : NameWord) (prev : Bool) (s : Str) :
    normalizeFrom prev (w.capital ++ s) =
      (if prev then ['_'] else []) ++ w.text ++ normalizeFrom true s := by
  obtain ⟨hup, hlow⟩ := capital_lower w.lower
  have hrest := normalizeFrom_small w.more w.small false s
  rw [NameWord.capital, List.cons_append, normalizeFrom, if_pos hup, hlow, hrest]
  cases prev <;> rfl

/-- **Words that go on with a capital letter come apart again.** -/
theorem normalize_joined (ws : List NameWord) :
    normalizeFrom true (ws.flatMap NameWord.capital) = ws.flatMap fun v => '_' :: v.text := by
  induction ws with
  | nil => rfl
  | cons w ws ih =>
    rw [List.flatMap_cons, normalizeFrom_capital, ih, if_pos rfl]
    rfl

/-- What stands in a name. -/
theorem mem_snakeCase (h : c ∈ snakeCase w ws) : isSmall c = true ∨ c = '_' := by
  have hword : ∀ v : NameWord, ∀ d ∈ v.text, isSmall d = true := fun v =>
    List.all_eq_true.1 v.small_text
  rcases List.mem_append.1 h with h | h
  · exact .inl (hword w c h)
  · obtain ⟨v, -, hv⟩ := List.mem_flatMap.1 h
    rcases List.mem_cons.1 hv with rfl | hv
    · exact .inr rfl
    · exact .inl (hword v c hv)

/-- **The normal form of all three is the snake case.** -/
theorem normalize_spelling {s : Str}
    (hs : s = snakeCase w ws ∨ s = camelCase w ws ∨ s = pascalCase w ws) :
    normalize s = snakeCase w ws := by
  rcases hs with rfl | rfl | rfl
  · refine normalizeFrom_plain (fun c hc => ?_) false
    rcases mem_snakeCase hc with h | rfl
    · exact not_upper_of_small h
    · decide
  · rw [normalize, camelCase, normalizeFrom_text, normalize_joined]
    rfl
  · rw [normalize, pascalCase, normalizeFrom_capital, normalize_joined]
    rfl

/-! ## Spellings -/

theorem word_of_alpha (h : c.isAlpha = true) : isWordChar c = true := by
  simp [isWordChar, Char.isAlphanum, h]

theorem word_of_small (h : isSmall c = true) : isWordChar c = true := by
  rcases Bool.or_eq_true_iff.1 h with h | h
  · exact word_of_alpha ((isAlpha_iff c).2 (.inr ((isLower_iff c).1 h)))
  · simp [isWordChar, Char.isAlphanum, h]

theorem NameWord.all_text (w : NameWord) : w.text.all isWordChar := by
  rw [List.all_eq_true]
  intro c hc
  exact word_of_small (List.all_eq_true.1 w.small_text c hc)

theorem NameWord.all_capital (w : NameWord) : w.capital.all isWordChar := by
  have htail := w.all_text
  rw [NameWord.text, List.all_cons, Bool.and_eq_true] at htail
  rw [NameWord.capital, List.all_cons, htail.2, Bool.and_true]
  exact word_of_alpha ((isAlpha_iff _).2 (.inl ((isUpper_iff _).1 (capital_lower w.lower).1)))

/-- **A name is a word of SQL** in each of its spellings. -/
theorem all_word_spelling {s : Str}
    (hs : s = snakeCase w ws ∨ s = camelCase w ws ∨ s = pascalCase w ws) :
    s ≠ [] ∧ s.all isWordChar := by
  have hunder : ∀ v : NameWord, ('_' :: v.text).all isWordChar := by
    intro v
    rw [List.all_cons, v.all_text, Bool.and_true]
    decide
  have hflat : ∀ f : NameWord → Str, (∀ v, (f v).all isWordChar) → (ws.flatMap f).all isWordChar := by
    intro f hf
    rw [List.all_flatMap, List.all_eq_true]
    intro v _
    exact hf v
  rcases hs with rfl | rfl | rfl
  · exact ⟨by simp [snakeCase, NameWord.text], by
      rw [snakeCase, List.all_append, w.all_text, hflat _ hunder]; rfl⟩
  · exact ⟨by simp [camelCase, NameWord.text], by
      rw [camelCase, List.all_append, w.all_text, hflat _ NameWord.all_capital]; rfl⟩
  · exact ⟨by simp [pascalCase, NameWord.capital], by
      rw [pascalCase, List.all_append, w.all_capital, hflat _ NameWord.all_capital]; rfl⟩

/-- Spaces and quotes are trimmed off. -/
theorem normalize_of_spelling {t : Str} (h : Spelling w ws t) :
    normalize (trimMatches '"' (trim t)) = snakeCase w ws := by
  obtain ⟨l, r, hs, hq⟩ := h
  rename_i s q
  obtain ⟨hne, hall⟩ := all_word_spelling hs
  have hfree : '"' ∉ s := not_mem_of_word hall (by decide)
  have hspaces : ∀ n, ∀ c ∈ List.replicate n ' ', isWhitespace c = true := by
    intro n c hc
    rw [List.eq_of_mem_replicate hc]
    decide
  rw [← normalize_spelling hs]
  rcases hq with rfl | rfl
  · rw [List.nil_append, List.append_nil, (ends_word hne hall).firm.trim_blank (hspaces l) (hspaces r),
      trimMatches_self hfree]
  · -- the quotes are those of a quoted alias
    have hends := (Alias.quoted s hfree).ends
    have hquotes := (Alias.quoted s hfree).trimMatches_render
    have hrender : ['"'] ++ s ++ ['"'] = (Alias.quoted s hfree).render := rfl
    rw [hrender, hends.firm.trim_blank (hspaces l) (hspaces r), hquotes]
    rfl

/-- The rules see a name through its normal form. -/
theorem inferWith_congr {a b : Str} (h : normalize (trimMatches '"' (trim a)) =
    normalize (trimMatches '"' (trim b))) (rules : Rules) : inferWith a rules = inferWith b rules := by
  have hforms : nameForms a = nameForms b := by
    unfold nameForms
    rw [h]
  unfold inferWith Rules.infer infer
  rw [hforms]

/-- **Naming conventions are interchangeable.** Any two spellings of a list of words infer the
same type, under any rules; and normalizing twice is normalizing once. -/
theorem naming_conventions (w : NameWord) (ws : List NameWord) (rules : Rules) :
    (∀ a b, Spelling w ws a → Spelling w ws b → inferWith a rules = inferWith b rules) ∧
      ∀ s, normalize (normalize s) = normalize s := by
  refine ⟨fun a b ha hb => inferWith_congr ?_ rules, normalize_idempotent⟩
  rw [normalize_of_spelling ha, normalize_of_spelling hb]

/-- `"userId"` and `user_id`. -/
theorem naming_conventions_user_id (rules : Rules) :
    inferWith " \"userId\" " rules = inferWith "user_id" rules := by
  let user : NameWord := ⟨'u', "ser", by decide, by decide, by decide⟩
  let id : NameWord := ⟨'i', "d", by decide, by decide, by decide⟩
  have hcamel : Spelling user [id] ([' '] ++ (['"'] ++ camelCase user [id] ++ ['"']) ++ [' ']) :=
    .name 1 1 (.inr (.inl rfl)) (.inr rfl)
  have hsnake : Spelling user [id] ([] ++ ([] ++ snakeCase user [id] ++ []) ++ []) :=
    .name 0 0 (.inl rfl) (.inl rfl)
  have hquoted : (" \"userId\" " : Str) =
      [' '] ++ (['"'] ++ camelCase user [id] ++ ['"']) ++ [' '] := by decide
  have hplain : ("user_id" : Str) = [] ++ ([] ++ snakeCase user [id] ++ []) ++ [] := by decide
  rw [hquoted, hplain]
  exact (naming_conventions user [id] rules).1 _ _ hcamel hsnake

end EtherealDb
