import EtherealDb.Proof.Extract

/-!
# Literals and groups cannot steer the shape

A **fragment** is a single-quoted literal or a parenthesised balanced group. In a
statement that has named its table, replacing one fragment by another changes nothing
that the extractor sees.

* `words_fragment`: a fragment adds no word.
* `extractSelect_congr`: an anchored statement's shape depends on the texts of its
  words alone.
* `extract_fragment`: **the shape, and so the crush class, does not depend on the
  fragment.**
-/

namespace EtherealDb

open Str Reading

/-- A single-quoted literal with doubled quotes, or a parenthesised balanced group. -/
inductive Fragment : Str → Prop where
  | literal (s : Str) : Fragment (quoted s)
  | group {s : Str} (h : Balanced s) : Fragment (group s)

/-- A text that a hidden fragment may follow: outside quotes, at depth at least zero. -/
structure Settled (σ : Scan) : Prop where
  isOpen : σ.Open
  nonneg : 0 ≤ σ.depth

theorem Fragment.hidden {σ : Scan} (hσ : Settled σ) {u : Str} (h : Fragment u) :
    Opaque σ u ∧ σ.run u = σ := by
  cases h with
  | literal s => exact opaque_quoted hσ.isOpen s
  | group hs => exact opaque_group hσ.isOpen hσ.nonneg hs

/-- A fragment starts with a character that ends a word, and ends with one that no
trimming removes. -/
theorem Fragment.ends {u : Str} (h : Fragment u) :
    (∃ c r, u = c :: r ∧ isWordChar c = false) ∧
      ∃ r c, u = r ++ [c] ∧ isWhitespace c = false ∧ c ≠ ';' := by
  cases h with
  | literal s =>
    exact ⟨⟨'\'', _, rfl, by decide⟩, '\'' :: double s, '\'', rfl, by decide, by decide⟩
  | @group s _ => exact ⟨⟨'(', _, rfl, by decide⟩, '(' :: s, ')', rfl, by decide, by decide⟩

/-! ## Trimming -/

/-- What trimming leaves of the end of a statement. -/
def bareEnd (q : Str) : Str := trimEnd (trimEndMatches ';' (trimEnd q))

/-- **A statement whose first character and some later one survive trimming.** -/
theorem bareStmt_append {a : Char} {m q : Str} {c : Char} (ha : isWhitespace a = false)
    (hc : isWhitespace c = false) (hc' : c ≠ ';') :
    bareStmt (a :: m ++ [c] ++ q) = a :: m ++ [c] ++ bareEnd q := by
  have hstart : ∀ t, trimStart (a :: m ++ [c] ++ t) = a :: m ++ [c] ++ t := by
    intro t; simp [trimStart, ha]
  have hend : ∀ t, trimEnd (a :: m ++ [c] ++ t) = a :: m ++ [c] ++ trimEnd t := by
    intro t; exact rdropWhile_append hc
  have hsemi : ∀ t, trimEndMatches ';' (a :: m ++ [c] ++ t) =
      a :: m ++ [c] ++ trimEndMatches ';' t := by
    intro t; exact rdropWhile_append (by simpa using hc')
  unfold bareStmt trim
  rw [hstart, hend, hsemi, hstart, hend]
  rfl

/-! ## Words -/

/-- The texts of the words of a text, from a scan state. -/
def textsFrom (σ : Scan) (s : Str) : List Str := texts (readWords (at' 0 σ) s)

/-- **A fragment adds no word**, and does not touch the ones around it. -/
theorem words_fragment {p u q : Str} (hp : Settled (Scan.start.run p)) (hu : Fragment u) :
    ∃ ws, wordsOf (p ++ u ++ q) = wordsOf p ++ ws ∧
      texts ws = textsFrom (Scan.start.run p) q := by
  obtain ⟨⟨c, r, rfl, hc⟩, -⟩ := hu.ends
  obtain ⟨hop, hrun⟩ := hu.hidden hp
  refine ⟨readWords (at' (len p) (Scan.start.run p)) (c :: r ++ q), ?_, ?_⟩
  · rw [wordsOf, List.append_assoc, readWords_append]
    · simp [wordsOf, at']
    · exact breaks_cons hc _
  · rw [readWords_hidden hop, hrun]
    exact texts_readWords _ _ _ _

/-! ## Anchored statements -/

/-- The part of a select that fixes its shape up to later words: it begins with the word
`select`, has the first top-level `from` with the whole token after it and a delimiter,
and ends outside quotes at depth at least zero. -/
structure Anchored (p : Str) : Prop where
  begins : ∃ kw c r, p = kw ++ c :: r ∧ lower kw = ("select" : Str) ∧ isWordChar c = false
  target : ∃ ws w after, scanWords p = some ws ∧ ws.find? (·.text = ("from" : Str)) = some w ∧
    sliceFrom p w.stop = some after ∧ (trimStart after).any isDelimiter
  settled : Settled (Scan.start.run p)

/-- The first word of an anchored text is `select`. -/
theorem Anchored.words {p : Str} (h : Anchored p) :
    ∃ sel ws, wordsOf p = sel :: ws ∧ sel.text = ("select" : Str) := by
  obtain ⟨kw, c, r, rfl, hkw, hc⟩ := h.begins
  have hall : kw.all isWordChar := by rw [← all_isWordChar_lower, hkw]; decide
  have hne : kw ≠ [] := by rintro rfl; exact absurd hkw (by decide)
  obtain ⟨ws, hws⟩ := wordsOf_first hne hall (breaks_cons hc r)
  exact ⟨_, ws, hws, hkw⟩

/-- An anchored text starts with a letter. -/
theorem Anchored.head {p : Str} (h : Anchored p) :
    ∃ c r, p = c :: r ∧ isWhitespace c = false := by
  obtain ⟨kw, c, r, rfl, hkw, -⟩ := h.begins
  cases kw with
  | nil => exact absurd hkw (by decide)
  | cons k kw =>
    refine ⟨k, _, rfl, not_isWhitespace_of_isWordChar ?_⟩
    have hk : k.toLower = 's' := (List.cons.inj hkw).1
    rw [← isWordChar_toLower, hk]
    decide

/-- A token that ends inside a text does not see what follows it. -/
theorem token_append {a : Str} (h : (trimStart a).any isDelimiter) (x : Str) :
    token (a ++ x) = token a := by
  have hne : ¬∀ c ∈ a, isWhitespace c := by
    intro hall
    rw [trimStart, List.dropWhile_eq_nil_iff.2 hall] at h
    simp at h
  have hstart : trimStart (a ++ x) = trimStart a ++ x := by
    unfold trimStart
    rw [List.dropWhile_append, if_neg]
    rw [List.isEmpty_iff, List.dropWhile_eq_nil_iff]
    exact hne
  have htake : (trimStart a ++ x).takeWhile (fun c => !isDelimiter c) =
      (trimStart a).takeWhile fun c => !isDelimiter c := by
    rw [List.takeWhile_append, if_neg]
    intro hlen
    have hall := List.takeWhile_eq_self_iff.1
      ((List.takeWhile_prefix fun c => !isDelimiter c).eq_of_length hlen)
    obtain ⟨c, hc, hd⟩ := List.any_eq_true.1 h
    simpa [hd] using hall c hc
  unfold token
  rw [hstart, htake]

/-- **An anchored statement is read from its words' texts.** What follows the anchored
part matters only through them. -/
theorem extractSelect_congr {p x y : Str} {ws ws' : List Word} (hp : Anchored p)
    (hx : wordsOf (p ++ x) = wordsOf p ++ ws) (hy : wordsOf (p ++ y) = wordsOf p ++ ws')
    (ht : texts ws = texts ws') :
    extractSelect (p ++ x) (wordsOf (p ++ x)) = extractSelect (p ++ y) (wordsOf (p ++ y)) := by
  obtain ⟨sel, rest, hwords, hsel⟩ := hp.words
  obtain ⟨_, w, after, hscan, hw, hafter, hdel⟩ := hp.target
  obtain rfl := Option.some.inj ((scanWords_eq p).symm.trans hscan)
  have hfrom : w.text = ("from" : Str) := by
    simpa using List.find?_some hw
  have hwm : w ∈ rest := by
    have hm := List.mem_of_find?_eq_some hw
    rw [hwords] at hm
    rcases List.mem_cons.1 hm with rfl | hm
    · rw [hsel] at hfrom; exact absurd hfrom (by decide)
    · exact hm
  -- the list ends inside the anchored part, at `from` or before it
  obtain ⟨list, hlist⟩ := list_inside (a := []) hwords hwm (by rw [hfrom]; decide)
  have hside : ∀ t us, wordsOf (p ++ t) = wordsOf p ++ us →
      extractSelect (p ++ t) (wordsOf (p ++ t)) =
        selectShape list (token after) (texts (wordsOf p) ++ texts us) := by
    intro t us hus
    have hus' : wordsOf (p ++ t) = sel :: (rest ++ us) := by rw [hus, hwords]; rfl
    have hraw : rawAfter (sel :: (rest ++ us)) (p ++ t) "from" = some (token after) := by
      rw [← hus', rawAfter_eq (w := w) (b := after ++ t), token_append hdel]
      · rw [hus, List.find?_append, hw]; rfl
      · rw [sliceFrom_append_of_le (word_le_len (List.mem_of_find?_eq_some hw)).2, hafter]; rfl
    rw [hus', extractSelect_eq hsel (hlist t us) hraw, hwords]
    simp [texts]
  rw [hside x ws hx, hside y ws' hy, ht]

/-- A text with a word is not empty. -/
theorem ne_nil_of_words {s : Str} {w : Word} {ws : List Word} (h : wordsOf s = w :: ws) :
    s ≠ [] := by
  rintro rfl
  cases h

/-- A statement whose first word is one that a select begins with. -/
theorem extract_select {s : Str} {w : Word} {ws : List Word} (hw : wordsOf (bareStmt s) = w :: ws)
    (hfirst : w.text = ("select" : Str) ∨ w.text = ("with" : Str) ∨ w.text = ("table" : Str)) :
    extract s = extractSelect (bareStmt s) (wordsOf (bareStmt s)) := by
  have hhead : ((wordsOf (bareStmt s)).head?.map Word.text).getD [] = w.text := by
    rw [hw]
    rfl
  rw [← hhead] at hfirst
  unfold extract
  rw [if_neg (ne_nil_of_words hw)]
  simp only [scanWords_eq, Option.bind_eq_bind, Option.bind_some]
  exact if_pos hfirst

/-- **Literals and groups cannot steer the shape.** In a statement whose anchored part
names its table, a fragment can be replaced by any other: the shape stays the same, and
with it the crush class at every threshold. -/
theorem extract_fragment {p u v q : Str} (hp : Anchored p) (hu : Fragment u) (hv : Fragment v) :
    extract (p ++ u ++ q) = extract (p ++ v ++ q) ∧
      ∀ th, (shapeOf (p ++ u ++ q)).crushClass th = (shapeOf (p ++ v ++ q)).crushClass th := by
  obtain ⟨sel, rest, hwords, hsel⟩ := hp.words
  obtain ⟨c, r, hpc, hc⟩ := hp.head
  have hbare : ∀ {t}, Fragment t → bareStmt (p ++ t ++ q) = p ++ t ++ bareEnd q := by
    intro t ht
    obtain ⟨-, m, d, rfl, hd, hd'⟩ := ht.ends
    have := bareStmt_append (m := r ++ m) (q := q) hc hd hd'
    rw [hpc]
    simpa using this
  -- each side in turn: the fragment survives trimming and adds no word
  have hside : ∀ {t}, Fragment t → extract (p ++ t ++ q) =
      extractSelect (p ++ (t ++ bareEnd q)) (wordsOf (p ++ (t ++ bareEnd q))) ∧
      ∃ ws, wordsOf (p ++ (t ++ bareEnd q)) = wordsOf p ++ ws ∧
        texts ws = textsFrom (Scan.start.run p) (bareEnd q) := by
    intro t ht
    obtain ⟨ws, hws, hts⟩ := words_fragment (q := bareEnd q) hp.settled ht
    rw [List.append_assoc] at hws
    refine ⟨?_, ws, hws, hts⟩
    have hfull : wordsOf (bareStmt (p ++ t ++ q)) = sel :: (rest ++ ws) := by
      rw [hbare ht, List.append_assoc, hws, hwords]; rfl
    rw [extract_select hfull (.inl hsel), hbare ht, List.append_assoc]
  obtain ⟨hxu, wu, hwu, htu⟩ := hside hu
  obtain ⟨hxv, wv, hwv, htv⟩ := hside hv
  have heq : extract (p ++ u ++ q) = extract (p ++ v ++ q) := by
    rw [hxu, hxv]
    exact extractSelect_congr hp hwu hwv (htu.trans htv.symm)
  refine ⟨heq, ?_⟩
  intro th
  rw [shapeOf_congr heq]

theorem extract_fragment_in_list :
    extract ("select id from t where a in ".toList ++ group "(1), 2".toList ++ " limit 5".toList) =
        extract ("select id from t where a in ".toList ++ quoted "it's".toList ++
          " limit 5".toList) ∧
      ∀ th, (shapeOf ("select id from t where a in ".toList ++ group "(1), 2".toList ++
          " limit 5".toList)).crushClass th =
        (shapeOf ("select id from t where a in ".toList ++ quoted "it's".toList ++
          " limit 5".toList)).crushClass th := by
  refine extract_fragment ⟨?_, ?_, ?_⟩ (.group (by decide)) (.literal _)
  · exact ⟨"select".toList, ' ', "id from t where a in ".toList, rfl, by decide, by decide⟩
  · exact ⟨_, _, _, rfl, rfl, rfl, by decide⟩
  · exact ⟨⟨rfl, rfl⟩, by decide⟩

end EtherealDb
