import EtherealDb.Proof.Dml
import EtherealDb.Proof.MySqlLiteral
import EtherealDb.Proof.PgBound
import EtherealDb.Proof.Splitting

/-!
# A clause behind a statement

A `LIMIT` clause behind a text adds two words to it (`words_limit`), and what is not a
word in it is not seen.

* `limit_slot_iff`: **`LIMIT $k` limits to `k` rows exactly when `k` is a machine integer.**
* `extractSelect_limit`: a clause behind a select changes its limit alone.
* `limit_honored`: **a `LIMIT` is honored for every query that it can follow**, by the
  three responders.
-/

namespace EtherealDb

open Str Reading

variable {C : Crates}

/-! ## Two more words -/

/-- A gap, the word `limit`, a gap and a number. -/
def limitClause (gap g : Str) (n : ℕ) : Str := gap ++ ("limit".toList ++ (g ++ decimal n))

/-- The word `limit` of a clause behind a text. -/
def limitWord (s gap : Str) : Word :=
  ⟨"limit", len s + len gap, len s + len gap + len "limit".toList⟩

/-- **The words of a clause** behind a text that ends outside quotes and brackets. -/
theorem words_limit {s gap g : Str} (hs : ¬(Scan.start.run s).Nested) (hgap : ∀ c ∈ gap, Faint c)
    (hne : gap ≠ []) (hg : ∀ c ∈ g, Faint c) (hgne : g ≠ []) (n : ℕ) :
    ∃ w, wordsOf (s ++ limitClause gap g n) = wordsOf s ++ [limitWord s gap, w] ∧
      w.text = decimal n := by
  refine ⟨⟨decimal n, len s + len gap + len "limit".toList + len g,
    len s + len gap + len "limit".toList + len g + len (decimal n)⟩, ?_, rfl⟩
  have hfirst := words_gap (r := at' 0 .start) (a := s) hgap hne ("limit".toList ++ (g ++ decimal n))
  have hsecond := words_gap (r := at' (len s + len gap) (Scan.start.run s)) (a := "limit".toList)
    hg hgne (decimal n)
  simp only [at', Nat.zero_add] at hfirst hsecond
  rw [wordsOf, limitClause, at', hfirst, hsecond]
  have hlimit := readWords_word (i := len s + len gap) (u := "limit".toList) hs (by decide)
    (by decide)
  have hnumber := readWords_word (i := len s + len gap + len "limit".toList + len g) hs
    (decimal_ne_nil n) (digits_word (decimal_digits n))
  have hrun : (Scan.start.run s).run "limit".toList = Scan.start.run s :=
    run_word_chars (by decide) _
  simp only [at'] at hlimit hnumber
  rw [hrun, hlimit, hnumber, lower_decimal]
  rfl

theorem textsOf_limit {s gap g : Str} (hs : ¬(Scan.start.run s).Nested) (hgap : ∀ c ∈ gap, Faint c)
    (hne : gap ≠ []) (hg : ∀ c ∈ g, Faint c) (hgne : g ≠ []) (n : ℕ) :
    textsOf (s ++ limitClause gap g n) = textsOf s ++ [("limit" : Str), decimal n] := by
  obtain ⟨w, hw, htext⟩ := words_limit hs hgap hne hg hgne n
  rw [textsOf, hw, texts, List.map_append, List.map_cons, List.map_singleton, htext]
  rfl

/-! ## A parameter as a limit -/

/-- A text that `extract` reads as a `SELECT`: its first word is `select`, `with` or `table`,
and `select` is among its words. -/
structure SelectText (p : Str) : Prop where
  first : ∃ t ∈ (textsOf p).head?, t = ("select" : Str) ∨ t = ("with" : Str) ∨ t = ("table" : Str)
  select : ("select" : Str) ∈ textsOf p

/-- **A select is read from its first word `select` on.** -/
theorem SelectText.read {p : Str} (hp : SelectText p) : ∃ sel rest,
    (wordsOf (bareStmt p)).dropWhile (·.text ≠ ("select" : Str)) = sel :: rest ∧
      extractSelect (bareStmt p) (wordsOf (bareStmt p)) = some (shapeOf p) := by
  obtain ⟨t, hhead, hfirst⟩ := hp.first
  have htexts := textsOf_bareStmt p
  rw [← htexts, textsOf, texts, List.head?_map] at hhead
  obtain ⟨w, hw, rfl⟩ := Option.map_eq_some_iff.1 hhead
  have hwords : wordsOf (bareStmt p) = w :: (wordsOf (bareStmt p)).tail :=
    (List.cons_head?_tail hw).symm
  have hextract : extractSelect (bareStmt p) (wordsOf (bareStmt p)) = some (shapeOf p) := by
    rw [← extract_select hwords hfirst, extract_eq]
  have hmem : ("select" : Str) ∈ textsOf (bareStmt p) := by
    rw [htexts]
    exact hp.select
  obtain ⟨sel, rest, hdrop, -⟩ := exists_select hmem
  exact ⟨sel, rest, hdrop, hextract⟩

/-- **The limit of a select** is read off the texts of its words. -/
theorem SelectText.limit {p : Str} (hp : SelectText p) :
    (shapeOf p).kind = .select ∧ (shapeOf p).limit = limitOf (textsOf p) := by
  obtain ⟨sel, rest, hdrop, hextract⟩ := hp.read
  obtain ⟨hkind, hlimit, -, -⟩ := extractSelect_some hdrop hextract
  refine ⟨hkind, ?_⟩
  rw [hlimit, ← textsOf_bareStmt p]
  rfl

/-- The text with the parameter `k` as its limit. -/
def limitSlot (p : Str) (k : ℕ) : Str := p ++ limitClause [' '] [' ', '$'] k

theorem limitOf_decimal (n : ℕ) :
    limitOf [("limit" : Str), decimal n] = if n < 2 ^ 64 then some n else none :=
  parseUnsigned_eq (parseDigits_decimal n) (2 ^ 64)

/-- **A parameter is read as a limit.** -/
theorem limit_slot {p : Str} (hp : SelectText p) (hfree : ("limit" : Str) ∉ textsOf p)
    (hclosed : ¬(Scan.start.run p).Nested) (k : ℕ) :
    (shapeOf (limitSlot p k)).limit = if k < 2 ^ 64 then some k else none := by
  have hgap : ∀ c ∈ [' '], Faint c := fun c hc => faint_blank (blank_space c hc)
  have hdollar : ∀ c ∈ [' ', '$'], Faint c :=
    List.forall_mem_cons.2 ⟨hgap ' ' (by simp), List.forall_mem_singleton.2 (by decide)⟩
  have htexts := textsOf_limit hclosed hgap (by decide) hdollar (by decide) k
  have hslot : SelectText (limitSlot p k) := by
    obtain ⟨t, ht, hfirst⟩ := hp.first
    refine ⟨⟨t, ?_, hfirst⟩, ?_⟩
    · rw [limitSlot, htexts]
      exact List.mem_head?_append_of_mem_head? ht
    · rw [limitSlot, htexts]
      exact List.mem_append_left _ hp.select
  rw [hslot.limit.2, limitSlot, htexts, limitOf_append hfree, limitOf_decimal]

/-- **When a parameter is no limit.** Below 2^64 its number is taken for a number of rows, and
then every answer keeps to it. -/
theorem limit_slot_iff {p : Str} (hp : SelectText p) (hfree : ("limit" : Str) ∉ textsOf p)
    (hclosed : ¬(Scan.start.run p).Nested) (k : ℕ) :
    ((shapeOf (limitSlot p k)).limit ≠ some k ↔ 2 ^ 64 ≤ k) ∧
      ∀ (cfg : Config) (formats : List ℤ) (rng : C.Rng),
        Pg.dataRows (Pg.portalRows (shapeOf (limitSlot p k)) cfg formats 0 rng).1 =
          if 2 ^ 64 ≤ k then (Pg.rowBand (shapeOf (limitSlot p k)) cfg rng).1
          else min (Pg.rowBand (shapeOf (limitSlot p k)) cfg rng).1 k := by
  have hlimit := limit_slot hp hfree hclosed k
  constructor
  · rw [hlimit]
    split
    · rename_i h
      exact ⟨fun hne => absurd rfl hne, fun hle => absurd h (by omega)⟩
    · rename_i h
      exact ⟨fun _ => by omega, fun _ => by simp⟩
  · intro cfg formats rng
    rw [Pg.dataRows_portalRows, Pg.boundRows_zero, Pg.rowCount_fst, Pg.limited, hlimit]
    by_cases h : k < 2 ^ 64
    · rw [if_pos h, if_neg (by omega)]
      rfl
    · rw [if_neg h, if_pos (by omega)]
      rfl

theorem limit_slot_wide : (shapeOf (limitSlot "select id from t" (2 ^ 64))).limit ≠
    some (2 ^ 64) ∧ ∀ (cfg : Config) (formats : List ℤ) (rng : Crates.least.Rng),
      Pg.dataRows (Pg.portalRows (shapeOf (limitSlot "select id from t" (2 ^ 64))) cfg formats 0
        rng).1 = (Pg.rowBand (shapeOf (limitSlot "select id from t" (2 ^ 64))) cfg rng).1 := by
  have hp : SelectText "select id from t" :=
    ⟨⟨"select", by decide, .inl rfl⟩, by decide⟩
  have hiff := limit_slot_iff (C := .least) hp (by decide) (by decide) (2 ^ 64)
  refine ⟨hiff.1.2 le_rfl, ?_⟩
  intro cfg formats rng
  rw [hiff.2 cfg formats rng, if_pos le_rfl]

/-- **`LIMIT $1` is a limit of one row.** -/
theorem limit_slot_counts : ¬∀ p k, SelectText p → ("limit" : Str) ∉ textsOf p →
    ¬(Scan.start.run p).Nested → 1 ≤ k → (shapeOf (limitSlot p k)).limit ≠ some k := by
  intro h
  have hp : SelectText "select id from t" :=
    ⟨⟨"select", by decide, .inl rfl⟩, by decide⟩
  exact h "select id from t" 1 hp (by decide) (by decide) le_rfl (by decide +kernel)

/-! ## A limit behind a select -/

/-- **A query that a `LIMIT` can follow**: its first word is `select`, it ends outside quotes
and brackets, it has no limit and no semicolon, and its last word is not `from`. -/
structure Limitable (p : Str) : Prop where
  begins : (textsOf p).head? = some ("select" : Str)
  closed : ¬(Scan.start.run p).Nested
  unlimited : ("limit" : Str) ∉ textsOf p
  single : Hides (· ≠ ';') .start p
  ends : (textsOf p).getLast? ≠ some ("from" : Str)

/-- The query with a limit of `n` rows. -/
def limitTo (p : Str) (n : ℕ) : Str := p ++ limitClause [' '] [' '] n

/-- A firm text that does not end in a semicolon is trimmed already. -/
theorem bareStmt_firm {s : Str} (h : Ends Firm Firm s) (hlast : s.getLast? ≠ some ';') :
    bareStmt s = s := by
  have hsemi : trimEndMatches ';' s = s := by
    unfold trimEndMatches
    rw [List.rdropWhile_eq_self_iff]
    intro hne hc
    rw [List.getLast?_eq_some_getLast hne] at hlast
    exact hlast (congrArg some (by simpa using hc))
  rw [bareStmt, h.trim, hsemi, h.trim]

/-- **A limitable query between its blanks.** -/
theorem Limitable.cut {p : Str} (hp : Limitable p) : ∃ a b, p = a ++ trim p ++ b ∧
    (∀ c ∈ a, isWhitespace c = true) ∧ (∀ c ∈ b, isWhitespace c = true) ∧
      Ends Firm Firm (trim p) ∧ bareStmt p = trim p := by
  obtain ⟨a, b, hcut, ha, hb⟩ := trim_cut p
  have ha' : ∀ c ∈ a, Faint c := fun c hc => faint_blank (ha c hc)
  have hb' : ∀ c ∈ b, Faint c := fun c hc => faint_blank (hb c hc)
  have hne : trim p ≠ [] := by
    intro h
    have hfaint : ∀ c ∈ p, Faint c := by
      rw [hcut, h, List.append_nil]
      intro c hc
      exact (List.mem_append.1 hc).elim (ha' c) (hb' c)
    have hwords := readWords_faint (i := 0) (σ := .start) hfaint []
    rw [List.append_nil] at hwords
    have hbegins := hp.begins
    rw [textsOf, wordsOf, hwords] at hbegins
    cases hbegins
  have hends := trim_ends hne
  refine ⟨a, b, hcut, ha, hb, hends, ?_⟩
  rw [← bareStmt_trim]
  refine bareStmt_firm hends ?_
  -- a semicolon at the end would be seen
  intro hlast
  obtain ⟨m, hm⟩ := List.getLast?_eq_some_iff.1 hlast
  have hp' : p = (a ++ m) ++ ';' :: b := by
    rw [hcut, hm]
    simp
  have hsingle := hp.single
  have hclosed := hp.closed
  rw [hp', hides_append] at hsingle
  rw [hp', Scan.run_append, Scan.run_cons, Scan.step_of_arm (Scan.arm_eq_none (by decide)),
    run_faint hb'] at hclosed
  rcases hsingle.2.1 with h | h | h
  · rw [Scan.arm_eq_none (by decide)] at h
    cases h
  · exact hclosed h
  · exact h rfl

/-! ### The fields of the shape -/

/-- The words of a clause behind those of a select change the limit alone. -/
theorem selectShape_limit {ts : List Str} (hfree : ("limit" : Str) ∉ ts) {n : ℕ} (hn : n < 2 ^ 64)
    (l : Str) (raw : Option Str) :
    selectShape l raw (ts ++ [("limit" : Str), decimal n]) =
      (selectShape l raw ts).map fun shape => { shape with limit := some n } := by
  have hlimit : limitOf (ts ++ [("limit" : Str), decimal n]) = some n := by
    rw [limitOf_append hfree, limitOf_limit hn]
  have hnumber : decimal n ≠ ("where" : Str) := by
    intro h
    have hdigits := decimal_digits n
    rw [h] at hdigits
    exact absurd hdigits (by decide)
  have hwhere : (ts ++ [("limit" : Str), decimal n]).any (· = ("where" : Str)) =
      ts.any (· = ("where" : Str)) := by
    have hclause : [("limit" : Str), decimal n].any (· = ("where" : Str)) = false := by
      rw [List.any_cons, List.any_cons, decide_eq_false hnumber]
      rfl
    rw [List.any_append, hclause, Bool.or_false]
  obtain ⟨columns, star, hshape⟩ := selectShape_eq l
  rw [hshape, hshape, hlimit, hwhere]
  rfl

/-- A token does not see what follows a delimiter behind it. -/
theorem token_before {a : Str} (ha : trimStart a ≠ []) {c : Char} (hc : isDelimiter c = true)
    (x : Str) : token (a ++ c :: x) = token a := by
  have hstart : trimStart (a ++ c :: x) = trimStart a ++ c :: x := by
    unfold trimStart at ha ⊢
    rw [List.dropWhile_append, if_neg (by simpa using ha)]
  have htake : (trimStart a ++ c :: x).takeWhile (fun d => !isDelimiter d) =
      (trimStart a).takeWhile fun d => !isDelimiter d := by
    rw [List.takeWhile_append]
    split
    · rename_i hlen
      rw [List.takeWhile_cons_of_neg (by simp [hc]), List.append_nil]
      exact ((List.takeWhile_prefix _).eq_of_length hlen).symm
    · rfl
  unfold token
  rw [hstart, htake]

/-- **Behind a word that is not the last there is text.** -/
theorem text_after_word {s b : Str} {pre post : List Word} {w : Word}
    (hwords : wordsOf s = pre ++ w :: post) (hpost : post ≠ []) (hb : sliceFrom s w.stop = some b) :
    trimStart b ≠ [] := by
  obtain ⟨v, post, rfl⟩ := List.exists_cons_of_ne_nil hpost
  have hle : w.stop ≤ v.start := by
    have hordered := (hwords ▸ ordered_wordsOf s).suffix
    exact hordered.1
  obtain ⟨x, u, y, hs, hv, hu, hword⟩ := piece_of_mem (s := s) (w := v) (by rw [hwords]; simp)
  obtain ⟨⟨q, b'⟩, hq, rfl⟩ := Option.map_eq_some_iff.1 hb
  obtain ⟨hsq, hlen⟩ := splitAt?_eq_some.1 hq
  have hstart : v.start = len x := by rw [hv]
  obtain ⟨m, -, hm⟩ := append_eq_append_of_len_le (a := q) (b := b') (c := x) (d := u ++ y)
    (by rw [← hsq, hs, List.append_assoc]) (by rw [hlen, ← hstart]; exact hle)
  -- the next word is not blank
  intro hblank
  obtain ⟨d, u, rfl⟩ := List.exists_cons_of_ne_nil hu
  have hd : isWordChar d = true := List.all_eq_true.1 hword d (by simp)
  have hall := List.dropWhile_eq_nil_iff.1 hblank d (by rw [hm]; simp)
  rw [not_isWhitespace_of_isWordChar hd] at hall
  cases hall

/-- **The token after a keyword that is not the last word** does not see what follows. -/
theorem rawAfter_front {s kw : Str} (hkw : kw ∈ textsOf s) (hlast : (textsOf s).getLast? ≠ some kw)
    {c : Char} (hc : isDelimiter c = true) (x : Str) (more : List Word) :
    rawAfter (wordsOf s ++ more) (s ++ c :: x) kw = rawAfter (wordsOf s) s kw := by
  obtain ⟨v, hf⟩ : ∃ v, (wordsOf s).find? (·.text = kw) = some v := by
    obtain ⟨v, hv, htext⟩ := List.mem_map.1 hkw
    rw [← Option.isSome_iff_exists, List.find?_isSome]
    exact ⟨v, hv, decide_eq_true htext⟩
  have hfind : (wordsOf s ++ more).find? (·.text = kw) = some v := by
    rw [List.find?_append, hf, Option.some_or]
  obtain ⟨hv, pre, post, hsplit, -⟩ := List.find?_eq_some_iff_append.1 hf
  have hpost : post ≠ [] := by
    rintro rfl
    refine hlast ?_
    rw [textsOf, hsplit, texts, List.map_append, List.map_singleton, List.getLast?_concat]
    exact congrArg some (by simpa using hv)
  have hmem : v ∈ wordsOf s := List.mem_of_find?_eq_some hf
  obtain ⟨_, _, b, -, -, -, hb⟩ := (piece_of_mem hmem).cut
  have hb' : sliceFrom (s ++ c :: x) v.stop = some (b ++ c :: x) := by
    rw [sliceFrom_append_of_le (word_le_len hmem).2, hb]
    rfl
  rw [rawAfter_eq hf hb, rawAfter_eq hfind hb', token_before (text_after_word hsplit hpost hb) hc]

section Clause

variable {s gap : Str} (hgap : ∀ c ∈ gap, isWhitespace c = true) (hne : gap ≠ [])

include hgap hne in
/-- **The token after `from` stands before the clause.** -/
theorem rawAfter_limit (hlast : (textsOf s).getLast? ≠ some ("from" : Str)) {w : Word} {n : ℕ}
    (hw : w.text = decimal n) : rawAfter (wordsOf s ++ [limitWord s gap, w])
      (s ++ limitClause gap [' '] n) "from" = rawAfter (wordsOf s) s "from" := by
  by_cases hfrom : ("from" : Str) ∈ textsOf s
  · obtain ⟨c, g, rfl⟩ := List.exists_cons_of_ne_nil hne
    have hc : isDelimiter c = true := by
      unfold isDelimiter
      rw [hgap c (by simp)]
      rfl
    rw [limitClause, List.cons_append]
    exact rawAfter_front hfrom hlast hc _ _
  · -- neither the select nor the clause has a `from`
    have hnumber : w.text ≠ ("from" : Str) := by
      intro h
      have hdigits := decimal_digits n
      rw [← hw, h] at hdigits
      exact absurd hdigits (by decide)
    have hnone : (wordsOf s).find? (·.text = ("from" : Str)) = none := by
      rw [List.find?_eq_none]
      intro v hv h
      exact hfrom (List.mem_map.2 ⟨v, hv, of_decide_eq_true h⟩)
    have hclause : [limitWord s gap, w].find? (·.text = ("from" : Str)) = none := by
      rw [List.find?_eq_none]
      intro v hv
      rcases List.mem_cons.1 hv with rfl | hv
      · exact Bool.false_ne_true
      · rw [List.mem_singleton.1 hv, decide_eq_true_eq]
        exact hnumber
    rw [rawAfter, rawAfter, List.find?_append, hnone, Option.none_or, hclause]

include hgap in
/-- **The list ends at a word of the select**, or at its end and then at the clause. -/
theorem list_limit {sel : Word} {rest : List Word} (hwords : wordsOf s = sel :: rest) (w : Word)
    (n : ℕ) : ∃ l l',
      slice s sel.stop (((rest.find? fun v => v.text ∈ listEnd).map Word.start).getD (len s)) =
        some l ∧
      slice (s ++ limitClause gap [' '] n) sel.stop ((((rest ++ [limitWord s gap, w]).find?
        fun v => v.text ∈ listEnd).map Word.start).getD (len (s ++ limitClause gap [' '] n))) =
          some l' ∧ trim l = trim l' := by
  obtain ⟨l, hl⟩ := slice_list s (a := []) (b := rest) hwords fun v => v.text ∈ listEnd
  rw [List.find?_append]
  cases hf : rest.find? fun v => v.text ∈ listEnd with
  | some v =>
    rw [hf] at hl
    refine ⟨l, l, hl, ?_, rfl⟩
    have hmem : v ∈ wordsOf s := by
      rw [hwords]
      exact List.mem_cons_of_mem _ (List.mem_of_find?_eq_some hf)
    exact (slice_append_of_le (word_le_len hmem).1 _).trans hl
  | none =>
    obtain ⟨a, u, y, hs, hsel, -, -⟩ := piece_of_mem (s := s) (w := sel) (by rw [hwords]; simp)
    have hstop : sel.stop = len (a ++ u) := by rw [hsel, len_append]
    have hend : slice s sel.stop (len s) = some y := by
      rw [hstop]
      conv_lhs => rw [hs]
      exact slice_append_end (a ++ u) y
    have hclause : slice (s ++ limitClause gap [' '] n) sel.stop (len s + len gap) =
        some (y ++ gap) := by
      have hcut : s ++ limitClause gap [' '] n =
          (a ++ u) ++ (y ++ gap) ++ ("limit".toList ++ ([' '] ++ decimal n)) := by
        conv_lhs => rw [hs]
        rw [limitClause]
        simp only [List.append_assoc]
      have hlen : len s + len gap = len (a ++ u) + len (y ++ gap) := by
        conv_lhs => rw [hs]
        simp only [len_append]
        omega
      rw [hcut, hstop, hlen]
      exact slice_append (a ++ u) (y ++ gap) _
    have hlimit : [limitWord s gap, w].find? (fun v => v.text ∈ listEnd) =
        some (limitWord s gap) := List.find?_cons_of_pos (p := fun v : Word => v.text ∈ listEnd) rfl
    refine ⟨y, y ++ gap, hend, ?_, ?_⟩
    · rw [Option.none_or, hlimit]
      exact hclause
    · have hblank := trim_blanks y (a := []) (by simp) hgap
      rw [List.nil_append] at hblank
      exact hblank.symm

include hgap hne in
/-- **A clause behind a select changes its limit alone.** -/
theorem extractSelect_limit {sel : Word} {rest : List Word} (hwords : wordsOf s = sel :: rest)
    (hsel : sel.text = ("select" : Str)) (hclosed : ¬(Scan.start.run s).Nested)
    (hfree : ("limit" : Str) ∉ textsOf s) (hlast : (textsOf s).getLast? ≠ some ("from" : Str))
    {n : ℕ} (hn : n < 2 ^ 64) :
    extractSelect (s ++ limitClause gap [' '] n) (wordsOf (s ++ limitClause gap [' '] n)) =
      (extractSelect s (wordsOf s)).map fun shape => { shape with limit := some n } := by
  obtain ⟨w, hw, htext⟩ := words_limit hclosed (fun c hc => faint_blank (hgap c hc)) hne
    (fun c hc => faint_blank (blank_space c hc)) (List.cons_ne_nil ' ' []) n
  have htexts : texts (sel :: (rest ++ [limitWord s gap, w])) =
      texts (sel :: rest) ++ [("limit" : Str), decimal n] := by
    rw [texts, List.map_cons, List.map_append, List.map_cons, List.map_singleton, htext]
    rfl
  obtain ⟨raw, hraw⟩ := rawAfter_total s "from"
  have hraw' := rawAfter_limit hgap hne hlast htext
  obtain ⟨l, l', hlist, hlist', htrim⟩ := list_limit hgap hwords w n
  have hfree' : ("limit" : Str) ∉ texts (sel :: rest) := by rw [← hwords]; exact hfree
  rw [hraw] at hraw'
  rw [hwords] at hraw hraw'
  rw [hw, hwords, List.cons_append, extractSelect_eq hsel hlist hraw,
    extractSelect_eq hsel hlist' hraw', htexts, selectShape_congr htrim, selectShape_limit hfree' hn]

end Clause

/-! ### Every query with a limit -/

/-- The text of a limitable query with its limit, between its blanks. -/
theorem Limitable.render {p : Str} (hp : Limitable p) (n : ℕ) :
    ∃ a gap, limitTo p n = a ++ (trim p ++ limitClause gap [' '] n) ∧
      (∀ c ∈ a, isWhitespace c = true) ∧ (∀ c ∈ gap, isWhitespace c = true) ∧ gap ≠ [] ∧
        Ends Firm Firm (trim p ++ limitClause gap [' '] n) ∧
          (trim p ++ limitClause gap [' '] n).getLast? ≠ some ';' := by
  obtain ⟨a, b, hcut, ha, hb, hends, -⟩ := hp.cut
  have hnumber : Ends Solid Solid (decimal n) :=
    ends_word (decimal_ne_nil n) (digits_word (decimal_digits n))
  have hsplit : trim p ++ limitClause (b ++ [' ']) [' '] n =
      trim p ++ (b ++ " limit ".toList) ++ decimal n := by
    simp [limitClause]
  refine ⟨a, b ++ [' '], ?_, ha, ?_, by simp, ?_, ?_⟩
  · rw [limitTo]
    conv_lhs => rw [hcut]
    simp [limitClause]
  · intro c hc
    rcases List.mem_append.1 hc with hc | hc
    · exact hb c hc
    · rw [List.mem_singleton.1 hc]
      rfl
  · rw [hsplit]
    exact hends.append hnumber.firm _
  · rw [hsplit, List.getLast?_append_of_ne_nil _ (decimal_ne_nil n)]
    intro hlast
    exact (hnumber.last ';' hlast).2.2 rfl

/-- What the extractor reads of a limitable query. -/
theorem Limitable.words {p : Str} (hp : Limitable p) : textsOf (trim p) = textsOf p ∧
    ¬(Scan.start.run (trim p)).Nested ∧ ∃ sel rest, wordsOf (trim p) = sel :: rest ∧
      sel.text = ("select" : Str) ∧ extract p = extractSelect (trim p) (wordsOf (trim p)) := by
  obtain ⟨x, y, hcut, hx, hy, hends, hbare⟩ := hp.cut
  have htexts : textsOf (trim p) = textsOf p := by rw [← hbare, textsOf_bareStmt]
  have hrun : Scan.start.run p = Scan.start.run (trim p) := by
    conv_lhs => rw [hcut]
    rw [Scan.run_append, Scan.run_append, run_faint fun c hc => faint_blank (hx c hc),
      run_faint fun c hc => faint_blank (hy c hc)]
  have hbegins := hp.begins
  rw [← htexts, textsOf, texts, List.head?_map] at hbegins
  obtain ⟨sel, hhead, hsel⟩ := Option.map_eq_some_iff.1 hbegins
  have hwords : wordsOf (trim p) = sel :: (wordsOf (trim p)).tail :=
    (List.cons_head?_tail hhead).symm
  have hextract := extract_select (s := p) (by rw [hbare]; exact hwords) (.inl hsel)
  rw [hbare] at hextract
  exact ⟨htexts, hrun ▸ hp.closed, sel, _, hwords, hsel, hextract⟩

/-- **The shape of a query with a limit.** -/
theorem shapeOf_limitTo {p : Str} (hp : Limitable p) {n : ℕ} (hn : n < 2 ^ 64) :
    shapeOf (limitTo p n) = { shapeOf p with limit := some n } ∧ (shapeOf p).kind = .select := by
  obtain ⟨htexts, hclosed, sel, rest, hwords, hsel, hshape⟩ := hp.words
  obtain ⟨a, gap, hrender, ha, hgap, hne, hends, hlast⟩ := hp.render n
  have hbare : bareStmt (limitTo p n) = trim p ++ limitClause gap [' '] n := by
    rw [hrender, bareStmt_lead (List.all_eq_true.2 ha), bareStmt_firm hends hlast]
  obtain ⟨w, hw, -⟩ := words_limit hclosed (fun c hc => faint_blank (hgap c hc)) hne
    (fun c hc => faint_blank (blank_space c hc)) (List.cons_ne_nil ' ' []) n
  have hfull : wordsOf (bareStmt (limitTo p n)) =
      sel :: (rest ++ [limitWord (trim p) gap, w]) := by
    rw [hbare, hw, hwords]
    rfl
  have hlimit := extractSelect_limit hgap hne hwords hsel hclosed (by rw [htexts]; exact hp.unlimited)
    (by rw [htexts]; exact hp.ends) hn
  rw [← hshape, extract_eq, Option.map_some] at hlimit
  have hextract := extract_select hfull (.inl hsel)
  rw [hbare, hlimit, extract_eq] at hextract
  have hdrop : (wordsOf (trim p)).dropWhile (·.text ≠ ("select" : Str)) = sel :: rest := by
    rw [hwords]
    exact drop_select hsel rest
  exact ⟨Option.some.inj hextract,
    (extractSelect_some hdrop (hshape.symm.trans (extract_eq p))).1⟩

/-- The query with its limit is one statement. -/
theorem split_limitTo {p : Str} (hp : Limitable p) (n : ℕ) :
    splitStatements (limitTo p n) = some [trim (limitTo p n)] := by
  have hhides : Hides (· ≠ ';') .start (limitTo p n) := by
    rw [limitTo, hides_append]
    refine ⟨hp.single, hides_of_forall ?_⟩
    rintro c hc rfl
    have hall : ∀ c ∈ limitClause [' '] [' '] n, c = ' ' ∨ isWordChar c = true := by
      intro c hc
      simp only [limitClause, List.singleton_append, List.mem_cons, List.mem_append] at hc
      rcases hc with h | h | h | h
      · exact .inl h
      · exact .inr (List.all_eq_true.1 (by decide : "limit".toList.all isWordChar) c h)
      · exact .inl h
      · exact .inr (List.all_eq_true.1 (digits_word (decimal_digits n)) c h)
    rcases hall _ hc with h | h
    · exact absurd h (by decide)
    · exact absurd h (by decide)
  have hne : trim (limitTo p n) ≠ [] := by
    obtain ⟨a, gap, hrender, ha, -, -, hends, -⟩ := hp.render n
    have htrim := hends.trim_blank ha (b := []) (by simp)
    rw [List.append_nil, ← hrender] at htrim
    rw [htrim]
    exact hends.ne
  exact splitTopLevel_hides hhides hne

theorem not_crushed {cfg : Config} {slot : Bool} {shape : ResultShape}
    (h : ¬Pg.Crushed cfg slot shape) : (∀ sig, cfg.crushClass shape ≠ .crush sig) ∨
      cfg.crush.warnOnly = true ∨ slot = false := by
  by_contra hno
  simp only [not_or, not_forall, not_not, Bool.not_eq_true, Bool.not_eq_false] at hno
  exact h hno

/-- A portal sends no more rows than its query's limit. -/
theorem Pg.executePortal_limited {sql : Str} (hkind : (shapeOf sql).kind = .select) {n : ℕ}
    (hlimit : (shapeOf sql).limit = some n) {cfg : Config} {slot : Bool}
    (hnormal : ¬Pg.Crushed cfg slot (shapeOf sql)) (formats : List ℤ) (maxRows : ℤ) (os : C.Rng) :
    ∃ out, Pg.executePortal cfg slot os ⟨sql, formats⟩ maxRows .new = some out ∧
      Pg.dataRows out.all ≤ n := by
  have hout : Pg.executePortal cfg slot os ⟨sql, formats⟩ maxRows .new =
      some (Pg.executeSelect cfg slot os ⟨sql, formats⟩ maxRows (shapeOf sql) .new) := by
    unfold Pg.executePortal
    simp only [extract_eq, hkind, Option.bind_eq_bind, Option.bind_some]
    rfl
  refine ⟨_, hout, ?_⟩
  rw [Pg.dataRows_normal hnormal]
  exact (Pg.boundRows_le _ _).trans (MySql.rowCount_le hlimit cfg _)

/-- **A shape with a limit** is crushed by no threshold that asks for its absence. -/
theorem crushClass_limited {s : ResultShape} {n : ℕ} (h : s.limit = some n) (sig : Signals) :
    s.crushClass .limit ≠ .crush sig ∧ s.crushClass .all3 ≠ .crush sig := by
  have hsome : s.limit.isNone = false := by rw [h]; rfl
  unfold ResultShape.crushClass
  constructor
  · split
    · simp
    · simp only [hsome, Bool.false_eq_true, if_false]
      split <;> simp
  · split
    · simp
    · have hcount : ¬(s.selectStar.toNat + (!s.hasWhere).toNat + (false : Bool).toNat = 3) := by
        have h1 := Bool.toNat_le s.selectStar
        have h2 := Bool.toNat_le (!s.hasWhere)
        simp only [Bool.toNat_false]
        omega
      simp only [hsome, hcount, decide_false, Bool.false_eq_true, if_false]
      split <;> simp

/-- **A `LIMIT` is honored.** It changes the shape of the query in its limit alone, the normal
answers of the three responders keep to it, and no threshold that asks for its absence
crushes the query. -/
theorem limit_honored {p : Str} (hp : Limitable p) {n : ℕ} (hn : n < 2 ^ 64) :
    extract (limitTo p n) = some { shapeOf p with limit := some n } ∧
      (∀ (cfg : Config) (o : Outcome C), ¬Pg.Crushed cfg (o.slot 0) (shapeOf (limitTo p n)) →
        ∃ out, Pg.query cfg o (limitTo p n) = some out ∧ Pg.dataRows out.all ≤ n) ∧
      (∀ (cfg : Config) (slot : Bool) (os : C.Rng) (formats : List ℤ) (maxRows : ℤ),
        ¬Pg.Crushed cfg slot (shapeOf (limitTo p n)) →
        ∃ out, Pg.executePortal cfg slot os ⟨limitTo p n, formats⟩ maxRows .new = some out ∧
          Pg.dataRows out.all ≤ n) ∧
      (∀ (cfg : Config) (slot : Bool) (os : C.Rng),
        ¬Pg.Crushed cfg slot (shapeOf (limitTo p n)) →
        ∃ cols rows, MySql.runQuery cfg slot os (limitTo p n) = some (MySql.resultSet cols rows) ∧
          rows.length ≤ n) ∧
      ∀ sig, (shapeOf (limitTo p n)).crushClass .limit ≠ .crush sig ∧
        (shapeOf (limitTo p n)).crushClass .all3 ≠ .crush sig := by
  obtain ⟨hshape, hselect⟩ := shapeOf_limitTo hp hn
  have hlimit : (shapeOf (limitTo p n)).limit = some n := by rw [hshape]
  have hkind : (shapeOf (limitTo p n)).kind = .select := by
    rw [hshape]
    exact hselect
  have hsplit := split_limitTo hp n
  -- the statement of the simple paths is the trimmed text
  have hstmt : shapeOf (trim (limitTo p n)) = shapeOf (limitTo p n) :=
    shapeOf_congr (extract_trim _)
  refine ⟨by rw [extract_eq, hshape], ?_, ?_, ?_, crushClass_limited hlimit⟩
  · intro cfg o hnormal
    obtain ⟨out, hout, hrows⟩ := Pg.dataRows_statement (by rw [hstmt]; exact hkind)
      (by rw [hstmt]; exact hnormal) (o.os 0)
    refine ⟨out.put .readyForQuery, ?_, ?_⟩
    · unfold Pg.query
      simp only [hsplit, Option.bind_eq_bind, Option.bind_some, Pg.respondAll, hout]
      rfl
    · rw [Pg.all_put, Pg.dataRows_append, hrows, Pg.dataRows_one rfl, Nat.add_zero, hstmt]
      exact MySql.rowCount_le hlimit cfg _
  · intro cfg slot os formats maxRows hnormal
    exact Pg.executePortal_limited hkind hlimit hnormal formats maxRows os
  · intro cfg slot os hnormal
    have hrun : MySql.runQuery cfg slot os (limitTo p n) = _ :=
      MySql.runQuery_single hsplit (hstmt ▸ extract_eq _) hkind slot os
    rw [MySql.selectResponse_normal (not_crushed hnormal), MySql.normalRows_eq] at hrun
    refine ⟨_, _, hrun, ?_⟩
    rw [MySql.length_textRows]
    exact MySql.rowCount_le hlimit cfg _

/-- `select id from t` can be limited to three rows. -/
theorem limit_honored_three : extract (limitTo "select id from t" 3) =
    some { shapeOf "select id from t" with limit := some 3 } := by
  have hsemi : ∀ c ∈ ("select id from t" : Str), c ≠ ';' := by
    rintro c hc rfl
    exact absurd hc (by decide)
  have hp : Limitable "select id from t" :=
    ⟨by decide, by decide, by decide, hides_of_forall hsemi, by decide⟩
  exact (limit_honored (C := .least) hp (by decide)).1

end EtherealDb
