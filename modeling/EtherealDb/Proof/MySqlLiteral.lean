import EtherealDb.Proof.Faint
import EtherealDb.Proof.MySqlWire

/-!
# Interpolated literals

MySQL drivers quote a parameter with backslashes, and the scanners know doubled quotes only.

* `texts_literalQuery`: the words that the extractor sees, with those of the literal among
  them.
* `literal_keeps_shape_iff`: **the literals that never change the answer's shape.**
-/

namespace EtherealDb.MySql

open Str Reading

variable {C : Crates}

/-! ## Queries with a literal -/

/-- A text with a backslash before each quote, double quote and backslash. -/
def escape (s : Str) : Str :=
  s.flatMap fun c => if c = '\'' ∨ c = '"' ∨ c = '\\' then ['\\', c] else [c]

/-- The literal that a driver interpolates for a text. -/
def interpolated (s : Str) : Str := '\'' :: escape s ++ ['\'']

/-- What stands before the literal. -/
def queryHead : Str := "select id from t where name = "

/-- What stands after it. -/
def queryTail (n : ℕ) : Str := ' ' :: "limit".toList ++ ' ' :: decimal n

/-- `select id from t where name = <literal> limit n`. -/
def literalQuery (s : Str) (n : ℕ) : Str := queryHead ++ (interpolated s ++ queryTail n)

/-- **The shape that a client expects of the query**, and a bound on its rows. -/
structure KeepsShape (C : Crates) (s : Str) (n : ℕ) : Prop where
  single : splitStatements (literalQuery s n) = some [literalQuery s n]
  shape : ∃ shape, extract (literalQuery s n) = some shape ∧ shape.limit = some n ∧
    shape.hasWhere = true ∧ shape.tableHint = some ("t" : Str)
  rows : ∀ (cfg : Config) (slot : Bool) (os : C.Rng),
    ((∀ sig, cfg.crushClass (shapeOf (literalQuery s n)) ≠ .crush sig) ∨
      cfg.crush.warnOnly = true ∨ slot = false) →
    ∃ cols rows, runQuery cfg slot os (literalQuery s n) = some (resultSet cols rows) ∧
      rows.length ≤ n

/-- **The literals that the scanners come out of**: outside quotes and brackets, past no
semicolon and past no word `limit`. -/
structure Inert (s : Str) : Prop where
  closed : ¬(Scan.start.run (interpolated s)).Nested
  single : Hides (· ≠ ';') Scan.start (interpolated s)
  unlimited : ("limit" : Str) ∉ textsOf (interpolated s)

/-! ## The text -/

theorem queryTail_plain (n : ℕ) : ∀ c ∈ queryTail n, isWordChar c = true ∨ c = ' ' := by
  intro c hc
  unfold queryTail at hc
  rcases List.mem_cons.1 hc with rfl | hc
  · exact .inr rfl
  · rcases List.mem_append.1 hc with hc | hc
    · have hall : "limit".toList.all isWordChar := by decide
      exact .inl (List.all_eq_true.1 hall c hc)
    · rcases List.mem_cons.1 hc with rfl | hc
      · exact .inr rfl
      · exact .inl (List.all_eq_true.1 (digits_word (decimal_digits n)) c hc)

/-- No scan counts anything of such a text. -/
theorem arm_plain {c : Char} (h : isWordChar c = true ∨ c = ' ') (σ : Scan) : σ.arm c = none := by
  rcases h with h | rfl
  · exact Scan.arm_eq_none (Scan.isWordChar_ne h)
  · exact Scan.arm_eq_none (by decide)

/-- The query begins and ends with characters that trimming keeps. -/
theorem ends_literalQuery (s : Str) (n : ℕ) : Ends Solid Solid (literalQuery s n) := by
  have hhead : queryHead = "select".toList ++ " id from t where name = ".toList := by decide
  have htail : queryTail n = " limit ".toList ++ decimal n := rfl
  have hselect : Ends Solid Solid "select".toList := ends_word (by decide) (by decide)
  have hdec : Ends Solid Solid (decimal n) :=
    ends_word (decimal_ne_nil n) (digits_word (decimal_digits n))
  have happend := hselect.append hdec
    (" id from t where name = ".toList ++ (interpolated s ++ " limit ".toList))
  rw [literalQuery, hhead, htail]
  simpa only [List.append_assoc] using happend

/-! ## The words -/

/-- The words before the literal, and where they stand. -/
def headWords : List Word :=
  [⟨"select", 0, 6⟩, ⟨"id", 7, 9⟩, ⟨"from", 10, 14⟩, ⟨"t", 15, 16⟩, ⟨"where", 17, 22⟩,
    ⟨"name", 23, 27⟩]

/-- The texts of the words after the literal, in the state that it leaves. -/
def tailTexts (σ : Scan) (n : ℕ) : List Str :=
  if σ.Nested then [] else ["limit", decimal n]

theorem textsFrom_queryTail (σ : Scan) (n : ℕ) :
    textsFrom σ (queryTail n) = tailTexts σ n := by
  unfold tailTexts
  split_ifs with hσ
  · -- inside quotes or brackets nothing is seen
    have hopaque := (scan_inside hσ fun c hc => arm_plain (queryTail_plain n c hc) σ).2
    have hread := readWords_hidden (i := 0) hopaque []
    rw [List.append_nil] at hread
    rw [textsFrom, hread]
    rfl
  · have hblank : ∀ c ∈ [' '], Faint c := fun c hc => faint_blank (blank_space c hc)
    have hrun : σ.run "limit".toList = σ := run_word_chars (by decide) σ
    have htail : queryTail n = [' '] ++ ("limit".toList ++ ([' '] ++ decimal n)) := rfl
    rw [textsFrom, htail, readWords_faint hblank, words_gap hblank (by simp)]
    simp only [at', hrun]
    have hlimit := readWords_word (i := 0 + len [' ']) (u := "limit".toList) hσ (by decide)
      (by decide)
    have hnumber := readWords_word (i := 0 + len [' '] + len "limit".toList + len [' ']) hσ
      (decimal_ne_nil n) (digits_word (decimal_digits n))
    simp only [at'] at hlimit hnumber
    rw [hlimit, hnumber, lower_decimal]
    rfl

/-- **The words of the query**: those of the literal stand between its own. -/
theorem wordsOf_literalQuery (s : Str) (n : ℕ) : ∃ ws, wordsOf (literalQuery s n) =
    headWords ++ ws ∧ texts ws = textsOf (interpolated s) ++
      tailTexts (Scan.start.run (interpolated s)) n := by
  have hhead : wordsOf queryHead = headWords := by decide
  have hrun : Scan.start.run queryHead = .start := by decide
  refine ⟨readWords (at' (len queryHead) .start) (interpolated s ++ queryTail n), ?_, ?_⟩
  · have hbreaks : Breaks (Scan.start.run queryHead) (interpolated s ++ queryTail n) :=
      breaks_cons (by decide) _
    have happend := readWords_append (r := at' 0 .start) hbreaks
    rw [← hhead, wordsOf, literalQuery, happend]
    simp [wordsOf, at', hrun]
  · have hbreaks : Breaks (Scan.start.run (interpolated s)) (queryTail n) :=
      breaks_cons (by decide) _
    have happend : readWords (at' (len queryHead) .start) (interpolated s ++ queryTail n) =
        readWords (at' (len queryHead) .start) (interpolated s) ++
          readWords (at' (len queryHead + len (interpolated s)) (Scan.start.run (interpolated s)))
            (queryTail n) := readWords_append hbreaks
    rw [happend, texts, List.map_append]
    have hlit := texts_readWords (len queryHead) 0 .start (interpolated s)
    have htail := texts_readWords (len queryHead + len (interpolated s)) 0
      (Scan.start.run (interpolated s)) (queryTail n)
    unfold texts at hlit htail
    rw [hlit, htail]
    exact congrArg _ (textsFrom_queryTail _ n)

/-! ## The shape -/

/-- **The shape of the query**: the literal decides its limit alone. -/
theorem shapeOf_literalQuery (s : Str) (n : ℕ) :
    (shapeOf (literalQuery s n)).kind = .select ∧
      (shapeOf (literalQuery s n)).limit = limitOf (textsOf (interpolated s) ++
        tailTexts (Scan.start.run (interpolated s)) n) ∧
      (shapeOf (literalQuery s n)).hasWhere = true ∧
      (shapeOf (literalQuery s n)).tableHint = some ("t" : Str) := by
  obtain ⟨ws, hws, htexts⟩ := wordsOf_literalQuery s n
  have hbare := (ends_literalQuery s n).bareStmt
  have hextract : extractSelect (literalQuery s n) (wordsOf (literalQuery s n)) =
      some (shapeOf (literalQuery s n)) := by
    rw [← extract_eq]
    have hwords : wordsOf (bareStmt (literalQuery s n)) = ⟨"select", 0, 6⟩ ::
        (headWords.tail ++ ws) := by
      rw [hbare, hws]
      rfl
    rw [extract_select hwords (.inl rfl), hbare]
  rw [hws] at hextract
  have hsel : (headWords ++ ws).dropWhile (·.text ≠ ("select" : Str)) =
      ⟨"select", 0, 6⟩ :: (headWords.tail ++ ws) := rfl
  obtain ⟨hkind, hlimit, hwhere, htable⟩ := extractSelect_some hsel hextract
  have hall : texts (headWords ++ ws) = texts headWords ++ (textsOf (interpolated s) ++
      tailTexts (Scan.start.run (interpolated s)) n) := by
    rw [← htexts, texts, List.map_append]
    rfl
  refine ⟨hkind, ?_, ?_, ?_⟩
  · rw [hlimit, hall, limitOf_append (by decide)]
  · rw [hwhere, hall, List.any_append]
    rfl
  · -- the first `from` is the query's own, and the token after it is `t`
    have hfrom : sliceFrom (literalQuery s n) 14 = some (" t where name = ".toList ++
        (interpolated s ++ queryTail n)) := by
      have hhead : queryHead = "select id from".toList ++ " t where name = ".toList := by decide
      have hlen : len "select id from".toList = 14 := by decide
      rw [literalQuery, hhead, List.append_assoc, ← hlen]
      exact sliceFrom_append _ _
    have hfind : (headWords ++ ws).find? (·.text = ("from" : Str)) =
        some ⟨"from", 10, 14⟩ := rfl
    have hraw := rawAfter_eq hfind hfrom
    rw [token_append (by decide)] at hraw
    have htoken : token " t where name = ".toList = some ("t" : Str) := by decide
    have htable' : tableOf "t".toList = some ("t" : Str) := by decide
    rw [wordAfter_eq hraw, htoken, Option.bind_some, htable'] at htable
    exact (Option.some.inj htable).symm

/-- A limit is a machine integer. -/
theorem limitOf_lt {ts : List Str} {n : ℕ} (h : limitOf ts = some n) : n < 2 ^ 64 := by
  obtain ⟨w, -, hw⟩ := Option.bind_eq_some_iff.1 h
  unfold parseUnsigned at hw
  simpa using (Option.filter_eq_some_iff.1 hw).2

/-- **A word `limit` in the literal hides that of the query.** -/
theorem limitOf_const {ts : List Str} (h : ("limit" : Str) ∈ ts) (σ : Scan) :
    ∃ o, ∀ n, limitOf (ts ++ tailTexts σ n) = o := by
  obtain ⟨a, b, rfl, ha⟩ := List.eq_append_cons_of_mem h
  have hnext : ∀ t : List Str, limitOf (a ++ ("limit" : Str) :: b ++ t) =
      ((b ++ t)[0]?).bind (parseUnsigned (2 ^ 64)) := by
    intro t
    rw [List.append_assoc, limitOf_append ha]
    rfl
  cases b with
  | cons w b => exact ⟨parseUnsigned (2 ^ 64) w, fun n => hnext _⟩
  | nil =>
    refine ⟨none, fun n => ?_⟩
    rw [hnext, List.nil_append]
    unfold tailTexts
    split_ifs
    · rfl
    · rfl

/-- **Which literals leave the limit alone.** -/
theorem limit_iff (s : Str) :
    (∀ n < 2 ^ 64, limitOf (textsOf (interpolated s) ++
        tailTexts (Scan.start.run (interpolated s)) n) = some n) ↔
      ¬(Scan.start.run (interpolated s)).Nested ∧ ("limit" : Str) ∉ textsOf (interpolated s) := by
  constructor
  · intro h
    have hzero := h 0 (by decide)
    have hfree : ("limit" : Str) ∉ textsOf (interpolated s) := by
      intro hmem
      obtain ⟨o, ho⟩ := limitOf_const hmem (Scan.start.run (interpolated s))
      have hone := h 1 (by decide)
      rw [ho] at hzero hone
      rw [hzero] at hone
      cases hone
    refine ⟨?_, hfree⟩
    intro hnested
    rw [limitOf_append hfree, tailTexts, if_pos hnested] at hzero
    cases hzero
  · rintro ⟨hclosed, hfree⟩ n hn
    rw [limitOf_append hfree, tailTexts, if_neg hclosed, limitOf_limit hn]

/-- **Only the literal can hide a semicolon.** -/
theorem single_iff (s : Str) (n : ℕ) :
    splitStatements (literalQuery s n) = some [literalQuery s n] ↔
      Hides (· ≠ ';') Scan.start (interpolated s) := by
  have hrun : Scan.start.run queryHead = .start := by decide
  constructor
  · intro h
    have hhides := hides_of_single h
    rw [literalQuery, hides_append, hides_append, hrun] at hhides
    exact hhides.2.1
  · intro h
    have hhead : ∀ c ∈ queryHead, c ≠ ';' := by
      rintro c hc rfl
      exact absurd hc (by decide)
    have htail : ∀ c ∈ queryTail n, c ≠ ';' := by
      rintro c hc rfl
      rcases queryTail_plain n _ hc with hword | hblank
      · exact absurd hword (by decide)
      · exact absurd hblank (by decide)
    have hhides : Hides (· ≠ ';') Scan.start (literalQuery s n) := by
      rw [literalQuery, hides_append, hides_append, hrun]
      exact ⟨hides_of_forall hhead, h, hides_of_forall htail⟩
    have hends := ends_literalQuery s n
    exact splitStatements_single hhides hends.firm.trim hends.ne

/-! ## Rows -/

/-- An answer that is not crushed is a normal one. -/
theorem selectResponse_normal {cfg : Config} {slot : Bool} {shape : ResultShape}
    (h : (∀ sig, cfg.crushClass shape ≠ .crush sig) ∨ cfg.crush.warnOnly = true ∨ slot = false)
    (os : C.Rng) (sql : Str) : selectResponse cfg slot os sql shape =
      (normalRows shape cfg (seedRng cfg (Utf8.encode sql) os)).1 := by
  unfold selectResponse
  split
  · rename_i sig hsig
    rcases h with h | h | h
    · exact absurd hsig (h sig)
    · simp [h]
    · simp [h]
  · rfl

/-- **A limit bounds the rows.** -/
theorem rowCount_le {shape : ResultShape} {n : ℕ} (h : shape.limit = some n) (cfg : Config)
    (rng : C.Rng) : (Pg.rowCount shape cfg rng).1 ≤ n := by
  rw [Pg.rowCount_fst, Pg.limited, h]
  exact Nat.min_le_right _ _

/-- **Literals never change the answer's shape exactly when the scanners come out of them.**
No limit past a machine integer is ever kept. -/
theorem literal_keeps_shape_iff (s : Str) :
    ((∀ n < 2 ^ 64, KeepsShape C s n) ↔ Inert s) ∧ ∀ n, 2 ^ 64 ≤ n → ¬KeepsShape C s n := by
  have hlimit : ∀ n, KeepsShape C s n → limitOf (textsOf (interpolated s) ++
      tailTexts (Scan.start.run (interpolated s)) n) = some n := by
    intro n h
    obtain ⟨shape, hshape, hn, -⟩ := h.shape
    rw [extract_eq] at hshape
    rw [← (shapeOf_literalQuery s n).2.1, Option.some.inj hshape, hn]
  refine ⟨⟨?_, ?_⟩, ?_⟩
  · intro h
    obtain ⟨hclosed, hfree⟩ := (limit_iff s).1 fun n hn => hlimit n (h n hn)
    exact ⟨hclosed, (single_iff s 0).1 (h 0 (by decide)).single, hfree⟩
  · rintro ⟨hclosed, hsingle, hfree⟩ n hn
    obtain ⟨hkind, hl, hwhere, htable⟩ := shapeOf_literalQuery s n
    rw [(limit_iff s).2 ⟨hclosed, hfree⟩ n hn] at hl
    have hsplit := (single_iff s n).2 hsingle
    refine ⟨hsplit, ⟨_, extract_eq _, hl, hwhere, htable⟩, ?_⟩
    intro cfg slot os hcrush
    have hnormal := normalRows_eq (C := C) (shapeOf (literalQuery s n)) cfg
      (seedRng cfg (Utf8.encode (literalQuery s n)) os)
    rw [← selectResponse_normal hcrush os] at hnormal
    have hrun : runQuery cfg slot os (literalQuery s n) = _ :=
      runQuery_single hsplit (extract_eq _) hkind slot os
    rw [hnormal] at hrun
    refine ⟨_, _, hrun, ?_⟩
    rw [length_textRows]
    exact rowCount_le hl cfg _
  · intro n hn h
    have hlt := limitOf_lt (hlimit n h)
    omega

/-- A text without single quotes is harmless, whatever else it holds. -/
theorem inert_of_no_quote {s : Str} (h : '\'' ∉ s) : Inert s := by
  have hescape : '\'' ∉ escape s := by
    unfold escape
    intro hmem
    obtain ⟨c, hc, hin⟩ := List.mem_flatMap.1 hmem
    split_ifs at hin
    · rcases List.mem_cons.1 hin with heq | hin
      · exact absurd heq (by decide)
      · exact h (List.mem_singleton.1 hin ▸ hc)
    · exact h (List.mem_singleton.1 hin ▸ hc)
  -- the scanners stay inside the quotes up to the last one
  obtain ⟨hrun, hopaque⟩ := scan_inside (σ := ⟨0, true, false⟩) (.inl rfl)
    fun c hc => Scan.arm_inSq rfl (by rintro rfl; exact hescape hc)
  have hfront : Scan.start.run ('\'' :: escape s) = ⟨0, true, false⟩ := hrun
  have hend : Scan.start.run (interpolated s) = .start := by
    rw [interpolated, Scan.run_append, hfront]
    rfl
  have hhidden : Opaque .start (interpolated s) := by
    refine Opaque.append ⟨.inl rfl, hopaque⟩ ?_
    rw [hfront]
    exact ⟨.inl rfl, trivial⟩
  refine ⟨by rw [hend]; exact Scan.not_nested_start, hhidden.hides, ?_⟩
  have hread := readWords_hidden (i := 0) hhidden []
  rw [List.append_nil] at hread
  rw [textsOf, wordsOf, hread]
  simp [texts, at', flush]

/-- **A quote in a text hides the limit.** -/
theorem quote_unlimits : ¬(∀ n < 2 ^ 64, KeepsShape .least "'" n) ∧
    (extract (literalQuery "'" 1)).map (·.limit) = some none := by
  have hnone : (extract (literalQuery "'" 1)).map (·.limit) = some none := by decide +kernel
  refine ⟨?_, hnone⟩
  intro h
  obtain ⟨shape, hshape, hlimit, -⟩ := (h 1 (by decide)).shape
  rw [hshape, Option.map_some, hlimit] at hnone
  cases hnone

end EtherealDb.MySql
