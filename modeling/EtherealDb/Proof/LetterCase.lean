import Mathlib.Data.List.Forall2
import EtherealDb.Proof.Classify
import EtherealDb.Proof.Faint

/-!
# Letter case

Everything the extractor asks of a character is the same for both cases of a letter, so a
statement in lower case is cut at the same offsets, and its parts are those of the statement in
lower case.

* `wordsOf_lower`: the words of a text and their offsets.
* `pieces_lower`, `lastCast_lower`: the pieces of a list and the cast of an item.
* `classifyExpr_lower`: an expression in lower case gives the column in lower case.
* `extract_lower`: **the shape of a statement in lower case is its shape, but for the case of
  its names and literals.**
* `letter_case`: statements that differ in letter case alone have the same shape, but for that
  case, and the same crush class.
-/

namespace EtherealDb

open Str Reading

/-! ## Tests that see no case -/

/-- A test that gives the same answer for both cases of a letter. -/
def Caseless (p : Char → Bool) : Prop := ∀ c : Char, p c.toLower = p c

theorem caseless_word : Caseless isWordChar := isWordChar_toLower

theorem caseless_digit : Caseless Char.isDigit := by
  intro c
  rw [Bool.eq_iff_iff, isDigit_iff, isDigit_iff, toNat_toLower]
  split <;> omega

theorem caseless_whitespace : Caseless isWhitespace := by
  intro c
  unfold isWhitespace
  rw [toNat_toLower]
  split
  · rename_i h
    rw [Bool.eq_iff_iff]
    simp only [Bool.or_eq_true, Bool.and_eq_true, decide_eq_true_eq, beq_iff_eq]
    omega
  · rfl

/-- A character that is no letter has one case. -/
theorem toLower_eq_iff {d : Char} (hd : d.isAlpha = false) (c : Char) : c.toLower = d ↔ c = d := by
  rw [Bool.eq_false_iff, Ne, isAlpha_iff] at hd
  rw [← Char.toNat_inj, ← Char.toNat_inj, toNat_toLower]
  split <;> omega

theorem caseless_eq {d : Char} (hd : d.isAlpha = false) : Caseless (· == d) := by
  intro c
  rw [Bool.eq_iff_iff, beq_iff_eq, beq_iff_eq, toLower_eq_iff hd]

theorem Caseless.not {p : Char → Bool} (h : Caseless p) : Caseless fun c => !p c :=
  fun c => congrArg Bool.not (h c)

theorem Caseless.or {p q : Char → Bool} (hp : Caseless p) (hq : Caseless q) :
    Caseless fun c => p c || q c :=
  fun c => congrArg₂ Bool.or (hp c) (hq c)

theorem caseless_ne {d : Char} (hd : d.isAlpha = false) : Caseless (· != d) :=
  (caseless_eq hd).not

theorem caseless_delimiter : Caseless isDelimiter :=
  (((caseless_whitespace.or (caseless_eq (by decide))).or (caseless_eq (by decide))).or
    (caseless_eq (by decide))).or (caseless_eq (by decide))

/-! ## Cutting -/

section Cut

variable {p : Char → Bool} (hp : Caseless p) (s : Str)

include hp

theorem dropWhile_lower : (lower s).dropWhile p = lower (s.dropWhile p) := by
  rw [lower, List.dropWhile_map, show p ∘ Char.toLower = p from funext hp]
  rfl

theorem takeWhile_lower : (lower s).takeWhile p = lower (s.takeWhile p) := by
  rw [lower, List.takeWhile_map, show p ∘ Char.toLower = p from funext hp]
  rfl

theorem rdropWhile_lower : (lower s).rdropWhile p = lower (s.rdropWhile p) := by
  have hrev : (lower s).reverse = lower s.reverse := List.map_reverse.symm
  unfold List.rdropWhile
  rw [hrev, dropWhile_lower hp]
  exact List.map_reverse.symm

theorem rtakeWhile_lower : (lower s).rtakeWhile p = lower (s.rtakeWhile p) := by
  have hrev : (lower s).reverse = lower s.reverse := List.map_reverse.symm
  unfold List.rtakeWhile
  rw [hrev, takeWhile_lower hp]
  exact List.map_reverse.symm

theorem all_lower : (lower s).all p = s.all p := by
  rw [lower, List.all_map, show p ∘ Char.toLower = p from funext hp]

theorem any_lower : (lower s).any p = s.any p := by
  rw [lower, List.any_map, show p ∘ Char.toLower = p from funext hp]

end Cut

theorem lower_lower (s : Str) : lower (lower s) = lower s := by
  have hchar : ∀ c : Char, c.toLower.toLower = c.toLower := by
    intro c
    refine toLower_eq_self ?_
    rw [toNat_toLower]
    split <;> omega
  rw [lower, lower, List.map_map]
  exact List.map_congr_left fun c _ => hchar c

theorem trimStart_lower (s : Str) : trimStart (lower s) = lower (trimStart s) :=
  dropWhile_lower caseless_whitespace s

theorem trim_lower (s : Str) : trim (lower s) = lower (trim s) := by
  unfold trim trimEnd
  rw [trimStart_lower, rdropWhile_lower caseless_whitespace]

theorem trimMatches_lower {c : Char} (hc : c.isAlpha = false) (s : Str) :
    trimMatches c (lower s) = lower (trimMatches c s) := by
  unfold trimMatches
  rw [dropWhile_lower (caseless_eq hc), rdropWhile_lower (caseless_eq hc)]

theorem bareStmt_lower (s : Str) : bareStmt (lower s) = lower (bareStmt s) := by
  unfold bareStmt trimEndMatches
  rw [trim_lower, rdropWhile_lower (caseless_eq (by decide)), trim_lower]

theorem rsplitNext_lower {c : Char} (hc : c.isAlpha = false) (s : Str) :
    rsplitNext c (lower s) = lower (rsplitNext c s) :=
  rtakeWhile_lower (caseless_ne hc) s

/-- **Offsets do not move.** -/
theorem splitAt?_lower (s : Str) (n : ℕ) :
    splitAt? (lower s) n = (splitAt? s n).map fun p => (lower p.1, lower p.2) := by
  induction s generalizing n with
  | nil => cases n <;> rfl
  | cons c s ih =>
    cases n with
    | zero => rfl
    | succ n =>
      have hcons : lower (c :: s) = c.toLower :: lower s := rfl
      -- only ASCII letters change, and they stay one byte
      rw [hcons, splitAt?, splitAt?, utf8Size_toLower]
      split
      · rw [ih]
        cases splitAt? s (n + 1 - c.utf8Size) <;> rfl
      · rfl

theorem sliceFrom_lower (s : Str) (i : ℕ) : sliceFrom (lower s) i = (sliceFrom s i).map lower := by
  unfold sliceFrom
  rw [splitAt?_lower]
  cases splitAt? s i <;> rfl

theorem sliceTo_lower (s : Str) (j : ℕ) : sliceTo (lower s) j = (sliceTo s j).map lower := by
  unfold sliceTo
  rw [splitAt?_lower]
  cases splitAt? s j <;> rfl

theorem slice_lower (s : Str) (i j : ℕ) : slice (lower s) i j = (slice s i j).map lower := by
  unfold slice
  rw [sliceFrom_lower]
  split
  · cases sliceFrom s i with
    | none => rfl
    | some t => exact sliceTo_lower t (j - i)
  · rfl

/-! ## Scanning -/

theorem arm_toLower (σ : Scan) (c : Char) : σ.arm c.toLower = σ.arm c := by
  unfold Scan.arm
  simp only [toLower_eq_iff (d := '\'') (by decide), toLower_eq_iff (d := '"') (by decide),
    toLower_eq_iff (d := '(') (by decide), toLower_eq_iff (d := '[') (by decide),
    toLower_eq_iff (d := ')') (by decide), toLower_eq_iff (d := ']') (by decide)]

theorem step_toLower (σ : Scan) (c : Char) : σ.step c.toLower = σ.step c := by
  unfold Scan.step
  rw [arm_toLower]

/-- A reading with its pending word in lower case. -/
def Reading.fold (r : Reading) : Reading :=
  { r with pend := r.pend.map fun p => (p.1, lower p.2) }

theorem flush_fold (r : Reading) : r.fold.flush = r.flush := by
  obtain ⟨pos, scan, pend⟩ := r
  cases pend with
  | none => rfl
  | some p => exact congrArg (fun w => [(⟨w, p.1, pos⟩ : Word)]) (lower_lower p.2)

theorem step_fold (r : Reading) (c : Char) :
    r.fold.step c.toLower = ((r.step c).1.fold, (r.step c).2) := by
  have hextend : r.fold.extend c.toLower = ((r.extend c).1, lower (r.extend c).2) := by
    obtain ⟨pos, scan, pend⟩ := r
    cases pend with
    | none => rfl
    | some p => exact congrArg (p.1, ·) (lower_append p.2 [c]).symm
  unfold Reading.step
  rw [isWordChar_toLower, utf8Size_toLower, step_toLower, flush_fold, hextend]
  by_cases hends : r.scan.Nested ∨ isWordChar c = false
  · have hfold : r.fold.scan.Nested ∨ isWordChar c = false := hends
    rw [if_pos hends, if_pos hfold]
    rfl
  · have hfold : ¬(r.fold.scan.Nested ∨ isWordChar c = false) := hends
    rw [if_neg hends, if_neg hfold]
    rfl

theorem readWords_lower (r : Reading) (s : Str) : readWords r.fold (lower s) = readWords r s := by
  induction s generalizing r with
  | nil => exact flush_fold r
  | cons c s ih =>
    have hcons : lower (c :: s) = c.toLower :: lower s := rfl
    rw [hcons, readWords_cons, readWords_cons, step_fold, ih]

/-- **The words of a text in lower case** are its words, at their offsets. -/
theorem wordsOf_lower (s : Str) : wordsOf (lower s) = wordsOf s :=
  readWords_lower (at' 0 .start) s

/-- **The pieces of a list in lower case.** -/
theorem pieces_lower {sep : Char} (hsep : sep.isAlpha = false) (σ : Scan) (s : Str) :
    pieces sep σ (lower s) = (pieces sep σ s).map lower := by
  induction s generalizing σ with
  | nil => rfl
  | cons c s ih =>
    have hcons : lower (c :: s) = c.toLower :: lower s := rfl
    have hcuts : Cuts sep σ c.toLower ↔ Cuts sep σ c := by
      unfold Cuts
      rw [arm_toLower, toLower_eq_iff hsep]
    rw [hcons, pieces, pieces]
    by_cases hcut : Cuts sep σ c
    · rw [if_pos hcut, if_pos (hcuts.2 hcut), ih]
      rfl
    · rw [if_neg hcut, if_neg (mt hcuts.1 hcut), step_toLower, ih]
      cases pieces sep (σ.step c) s with
      | nil => rfl
      | cons p ps => rfl

theorem keep_lower (ps : List Str) : keep (ps.map lower) = (keep ps).map lower := by
  have hlist : (ps.map lower).map trim = (ps.map trim).map lower := by
    rw [List.map_map, List.map_map]
    exact List.map_congr_left fun p _ => trim_lower p
  unfold keep
  rw [hlist, List.filter_map]
  congr 2
  funext p
  simp

/-- **The last cast of an item in lower case.** -/
theorem lastCast_lower (σ : Scan) (s : Str) :
    lastCast σ (lower s) = (lastCast σ s).map fun p => (lower p.1, lower p.2) := by
  induction s generalizing σ with
  | nil => rfl
  | cons c s ih =>
    have hcons : lower (c :: s) = c.toLower :: lower s := rfl
    have hhead : (lower s).head? = some ':' ↔ s.head? = some ':' := by
      cases s with
      | nil => rfl
      | cons d s =>
        have hd := toLower_eq_iff (d := ':') (by decide) d
        simp only [lower, List.map_cons, List.head?_cons, Option.some.injEq, hd]
    -- a cast further on is the last one in both; else it is here in both or in neither
    rw [hcons, lastCast, lastCast, step_toLower, ih]
    cases lastCast (σ.step c) s with
    | some p => rfl
    | none =>
      simp only [Option.map_none, arm_toLower, toLower_eq_iff (d := ':') (by decide), hhead]
      split
      · exact congrArg (fun t => some ([], t)) (List.map_tail.symm)
      · rfl

/-! ## Items -/

theorem wireTypeFromSql_lower (ty : Str) : wireTypeFromSql (lower ty) = wireTypeFromSql ty := by
  unfold wireTypeFromSql
  rw [lower_lower]

theorem peelAlias_lower (item : Str) : peelAlias (lower item) =
    (peelAlias item).map fun p => (lower p.1, p.2.map lower) := by
  cases hw : (wordsOf item).find? (·.text = ("as" : Str)) with
  | none => rw [peelAlias_none hw, peelAlias_none (by rw [wordsOf_lower]; exact hw)]; rfl
  | some w =>
    obtain ⟨_, _, _, -, -, ha, hb⟩ := (piece_of_mem (List.mem_of_find?_eq_some hw)).cut
    rw [peelAlias_eq hw ha hb, peelAlias_eq (by rw [wordsOf_lower]; exact hw)
      (by rw [sliceTo_lower, ha]; rfl) (by rw [sliceFrom_lower, hb]; rfl), trim_lower, trim_lower,
      trimMatches_lower (by decide)]
    rfl

theorem peelCast_lower (expr : Str) :
    peelCast (lower expr) = (peelCast expr).map fun p => (lower p.1, p.2) := by
  have hlast := lastCast_lower .start expr
  cases h : lastCast .start expr with
  | none =>
    rw [h] at hlast
    rw [peelCast_none h, peelCast_none hlast]
    rfl
  | some p =>
    rw [h] at hlast
    rw [peelCast_eq h, peelCast_eq hlast, trim_lower, trim_lower, takeWhile_lower caseless_word,
      wireTypeFromSql_lower]
    rfl

/-- A column with its name and its literal in lower case. -/
def ColumnSpec.fold (c : ColumnSpec) : ColumnSpec :=
  { c with name := lower c.name, literal := c.literal.map fun l => (lower l.1, l.2) }

theorem isNumeric_lower (s : Str) : isNumeric (lower s) = isNumeric s := by
  cases s with
  | nil => rfl
  | cons c s =>
    have hcons : lower (c :: s) = c.toLower :: lower s := rfl
    have hdot : Caseless fun c => c.isDigit || c == '.' :=
      caseless_digit.or (caseless_eq (by decide))
    have hminus : Caseless fun c => c.isDigit || c == '.' || c == '-' :=
      hdot.or (caseless_eq (by decide))
    have hne : ((lower (c :: s)) ≠ [] : Bool) = ((c :: s) ≠ [] : Bool) := by simp
    have hfirst := hminus c
    dsimp only at hfirst
    unfold isNumeric
    rw [hne, any_lower caseless_digit, hcons]
    dsimp only
    rw [hfirst, all_lower hdot]

theorem undouble_lower (s : Str) : undouble (lower s) = lower (undouble s) := by
  induction s using undouble.induct with
  | case1 s ih => exact congrArg ('\'' :: ·) ih
  | case2 c s hpair ih =>
    -- two quotes in lower case are two quotes
    have hcons : lower (c :: s) = c.toLower :: lower s := rfl
    rw [undouble.eq_2 c s hpair, hcons, undouble.eq_2 c.toLower (lower s), ih]
    · rfl
    · intro t hc hs
      cases s with
      | nil => cases hs
      | cons d s =>
        obtain ⟨hd, -⟩ := List.cons.inj hs
        exact hpair s ((toLower_eq_iff (by decide) c).1 hc)
          (by rw [(toLower_eq_iff (by decide) d).1 hd])
  | case3 => rfl

theorem functionName_lower (s : Str) : functionName (lower s) = functionName s := by
  unfold functionName
  rw [takeWhile_lower (caseless_eq (by decide)).not, trim_lower, lower_lower]

theorem mem_lower {c : Char} (hc : c.isAlpha = false) (s : Str) : c ∈ lower s ↔ c ∈ s := by
  unfold lower
  rw [List.mem_map]
  constructor
  · rintro ⟨d, hd, hlower⟩
    rwa [← (toLower_eq_iff hc d).1 hlower]
  · exact fun h => ⟨c, h, (toLower_eq_iff hc c).2 rfl⟩

/-- **A call does not depend on the case of its name.** -/
theorem called_lower (s : Str) : called (lower s) = called s := by
  unfold called
  rw [functionName_lower]
  simp only [mem_lower (c := '(') (by decide)]

theorem lastName_lower (s : Str) : lastName (lower s) = lower (lastName s) := by
  unfold lastName
  rw [rsplitNext_lower (by decide), trim_lower, trimMatches_lower (by decide)]

theorem named_lower (s : Str) : Named (lower s) ↔ Named s := by
  have hname : Caseless fun c => isWordChar c || c == ' ' :=
    caseless_word.or (caseless_eq (by decide))
  unfold Named
  rw [lastName_lower, all_lower hname, Ne, lower_eq_nil]

theorem classifyIdent_lower (s : Str) :
    (classifyIdent (lower s)).fold = (classifyIdent s).fold := by
  rw [classifyIdent_eq, classifyIdent_eq]
  by_cases hnamed : Named s
  · rw [if_pos hnamed, if_pos ((named_lower s).2 hnamed), lastName_lower, lower_lower]
    cases scalarIntrospection (lower (lastName s)) with
    | some r => rfl
    | none => exact congrArg (fun name => ColumnSpec.named name) (lower_lower (lastName s))
  · rw [if_neg hnamed, if_neg (mt (named_lower s).1 hnamed)]

/-- What has no letter has one case. -/
theorem lower_eq_iff {k : Str} (hk : k.all fun c => !c.isAlpha) (s : Str) :
    lower s = k ↔ s = k := by
  induction k generalizing s with
  | nil => exact lower_eq_nil
  | cons d k ih =>
    rw [List.all_cons, Bool.and_eq_true, Bool.not_eq_true'] at hk
    cases s with
    | nil => exact iff_of_false (List.cons_ne_nil d k).symm (List.cons_ne_nil d k).symm
    | cons c s =>
      have hcons : lower (c :: s) = c.toLower :: lower s := rfl
      rw [hcons, List.cons_eq_cons, List.cons_eq_cons, toLower_eq_iff hk.1, ih hk.2]

theorem isStar_lower (s : Str) : isStar (lower s) = isStar s := by
  have hstar := lower_eq_iff (k := "*".toList) (by decide) s
  have hsuffix : ".*".toList <:+ lower s ↔ ".*".toList <:+ s := by
    constructor
    · rintro ⟨t, ht⟩
      obtain ⟨a, b, rfl, -, hb⟩ := List.map_eq_append_iff.1 ht.symm
      rw [(lower_eq_iff (by decide) b).1 hb]
      exact List.suffix_append a _
    · rintro ⟨t, rfl⟩
      rw [lower_append]
      exact List.suffix_append _ _
  unfold isStar
  rw [Bool.eq_iff_iff, Bool.or_eq_true, Bool.or_eq_true, beq_iff_eq, beq_iff_eq, hstar,
    List.isSuffixOf_iff_suffix, List.isSuffixOf_iff_suffix, hsuffix]

/-- What is quoted in lower case is quoted. -/
theorem quotes_lower {s m : Str} (h : lower s = '\'' :: m ++ ['\'']) :
    ∃ m', s = '\'' :: m' ++ ['\''] ∧ lower m' = m := by
  obtain ⟨a, b, rfl, ha, hb⟩ := List.map_eq_append_iff.1 h
  obtain ⟨c, m', rfl, hc, hm⟩ := List.map_eq_cons_iff.1 ha
  obtain rfl := (toLower_eq_iff (by decide) c).1 hc
  exact ⟨m', by rw [(lower_eq_iff (k := ['\'']) (by decide) b).1 hb], hm⟩

/-- **An expression in lower case gives the column in lower case.** -/
theorem classifyExpr_lower (e : Str) :
    (classifyExpr (lower e)).map ColumnSpec.fold = (classifyExpr e).map ColumnSpec.fold := by
  have htrim := trim_lower e
  by_cases hnumber : isNumeric (trim e) = true
  · have hdot : (lower (trim e)).contains '.' = (trim e).contains '.' := by
      rw [Bool.eq_iff_iff, List.contains_iff_mem, List.contains_iff_mem, mem_lower (by decide)]
    have hnumber' : isNumeric (trim (lower e)) = true := by rwa [htrim, isNumeric_lower]
    rw [classifyExpr_number hnumber, classifyExpr_number hnumber', htrim, hdot]
    simp only [Option.map_some, ColumnSpec.fold, ColumnSpec.echo, lower_lower]
  by_cases hquotes : ∃ m, trim e = '\'' :: m ++ ['\'']
  · obtain ⟨m, hm⟩ := hquotes
    have hlower : trim (lower e) = '\'' :: lower m ++ ['\''] := by
      rw [htrim, hm]
      exact lower_append ('\'' :: m) ['\'']
    rw [classifyExpr_quotes hm, classifyExpr_quotes hlower, undouble_lower]
    simp only [Option.map_some, ColumnSpec.fold, ColumnSpec.echo, lower_lower]
  have hquotes' : ¬∃ m, trim (lower e) = '\'' :: m ++ ['\''] := by
    rintro ⟨m, hm⟩
    rw [htrim] at hm
    obtain ⟨m', hm', -⟩ := quotes_lower hm
    exact hquotes ⟨m', hm'⟩
  have hnumber' : isNumeric (trim (lower e)) = false := by
    rw [htrim, isNumeric_lower]
    exact Bool.eq_false_iff.2 hnumber
  rw [classifyExpr_of (Bool.eq_false_iff.2 hnumber) hquotes, classifyExpr_of hnumber' hquotes',
    htrim, called_lower]
  cases called (trim e) with
  | some spec => rw [Option.getD_some, Option.getD_some]
  | none =>
    rw [Option.getD_none, Option.getD_none, Option.map_some, Option.map_some, classifyIdent_lower]

/-- **An item in lower case gives the columns in lower case.** -/
theorem parseItem_lower (item : Str) : (parseItem (lower item)).map (List.map ColumnSpec.fold) =
    (parseItem item).map (List.map ColumnSpec.fold) := by
  obtain ⟨⟨e, a⟩, h1⟩ := peelAlias_total (trim item)
  obtain ⟨⟨e', c⟩, h2⟩ := peelCast_total e
  obtain ⟨spec, h3⟩ := classifyExpr_total e'
  have h1' := peelAlias_lower (trim item)
  have h2' := peelCast_lower e
  have h3' := classifyExpr_lower e'
  rw [h1, Option.map_some] at h1'
  rw [h2, Option.map_some] at h2'
  rw [h3, Option.map_some] at h3'
  obtain ⟨spec', hspec', hfold⟩ := Option.map_eq_some_iff.1 h3'
  unfold parseItem
  dsimp only
  rw [trim_lower, isStar_lower]
  by_cases hnil : trim item = []
  · rw [if_pos hnil, if_pos (lower_eq_nil.2 hnil)]
  rw [if_neg hnil, if_neg (mt lower_eq_nil.1 hnil)]
  by_cases hstar : isStar (trim item) = true
  · rw [if_pos hstar, if_pos hstar]
  rw [if_neg hstar, if_neg hstar]
  simp only [h1, h2, h3, h1', h2', hspec', Option.bind_eq_bind, Option.bind_some]
  simp only [ColumnSpec.fold, ColumnSpec.mk.injEq] at hfold
  obtain ⟨hname, hcast, hliteral, hagg⟩ := hfold
  -- an alias is given in either case, and takes the place of the name
  have hgiven : lower ((a.map lower).getD spec'.name) = lower (a.getD spec.name) := by
    cases a with
    | none => exact hname
    | some name => exact lower_lower name
  cases c with
  | none =>
    change some [ColumnSpec.fold _] = some [ColumnSpec.fold _]
    simp only [ColumnSpec.fold, hgiven, hcast, hliteral, hagg]
  | some t =>
    have hretyped : (spec'.literal.map fun l => (lower l.1, t)) =
        spec.literal.map fun l => (lower l.1, t) := by
      have hmap := congrArg (Option.map fun l : Str × WireType => (l.1, t)) hliteral
      simpa only [Option.map_map, Function.comp_def] using hmap
    change some [ColumnSpec.fold _] = some [ColumnSpec.fold _]
    simp only [ColumnSpec.fold, hgiven, hagg, Option.map_map, Function.comp_def, hretyped]

/-! ## Statements -/

/-- A shape with its columns in lower case. -/
def ResultShape.fold (s : ResultShape) : ResultShape :=
  { s with columns := s.columns.map ColumnSpec.fold }

theorem skipKeyword_lower (kw cols : Str) :
    skipKeyword kw (lower cols) = (skipKeyword kw cols).map lower := by
  by_cases hpre : kw.isPrefixOf (lower cols)
  · obtain ⟨a, b, rfl, ha, -⟩ := lower_isPrefix hpre
    have hhead : (lower b).head?.any isWhitespace = b.head?.any isWhitespace := by
      cases b with
      | nil => rfl
      | cons c b => exact caseless_whitespace c
    rw [lower_append, skipKeyword_eq ha, skipKeyword_eq ((lower_lower a).trans ha), hhead,
      trimStart_lower, ← lower_append, Option.map_some]
    split <;> rfl
  · have hpre' : ¬kw.isPrefixOf (lower (lower cols)) := by rwa [lower_lower]
    rw [skipKeyword, skipKeyword, if_neg hpre, if_neg hpre']
    rfl

theorem rawAfter_lower (words : List Word) (s kw : Str) :
    rawAfter words (lower s) kw = (rawAfter words s kw).map (Option.map lower) := by
  cases hw : words.find? (·.text = kw) with
  | none =>
    unfold rawAfter
    rw [hw]
    rfl
  | some w =>
    have hfrom := sliceFrom_lower s w.stop
    cases hb : sliceFrom s w.stop with
    | none =>
      rw [hb] at hfrom
      unfold rawAfter
      rw [hw]
      simp only [hb, hfrom, Option.bind_eq_bind, Option.map_none, Option.bind_none]
    | some b =>
      rw [hb] at hfrom
      rw [rawAfter_eq hw hb, rawAfter_eq hw hfrom, Option.map_some]
      unfold token
      dsimp only
      rw [trimStart_lower, takeWhile_lower caseless_delimiter.not, trim_lower]
      by_cases hnil : trim ((trimStart b).takeWhile fun c => !isDelimiter c) = []
      · rw [if_pos hnil, if_pos (lower_eq_nil.2 hnil)]
        rfl
      · rw [if_neg hnil, if_neg (mt lower_eq_nil.1 hnil)]
        rfl

/-- The table a token names is in lower case. -/
theorem tableOf_lower (raw : Str) : tableOf (lower raw) = tableOf raw := by
  unfold tableOf
  dsimp only
  rw [rsplitNext_lower (by decide), trimMatches_lower (by decide), lower_lower]
  simp only [lower_eq_nil]

theorem isSystemCatalog_lower (raw : Str) : isSystemCatalog (lower raw) = isSystemCatalog raw := by
  unfold isSystemCatalog
  rw [lower_lower]

theorem wordAfter_lower (s kw : Str) :
    wordAfter (wordsOf s) (lower s) kw = wordAfter (wordsOf s) s kw := by
  obtain ⟨raw, hraw⟩ := rawAfter_total s kw
  have hlower := rawAfter_lower (wordsOf s) s kw
  rw [hraw, Option.map_some] at hlower
  rw [wordAfter_eq hraw, wordAfter_eq hlower]
  cases raw with
  | none => rfl
  | some raw => exact congrArg some (tableOf_lower raw)

theorem parseItems_lower (ps : List Str) :
    ((ps.map lower).mapM parseItem).map (List.map (List.map ColumnSpec.fold)) =
      (ps.mapM parseItem).map (List.map (List.map ColumnSpec.fold)) := by
  induction ps with
  | nil => rfl
  | cons p ps ih =>
    obtain ⟨cs, hcs⟩ := parseItem_total p
    obtain ⟨rest, hrest⟩ := mapM_total parseItem_total ps
    have hp := parseItem_lower p
    rw [hcs, Option.map_some] at hp
    rw [hrest, Option.map_some] at ih
    obtain ⟨cs', hcs', hfold⟩ := Option.map_eq_some_iff.1 hp
    obtain ⟨rest', hrest', hfolds⟩ := Option.map_eq_some_iff.1 ih
    rw [List.map_cons, List.mapM_cons, List.mapM_cons, hcs, hrest, hcs', hrest']
    exact congrArg some (congrArg₂ List.cons hfold hfolds)

/-- **A list in lower case gives the shape in lower case.** -/
theorem selectShape_lower (l : Str) (raw : Option Str) (ts : List Str) :
    (selectShape (lower l) (raw.map lower) ts).map ResultShape.fold =
      (selectShape l raw ts).map ResultShape.fold := by
  obtain ⟨c1, h1⟩ := skipKeyword_total "distinct" (trim l)
  obtain ⟨c2, h2⟩ := skipKeyword_total "all" c1
  obtain ⟨columns, h3⟩ := mapM_total parseItem_total (keep (pieces ',' .start c2))
  have h1' := skipKeyword_lower "distinct" (trim l)
  have h2' := skipKeyword_lower "all" c1
  have h3' := parseItems_lower (keep (pieces ',' .start c2))
  rw [h1, Option.map_some] at h1'
  rw [h2, Option.map_some] at h2'
  rw [h3, Option.map_some] at h3'
  obtain ⟨columns', hcolumns', hfold⟩ := Option.map_eq_some_iff.1 h3'
  have hpieces : keep (pieces ',' .start (lower c2)) = (keep (pieces ',' .start c2)).map lower := by
    rw [pieces_lower (by decide), keep_lower]
  have hstar : ((keep (pieces ',' .start c2)).map lower).any (fun item => isStar (trim item)) =
      (keep (pieces ',' .start c2)).any fun item => isStar (trim item) := by
    rw [List.any_map]
    congr 1
    funext item
    exact (congrArg isStar (trim_lower item)).trans (isStar_lower (trim item))
  have htable : (raw.map lower).bind tableOf = raw.bind tableOf := by
    cases raw with
    | none => rfl
    | some raw => exact tableOf_lower raw
  have hcatalog : (raw.map lower).any isSystemCatalog = raw.any isSystemCatalog := by
    cases raw with
    | none => rfl
    | some raw => exact isSystemCatalog_lower raw
  have hflat : columns'.flatten.map ColumnSpec.fold = columns.flatten.map ColumnSpec.fold := by
    rw [List.map_flatten, List.map_flatten, hfold]
  unfold selectShape
  simp only [trim_lower, h1, h1', h2, h2', hpieces, h3, hcolumns', hstar, htable, hcatalog,
    Option.bind_eq_bind, Option.bind_some]
  change some (ResultShape.fold _) = some (ResultShape.fold _)
  simp only [ResultShape.fold, hflat]

theorem extractSelect_lower (s : Str) :
    (extractSelect (lower s) (wordsOf s)).map ResultShape.fold =
      (extractSelect s (wordsOf s)).map ResultShape.fold := by
  cases hdrop : (wordsOf s).dropWhile (·.text ≠ ("select" : Str)) with
  | nil => rw [extractSelect_nil hdrop, extractSelect_nil hdrop]
  | cons sel ws =>
    obtain ⟨l, raw, hl, hraw, hshape⟩ := extractSelect_spec hdrop
    -- the same words, so the same offsets
    have hl' := slice_lower s sel.stop
      (((ws.find? fun w => w.text ∈ listEnd).map Word.start).getD (len s))
    have hraw' := rawAfter_lower (wordsOf s) s "from"
    rw [hl, Option.map_some] at hl'
    rw [hraw, Option.map_some] at hraw'
    rw [hshape, extractSelect_of_select hdrop (by rw [len_lower]; exact hl') hraw',
      selectShape_lower]

/-- **The shape of a statement in lower case** is its shape, but for the case of its names and
literals. -/
theorem extract_lower (s : Str) :
    (extract (lower s)).map ResultShape.fold = (extract s).map ResultShape.fold := by
  unfold extract
  dsimp only
  rw [bareStmt_lower]
  by_cases hnil : bareStmt s = []
  · rw [if_pos hnil, if_pos (lower_eq_nil.2 hnil)]
  rw [if_neg hnil, if_neg (mt lower_eq_nil.1 hnil)]
  simp only [scanWords_eq, wordsOf_lower, wordAfter_lower, Option.bind_eq_bind, Option.bind_some]
  split
  · exact extractSelect_lower (bareStmt s)
  · rfl

/-! ## Shapes up to letter case -/

/-- **Two columns that differ in letter case alone.** -/
structure ColumnSpec.SameUpToCase (c d : ColumnSpec) : Prop where
  name : lower c.name = lower d.name
  cast : c.cast = d.cast
  aggregate : c.aggregate = d.aggregate
  literal : Option.Rel (fun l m : Str × WireType => lower l.1 = lower m.1 ∧ l.2 = m.2)
    c.literal d.literal

/-- **Two shapes whose columns differ in letter case alone.** -/
structure ResultShape.SameUpToCase (a b : ResultShape) : Prop where
  kind : a.kind = b.kind
  tableHint : a.tableHint = b.tableHint
  limit : a.limit = b.limit
  selectStar : a.selectStar = b.selectStar
  hasWhere : a.hasWhere = b.hasWhere
  forceEmpty : a.forceEmpty = b.forceEmpty
  columns : List.Forall₂ ColumnSpec.SameUpToCase a.columns b.columns

theorem ColumnSpec.same_of_fold {c d : ColumnSpec} (h : c.fold = d.fold) : c.SameUpToCase d := by
  simp only [fold, mk.injEq] at h
  obtain ⟨hname, hcast, hliteral, hagg⟩ := h
  refine ⟨hname, hcast, hagg, ?_⟩
  cases hc : c.literal with
  | none =>
    cases hd : d.literal with
    | none => exact .none
    | some m =>
      rw [hc, hd] at hliteral
      cases hliteral
  | some l =>
    cases hd : d.literal with
    | none =>
      rw [hc, hd] at hliteral
      cases hliteral
    | some m =>
      rw [hc, hd] at hliteral
      exact .some (Prod.mk.inj (Option.some.inj hliteral))

theorem ResultShape.same_of_fold {a b : ResultShape} (h : a.fold = b.fold) :
    a.SameUpToCase b := by
  simp only [fold, mk.injEq] at h
  obtain ⟨hkind, hcolumns, htable, hlimit, hstar, hwhere, hempty⟩ := h
  refine ⟨hkind, htable, hlimit, hstar, hwhere, hempty, ?_⟩
  have hmap : List.Forall₂ (· = ·) (a.columns.map ColumnSpec.fold)
      (b.columns.map ColumnSpec.fold) := by
    rw [List.forall₂_eq_eq_eq]
    exact hcolumns
  have hall := List.forall₂_map_right_iff.1 (List.forall₂_map_left_iff.1 hmap)
  exact List.Forall₂.imp (fun _ _ => ColumnSpec.same_of_fold) hall

/-- The crush class sees no names and no literals. -/
theorem crushClass_fold (s : ResultShape) (th : CrushThreshold) :
    s.fold.crushClass th = s.crushClass th := by
  have hagg : s.fold.aggregateOnly = s.aggregateOnly := by
    unfold ResultShape.aggregateOnly ResultShape.fold
    simp only [ne_eq, List.map_eq_nil_iff, List.all_map]
    rfl
  unfold ResultShape.crushClass
  rw [hagg]
  rfl

/-- **Letter case never changes the shape of an answer**: statements that differ in it alone have
the same shape, but for the case of names and literals, and the same crush class. -/
theorem letter_case {s t : Str} (h : lower s = lower t) :
    (shapeOf s).SameUpToCase (shapeOf t) ∧
      ∀ th, (shapeOf s).crushClass th = (shapeOf t).crushClass th := by
  have hshape : ∀ u, (shapeOf u).fold = (shapeOf (lower u)).fold := by
    intro u
    have hfold := extract_lower u
    rw [extract_eq, extract_eq] at hfold
    exact (Option.some.inj hfold).symm
  -- both are the shape of the one statement in lower case
  have hfold : (shapeOf s).fold = (shapeOf t).fold := by
    rw [hshape s, h, ← hshape t]
  refine ⟨ResultShape.same_of_fold hfold, ?_⟩
  intro th
  rw [← crushClass_fold, hfold, crushClass_fold]

theorem letter_case_select :
    lower "SELECT COUNT(*), Name FROM Users" = lower "select count(*), name from users" ∧
      (shapeOf "SELECT COUNT(*), Name FROM Users").SameUpToCase
        (shapeOf "select count(*), name from users") :=
  ⟨by decide +kernel, (letter_case (by decide +kernel)).1⟩

end EtherealDb
