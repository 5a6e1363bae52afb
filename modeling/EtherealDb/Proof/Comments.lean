import EtherealDb.Proof.Ctes
import EtherealDb.Proof.Limit
import EtherealDb.Proof.SelectList

/-!
# Comments in front of a select

No scanner knows comments: what a comment says is read as words, quotes and separators.

* `Transparent`: the statement behind a text has the shape that it has alone.
* `Harmless`: what a text must not have to be so.
* `transparent_iff`: **a text is transparent to every select exactly when it is harmless.**
* `comment_transparent_iff`: the same of comments, by what they say.
-/

namespace EtherealDb

open Str Reading

/-! ## Comments -/

inductive CommentKind where
  | block | line
  deriving DecidableEq, Repr

def CommentKind.opening : CommentKind → Str
  | .block => "/*"
  | .line => "--"

/-- The terminator of a comment. -/
def CommentKind.closing : CommentKind → Str
  | .block => "*/"
  | .line => "\n"

/-- A comment, whose text does not hold its terminator. -/
structure Comment where
  kind : CommentKind
  text : Str
  inside : ¬kind.closing <:+: text

def Comment.render (k : Comment) : Str := k.kind.opening ++ (k.text ++ k.kind.closing)

/-- A text whose first token is `select`, after its blanks. -/
structure SelectFirst (s : Str) : Prop where
  begins : ∃ lead m, s = lead ++ m ∧ (∀ c ∈ lead, isWhitespace c = true) ∧ MainSelect m

/-- A text in front of a statement that is no part of it: the shape is that of the statement
alone, and the pieces are as many, each with its shape. -/
structure Transparent (p s : Str) : Prop where
  split : (splitStatements (p ++ s)).map (List.map extract) =
    (splitStatements s).map (List.map extract)
  shape : extract (p ++ s) = extract s

/-- A text that the scanners get past. It leaves no quote open and closes as many brackets as it
opens, has no semicolon outside them, and its words there are none, or begin with `with` or
`table` and hold none that the extractor looks for. -/
structure Harmless (p : Str) : Prop where
  closed : Closed p
  uncut : Hides (· ≠ ';') .start p
  first : ∀ t ∈ (textsOf p).head?, t = ("with" : Str) ∨ t = ("table" : Str)
  free : ∀ t ∈ textsOf p, t ∉ soughtWords

/-! ## What may stand in front -/

theorem Fore.blanks {p g : Str} (hp : Fore p) (hg : ∀ c ∈ g, isWhitespace c = true) :
    Fore (p ++ g) := by
  refine ⟨List.append_ne_nil_of_left_ne_nil hp.ne g, ?_, ?_⟩
  · obtain ⟨a, p, rfl⟩ := List.exists_cons_of_ne_nil hp.ne
    exact hp.first
  · intro c hc
    by_cases hnil : g = []
    · rw [hnil, List.append_nil] at hc
      exact hp.last c hc
    · rw [List.getLast?_append_of_ne_nil _ hnil] at hc
      exact (faint_blank (hg c (List.mem_of_getLast? hc))).1

/-- The words behind a text that ends no word. -/
theorem Fore.texts {p : Str} (hp : Fore p) (hclosed : Closed p) (m : Str) :
    textsOf (p ++ m) = textsOf p ++ textsOf m := textsOf_behind hclosed (.inr hp.ends)

/-- A text with a character that is not blank is left when it is trimmed. -/
theorem trim_ne_nil {s : Str} {c : Char} (hc : c ∈ s) (hfirm : Firm c) : trim s ≠ [] := by
  rw [Ne, trim_eq_nil_iff]
  intro hblank
  have hwhite := hblank c hc
  rw [hfirm] at hwhite
  cases hwhite

/-! ## Harmless texts are transparent -/

/-- **A select has its shape behind a harmless text.** -/
theorem Harmless.shape {p s : Str} (h : Harmless p) (hp : Fore p) (hs : SelectFirst s) :
    extract (p ++ s) = extract s := by
  obtain ⟨lead, m, rfl, hlead, hm⟩ := hs.begins
  have htexts : textsOf (p ++ lead) = textsOf p := by
    rw [hp.texts h.closed, textsOf_blank hlead, List.append_nil]
  have hclosed : Closed (p ++ lead) := h.closed.append (closed_faint hlead)
  have hpassed : PassedOver (p ++ lead) := by
    refine ⟨hclosed, (hp.blanks hlead).ends, ?_⟩
    rw [htexts]
    exact h.free
  have hfirst : ∀ t ∈ (textsOf (p ++ lead)).head?, t ∈ selectWords := by
    rw [htexts]
    intro t ht
    rcases h.first t ht with rfl | rfl <;> decide
  calc extract (p ++ (lead ++ m)) = extract (p ++ lead ++ m) := by rw [List.append_assoc]
    _ = extract m := extract_behind (hp.blanks hlead) hpassed hfirst hm
    _ = extract (lead ++ m) := by
      rw [extract, extract, bareStmt_lead (List.all_eq_true.2 hlead)]

/-- **The first piece of a select is a select.** -/
theorem SelectFirst.piece {s : Str} (hs : SelectFirst s) :
    ∃ q ps, pieces ';' .start s = q :: ps ∧ SelectFirst q ∧ trim q ≠ [] := by
  obtain ⟨lead, m, rfl, hlead, hm⟩ := hs.begins
  obtain ⟨u, r, rfl, hu, hr⟩ := hm.begins
  obtain ⟨hne, hword⟩ := spelled_word hu (by decide) (by decide)
  obtain ⟨q, ps, hq⟩ := List.exists_cons_of_ne_nil (pieces_ne_nil ';' .start r)
  have hfront : Hides (· ≠ ';') .start (lead ++ u) := by
    refine hides_of_forall ?_
    rintro c hc rfl
    rcases List.mem_append.1 hc with hc | hc
    · exact absurd (hlead _ hc) (by decide)
    · exact absurd (List.all_eq_true.1 hword _ hc) (by decide)
  have hrun : Closed (lead ++ u) := (closed_faint hlead).append (run_word_chars hword _)
  refine ⟨lead ++ (u ++ q), ps, ?_, ⟨lead, u ++ q, rfl, hlead, u, q, rfl, hu, ?_⟩, ?_⟩
  · rw [← List.append_assoc, pieces_hides hfront, hrun, hq, glue, List.append_assoc]
  · -- the piece ends the word no sooner than the text
    intro c hc
    refine hr c ?_
    have hjoin := intercalate_pieces ';' .start r
    rw [hq] at hjoin
    rw [← hjoin]
    cases ps with
    | nil => simpa using hc
    | cons _ _ =>
      rw [List.intercalate_cons_cons]
      simp only [List.append_assoc]
      exact List.mem_head?_append_of_mem_head? hc
  · obtain ⟨c, u, rfl⟩ := List.exists_cons_of_ne_nil hne
    have hc := not_isWhitespace_of_isWordChar (List.all_eq_true.1 hword c List.mem_cons_self)
    exact trim_ne_nil (c := c) (by simp) hc

theorem Fore.trim_ne {p : Str} (hp : Fore p) (s : Str) : trim (p ++ s) ≠ [] := by
  obtain ⟨a, p, rfl⟩ := List.exists_cons_of_ne_nil hp.ne
  exact trim_ne_nil List.mem_cons_self (hp.first a rfl).1

/-- **A harmless text is no part of the select behind it.** -/
theorem Harmless.transparent {p s : Str} (h : Harmless p) (hp : Fore p) (hs : SelectFirst s) :
    Transparent p s := by
  refine ⟨?_, h.shape hp hs⟩
  obtain ⟨q, ps, hps, hq, hne⟩ := hs.piece
  have hbehind : pieces ';' .start (p ++ s) = (p ++ q) :: ps := by
    rw [pieces_hides h.uncut, h.closed, hps, glue]
  rw [splitStatements, splitStatements, splitTopLevel_eq, splitTopLevel_eq, hbehind, hps,
    keep_cons_trim (hp.trim_ne q), keep_cons_trim hne]
  simp only [Option.map_some, List.map_cons, extract_trim, h.shape hp hq]

/-! ## Transparent texts cut no statement -/

/-- A text whose separators are not all hidden is cut. -/
theorem exists_cut {sep : Char} {σ : Scan} {s : Str} (h : ¬Hides (· ≠ sep) σ s) :
    ∃ a b, s = a ++ sep :: b ∧ Cuts sep (σ.run a) sep := by
  induction s generalizing σ with
  | nil => exact absurd trivial h
  | cons c s ih =>
    by_cases hcut : Cuts sep σ c
    · obtain rfl := hcut.2.1
      exact ⟨[], s, rfl, hcut⟩
    · obtain ⟨a, b, rfl, hab⟩ : ∃ a b, s = a ++ sep :: b ∧ Cuts sep ((σ.step c).run a) sep := by
        refine ih fun hrest => h ⟨?_, hrest⟩
        by_contra hseen
        rw [not_or, not_or, not_not, Option.not_isSome_iff_eq_none] at hseen
        exact hcut ⟨hseen.1, hseen.2.2, hseen.2.1⟩
      exact ⟨c :: a, b, rfl, hab⟩

/-- A text with more than blanks and separators leaves a piece. -/
theorem keep_pieces_pos {sep : Char} {σ : Scan} {s : Str} {c : Char} (hc : c ∈ s) (hsep : c ≠ sep)
    (hfirm : Firm c) : 0 < (keep (pieces sep σ s)).length := by
  obtain ⟨p, hp, hcp⟩ := (mem_pieces sep σ hc).resolve_left hsep
  have hne : trim p ≠ [] := trim_ne_nil hcp hfirm
  refine List.length_pos_of_mem (a := trim p) ?_
  exact List.mem_filter.2 ⟨List.mem_map_of_mem hp, by simpa using hne⟩

theorem Transparent.count {p s : Str} (h : Transparent p s) :
    (keep (pieces ';' .start (p ++ s))).length = (keep (pieces ';' .start s)).length := by
  have hpieces := h.split
  rw [splitStatements, splitStatements, splitTopLevel_eq, splitTopLevel_eq, Option.map_some,
    Option.map_some] at hpieces
  simpa using congrArg List.length (Option.some.inj hpieces)

/-- **A semicolon that is seen makes two statements.** -/
theorem two_pieces {a b : Str} (hcut : Cuts ';' (Scan.start.run a) ';') {c d : Char} (hc : c ∈ a)
    (hca : c ≠ ';' ∧ Firm c) (hd : d ∈ b) (hdb : d ≠ ';' ∧ Firm d) :
    2 ≤ (keep (pieces ';' .start (a ++ ';' :: b))).length := by
  have hfront := keep_pieces_pos (σ := .start) hc hca.1 hca.2
  have hback := keep_pieces_pos (σ := Scan.start.run a) hd hdb.1 hdb.2
  have hkeep : keep (pieces ';' .start (a ++ ';' :: b)) =
      keep (pieces ';' .start a) ++ keep (pieces ';' (Scan.start.run a) b) := by
    rw [pieces_sep hcut, keep, List.map_append, List.filter_append, keep, keep]
  rw [hkeep, List.length_append]
  omega

/-- `select` and what follows it. -/
def selecting (r : String) : Str := "select".toList ++ r.toList

/-- Whether a text continues no word in front of it. -/
def parted (r : String) : Bool := r.toList.head?.all fun c => !isWordChar c

theorem parted_head {r : String} (hr : parted r) : ∀ c ∈ r.toList.head?, isWordChar c = false := by
  intro c hc
  have hword := (Option.all_eq_true _ _).1 hr c hc
  simpa using hword

theorem mainSelect {r : String} (hr : parted r) : MainSelect (selecting r) :=
  ⟨"select", r, rfl, by decide, parted_head hr⟩

theorem selectFirst {r : String} (hr : parted r) : SelectFirst (selecting r) :=
  ⟨[], _, rfl, by simp, mainSelect hr⟩

/-- **A transparent text has no semicolon** to cut at. -/
theorem uncut_of_transparent {p : Str} (hp : Fore p) (h : Transparent p (selecting " 1")) :
    Hides (· ≠ ';') .start p := by
  by_contra hcut
  obtain ⟨a, b, rfl, hab⟩ := exists_cut hcut
  have hcount := h.count
  have hone : (keep (pieces ';' .start (selecting " 1"))).length = 1 := by decide +kernel
  rw [hone, List.append_assoc, List.cons_append] at hcount
  -- the first character of the text is no semicolon
  cases a with
  | nil => exact absurd (hp.first ';' rfl).2.2 (by simp)
  | cons c a =>
    obtain ⟨hfirm, -, hsemi⟩ := hp.first c rfl
    have hlast : '1' ∈ b ++ selecting " 1" := List.mem_append_right b (by decide)
    have htwo := two_pieces hab List.mem_cons_self ⟨hsemi, hfirm⟩ hlast ⟨by decide, rfl⟩
    omega

/-- **A transparent text leaves nothing open**: two statements behind it would be one. -/
theorem not_nested_of_transparent {p : Str} (huncut : Hides (· ≠ ';') .start p)
    (h : Transparent p (selecting " 1;select 2")) : ¬(Scan.start.run p).Nested := by
  intro hnested
  have hplain : (selecting " 1;select 2").all (fun c => decide (c ≠ '\'' ∧ c ≠ '"' ∧ c ≠ '(' ∧
      c ≠ '[' ∧ c ≠ ')' ∧ c ≠ ']')) := by decide +kernel
  have harm : ∀ c ∈ selecting " 1;select 2", (Scan.start.run p).arm c = none :=
    fun c hc => Scan.arm_eq_none (of_decide_eq_true (List.all_eq_true.1 hplain c hc))
  have hhides : Hides (· ≠ ';') .start (p ++ selecting " 1;select 2") :=
    hides_append.2 ⟨huncut, (scan_inside hnested harm).2.hides⟩
  have hcount := h.count
  have halone : (keep (pieces ';' .start (selecting " 1;select 2"))).length = 2 := by
    decide +kernel
  have hone := length_keep [p ++ selecting " 1;select 2"]
  rw [halone, pieces_self hhides] at hcount
  rw [hcount, List.length_singleton] at hone
  omega

/-- **A transparent text closes no more than it opens**: the next bracket would hide nothing, and
one statement would be two. -/
theorem closed_of_transparent {p : Str} (hnested : ¬(Scan.start.run p).Nested)
    (h : Transparent p (selecting " (;)")) : Closed p := by
  obtain ⟨hsq, hdq, hdepth⟩ : (Scan.start.run p).inSq = false ∧ (Scan.start.run p).inDq = false ∧
      (Scan.start.run p).depth ≤ 0 := by
    simpa [Scan.Nested] using hnested
  have hopen : (Scan.start.run p).Open := ⟨hsq, hdq⟩
  have hlift := hopen.eq_lift
  by_contra hclosed
  have hneg : (Scan.start.run p).depth < 0 := by
    refine lt_of_le_of_ne hdepth ?_
    intro hzero
    rw [hzero] at hlift
    exact hclosed hlift
  have hcut : Cuts ';' (Scan.start.run (p ++ selecting " (")) ';' := by
    refine ⟨Scan.arm_eq_none (by decide), rfl, ?_⟩
    have hbracket : Scan.start.run (selecting " (") = ⟨1, false, false⟩ := by decide +kernel
    rw [Scan.run_append, hlift, Scan.run_lift, hbracket]
    simp only [Scan.Nested, Scan.lift, Bool.false_eq_true, false_or, not_lt]
    omega
  have hcount := h.count
  have hone : (keep (pieces ';' .start (selecting " (;)"))).length = 1 := by decide +kernel
  have hchar : 's' ∈ p ++ selecting " (" := List.mem_append_right p (by decide)
  have htwo := two_pieces (b := ")") hcut hchar ⟨by decide, rfl⟩ (d := ')') (by decide)
    ⟨by decide, rfl⟩
  have hassoc : p ++ selecting " (" ++ ';' :: (")" : Str) = p ++ selecting " (;)" := by
    rw [List.append_assoc]
    rfl
  rw [hassoc, hcount, hone] at htwo
  exact absurd htwo (by decide)

/-! ## Transparent texts have no word that counts -/

theorem firstWord_eq (s : Str) : firstWord s = (textsOf s).head?.getD [] := by
  rw [← textsOf_bareStmt, firstWord, textsOf, texts, List.head?_map]

/-- From a keyword on that is not the last word, there is a word behind it. -/
theorem dropWhile_keyword {a : List Str} {kw : Str} (h : kw ∈ a) (hlast : a.getLast? ≠ some kw) :
    ∃ v r, a.dropWhile (· ≠ kw) = kw :: v :: r := by
  obtain ⟨w, r, hr, hkw⟩ := exists_dropWhile (p := fun t : Str => decide (t ≠ kw)) h (by simp)
  have hsplit : a = a.takeWhile (· ≠ kw) ++ w :: r := split_dropWhile hr
  have hw : w = kw := not_not.1 (of_decide_eq_false hkw)
  rw [hr, hw]
  cases r with
  | nil =>
    rw [hsplit, hw, List.getLast?_concat] at hlast
    exact absurd rfl hlast
  | cons v r => exact ⟨v, r, rfl⟩

/-- A word behind the first `limit` is read as the limit, whatever follows it. -/
theorem limitOf_front {a : List Str} (h : ("limit" : Str) ∈ a)
    (hlast : a.getLast? ≠ some ("limit" : Str)) (b : List Str) : limitOf (a ++ b) = limitOf a := by
  obtain ⟨v, r, hr⟩ := dropWhile_keyword h hlast
  unfold limitOf
  rw [List.dropWhile_append, hr]
  rfl

/-- A list that does not end in blanks keeps its last character when it is trimmed. -/
theorem last_trim {s : Str} {c : Char} (hc : c ∈ s.getLast?) (hfirm : Firm c) :
    c ∈ (trim s).getLast? := by
  obtain ⟨a, b, hs, ha, hb⟩ := trim_cut s
  have hwhite : ∀ {g : Str}, (∀ d ∈ g, isWhitespace d = true) → c ∉ g.getLast? := by
    intro g hg hmem
    have hblank := hg c (List.mem_of_getLast? hmem)
    rw [hfirm] at hblank
    cases hblank
  rw [hs] at hc
  by_cases hnil : b = []
  · rw [hnil, List.append_nil, List.getLast?_append] at hc
    cases hlast : (trim s).getLast? with
    | none =>
      rw [hlast] at hc
      exact absurd hc (hwhite ha)
    | some d =>
      rw [hlast] at hc
      exact hc
  · rw [List.getLast?_append_of_ne_nil _ hnil] at hc
    exact absurd hc (hwhite hb)

/-- Skipping a keyword keeps the last character. -/
theorem last_skipKeyword {kw s r : Str} (h : skipKeyword kw s = some r) {c : Char}
    (hc : c ∈ s.getLast?) (hfirm : Firm c) : c ∈ r.getLast? := by
  by_cases hpre : kw.isPrefixOf (lower s)
  · obtain ⟨a, b, rfl, ha, -⟩ := lower_isPrefix hpre
    rw [skipKeyword_eq ha] at h
    obtain rfl := Option.some.inj h
    split
    · rename_i hblank
      have hne : b ≠ [] := by
        rintro rfl
        cases hblank
      rw [List.getLast?_append_of_ne_nil _ hne] at hc
      -- what is trimmed is blank, and the last character is not
      have hsplit : b = b.takeWhile isWhitespace ++ trimStart b :=
        List.takeWhile_append_dropWhile.symm
      rw [hsplit, List.getLast?_append] at hc
      cases hlast : (trimStart b).getLast? with
      | none =>
        rw [hlast, Option.none_or] at hc
        have hwhite := List.mem_takeWhile_imp (List.mem_of_getLast? hc)
        rw [hfirm] at hwhite
        cases hwhite
      | some d =>
        rw [hlast] at hc
        exact hc
    · exact hc
  · rw [skipKeyword, if_neg hpre] at h
    obtain rfl := Option.some.inj h
    exact hc

/-- A text in front of selects, each of which has the shape behind it that it has alone. -/
structure Keeps (p : Str) : Prop where
  fore : Fore p
  closed : Closed p
  shape : ∀ s, SelectFirst s → shapeOf (p ++ s) = shapeOf s

section Keeps

variable {p : Str} (h : Keeps p) {r : String} (hr : parted r)

include h

theorem Keeps.words (r : String) :
    textsOf (p ++ selecting r) = textsOf p ++ textsOf (selecting r) := h.fore.texts h.closed _

/-- A select behind another kind of statement's first word is no select. -/
theorem Keeps.first : ∀ t ∈ (textsOf p).head?, t ∈ selectWords := by
  intro t ht
  have halone := h.shape _ (selectFirst (r := " 1") (by decide))
  have hselect : (shapeOf (selecting " 1")).kind = .select := by decide +kernel
  have hlimit : (shapeOf (selecting " 1")).limit = none := by decide +kernel
  rw [← halone] at hselect hlimit
  rcases select_cases hselect with ⟨-, words, hshow⟩ | ⟨hfirst, -⟩
  · -- a `SHOW` has a limit
    rw [hshow] at hlimit
    cases hlimit
  · rw [firstWord_eq, h.words, List.head?_append, Option.mem_def.1 ht] at hfirst
    exact hfirst

include hr in
theorem Keeps.select : SelectText (p ++ selecting r) := by
  have hword : textsOf (selecting r) = ("select" : Str) :: textsOf r.toList := by
    have hone : textsOf ("select" : Str) = ["select"] := by decide +kernel
    have hbreaks : Breaks .start r.toList := fun c hc => .inr (parted_head hr c hc)
    have hrun : Scan.start.run ("select" : Str) = .start := by decide +kernel
    exact (textsOf_append hrun hbreaks).trans (congrArg (· ++ textsOf r.toList) hone)
  have htexts := h.words r
  rw [hword] at htexts
  constructor
  · rw [htexts, List.head?_append]
    cases hhead : (textsOf p).head? with
    | none => exact ⟨_, rfl, .inl rfl⟩
    | some t =>
      refine ⟨t, rfl, ?_⟩
      simpa [selectWords] using h.first t hhead
  · rw [htexts]
    simp

include hr in
theorem Keeps.where_eq : (shapeOf (selecting r)).hasWhere =
    (textsOf p ++ textsOf (selecting r)).any (· = ("where" : Str)) := by
  obtain ⟨sel, rest, hdrop, hread⟩ := (h.select hr).read
  obtain ⟨-, -, hwhere, -⟩ := extractSelect_some hdrop hread
  rw [← h.shape _ (selectFirst hr), hwhere, ← h.words r, ← textsOf_bareStmt (p ++ selecting r)]
  rfl

theorem Keeps.no_where : ("where" : Str) ∉ textsOf p := by
  intro hmem
  have hwhere := h.where_eq (r := " 1") (by decide)
  have halone : (shapeOf (selecting " 1")).hasWhere = false := by decide +kernel
  rw [halone, eq_comm, List.any_eq_false] at hwhere
  exact hwhere _ (List.mem_append_left _ hmem) (decide_eq_true rfl)

theorem Keeps.no_limit : ("limit" : Str) ∉ textsOf p := by
  intro hmem
  have hlimit : ∀ {r : String}, parted r →
      (shapeOf (selecting r)).limit = limitOf (textsOf p ++ textsOf (selecting r)) := by
    intro r hr
    rw [← h.shape _ (selectFirst hr), (h.select hr).limit.2, h.words]
  have hnone := hlimit (r := " 1") (by decide)
  have hone := hlimit (r := " 1 limit 1") (by decide)
  have hwords : textsOf (selecting " 1") = [("select" : Str), "1"] := by decide +kernel
  have hmore : textsOf (selecting " 1 limit 1") =
      [("select" : Str), "1"] ++ [("limit" : Str), "1"] := by decide +kernel
  have hfront : ("limit" : Str) ∈ textsOf p ++ [("select" : Str), "1"] :=
    List.mem_append_left _ hmem
  have hlast : (textsOf p ++ [("select" : Str), "1"]).getLast? ≠ some ("limit" : Str) := by
    rw [List.getLast?_append_of_ne_nil _ (by decide)]
    decide
  rw [hmore, ← List.append_assoc, limitOf_front hfront hlast, ← hwords, ← hnone] at hone
  exact absurd hone (by decide +kernel)

theorem Keeps.no_from : ("from" : Str) ∉ textsOf p := by
  intro hmem
  have hhint : ∀ {r : String}, parted r →
      bareStmt (selecting r) = selecting r →
      wordAfter (wordsOf (p ++ selecting r)) (p ++ selecting r) "from" =
        some (shapeOf (selecting r)).tableHint := by
    intro r hr hbare
    obtain ⟨sel, rest, hdrop, hread⟩ := (h.select hr).read
    obtain ⟨-, -, -, hafter⟩ := extractSelect_some hdrop hread
    rw [h.fore.bare (mainSelect hr), hbare, h.shape _ (selectFirst hr)] at hafter
    exact hafter
  have hnone := hhint (r := " 1") (by decide) (by decide +kernel)
  have hone := hhint (r := " 1 from a") (by decide) (by decide +kernel)
  -- the second `from` stands behind the token of the first
  have hwords : textsOf (selecting " 1") = [("select" : Str), "1"] := by decide +kernel
  have hfront : ("from" : Str) ∈ textsOf (p ++ selecting " 1") := by
    rw [h.words]
    exact List.mem_append_left _ hmem
  have hlast : (textsOf (p ++ selecting " 1")).getLast? ≠ some ("from" : Str) := by
    rw [h.words, hwords, List.getLast?_append_of_ne_nil _ (by decide)]
    decide
  have hsplit : p ++ selecting " 1 from a" = p ++ selecting " 1" ++ ' ' :: ("from a" : Str) := by
    rw [List.append_assoc]
    rfl
  obtain ⟨more, hmore⟩ : ∃ more, wordsOf (p ++ selecting " 1 from a") =
      wordsOf (p ++ selecting " 1") ++ more := by
    rw [hsplit, wordsOf, readWords_append (breaks_cons (by decide) _)]
    exact ⟨_, rfl⟩
  have hraw := rawAfter_front hfront hlast (c := ' ') (by decide) "from a" more
  rw [hmore, hsplit, wordAfter, hraw, ← wordAfter, hnone] at hone
  exact absurd hone (by decide +kernel)

/-! ### Lists that begin in the text -/

/-- The list of a select behind the text gives the columns of the select alone. -/
theorem Keeps.columns {sel : Word} {rest : List Word}
    (hr : parted r) (hbare : bareStmt (selecting r) = selecting r)
    (hdrop : (wordsOf (p ++ selecting r)).dropWhile (·.text ≠ ("select" : Str)) = sel :: rest) :
    ∃ l raw ts, slice (p ++ selecting r) sel.stop (((rest.find? fun w => w.text ∈ listEnd).map
        Word.start).getD (len (p ++ selecting r))) = some l ∧
      selectShape l raw ts = some (shapeOf (selecting r)) := by
  obtain ⟨_, _, -, hread⟩ := (h.select hr).read
  rw [h.fore.bare (mainSelect hr), hbare, h.shape _ (selectFirst hr)] at hread
  obtain ⟨l, raw, hl, -, hspec⟩ := extractSelect_spec hdrop
  exact ⟨l, raw, _, hl, hspec.symm.trans hread⟩

/-- **A list that ends in the text** would be the list of every select. -/
theorem Keeps.list_open {sel : Word} {rest : List Word}
    (hdrop : (wordsOf (p ++ selecting "")).dropWhile (·.text ≠ ("select" : Str)) = sel :: rest) :
    ∀ w ∈ rest, w.text ∉ listEnd := by
  intro w hw hend
  have hsplit : wordsOf (p ++ selecting "") =
      (wordsOf (p ++ selecting "")).takeWhile (·.text ≠ ("select" : Str)) ++ sel :: rest :=
    split_dropWhile hdrop
  have hassoc : p ++ selecting " 1" = p ++ selecting "" ++ ' ' :: ("1" : Str) := by
    rw [List.append_assoc]
    rfl
  obtain ⟨more, hmore⟩ : ∃ more, wordsOf (p ++ selecting " 1") =
      wordsOf (p ++ selecting "") ++ more := by
    rw [hassoc, wordsOf, readWords_append (breaks_cons (by decide) _)]
    exact ⟨_, rfl⟩
  have hdrop' : (wordsOf (p ++ selecting " 1")).dropWhile (·.text ≠ ("select" : Str)) =
      sel :: (rest ++ more) := by
    rw [hmore, List.dropWhile_append, hdrop]
    rfl
  obtain ⟨l, hl⟩ := list_inside hsplit hw hend
  obtain ⟨l1, raw1, ts1, hl1, hshape1⟩ := h.columns (by decide) (by decide +kernel) hdrop
  obtain ⟨l2, raw2, ts2, hl2, hshape2⟩ := h.columns (by decide) (by decide +kernel) hdrop'
  have hsame1 : l1 = l := by
    have hall := hl [] []
    rw [List.append_nil, List.append_nil, hl1] at hall
    exact Option.some.inj hall
  have hsame2 : l2 = l := by
    have hall := hl (' ' :: ("1" : Str)) more
    rw [← hassoc, hl2] at hall
    exact Option.some.inj hall
  obtain ⟨columns, star, hcolumns⟩ := selectShape_eq l
  rw [hsame1, hcolumns] at hshape1
  rw [hsame2, hcolumns] at hshape2
  have hempty : (shapeOf (selecting "")).columns = [] := by decide +kernel
  have hfull : (shapeOf (selecting " 1")).columns ≠ [] := by decide +kernel
  rw [← Option.some.inj hshape1] at hempty
  rw [← Option.some.inj hshape2] at hfull
  exact hfull hempty

/-- **A list that does not end in the text** has the select's own `select` in it. -/
theorem Keeps.list_last {sel : Word} {rest : List Word}
    (hdrop : (wordsOf (p ++ selecting "")).dropWhile (·.text ≠ ("select" : Str)) = sel :: rest) :
    rest = [] := by
  have hsplit : wordsOf (p ++ selecting "") =
      (wordsOf (p ++ selecting "")).takeWhile (·.text ≠ ("select" : Str)) ++ sel :: rest :=
    split_dropWhile hdrop
  have hnone : rest.find? (fun w => w.text ∈ listEnd) = none := by
    rw [List.find?_eq_none]
    intro w hw hend
    exact h.list_open hdrop w hw (of_decide_eq_true hend)
  obtain ⟨l, raw, ts, hl, hshape⟩ := h.columns (by decide) (by decide +kernel) hdrop
  rw [hnone, Option.map_none, Option.getD_none] at hl
  by_contra hrest
  -- the list is what stands behind the first `select`, and ends with the last one
  obtain ⟨a, u, b, htext, hsel, -, hb⟩ :=
    (piece_of_mem (hsplit ▸ List.mem_append_right _ List.mem_cons_self)).cut
  obtain rfl : l = b := by
    have hstop : sel.stop = len (a ++ u) := by rw [hsel, len_append]
    rw [htext, hstop, slice_append_end] at hl
    exact (Option.some.inj hl).symm
  have hne : l ≠ [] := by
    rintro rfl
    exact text_after_word hsplit hrest hb rfl
  have hlast : 't' ∈ l.getLast? := by
    rw [← List.getLast?_append_of_ne_nil (a ++ u) hne, ← htext,
      List.getLast?_append_of_ne_nil p (by decide)]
    decide
  obtain ⟨c1, h1⟩ := skipKeyword_total "distinct" (trim l)
  obtain ⟨c2, h2⟩ := skipKeyword_total "all" c1
  have hkept := last_skipKeyword h2 (last_skipKeyword h1 (last_trim hlast rfl) rfl) rfl
  have hempty : (shapeOf (selecting "")).columns = [] := by decide +kernel
  rcases (selectShape_columns hshape h1 h2).1.1 hempty 't' (List.mem_of_getLast? hkept) with ht | ht
  · exact absurd ht (by decide)
  · exact absurd ht (by decide)

theorem Keeps.no_select : ("select" : Str) ∉ textsOf p := by
  intro hmem
  obtain ⟨sel, rest, hdrop, -⟩ := (h.select (r := "") (by decide)).read
  have hbare : bareStmt (p ++ selecting "") = p ++ selecting "" :=
    h.fore.bare (mainSelect (r := "") (by decide))
  rw [hbare] at hdrop
  obtain rfl := h.list_last hdrop
  -- the first `select` is the last word, so it is not the text's
  have htexts : textsOf p ++ [("select" : Str)] =
      texts ((wordsOf (p ++ selecting "")).takeWhile (·.text ≠ ("select" : Str))) ++
        [sel.text] := by
    have hone : textsOf (selecting "") = [("select" : Str)] := by decide +kernel
    rw [← hone, ← h.words, textsOf, texts, texts, ← List.map_singleton, ← List.map_append,
      ← hdrop, List.takeWhile_append_dropWhile]
  obtain ⟨hfront, -⟩ := List.append_inj' htexts rfl
  rw [hfront] at hmem
  obtain ⟨w, hw, htext⟩ := List.mem_map.1 hmem
  have hne := List.mem_takeWhile_imp hw
  rw [decide_eq_true_eq] at hne
  exact hne htext

end Keeps

/-! ## Exactly the harmless ones -/

/-- **A text is transparent to every select exactly when it is harmless.** -/
theorem transparent_iff {p : Str} (hp : Fore p) :
    (∀ s, SelectFirst s → Transparent p s) ↔ Harmless p := by
  constructor
  · intro h
    have hat : ∀ r : String, parted r →
        Transparent p (selecting r) := fun r hr => h _ (selectFirst hr)
    have huncut := uncut_of_transparent hp (hat " 1" (by decide))
    have hnested := not_nested_of_transparent huncut (hat " 1;select 2" (by decide))
    have hclosed := closed_of_transparent hnested (hat " (;)" (by decide))
    have hkeeps : Keeps p := ⟨hp, hclosed, fun s hs => shapeOf_congr (h s hs).shape⟩
    have hfree : ∀ t ∈ textsOf p, t ∉ soughtWords := by
      rintro t ht hsought
      simp only [soughtWords, List.mem_cons, List.not_mem_nil, or_false] at hsought
      rcases hsought with rfl | rfl | rfl | rfl
      · exact hkeeps.no_select ht
      · exact hkeeps.no_from ht
      · exact hkeeps.no_where ht
      · exact hkeeps.no_limit ht
    refine ⟨hclosed, huncut, ?_, hfree⟩
    intro t ht
    have hnot : t ≠ ("select" : Str) := by
      rintro rfl
      exact hkeeps.no_select (List.mem_of_head? ht)
    rcases List.mem_cons.1 (hkeeps.first t ht) with hselect | hother
    · exact absurd hselect hnot
    · exact List.mem_pair.1 hother
  · exact fun h s hs => h.transparent hp hs

/-- Faint characters around a text do not touch its words. -/
theorem textsOf_faint {f g : Str} (hf : ∀ c ∈ f, Faint c) (hg : ∀ c ∈ g, Faint c) (s : Str) :
    textsOf (f ++ (s ++ g)) = textsOf s := by
  rw [textsOf, wordsOf, readWords_faint hf, words_trail hg]
  exact texts_readWords _ _ _ _

/-- What a comment begins and ends with is no word, quote, bracket or semicolon. -/
theorem CommentKind.faint (k : CommentKind) :
    (∀ c ∈ k.opening, Faint c ∧ c ≠ ';') ∧ ∀ c ∈ k.closing, Faint c ∧ c ≠ ';' := by
  cases k with
  | block =>
    exact ⟨List.forall_mem_cons.2 ⟨by decide, List.forall_mem_singleton.2 (by decide)⟩,
      List.forall_mem_cons.2 ⟨by decide, List.forall_mem_singleton.2 (by decide)⟩⟩
  | line =>
    exact ⟨List.forall_mem_cons.2 ⟨by decide, List.forall_mem_singleton.2 (by decide)⟩,
      List.forall_mem_singleton.2 (by decide)⟩

theorem Comment.fore (k : Comment) : Fore k.render := by
  have hfirst : Ends Solid (fun _ => True) k.kind.opening := by
    cases k.kind with
    | block | line => exact ⟨by decide, by rintro c ⟨⟩; decide, fun _ _ => trivial⟩
  have hlast : Ends Faint Faint k.kind.closing := by
    refine ends_of_forall ?_ fun c hc => (k.kind.faint.2 c hc).1
    cases k.kind <;> decide
  have hends := hfirst.append hlast k.text
  refine ⟨List.append_ne_nil_of_left_ne_nil hfirst.ne _, ?_, ?_⟩
  · rw [Comment.render, ← List.append_assoc]
    exact hends.first
  · rw [Comment.render, ← List.append_assoc]
    exact fun c hc => (hends.last c hc).1

/-- **A comment is as harmless as what it says.** -/
theorem Comment.harmless_iff (k : Comment) : Harmless k.render ↔ Harmless k.text := by
  obtain ⟨hopening, hclosing⟩ := k.kind.faint
  have hf : ∀ c ∈ k.kind.opening, Faint c := fun c hc => (hopening c hc).1
  have hg : ∀ c ∈ k.kind.closing, Faint c := fun c hc => (hclosing c hc).1
  have hrun : Scan.start.run k.render = Scan.start.run k.text := by
    rw [Comment.render, Scan.run_append, Scan.run_append, run_faint hf, run_faint hg]
  have hhides : Hides (· ≠ ';') .start k.render ↔ Hides (· ≠ ';') .start k.text := by
    have hfront : Hides (· ≠ ';') .start k.kind.opening :=
      hides_of_forall fun c hc => (hopening c hc).2
    have hback : Hides (· ≠ ';') (Scan.start.run k.text) k.kind.closing :=
      hides_of_forall fun c hc => (hclosing c hc).2
    rw [Comment.render, hides_append, hides_append, run_faint hf, and_iff_right hfront,
      and_iff_left hback]
  have htexts : textsOf k.render = textsOf k.text := textsOf_faint hf hg k.text
  constructor
  · rintro ⟨hclosed, huncut, hfirst, hfree⟩
    rw [htexts] at hfirst hfree
    exact ⟨hrun.symm.trans hclosed, hhides.1 huncut, hfirst, hfree⟩
  · rintro ⟨hclosed, huncut, hfirst, hfree⟩
    rw [← htexts] at hfirst hfree
    exact ⟨hrun.trans hclosed, hhides.2 huncut, hfirst, hfree⟩

/-- **Comments are no part of a query exactly when what they say is harmless.** -/
theorem comment_transparent_iff (k : Comment) :
    (∀ s, SelectFirst s → Transparent k.render s) ↔ Harmless k.text :=
  (transparent_iff k.fore).trans k.harmless_iff

/-- `/* app */`. -/
def appComment : Comment := ⟨.block, " app ", by decide⟩

/-- **The first word of a comment is taken for the statement's**: a select is answered with a
tag. -/
theorem appComment_answered : SelectFirst "select 1" ∧
    (extract "select 1").map (·.kind) = some .select ∧
      extract (appComment.render ++ "select 1") = some (.of (.command "APP") none) ∧
        ¬Transparent appComment.render "select 1" := by
  have hfirst : SelectFirst "select 1" := selectFirst (r := " 1") (by decide)
  have hkind : (extract "select 1").map (·.kind) = some .select := by decide +kernel
  have htag : extract (appComment.render ++ "select 1") = some (.of (.command "APP") none) := by
    decide +kernel
  refine ⟨hfirst, hkind, htag, ?_⟩
  intro h
  rw [← h.shape, htag] at hkind
  exact absurd hkind (by decide)

end EtherealDb
