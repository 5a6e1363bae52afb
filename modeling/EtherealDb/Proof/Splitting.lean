import EtherealDb.Proof.Faint

/-!
# Splitting loses nothing

What a text and the list of its pieces have to do with each other, both ways (`SplitsAt`).

* `intercalate_pieces`: the pieces of a text, joined by the separator, are the text.
* `clean_pieces`: no piece has a separator that a scan of the piece from the start sees.
  A cut is made outside quotes at depth at most zero, so the depth inside a piece is never
  greater in the text than in a scan of its own.
* `splits_statements_and_lists`: **`split_statements` and `split_top_level` lose nothing.**
-/

namespace EtherealDb

open Str Reading

variable {sep : Char} {σ : Scan}

/-! ## Pieces in their text -/

/-- Blanks and separators. -/
def Gap (sep : Char) (g : Str) : Prop := ∀ c ∈ g, isWhitespace c = true ∨ c = sep

/-- Pieces that stand in a text in this order, apart, with blanks and separators before,
between and behind them. -/
inductive Laid (sep : Char) : Str → List Str → Prop where
  | nil {g : Str} (hg : Gap sep g) : Laid sep g []
  | cons {g s : Str} {ps : List Str} (hg : Gap sep g) (p : Str) (hs : Laid sep s ps) :
      Laid sep (g ++ p ++ s) (p :: ps)

/-- Texts joined by a separator, with blanks around each of them. -/
inductive Joined (sep : Char) : Str → List Str → Prop where
  | nil {b : Str} (hb : ∀ c ∈ b, isWhitespace c = true) : Joined sep b []
  | one {a b : Str} (ha : ∀ c ∈ a, isWhitespace c = true) (p : Str)
      (hb : ∀ c ∈ b, isWhitespace c = true) : Joined sep (a ++ p ++ b) [p]
  | cons {a b s q : Str} {ps : List Str} (ha : ∀ c ∈ a, isWhitespace c = true) (p : Str)
      (hb : ∀ c ∈ b, isWhitespace c = true) (hs : Joined sep s (q :: ps)) :
      Joined sep (a ++ p ++ b ++ sep :: s) (p :: q :: ps)

/-- A trimmed text that is one piece wherever it stands at depth zero. -/
structure Whole (sep : Char) (p : Str) : Prop where
  ne : p ≠ []
  trimmed : trim p = p
  hides : Hides (· ≠ sep) .start p
  closed : Scan.start.run p = .start

/-- **A splitter at a separator.** -/
structure SplitsAt (sep : Char) (split : Str → Option (List Str)) : Prop where
  /-- The pieces are parts of the text, nothing but blanks and separators is lost, and each
  piece is split into itself. -/
  lossless : ∀ s, ∃ ps, split s = some ps ∧ Laid sep s ps ∧
    ∀ p ∈ ps, p ≠ [] ∧ trim p = p ∧ split p = some [p]
  /-- Joined texts are split into what was joined. -/
  joins : ∀ {s ps}, Joined sep s ps → (∀ p ∈ ps, Whole sep p) → split s = some ps

theorem Laid.gap {g s : Str} {ps : List Str} (hg : Gap sep g) (h : Laid sep s ps) :
    Laid sep (g ++ s) ps := by
  have happend : ∀ {k}, Gap sep k → Gap sep (g ++ k) := by
    intro k hk c hc
    exact (List.mem_append.1 hc).elim (hg c) (hk c)
  cases h with
  | nil hk => exact .nil (happend hk)
  | cons hk p hs =>
    have hcons := Laid.cons (happend hk) p hs
    simpa only [List.append_assoc] using hcons

/-! ## Joining the pieces -/

/-- **Joining the pieces gives the text back.** -/
theorem intercalate_pieces (sep : Char) (σ : Scan) (s : Str) :
    List.intercalate [sep] (pieces sep σ s) = s := by
  induction s generalizing σ with
  | nil => rfl
  | cons c s ih =>
    rw [pieces]
    split
    · rename_i hcut
      obtain ⟨q, qs, hq⟩ := List.exists_cons_of_ne_nil (pieces_ne_nil sep σ s)
      have hrest := ih σ
      rw [hq] at hrest ⊢
      rw [List.intercalate_cons_cons, hrest, hcut.2.1]
      rfl
    · obtain ⟨q, qs, hq⟩ := List.exists_cons_of_ne_nil (pieces_ne_nil sep (σ.step c) s)
      have hrest := ih (σ.step c)
      rw [hq] at hrest ⊢
      rw [glue]
      cases qs with
      | nil => simpa using hrest
      | cons r qs =>
        rw [List.intercalate_cons_cons] at hrest ⊢
        rw [← hrest]
        rfl

/-- What is kept of some texts stands in their join. -/
theorem laid_keep (sep : Char) (ps : List Str) :
    Laid sep (List.intercalate [sep] ps) (keep ps) := by
  -- a text in front of what is kept of the others
  have hcons : ∀ {p s ps}, Laid sep s (keep ps) → Laid sep (p ++ s) (keep (p :: ps)) := by
    intro p s ps hs
    obtain ⟨a, b, hp, ha, hb⟩ := trim_cut p
    have hgap : Laid sep (b ++ s) (keep ps) := Laid.gap (fun c hc => .inl (hb c hc)) hs
    have ha' : Gap sep a := fun c hc => .inl (ha c hc)
    by_cases h : trim p = []
    · rw [keep_cons_blank h, hp, h, List.append_nil, List.append_assoc]
      exact Laid.gap ha' hgap
    · rw [keep_cons_trim h]
      conv_lhs => rw [hp]
      rw [List.append_assoc]
      exact .cons ha' _ hgap
  induction ps with
  | nil => exact .nil (by simp [Gap, List.intercalate])
  | cons p ps ih =>
    cases ps with
    | nil =>
      have hone : Laid sep (p ++ []) (keep [p]) := hcons (.nil (by simp [Gap]))
      simpa [List.intercalate] using hone
    | cons q qs =>
      rw [List.intercalate_cons_cons, List.append_assoc]
      refine hcons (Laid.gap ?_ ih)
      intro c hc
      exact .inr (List.mem_singleton.1 hc)

/-! ## Scanning a piece -/

/-- A greater depth hides no less. -/
theorem Hides.raise {P : Char → Prop} {d : ℤ} (hd : d ≤ 0) {s : Str}
    (h : Hides P (σ.lift d) s) : Hides P σ s := by
  induction s generalizing σ with
  | nil => trivial
  | cons c s ih =>
    obtain ⟨hc, hs⟩ := h
    rw [Scan.step_lift] at hs
    refine ⟨?_, ih hs⟩
    rcases hc with hc | hc | hc
    · rw [Scan.arm_lift, Option.isSome_map] at hc
      exact .inl hc
    · refine .inr (.inl ?_)
      rcases hc with hc | hc | hc
      · exact .inl hc
      · exact .inr (.inl hc)
      · have hdepth : 0 < d + σ.depth := hc
        exact .inr (.inr (by omega))
    · exact .inr (.inr hc)

/-- The first piece has no separator that is seen from the state before it, and the others
have none that is seen outside quotes at some depth at most zero. -/
def Clean (sep : Char) (σ : Scan) : List Str → Prop
  | [] => True
  | p :: ps => Hides (· ≠ sep) σ p ∧ ∀ q ∈ ps, ∃ d ≤ 0, Hides (· ≠ sep) (Scan.start.lift d) q

/-- **No separator is left in a piece.** -/
theorem clean_pieces (sep : Char) (σ : Scan) (s : Str) : Clean sep σ (pieces sep σ s) := by
  induction s generalizing σ with
  | nil => exact ⟨trivial, by simp⟩
  | cons c s ih =>
    rw [pieces]
    split
    · -- the next piece starts where the cut was made
      rename_i hcut
      have hopen : σ.Open ∧ σ.depth ≤ 0 := by
        have hn := hcut.2.2
        simp only [Scan.Nested, not_or, Bool.not_eq_true, not_lt] at hn
        exact ⟨⟨hn.1, hn.2.1⟩, hn.2.2⟩
      have hrest := ih σ
      refine ⟨trivial, ?_⟩
      cases hp : pieces sep σ s with
      | nil => simp
      | cons q qs =>
        rw [hp] at hrest
        intro r hr
        rcases List.mem_cons.1 hr with rfl | hr
        · exact ⟨σ.depth, hopen.2, hopen.1.eq_lift ▸ hrest.1⟩
        · exact hrest.2 r hr
    · rename_i hcut
      have hrest := ih (σ.step c)
      cases hp : pieces sep (σ.step c) s with
      | nil => exact absurd hp (pieces_ne_nil sep _ s)
      | cons q qs =>
        rw [hp] at hrest
        refine ⟨⟨?_, hrest.1⟩, hrest.2⟩
        by_contra hseen
        rw [not_or, not_or, not_not, Option.not_isSome_iff_eq_none] at hseen
        exact hcut ⟨hseen.1, hseen.2.2, hseen.2.1⟩

/-- Trimming keeps what is hidden. -/
theorem Hides.trim {P : Char → Prop} {s : Str} (h : Hides P .start s) :
    Hides P .start (trim s) := by
  obtain ⟨a, b, hs, ha, -⟩ := trim_cut s
  rw [hs, List.append_assoc, hides_append, hides_append,
    run_faint (fun c hc => faint_blank (ha c hc))] at h
  exact h.2.1

/-- **A text without a visible separator is one piece.** -/
theorem splitTopLevel_hides {s : Str} (h : Hides (· ≠ sep) .start s) (hne : trim s ≠ []) :
    splitTopLevel s sep = some [trim s] := by
  rw [splitTopLevel_eq, pieces_self h, keep, List.map_singleton]
  simp [hne]

/-! ## Both ways -/

theorem mem_keep {p : Str} {ps : List Str} (h : p ∈ keep ps) : ∃ q ∈ ps, trim q = p ∧ p ≠ [] := by
  obtain ⟨hmem, hne⟩ := List.mem_filter.1 h
  obtain ⟨q, hq, rfl⟩ := List.mem_map.1 hmem
  exact ⟨q, hq, rfl, by simpa using hne⟩

/-- A scan of a piece from the start sees no separator in it. -/
theorem hides_piece {s p : Str} (h : p ∈ pieces sep .start s) : Hides (· ≠ sep) .start p := by
  have hclean := clean_pieces sep .start s
  cases hp : pieces sep .start s with
  | nil =>
    rw [hp] at h
    cases h
  | cons q qs =>
    rw [hp] at h hclean
    rcases List.mem_cons.1 h with rfl | hq
    · exact hclean.1
    · obtain ⟨d, hd, hhides⟩ := hclean.2 p hq
      exact hhides.raise hd

/-- **What was joined comes back.** -/
theorem splitTopLevel_joined (hfaint : Faint sep) (hfirm : Firm sep) {s : Str} {ps : List Str}
    (h : Joined sep s ps) (hwhole : ∀ p ∈ ps, Whole sep p) : splitTopLevel s sep = some ps := by
  have hblank : ∀ {a : Str} {τ : Scan}, (∀ c ∈ a, isWhitespace c = true) →
      Hides (· ≠ sep) τ a ∧ τ.run a = τ := by
    intro a τ ha
    refine ⟨hides_of_forall ?_, run_faint (fun c hc => faint_blank (ha c hc)) τ⟩
    rintro c hc rfl
    have hc' := ha c hc
    rw [show isWhitespace c = false from hfirm] at hc'
    cases hc'
  -- a text with blanks around it hides its separators and leaves the scan at the start
  have hpart : ∀ {a p b : Str}, (∀ c ∈ a, isWhitespace c = true) → Whole sep p →
      (∀ c ∈ b, isWhitespace c = true) → Hides (· ≠ sep) .start (a ++ p ++ b) ∧
        Scan.start.run (a ++ p ++ b) = .start := by
    intro a p b ha hp hb
    have hrun : Scan.start.run (a ++ p) = .start := by
      rw [Scan.run_append, (hblank ha).2, hp.closed]
    rw [hides_append, hides_append, hrun, (hblank ha).2, Scan.run_append, hrun]
    exact ⟨⟨⟨(hblank ha).1, hp.hides⟩, (hblank hb).1⟩, (hblank hb).2⟩
  rw [splitTopLevel_eq, Option.some.injEq]
  induction h with
  | nil hb =>
    rw [pieces_self (hblank hb).1]
    have htrim := trim_blanks [] (a := []) (by simp) hb
    rw [List.append_nil, List.nil_append] at htrim
    rw [keep, List.map_singleton, htrim]
    rfl
  | one ha p hb =>
    have hp := hwhole p (by simp)
    rw [pieces_self (hpart ha hp hb).1, keep, List.map_singleton, trim_blanks p ha hb, hp.trimmed]
    simp [hp.ne]
  | @cons a b s q ps ha p hb hs ih =>
    have hp := hwhole p (by simp)
    have hcut : Cuts sep Scan.start sep :=
      ⟨Scan.arm_eq_none hfaint.2, rfl, Scan.not_nested_start⟩
    rw [pieces_hides (hpart ha hp hb).1, (hpart ha hp hb).2, pieces_cut hcut, glue,
      List.append_nil]
    have htrim : trim (a ++ p ++ b) = p := (trim_blanks p ha hb).trans hp.trimmed
    rw [keep_cons_trim (by rw [htrim]; exact hp.ne), htrim,
      ih fun r hr => hwhole r (List.mem_cons_of_mem _ hr)]

theorem splitsAt (hfaint : Faint sep) (hfirm : Firm sep) :
    SplitsAt sep fun s => splitTopLevel s sep := by
  refine ⟨?_, fun h hwhole => splitTopLevel_joined hfaint hfirm h hwhole⟩
  intro s
  refine ⟨_, splitTopLevel_eq s sep, ?_, ?_⟩
  · have hlaid := laid_keep sep (pieces sep .start s)
    rwa [intercalate_pieces] at hlaid
  · intro p hp
    obtain ⟨q, hq, rfl, hne⟩ := mem_keep hp
    have hhides := (hides_piece hq).trim
    refine ⟨hne, trim_trim q, ?_⟩
    have hsplit := splitTopLevel_hides hhides (by rwa [trim_trim])
    rwa [trim_trim] at hsplit

/-- **Statements and list items are split without loss.** -/
theorem splits_statements_and_lists :
    SplitsAt ';' splitStatements ∧ SplitsAt ',' fun s => splitTopLevel s ',' :=
  ⟨splitsAt (by decide) rfl, splitsAt (by decide) rfl⟩

end EtherealDb
