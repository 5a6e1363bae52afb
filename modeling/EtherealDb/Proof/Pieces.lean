import EtherealDb.Proof.Scan

/-!
# The splitter and the cast search without slices

`pieces` is `splitTopLevel` by recursion on the text (`splitTopLevel_eq`), and
`lastCast` cuts a text at its last top-level `::` (`findTopLevelCast_eq`). Neither can
panic.

* `pieces_hides`, `pieces_self`: a text in which every separator is hidden stays in one
  piece.
* `pieces_sep`: splitting two parts.
* `lastCast_hides`: a text in which every colon is hidden has no cast.
-/

namespace EtherealDb

open Str

/-! ## Hidden characters -/

/-- Every character of the text that fails `P` is counted, or stands inside quotes or
brackets. -/
def Hides (P : Char → Prop) (σ : Scan) : Str → Prop
  | [] => True
  | c :: s => ((σ.arm c).isSome ∨ σ.Nested ∨ P c) ∧ Hides P (σ.step c) s

variable {P : Char → Prop} {σ : Scan}

theorem Opaque.hides {s : Str} (h : Opaque σ s) : Hides P σ s := by
  induction s generalizing σ with
  | nil => trivial
  | cons c s ih => exact ⟨h.1.imp_right Or.inl, ih h.2⟩

theorem hides_of_forall {s : Str} (h : ∀ c ∈ s, P c) : Hides P σ s := by
  induction s generalizing σ with
  | nil => trivial
  | cons c s ih =>
    exact ⟨Or.inr (Or.inr (h c (by simp))), ih fun d hd => h d (by simp [hd])⟩

theorem hides_append {a b : Str} : Hides P σ (a ++ b) ↔ Hides P σ a ∧ Hides P (σ.run a) b := by
  induction a generalizing σ with
  | nil => simp [Hides]
  | cons c a ih => simp [Hides, ih, and_assoc]

theorem Hides.mono {Q : Char → Prop} {s : Str} (h : Hides P σ s) (hpq : ∀ c, P c → Q c) :
    Hides Q σ s := by
  induction s generalizing σ with
  | nil => trivial
  | cons c s ih => exact ⟨h.1.imp_right (Or.imp_right (hpq c)), ih h.2⟩

/-! ## Pieces -/

/-- A text in front of the first piece. -/
def glue (a : Str) : List Str → List Str
  | [] => [a]
  | p :: ps => (a ++ p) :: ps

@[simp] theorem glue_nil {ps : List Str} (h : ps ≠ []) : glue [] ps = ps := by
  cases ps with
  | nil => exact absurd rfl h
  | cons p ps => rfl

theorem glue_glue (a b : Str) (ps : List Str) : glue a (glue b ps) = glue (a ++ b) ps := by
  cases ps <;> simp [glue]

/-- A separator that is seen. -/
def Cuts (sep : Char) (σ : Scan) (c : Char) : Prop := σ.arm c = none ∧ c = sep ∧ ¬σ.Nested

instance (sep : Char) (σ : Scan) (c : Char) : Decidable (Cuts sep σ c) := by
  unfold Cuts; infer_instance

/-- **The pieces of a text** between the separators that are seen. -/
def pieces (sep : Char) : Scan → Str → List Str
  | _, [] => [[]]
  | σ, c :: s =>
    if Cuts sep σ c then [] :: pieces sep σ s else glue [c] (pieces sep (σ.step c) s)

theorem pieces_ne_nil (sep : Char) (σ : Scan) (s : Str) : pieces sep σ s ≠ [] := by
  cases s with
  | nil => simp [pieces]
  | cons c s =>
    rw [pieces]
    split
    · simp
    · cases pieces sep (σ.step c) s <;> simp [glue]

/-- **Hidden separators do not cut.** -/
theorem pieces_hides {sep : Char} {a b : Str} (h : Hides (· ≠ sep) σ a) :
    pieces sep σ (a ++ b) = glue a (pieces sep (σ.run a) b) := by
  induction a generalizing σ with
  | nil => simp [pieces_ne_nil]
  | cons c a ih =>
    have hc : ¬Cuts sep σ c := by
      rintro ⟨h1, h2, h3⟩
      rcases h.1 with h | h | h
      · rw [h1] at h; simp at h
      · exact h3 h
      · exact h h2
    rw [List.cons_append, pieces, if_neg hc, ih h.2, glue_glue]
    rfl

/-- **A text in which every separator is hidden is one piece.** -/
theorem pieces_self {sep : Char} {s : Str} (h : Hides (· ≠ sep) σ s) : pieces sep σ s = [s] := by
  have hhides := pieces_hides (b := []) h
  rwa [List.append_nil, pieces, glue, List.append_nil] at hhides

/-- **A separator that is seen cuts.** -/
theorem pieces_cut {sep : Char} {b : Str} (h : Cuts sep σ sep) :
    pieces sep σ (sep :: b) = [] :: pieces sep σ b := by
  rw [pieces, if_pos h]

theorem glue_append {ps : List Str} (h : ps ≠ []) (a : Str) (qs : List Str) :
    glue a (ps ++ qs) = glue a ps ++ qs := by
  cases ps with
  | nil => exact absurd rfl h
  | cons p ps => rfl

/-- **Splitting two parts** at a separator that is seen. -/
theorem pieces_sep {sep : Char} {a b : Str} (h : Cuts sep (σ.run a) sep) :
    pieces sep σ (a ++ sep :: b) = pieces sep σ a ++ pieces sep (σ.run a) b := by
  induction a generalizing σ with
  | nil => exact pieces_cut h
  | cons c a ih =>
    rw [List.cons_append, pieces, pieces, Scan.run_cons]
    split
    · rename_i hcut
      rw [Scan.run_cons, Scan.step_of_arm hcut.1] at h
      rw [ih h, Scan.step_of_arm hcut.1]
      rfl
    · rw [ih h, glue_append (pieces_ne_nil _ _ _)]

/-- Cutting loses the separators. -/
theorem length_pieces (sep : Char) (σ : Scan) (s : Str) :
    (pieces sep σ s).flatten.length + (pieces sep σ s).length = s.length + 1 := by
  induction s generalizing σ with
  | nil => rfl
  | cons c s ih =>
    rw [pieces]
    split
    · have hrest := ih σ
      simp only [List.flatten_cons, List.nil_append, List.length_cons]
      omega
    · have hrest := ih (σ.step c)
      cases hp : pieces sep (σ.step c) s with
      | nil => exact absurd hp (pieces_ne_nil sep _ s)
      | cons p ps =>
        rw [hp] at hrest
        simp only [glue, List.flatten_cons, List.length_append, List.length_cons,
          List.length_nil] at hrest ⊢
        omega

/-- **A text in one piece hides its separators.** -/
theorem hides_of_pieces {sep : Char} {s : Str} (h : (pieces sep σ s).length = 1) :
    Hides (· ≠ sep) σ s := by
  induction s generalizing σ with
  | nil => trivial
  | cons c s ih =>
    rw [pieces] at h
    split at h
    · have hne := List.length_pos_iff.2 (pieces_ne_nil sep σ s)
      rw [List.length_cons] at h
      omega
    · rename_i hcut
      have hlen : (pieces sep (σ.step c) s).length = 1 := by
        cases hp : pieces sep (σ.step c) s with
        | nil => exact absurd hp (pieces_ne_nil sep _ s)
        | cons p ps =>
          rw [hp] at h
          exact h
      refine ⟨?_, ih hlen⟩
      by_contra hseen
      rw [not_or, not_or, not_not, Option.not_isSome_iff_eq_none] at hseen
      exact hcut ⟨hseen.1, hseen.2.2, hseen.2.1⟩

/-- The trimmed pieces that are not blank. -/
def keep (ps : List Str) : List Str := (ps.map trim).filter (· ≠ [])

theorem keep_cons_trim {p : Str} (h : trim p ≠ []) (ps : List Str) :
    keep (p :: ps) = trim p :: keep ps := by
  rw [keep, List.map_cons, List.filter_cons_of_pos (by simpa using h), keep]

theorem keep_cons_blank {p : Str} (h : trim p = []) (ps : List Str) : keep (p :: ps) = keep ps := by
  rw [keep, List.map_cons, List.filter_cons_of_neg (by simpa using h), keep]

/-- The loop of `split_top_level`, from a state that has read `a` and cut it last at the
length of `b`. -/
theorem split_run (s : Str) (sep : Char) (a b c : Str) (st : Split) (hs : s = a ++ b ++ c)
    (hst : st.start = len a) :
    ∃ st', (charIndicesFrom (len a + len b) c).foldlM (Split.step s sep) st = some st' ∧
      ∃ last, sliceFrom s st'.start = some last ∧
        st'.parts ++ [last] = st.parts ++ glue b (pieces sep st.scan c) := by
  induction c generalizing a b st with
  | nil =>
    refine ⟨st, rfl, b, ?_, by simp [pieces, glue]⟩
    rw [hst, hs, List.append_nil]
    exact sliceFrom_append a b
  | cons x c ih =>
    rw [charIndicesFrom, List.foldlM_cons]
    have hcons : s = a ++ (b ++ [x]) ++ c := by simp [hs]
    have hpos : len a + len b + x.utf8Size = len a + len (b ++ [x]) := by simp; omega
    by_cases hcut : Cuts sep st.scan x
    · -- the piece from the last cut to here is pushed
      obtain ⟨harm, rfl, hn⟩ := hcut
      have hslice : slice s st.start (len a + len b) = some b := by
        rw [hst, hs]; exact slice_append a b (x :: c)
      have hguard : st.scan.depth ≤ 0 ∧ (!st.scan.inSq) = true ∧ (!st.scan.inDq) = true := by
        simp only [Scan.Nested, not_or, Bool.not_eq_true, not_lt] at hn
        exact ⟨hn.2.2, by simp [hn.1], by simp [hn.2.1]⟩
      have hstep : Split.step s x st (len a + len b, x) =
          some { st with parts := st.parts ++ [b], start := len (a ++ b ++ [x]) } := by
        simp only [Split.step, harm, hguard, and_self, if_true, hslice, Option.map_some]
        simp [Nat.add_assoc]
      obtain ⟨st', h1, last, h2, h3⟩ := ih (a ++ b ++ [x]) []
        { st with parts := st.parts ++ [b], start := len (a ++ b ++ [x]) } (by simp [hs]) rfl
      refine ⟨st', ?_, last, h2, ?_⟩
      · rw [hstep, hpos]
        simpa [Nat.add_assoc] using h1
      · rw [h3, pieces_cut ⟨harm, rfl, hn⟩]
        rw [glue_nil (pieces_ne_nil x st.scan c)]
        simp [glue]
    · -- the character joins the pending piece
      have hstep : Split.step s sep st (len a + len b, x) =
          some { st with scan := st.scan.step x } := by
        unfold Split.step
        cases harm : st.scan.arm x with
        | some τ => simp [Scan.step_of_arm_some harm]
        | none =>
          have hno : ¬(x = sep ∧ st.scan.depth ≤ 0 ∧ (!st.scan.inSq) = true ∧
              (!st.scan.inDq) = true) := by
            rintro ⟨h1, h2, h3, h4⟩
            refine hcut ⟨harm, h1, ?_⟩
            simp only [Scan.Nested, not_or, Bool.not_eq_true, not_lt]
            exact ⟨by simpa using h3, by simpa using h4, h2⟩
          simp only [if_neg hno, Scan.step_of_arm harm]
      obtain ⟨st', h1, last, h2, h3⟩ := ih a (b ++ [x]) { st with scan := st.scan.step x }
        hcons hst
      refine ⟨st', ?_, last, h2, ?_⟩
      · rw [hstep, hpos]; exact h1
      · rw [h3, pieces, if_neg hcut, glue_glue]

/-- **The splitter never panics, and finds these pieces.** -/
theorem splitTopLevel_eq (s : Str) (sep : Char) :
    splitTopLevel s sep = some (keep (pieces sep .start s)) := by
  obtain ⟨st, h1, last, h2, h3⟩ := split_run s sep [] [] s ⟨[], .start, 0⟩ rfl rfl
  simp only [len_nil, Nat.add_zero, List.nil_append] at h1 h3
  rw [glue_nil (pieces_ne_nil sep .start s)] at h3
  unfold splitTopLevel charIndices
  rw [h1]
  simp only [Option.bind_eq_bind, Option.bind_some, h2, h3]
  rfl

/-! ## Casts -/

/-- The text cut at its last top-level `::`, which is left out. -/
def lastCast : Scan → Str → Option (Str × Str)
  | _, [] => none
  | σ, c :: s =>
    match lastCast (σ.step c) s with
    | some p => some (c :: p.1, p.2)
    | none =>
      if σ.arm c = none ∧ c = ':' ∧ σ.depth = 0 ∧ !σ.inSq ∧ !σ.inDq ∧ s.head? = some ':' then
        some ([], s.tail)
      else none

/-- The cut gives the text back. -/
theorem lastCast_some {s : Str} {p : Str × Str} (h : lastCast σ s = some p) :
    s = p.1 ++ ':' :: ':' :: p.2 := by
  induction s generalizing σ p with
  | nil => simp [lastCast] at h
  | cons c s ih =>
    rw [lastCast] at h
    cases hl : lastCast (σ.step c) s with
    | some q =>
      rw [hl] at h
      obtain rfl := Option.some.inj h
      rw [ih hl]; rfl
    | none =>
      rw [hl] at h
      simp only at h
      split at h
      · rename_i hg
        obtain ⟨-, rfl, -, -, -, hs⟩ := hg
        obtain rfl := Option.some.inj h
        cases s with
        | nil => simp at hs
        | cons d r => obtain rfl := Option.some.inj hs; rfl
      · simp at h

/-- **A text in which every colon is hidden has no cast.** -/
theorem lastCast_hides {s : Str} (h : Hides (· ≠ ':') σ s) : lastCast σ s = none := by
  induction s generalizing σ with
  | nil => rfl
  | cons c s ih =>
    rw [lastCast, ih h.2]
    simp only
    rw [if_neg]
    rintro ⟨h1, h2, h3, h4, h5, -⟩
    rcases h.1 with h | h | h
    · rw [h1] at h; simp at h
    · rcases h with h | h | h
      · simp [h] at h4
      · simp [h] at h5
      · omega
    · exact h h2

/-- The cut of the second of two parts, when it has one. -/
theorem lastCast_append {a b : Str} {p : Str × Str} (h : lastCast (σ.run a) b = some p) :
    lastCast σ (a ++ b) = some (a ++ p.1, p.2) := by
  induction a generalizing σ with
  | nil => exact h
  | cons c a ih => rw [List.cons_append, lastCast, ih h]; rfl

/-- The loop finds the offset of the cut. -/
theorem findCastFrom_eq (σ : Scan) (i : ℕ) (s : Str) (found : Option ℕ) :
    findCastFrom σ i s found =
      ((lastCast σ s).map fun p => i + len p.1).or found := by
  induction s generalizing σ i found with
  | nil => simp [findCastFrom, lastCast]
  | cons c s ih =>
    rw [findCastFrom, lastCast]
    -- a cast found later in the text wins
    have hskip : ∀ τ, ((lastCast τ s).map fun p => i + c.utf8Size + len p.1).or found =
        ((match lastCast τ s with
          | some p => some (c :: p.1, p.2)
          | none => none).map fun p : Str × Str => i + len p.1).or found := by
      intro τ
      cases lastCast τ s <;> simp [Nat.add_assoc]
    cases harm : σ.arm c with
    | some τ =>
      rw [Scan.step_of_arm_some harm]
      simp only [reduceCtorEq, false_and, if_false]
      rw [ih, hskip]
    | none =>
      rw [Scan.step_of_arm harm]
      simp only [true_and]
      by_cases hg : c = ':' ∧ σ.depth = 0 ∧ (!σ.inSq) = true ∧ (!σ.inDq) = true ∧
          s.head? = some ':'
      · rw [if_pos hg, if_pos hg, ih]
        cases lastCast σ s <;> simp [Nat.add_assoc]
      · rw [if_neg hg, if_neg hg, ih, hskip]

/-- **The search finds the cut.** -/
theorem findTopLevelCast_eq (s : Str) :
    findTopLevelCast s = (lastCast .start s).map fun p => len p.1 := by
  rw [findTopLevelCast, findCastFrom_eq]
  simp

end EtherealDb
