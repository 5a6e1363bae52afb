import EtherealDb.Spec.Pg

/-!
# Rows of a result set

* `putCells_eq`: a row is drawn as texts (`rowTexts`), then each text is put in its
  column's format; so the draws do not depend on the formats.
* `streamRows_eq`: **the chunks of a crush stream are one loop** of `max` rows, under the
  tag that counts them.
* `rowTexts_binarize`: without fuzz the remap for the binary path changes no text.
-/

namespace EtherealDb.Pg

open Str

variable {C : Crates} {g : Gen} {formats : List ℤ}

/-! ## One row -/

/-- The texts of a row. -/
def rowTexts (g : Gen) : List Resolved → Draw C (List Str)
  | [] => pure []
  | c :: cols => do
    let text ← cellText c g
    return text :: (← rowTexts g cols)

/-- Texts put in the formats of their columns, from column `i` on. -/
def putTexts (formats : List ℤ) : ℕ → List Resolved → List Str → List Cell
  | i, c :: cols, t :: texts => putCell formats i c t :: putTexts formats (i + 1) cols texts
  | _, _, _ => []

theorem length_rowTexts (cols : List Resolved) (rng : C.Rng) :
    (rowTexts g cols rng).1.length = cols.length := by
  induction cols generalizing rng with
  | nil => rfl
  | cons c cols ih => exact congrArg (· + 1) (ih _)

/-- **A row is drawn, then encoded.** -/
theorem putCells_eq (cols : List Resolved) (i : ℕ) (rng : C.Rng) :
    putCells formats g i cols rng =
      (putTexts formats i cols (rowTexts g cols rng).1, (rowTexts g cols rng).2) := by
  induction cols generalizing i rng with
  | nil => rfl
  | cons c cols ih =>
    have hstep : putCells formats g i (c :: cols) rng =
        (putCell formats i c (cellText c g rng).1 ::
          (putCells formats g (i + 1) cols (cellText c g rng).2).1,
          (putCells formats g (i + 1) cols (cellText c g rng).2).2) := rfl
    rw [hstep, ih]
    rfl

theorem putDataRowFmt_eq (cols : List Resolved) (rng : C.Rng) :
    putDataRowFmt cols formats g rng =
      (.dataRow (putTexts formats 0 cols (rowTexts g cols rng).1), (rowTexts g cols rng).2) := by
  have hrow : putDataRowFmt cols formats g rng =
      (.dataRow (putCells formats g 0 cols rng).1, (putCells formats g 0 cols rng).2) := rfl
  rw [hrow, putCells_eq]

theorem length_putTexts {cols : List Resolved} {texts : List Str} (i : ℕ)
    (h : texts.length = cols.length) : (putTexts formats i cols texts).length = cols.length := by
  induction cols generalizing texts i with
  | nil => simp [putTexts]
  | cons c cols ih =>
    cases texts with
    | nil => simp at h
    | cons t texts => simp [putTexts, ih (i + 1) (by simpa using h)]

/-- Each cell holds a text of its column, in the column's format. -/
theorem getElem?_putTexts {cols : List Resolved} {texts : List Str} {cell : Cell} {i j : ℕ}
    (h : (putTexts formats i cols texts)[j]? = some cell) :
    ∃ c t, cols[j]? = some c ∧ texts[j]? = some t ∧ cell = putCell formats (i + j) c t := by
  induction cols generalizing texts i j with
  | nil => simp [putTexts] at h
  | cons c cols ih =>
    cases texts with
    | nil => simp [putTexts] at h
    | cons t texts =>
      cases j with
      | zero => exact ⟨c, t, rfl, rfl, by simpa [putTexts] using h.symm⟩
      | succ j =>
        obtain ⟨c', t', hc, ht, hcell⟩ := ih (i := i + 1) (j := j) h
        exact ⟨c', t', hc, ht, by rw [hcell, Nat.add_assoc, Nat.add_comm 1]⟩

/-- When every column is asked for as text, the cells are the texts. -/
theorem putTexts_text {cols : List Resolved} {texts : List Str} (hf : ∀ i, formatFor formats i ≠ 1)
    (i : ℕ) (h : texts.length = cols.length) : putTexts formats i cols texts = texts.map .text := by
  induction cols generalizing texts i with
  | nil =>
    obtain rfl : texts = [] := List.length_eq_zero_iff.1 h
    rfl
  | cons c cols ih =>
    cases texts with
    | nil => simp at h
    | cons t texts =>
      rw [putTexts, ih (i + 1) (by simpa using h), putCell, if_neg (hf i)]
      rfl

/-- **The remap for the binary path changes no text**, without fuzz. -/
theorem rowTexts_binarize (hg : g.fuzz = 0) (cols : List Resolved) (rng : C.Rng) :
    rowTexts g (binarize cols) rng = rowTexts g cols rng := by
  -- the wire type is all that changes, and the generators do not look at it
  have hcell : ∀ c : Resolved, ∀ rng : C.Rng,
      cellText (if c.wt = .numeric then { c with wt := .float8 } else c) g rng =
        cellText c g rng := by
    intro c rng
    by_cases hc : c.wt = .numeric
    · rw [if_pos hc]
      unfold cellText
      cases c.literal with
      | none => simp only [genValue_no_fuzz hg]
      | some v => rfl
    · rw [if_neg hc]
  induction cols generalizing rng with
  | nil => rfl
  | cons c cols ih =>
    have hstep : ∀ c (cols : List Resolved), rowTexts g (c :: cols) rng =
        ((cellText c g rng).1 :: (rowTexts g cols (cellText c g rng).2).1,
          (rowTexts g cols (cellText c g rng).2).2) := fun _ _ => rfl
    unfold binarize at ih ⊢
    rw [List.map_cons, hstep, hstep, hcell, ih]

/-! ## Many rows -/

/-- Rows that are a function of their texts. -/
theorem times_map {α β : Type} {d : Draw C α} {e : Draw C β} {f : α → β}
    (h : ∀ rng, e rng = (f (d rng).1, (d rng).2)) (n : ℕ) (rng : C.Rng) :
    e.times n rng = ((d.times n rng).1.map f, (d.times n rng).2) := by
  induction n generalizing rng with
  | zero => rfl
  | succ n ih =>
    have hstep : ∀ {γ : Type} (d : Draw C γ) (rng : C.Rng), d.times (n + 1) rng =
        ((d rng).1 :: (d.times n (d rng).2).1, (d.times n (d rng).2).2) := fun _ _ => rfl
    rw [hstep, hstep, h, ih]
    rfl

/-- Every message that the loop of rows writes is a row. -/
theorem times_putDataRowFmt (cols : List Resolved) (n : ℕ) (rng : C.Rng) :
    ((putDataRowFmt cols formats g).times n rng).1 =
      ((rowTexts g cols).times n rng).1.map fun texts => .dataRow (putTexts formats 0 cols texts) := by
  rw [times_map (d := rowTexts g cols) (f := fun texts => .dataRow (putTexts formats 0 cols texts))
    (putDataRowFmt_eq cols)]

/-- The streaming loop, with rounds enough, sends all the rows there are to send. -/
theorem streamLoop_eq {α : Type} {row : Draw C α} {max fuel sent : ℕ} (hs : sent ≤ max)
    (hf : max - sent ≤ fuel) (rng : C.Rng) :
    streamLoop row max fuel sent rng =
      (((row.times (max - sent) rng).1, max), (row.times (max - sent) rng).2) := by
  induction fuel generalizing sent rng with
  | zero =>
    obtain rfl : sent = max := by omega
    rw [Nat.sub_self]
    rfl
  | succ fuel ih =>
    by_cases hlt : sent < max
    · -- a chunk, then what the next rounds send
      have hpos := chunk_pos hlt
      have hstep : streamLoop row max (fuel + 1) sent rng =
          (((row.times (min crushChunk (max - sent)) rng).1 ++
            (streamLoop row max fuel (sent + min crushChunk (max - sent))
              (row.times (min crushChunk (max - sent)) rng).2).1.1,
            (streamLoop row max fuel (sent + min crushChunk (max - sent))
              (row.times (min crushChunk (max - sent)) rng).2).1.2),
            (streamLoop row max fuel (sent + min crushChunk (max - sent))
              (row.times (min crushChunk (max - sent)) rng).2).2) := by
        rw [streamLoop, if_pos hlt]
        rfl
      rw [hstep, ih (by omega) (by omega)]
      conv_rhs => rw [← chunk_add max sent, Draw.times_add]
    · obtain rfl : sent = max := by omega
      rw [streamLoop, if_neg hlt, Nat.sub_self]
      rfl

/-- **The chunks of a crush stream are one loop.** -/
theorem streamRows_eq (cols : List Resolved) (max : ℕ) (rng : C.Rng) :
    (streamRows cols formats max g rng).1 =
      ((putDataRowFmt cols formats g).times max rng).1 ++ [.commandComplete (selectTag max)] := by
  have hrows : (streamRows cols formats max g rng).1 =
      (streamLoop (putDataRowFmt cols formats g) max max 0 rng).1.1 ++
        [.commandComplete (selectTag (streamLoop (putDataRowFmt cols formats g) max max 0 rng).1.2)] :=
    rfl
  rw [hrows, streamLoop_eq (Nat.zero_le max) (by omega)]
  rfl

/-! ## How many rows -/

/-- The rows of a result set before its limit: none from a system catalog, one without a
table, a draw in the band otherwise. -/
def rowBand (shape : ResultShape) (cfg : Config) : Draw C ℕ :=
  if shape.forceEmpty then pure 0
  else if shape.aggregateOnly ∨ shape.tableHint = none then pure 1
  else Int.toNat <$> (C.randomRangeIncl .usize cfg.rowsMin (max cfg.rowsMax cfg.rowsMin) : Draw C ℤ)

/-- What the `LIMIT` of a statement leaves of `n` rows. -/
def limited (shape : ResultShape) (n : ℕ) : ℕ := shape.limit.elim n (min n)

/-- **The number of rows of a result set.** -/
def rowCount (shape : ResultShape) (cfg : Config) : Draw C ℕ := limited shape <$> rowBand shape cfg

theorem rowCount_fst (shape : ResultShape) (cfg : Config) (rng : C.Rng) :
    (rowCount shape cfg rng).1 = limited shape (rowBand shape cfg rng).1 := by
  rw [rowCount, Draw.map_apply]

/-- The bound of an Execute message on a number of rows. -/
def boundRows (maxRows : ℤ) (n : ℕ) : ℕ := if 0 < maxRows then min n maxRows.toNat else n

theorem boundRows_zero (n : ℕ) : boundRows 0 n = n := rfl

theorem boundRows_le (maxRows : ℤ) (n : ℕ) : boundRows maxRows n ≤ n := by
  unfold boundRows
  split
  · exact Nat.min_le_left _ _
  · exact le_rfl

/-- The answer of `normal_response` to a `SELECT`. -/
theorem normalRows_eq (shape : ResultShape) (cfg : Config) (rng : C.Rng) :
    (normalRows shape cfg rng).1 =
      putRowDescription (resolveCols shape cfg) ::
        ((putDataRow (resolveCols shape cfg) cfg.genCtx).times (rowCount shape cfg rng).1
          (rowCount shape cfg rng).2).1 ++
        [.commandComplete (selectTag (rowCount shape cfg rng).1)] := by
  unfold normalRows rowCount rowBand limited
  split_ifs <;> cases shape.limit <;> rfl

/-- The rows of `execute_portal`. -/
theorem portalRows_eq (shape : ResultShape) (cfg : Config) (maxRows : ℤ) (rng : C.Rng) :
    (portalRows shape cfg formats maxRows rng).1 =
      ((putDataRowFmt (binarize (resolveCols shape cfg)) formats cfg.genCtx).times
        (boundRows maxRows (rowCount shape cfg rng).1) (rowCount shape cfg rng).2).1 ++
        [.commandComplete (selectTag (boundRows maxRows (rowCount shape cfg rng).1))] := by
  unfold portalRows rowCount rowBand limited boundRows
  split_ifs <;> cases shape.limit <;> rfl

end EtherealDb.Pg
