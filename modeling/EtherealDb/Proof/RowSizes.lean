import EtherealDb.Proof.MySqlSelect
import EtherealDb.Proof.PgWire
import EtherealDb.Proof.Values

/-!
# The sizes of rows

A frame of MySQL holds less than 2^24 - 1 bytes, a message of Postgres less than 2^31. No value is
that long, so how many columns a query selects decides whether its rows fit.

* `MySql.select_fits`: **a select of 1023 columns at most is answered with frames that a client puts
  together**, whatever the values.
* `Pg.row_fits`: **a row of as many columns as Postgres counts** is read back.
-/

namespace EtherealDb

open Str

variable {C : Crates}

/-- **Columns whose rows can be sent**: `n` at most, with literals no longer than a value. -/
structure Sendable (n : ℕ) (cols : List Resolved) : Prop where
  count : cols.length ≤ n
  literals : ∀ c ∈ cols, ∀ lit, c.literal = some lit → len lit < 16384

theorem Sendable.mono {m n : ℕ} {cols : List Resolved} (h : Sendable m cols) (hmn : m ≤ n) :
    Sendable n cols :=
  ⟨h.count.trans hmn, h.literals⟩

/-- A select list of a key. -/
def oneKey : List Resolved := [⟨"id", .idInt, .int8, none⟩]

theorem sendable_oneKey : Sendable 1 oneKey := by
  refine ⟨le_rfl, ?_⟩
  intro c hc lit hlit
  rw [List.mem_singleton.1 hc] at hlit
  cases hlit

/-- A list of bounded pieces. -/
theorem length_flatMap_le {α β : Type} {f : α → List β} {l : List α} {n : ℕ}
    (h : ∀ a ∈ l, (f a).length ≤ n) : (l.flatMap f).length ≤ l.length * n := by
  induction l with
  | nil => exact Nat.zero_le _
  | cons a l ih =>
    have ha := h a List.mem_cons_self
    have hl := ih fun b hb => h b (List.mem_cons_of_mem a hb)
    rw [List.flatMap_cons, List.length_append, List.length_cons, Nat.succ_mul]
    omega

section Texts

variable (hfill : ∀ rng, (C.fill16 rng).1.length = 16)
  (huuid : ∀ b : Bytes, b.length = 16 → ∃ v : Bytes, v.length = 16 ∧ C.uuidText b = Pg.hyphenated v)
  {g : Gen} (htheme : g.theme.Neat)

include hfill huuid htheme

/-- A cell is a literal or a value. -/
theorem len_cellText {c : Resolved} (hlit : ∀ lit, c.literal = some lit → len lit < 16384) (rng : C.Rng) :
    len (Pg.cellText c g rng).1 < 16384 := by
  unfold Pg.cellText
  cases hc : c.literal with
  | some lit => exact hlit lit hc
  | none => exact len_genValue hfill huuid htheme c.st c.wt rng

theorem len_rowTexts {cols : List Resolved}
    (hlit : ∀ c ∈ cols, ∀ lit, c.literal = some lit → len lit < 16384) (rng : C.Rng) :
    ∀ t ∈ (Pg.rowTexts g cols rng).1, len t < 16384 := by
  induction cols generalizing rng with
  | nil => exact List.forall_mem_nil _
  | cons c cols ih =>
    have hcell := len_cellText hfill huuid htheme (hlit c List.mem_cons_self) rng
    have hrest := ih (fun d hd => hlit d (List.mem_cons_of_mem c hd)) (Pg.cellText c g rng).2
    exact List.forall_mem_cons.2 ⟨hcell, hrest⟩

end Texts

namespace MySql

/-- A text takes nine bytes more at most. -/
theorem textSize_le (t : Str) : textSize t ≤ len t + 9 := by
  unfold textSize
  split_ifs <;> omega

/-- The Boolean digits are as short as a value. -/
theorem len_mysqlText {c : Resolved} {t : Str} (h : len t < 16384) : len (mysqlText c t) < 16384 := by
  unfold mysqlText
  split_ifs
  · decide
  · decide
  · exact h

/-- **Rows of 1023 columns at most fit in frames.** -/
theorem inFrames_of_short {cols : List Resolved} {rows : List (List Str)} (hcols : Sendable 1023 cols)
    (hnames : ∀ c ∈ cols, len c.name ≤ longestName) (hwidth : ∀ r ∈ rows, r.length = cols.length)
    (hlen : ∀ r ∈ rows, ∀ t ∈ r, len t < 16384) : InFrames cols rows where
  names := hnames
  rows := by
    intro r hr
    have hcount := hcols.count
    have hcells : (r.map textSize).sum ≤ r.length * 16393 := by
      refine (List.sum_le_card_nsmul _ 16393 ?_).trans_eq (by simp)
      rw [List.forall_mem_map]
      intro t ht
      have hsize := textSize_le t
      have ht := hlen r hr t ht
      omega
    rw [hwidth r hr] at hcells
    omega

/-- The columns that replace a star can be sent as well. -/
theorem sendable_wide (rules : Rules) :
    Sendable 1023 (wideCrushColumns.map fun n => Resolved.fromName n rules) := by
  refine ⟨?_, ?_⟩
  · rw [List.length_map]
    decide
  · rw [List.forall_mem_map]
    intro n _ lit hlit
    cases hlit

theorem names_wide (rules : Rules) :
    ∀ c ∈ wideCrushColumns.map fun n => Resolved.fromName n rules, len c.name ≤ longestName := by
  rw [List.forall_mem_map]
  have hall : ∀ n ∈ wideCrushColumns, len n ≤ longestName := by decide +kernel
  exact hall

section Answers

variable (hfill : ∀ rng, (C.fill16 rng).1.length = 16)
  (huuid : ∀ b : Bytes, b.length = 16 → ∃ v : Bytes, v.length = 16 ∧ C.uuidText b = Pg.hyphenated v)
  {cfg : Config} (htheme : cfg.theme.Neat)

include hfill huuid htheme

/-- The cells of the rows of a result set are short. -/
theorem len_textRows {cols : List Resolved} {n : ℕ} (hcols : Sendable n cols) (k : ℕ) (rng : C.Rng) :
    ∀ r ∈ textRows cols cfg.genCtx k rng, ∀ t ∈ r, len t < 16384 := by
  intro r hr t ht
  obtain ⟨texts, htexts, rfl⟩ := List.mem_map.1 hr
  obtain ⟨rng', rfl⟩ := Draw.mem_times htexts
  have hlen := len_rowTexts hfill huuid (g := cfg.genCtx) htheme hcols.literals rng'
  obtain ⟨i, hi, rfl⟩ := List.getElem_of_mem ht
  rw [List.getElem_zipWith]
  exact len_mysqlText (hlen _ (List.getElem_mem _))

/-- **A select of 1023 columns at most is answered with frames that a client puts together**, when it
has something to select, under names that fit in frames and literals no longer than a value, and no
ghost's delay, drop or error takes it: the names of its columns, and rows of so many texts, however
many rows there are and whatever the values, fuzzed or not, in crush mode or out of it. -/
theorem select_fits (o : Outcome C) (sql : Str) (hsql : len sql + 1 < 2 ^ 24)
    (hghost : ¬(cfg.ghosts.haunting ∧ (o.crashed cfg ∨ o.dropped cfg ∨ o.errored cfg)))
    (hk : (shapeOf (firstStatement sql)).kind = .select) (hfilled : Filled (firstStatement sql))
    (hcols : Sendable 1023 (resolveCols (shapeOf (firstStatement sql)) cfg))
    (hnames : ∀ c ∈ resolveCols (shapeOf (firstStatement sql)) cfg, len c.name ≤ longestName)
    (id : UInt8) (rest : Bytes) :
    ∃ out ids cols rows,
      turn cfg o (writePacket id (0x03 :: Utf8.encode sql) ++ rest) = some (out, rest) ∧
        Client.response out = some (ids, ⟨cols.map Resolved.name, rows⟩) ∧
        (cols = resolveCols (shapeOf (firstStatement sql)) cfg ∨
          cols = wideCrushColumns.map fun n => Resolved.fromName n cfg.rules) ∧
        ∀ r ∈ rows, r.length = cols.length ∧ ∀ t ∈ r, len t < 16384 := by
  generalize hstmt : firstStatement sql = stmt at hk hfilled hcols hnames ⊢
  obtain ⟨hne, -⟩ := sentCols_select hk cfg (o.slot 0)
  have hchoice := (sentCols_cases cfg (o.slot 0) (shapeOf stmt)).imp_right And.right
  have hsent : Sendable 1023 (sentCols cfg (o.slot 0) (shapeOf stmt)) ∧
      ∀ c ∈ sentCols cfg (o.slot 0) (shapeOf stmt), len c.name ≤ longestName := by
    rcases hchoice with h | h
    · rw [h]
      exact ⟨hcols, hnames⟩
    · rw [h]
      exact ⟨sendable_wide cfg.rules, names_wide cfg.rules⟩
  have hcount := hsent.1.count
  have hwidth := width_drawnRows cfg (o.slot 0) (o.os 0) stmt (shapeOf stmt)
  have hlen : ∀ r ∈ drawnRows cfg (o.slot 0) (o.os 0) stmt (shapeOf stmt), ∀ t ∈ r, len t < 16384 := by
    obtain ⟨k, rng, hrows⟩ := drawnRows_eq cfg (o.slot 0) (o.os 0) stmt (shapeOf stmt)
    rw [hrows]
    exact len_textRows hfill huuid htheme hsent.1 k rng
  have hanswer : answer cfg o (0x03 :: Utf8.encode sql) =
      .reply (resultSet (sentCols cfg (o.slot 0) (shapeOf stmt))
        (drawnRows cfg (o.slot 0) (o.os 0) stmt (shapeOf stmt))) := by
    refine answer_query hghost ?_
    have hrun := runQuery_first (hstmt.symm ▸ hk) cfg (o.slot 0) (o.os 0)
    rw [Utf8.fromUtf8Lossy_encode, hrun, hstmt, selectResponse_eq]
  have hcmd : (0x03 :: Utf8.encode sql).length < 2 ^ 24 := by
    rw [List.length_cons, Utf8.length_encode]
    exact hsql
  have hfits := inFrames_iff.2 (inFrames_of_short hsent.1 hsent.2 hwidth hlen)
  exact ⟨_, _, _, _, turn_eq hcmd hanswer id rest,
    response_resultSet (hne.2 hfilled) (by omega) hwidth hfits id, hchoice,
    fun r hr => ⟨hwidth r hr, hlen r hr⟩⟩

end Answers

/-- The keys of a table. -/
theorem select_fits_one : ∃ out ids cols rows,
    turn (C := .least) Config.default .quiet (writePacket 0 (0x03 :: Utf8.encode "select id from t") ++ []) =
        some (out, []) ∧
      Client.response out = some (ids, ⟨cols.map Resolved.name, rows⟩) ∧
      (cols = oneKey ∨ cols = wideCrushColumns.map fun n => Resolved.fromName n Config.default.rules) ∧
      ∀ r ∈ rows, r.length = cols.length ∧ ∀ t ∈ r, len t < 16384 := by
  have hfirst : firstStatement "select id from t" = "select id from t" := by decide +kernel
  have hcols : resolveCols (shapeOf (firstStatement "select id from t")) Config.default = oneKey := by
    decide +kernel
  have hfilled : Filled (firstStatement "select id from t") := by
    rw [hfirst]
    exact .inr ⟨"id", by decide +kernel, 'i', by decide, by decide⟩
  have hread := select_fits (C := .least) (fun _ => rfl) (fun _ _ => ⟨_, rfl, least_uuid⟩)
    (neat_themes Config.default.theme generic_mem) .quiet "select id from t"
    (by decide +kernel) (by decide) (by decide +kernel) hfilled (hcols ▸ sendable_oneKey.mono (by decide))
    (by decide +kernel) 0 []
  rw [hcols] at hread
  exact hread

end MySql

namespace Pg

/-- A binary cell has a width of its type, or is its text. -/
theorem length_textToBinary_le (wt : WireType) (text : Str) : (textToBinary wt text).length ≤ len text + 16 := by
  cases hwidth : oidWidth (oid wt) with
  | some n =>
    rw [length_textToBinary hwidth]
    have hn : n ≤ 16 := by cases wt <;> revert hwidth <;> simp [oidWidth, oid] <;> omega
    omega
  | none =>
    have htext : textToBinary wt text = Utf8.encode text ∨ (textToBinary wt text).length = 8 := by
      cases wt with
      | text | json => exact .inl rfl
      | numeric => exact .inr (by simp [textToBinary])
      | bool | int4 | int8 | float8 | date | time | timestamp | uuid => cases hwidth
    rcases htext with htext | htext
    · rw [htext, Utf8.length_encode]
      omega
    · omega

/-- The cells of short texts are short, in any format. -/
theorem length_putTexts_bytes (formats : List ℤ) {n : ℕ} (i : ℕ) (cols : List Resolved) {texts : List Str}
    (h : ∀ t ∈ texts, len t < n) : ∀ c ∈ putTexts formats i cols texts, c.bytes.length < n + 16 := by
  induction cols generalizing i texts with
  | nil => exact List.forall_mem_nil _
  | cons c cols ih =>
    cases texts with
    | nil => exact List.forall_mem_nil _
    | cons t texts =>
      have ht := h t List.mem_cons_self
      have hrest := ih (i + 1) fun u hu => h u (List.mem_cons_of_mem t hu)
      refine List.forall_mem_cons.2 ⟨?_, hrest⟩
      unfold putCell
      split_ifs
      · exact (length_textToBinary_le c.wt t).trans_lt (by omega)
      · exact (Utf8.length_encode t).trans_lt (by omega)

section Rows

variable (hfill : ∀ rng, (C.fill16 rng).1.length = 16)
  (huuid : ∀ b : Bytes, b.length = 16 → ∃ v : Bytes, v.length = 16 ∧ C.uuidText b = hyphenated v)
  {g : Gen} (htheme : g.theme.Neat)

include hfill huuid htheme

/-- **A row of as many columns as Postgres counts is read back**, cell by cell, in the formats that
were asked for. -/
theorem row_fits {cols : List Resolved} (hcols : Sendable 32767 cols) (formats : List ℤ) (rng : C.Rng) :
    Client.dataRow (putDataRowFmt cols formats g rng).1.body =
      some ((cellBytes formats cols (rowTexts g cols rng).1).map some) := by
  have hcount := hcols.count
  have hlen := len_rowTexts hfill huuid htheme hcols.literals rng
  have hwidth : (putTexts formats 0 cols (rowTexts g cols rng).1).length = cols.length :=
    length_putTexts 0 (length_rowTexts cols rng)
  have hcell := length_putTexts_bytes formats 0 cols hlen
  have hcells := length_flatMap_le (f := fun c : Cell => be 4 c.bytes.length ++ c.bytes)
    (n := 16404) fun c hc => by
      have hc := hcell c hc
      rw [List.length_append, length_be]
      omega
  have hbytes := putTexts_bytes formats 0 cols (rowTexts g cols rng).1
  simp only [Nat.zero_add] at hbytes
  rw [putDataRowFmt_eq]
  dsimp only
  rw [Client.dataRow_body (by omega), cellBytes, ← hbytes, List.map_map]
  · rfl
  · rw [Backend.body, List.length_append, length_be]
    omega

end Rows

/-- Two keys in binary, of a server that fuzzes every value. -/
theorem row_fits_keys : Client.dataRow
    (putDataRowFmt (C := .least) (oneKey ++ oneKey) [1] ⟨genericTheme, 1⟩ ()).1.body =
      some ((cellBytes [1] (oneKey ++ oneKey)
        (rowTexts (C := .least) ⟨genericTheme, 1⟩ (oneKey ++ oneKey) ()).1).map some) := by
  have hcols : Sendable 32767 (oneKey ++ oneKey) :=
    ⟨by decide, List.forall_mem_append.2 ⟨sendable_oneKey.literals, sendable_oneKey.literals⟩⟩
  exact row_fits (C := .least) (fun _ => rfl) (fun _ _ => ⟨_, rfl, least_uuid⟩)
    (g := ⟨genericTheme, 1⟩) (neat_themes genericTheme generic_mem) hcols [1] ()

end Pg

end EtherealDb
