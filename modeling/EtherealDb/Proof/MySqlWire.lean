import EtherealDb.Proof.Recover
import EtherealDb.Proof.Responders
import EtherealDb.Spec.MySqlClient

/-!
# MySQL packets on the wire

* `result_set_decodes`: **a client reads back the names, the rows and the sequence ids of
  every result set** whose packets are short enough for one header each.
* `framing_iff`: **the framing is lossless exactly for payloads below `2^24 - 1` bytes.**
* `framing_loses`: a query is answered with a longer one.
-/

namespace EtherealDb.MySql

open Str
open Resp2 (many many_flatMap)

variable {C : Crates}

/-! ## Length-encoded integers and texts -/

namespace Client

theorem readLe_le {w n : ℕ} (h : n < 256 ^ w) (s : Bytes) : readLe w (le w n ++ s) = some (n, s) := by
  have hlen : (le w n).length = w := by simp [le]
  rw [readLe, takeN_of_length hlen, Option.map_some, le, List.reverse_reverse, ofBe_be_of_lt h]

/-- **A length is read back**, whichever of the four ranges it is in. -/
theorem readLenencInt_put {n : ℕ} (h : n < 2 ^ 64) (s : Bytes) :
    readLenencInt (putLenencInt n ++ s) = some (n, s) := by
  unfold putLenencInt
  by_cases h1 : n ≤ 0xfa
  · -- one byte, which is none of the markers
    have hb : (UInt8.ofNat n).toNat = n := by
      rw [UInt8.toNat_ofNat']
      omega
    have hne : ∀ m : UInt8, 0xfb ≤ m.toNat → UInt8.ofNat n ≠ m := by
      intro m hm he
      rw [he] at hb
      omega
    have hle : le 1 n = [UInt8.ofNat n] := rfl
    rw [if_pos h1, hle, List.singleton_append, readLenencInt, if_neg, if_neg (hne _ (by decide)),
      if_neg (hne _ (by decide)), if_neg (hne _ (by decide)), hb]
    exact not_or.2 ⟨hne _ (by decide), hne _ (by decide)⟩
  · rw [if_neg h1]
    by_cases h2 : n ≤ 0xffff
    · rw [if_pos h2]
      exact readLe_le (w := 2) (by omega) s
    · rw [if_neg h2]
      by_cases h3 : n ≤ 0xffffff
      · rw [if_pos h3]
        exact readLe_le (w := 3) (by omega) s
      · rw [if_neg h3]
        exact readLe_le (w := 8) (by omega) s

theorem readLenencStr_put {t : Str} (h : len t < 2 ^ 64) (s : Bytes) :
    readLenencStr (putLenencStr t ++ s) = some (t, s) := by
  have hlen : (Utf8.encode t).length = len t := Utf8.length_encode t
  rw [readLenencStr, putLenencStr, List.append_assoc, readLenencInt_put h]
  simp only [Option.bind_eq_bind, Option.bind_some]
  rw [takeN_of_length hlen]
  simp only [Option.bind_some, Utf8.fromUtf8_encode]
  rfl

end Client

/-! ## Packets -/

theorem length_le_putLenencStr (t : Str) : len t + 1 ≤ (putLenencStr t).length := by
  have hint : 1 ≤ (putLenencInt (len t)).length := by
    unfold putLenencInt
    split_ifs <;> simp [le]
  rw [putLenencStr, List.length_append, Utf8.length_encode]
  omega

/-- The cells of a short row are short. -/
theorem len_of_mem_row {cells : List Str} {t : Str} (h : t ∈ cells) :
    len t < (Packet.row cells).payload.length := by
  obtain ⟨a, b, rfl⟩ := List.append_of_mem h
  have hput := length_le_putLenencStr t
  have hpayload : (Packet.row (a ++ t :: b)).payload =
      a.flatMap putLenencStr ++ (putLenencStr t ++ b.flatMap putLenencStr) := by
    simp [Packet.payload]
  rw [hpayload, List.length_append, List.length_append]
  omega

/-- The first byte of a length: never the ERR marker, the OK marker only for zero, and the
EOF marker only in front of eight more bytes. -/
theorem head_putLenencInt (n : ℕ) : ∃ b s, putLenencInt n = b :: s ∧ b ≠ 0xff ∧
    (0 < n → b ≠ 0x00) ∧ (b = 0xfe → s.length = 8) := by
  unfold putLenencInt
  split_ifs with h1 h2 h3
  · have hb : (UInt8.ofNat n).toNat = n := by
      rw [UInt8.toNat_ofNat']
      omega
    have hne : ∀ m : UInt8, n ≠ m.toNat → UInt8.ofNat n ≠ m := by
      intro m hm he
      rw [he] at hb
      exact hm hb.symm
    have hval : (0xff : UInt8).toNat = 255 ∧ (0x00 : UInt8).toNat = 0 ∧
        (0xfe : UInt8).toNat = 254 := ⟨rfl, rfl, rfl⟩
    exact ⟨UInt8.ofNat n, [], rfl, hne _ (by omega), fun _ => hne _ (by omega),
      fun h => absurd h (hne _ (by omega))⟩
  · exact ⟨0xfc, le 2 n, rfl, by decide, fun _ => by decide, fun h => absurd h (by decide)⟩
  · exact ⟨0xfd, le 3 n, rfl, by decide, fun _ => by decide, fun h => absurd h (by decide)⟩
  · exact ⟨0xfe, le 8 n, rfl, by decide, fun _ => by decide, fun _ => by simp [le]⟩

namespace Client

/-- The name in a column definition. -/
theorem columnName_payload {name : Str} {wt : WireType} (h : len name < 2 ^ 64) :
    columnName (Packet.columnDef name wt).payload = some name := by
  obtain ⟨rest, hrest⟩ : ∃ rest, (Packet.columnDef name wt).payload =
      ["def".toList, "ethereal".toList, [], []].flatMap putLenencStr ++ (putLenencStr name ++ rest) := by
    refine ⟨putLenencStr name ++ putLenencInt 0x0c ++
      le 2 (if isNumber wt then 0x3f else 0x21) ++ le 4 (if isNumber wt then 20 else 1024) ++
      [mysqlType wt] ++ le 2 0 ++ [0] ++ le 2 0, ?_⟩
    simp only [Packet.payload, List.flatMap_cons, List.flatMap_nil, List.append_assoc,
      List.nil_append]
    rfl
  have hfour := many_flatMap (p := readLenencStr) (e := putLenencStr)
    (l := ["def".toList, "ethereal".toList, [], []])
    (fun t ht s => readLenencStr_put (by
      simp only [List.mem_cons, List.not_mem_nil, or_false] at ht
      rcases ht with rfl | rfl | rfl | rfl <;> decide) s) (putLenencStr name ++ rest)
  have hfour' : many readLenencStr 4 (Packet.columnDef name wt).payload =
      some (["def".toList, "ethereal".toList, [], []], putLenencStr name ++ rest) := by
    rw [hrest]
    exact hfour
  unfold columnName
  rw [hfour']
  simp only [Option.bind_eq_bind, Option.bind_some]
  rw [readLenencStr_put h]
  rfl

theorem row_payload {cells : List Str} (h : ∀ t ∈ cells, len t < 2 ^ 64) :
    row cells.length (Packet.row cells).payload = some cells := by
  have hmany := many_flatMap (p := readLenencStr) (e := putLenencStr) (l := cells)
    (fun t ht s => readLenencStr_put (h t ht) s) []
  rw [List.append_nil] at hmany
  rw [row, Packet.payload, hmany]
  rfl

/-- **No row is taken for an EOF or an ERR packet**, however long its first cell. -/
theorem row_not_marker {cells : List Str} (hne : cells ≠ []) :
    isEof (Packet.row cells).payload = false ∧ isErr (Packet.row cells).payload = false := by
  cases cells with
  | nil => exact absurd rfl hne
  | cons t ts =>
    obtain ⟨b, s, hb, hff, -, hfe⟩ := head_putLenencInt (len t)
    have hpayload : (Packet.row (t :: ts)).payload =
        b :: (s ++ Utf8.encode t ++ ts.flatMap putLenencStr) := by
      simp [Packet.payload, putLenencStr, hb]
    have hlong : b = 0xfe → ¬(Packet.row (t :: ts)).payload.length < 9 := by
      intro h
      have hs := hfe h
      rw [hpayload, List.length_cons, List.length_append, List.length_append]
      omega
    unfold isEof isErr
    rw [hpayload] at hlong ⊢
    constructor
    · rw [decide_eq_false_iff_not]
      rintro ⟨h, hlt⟩
      exact hlong (Option.some.inj h) hlt
    · rw [decide_eq_false_iff_not]
      exact fun h => hff (Option.some.inj h)

theorem isEof_eof : isEof Packet.eof.payload = true := by decide

/-- The rows of a result set. -/
theorem rows_payload {n : ℕ} (hn : n ≠ 0) {rs : List (List Str)} (hwidth : ∀ r ∈ rs, r.length = n)
    (hsize : ∀ r ∈ rs, (Packet.row r).payload.length < 2 ^ 24 - 1) (ps : List Bytes) :
    rows n (rs.map (fun r => (Packet.row r).payload) ++ Packet.eof.payload :: ps) =
      some (rs, ps) := by
  induction rs with
  | nil =>
    rw [List.map_nil, List.nil_append, rows, if_pos isEof_eof]
  | cons r rs ih =>
    have hr := hsize r (by simp)
    have hlen := hwidth r (by simp)
    have hne : r ≠ [] := by
      rintro rfl
      exact hn hlen.symm
    obtain ⟨heof, herr⟩ := row_not_marker hne
    have hcells : ∀ t ∈ r, len t < 2 ^ 64 := by
      intro t ht
      have hcell := len_of_mem_row ht
      omega
    have hrow := row_payload hcells
    rw [hlen] at hrow
    rw [List.map_cons, List.cons_append, rows, if_neg (by rw [heof]; decide),
      if_neg (by rw [herr]; decide), hrow,
      ih (fun q hq => hwidth q (by simp [hq])) (fun q hq => hsize q (by simp [hq]))]
    rfl

section ResultSet

variable {cols : List Resolved} {rs : List (List Str)}

/-- The payloads of a result set, one kind after another. -/
theorem payloads_resultSet (cols : List Resolved) (rs : List (List Str)) :
    (MySql.resultSet cols rs).map Packet.payload =
      putLenencInt cols.length :: (cols.map (fun c => (Packet.columnDef c.name c.wt).payload) ++
        Packet.eof.payload :: (rs.map (fun r => (Packet.row r).payload) ++
          [Packet.eof.payload])) := by
  simp only [MySql.resultSet, resultHeader, List.map_cons, List.map_append, List.map_nil,
    List.map_map, List.append_assoc, List.cons_append, List.nil_append]
  rfl

/-- **The count of some columns is taken for no other packet.** -/
theorem count_not_marker (hcols : cols ≠ []) :
    isOk (putLenencInt cols.length) = false ∧ isErr (putLenencInt cols.length) = false := by
  have hpos : 0 < cols.length := List.length_pos_iff.2 hcols
  obtain ⟨b, s, hb, hff, h00, -⟩ := head_putLenencInt cols.length
  exact ⟨by simp [isOk, hb, h00 hpos], by simp [isErr, hb, hff]⟩

variable (hcols : cols ≠ []) (hcount : cols.length < 2 ^ 64)
  (hwidth : ∀ r ∈ rs, r.length = cols.length)

include hcols hcount hwidth

/-- **A client reads back what a result set says.** -/
theorem resultSet_payloads
    (hsize : ∀ p ∈ MySql.resultSet cols rs, p.payload.length < 2 ^ 24 - 1) :
    resultSet ((MySql.resultSet cols rs).map Packet.payload) =
      some (⟨cols.map Resolved.name, rs⟩, []) := by
  have hpos : 0 < cols.length := List.length_pos_iff.2 hcols
  obtain ⟨hok, herr⟩ := count_not_marker hcols
  have hread := readLenencInt_put hcount []
  rw [List.append_nil] at hread
  -- the definitions are as many as the count says
  have hlen : (cols.map fun c => (Packet.columnDef c.name c.wt).payload).length = cols.length :=
    List.length_map _
  have hnames : (cols.map fun c => (Packet.columnDef c.name c.wt).payload).mapM columnName =
      some (cols.map Resolved.name) := by
    refine mapM_map_some ?_
    intro c hc
    refine columnName_payload ?_
    have hmem : Packet.columnDef c.name c.wt ∈ MySql.resultSet cols rs := by
      simp only [MySql.resultSet, resultHeader, List.mem_append, List.mem_cons, List.mem_map]
      exact Or.inl (Or.inl (Or.inl (Or.inr ⟨c, hc, rfl⟩)))
    have hdef := hsize _ hmem
    have hname := length_le_putLenencStr c.name
    simp only [Packet.payload, List.length_append] at hdef
    omega
  have hrows := rows_payload (n := cols.length) (by omega) hwidth
    (fun r hr => hsize (.row r) (by simp [MySql.resultSet, hr])) []
  rw [payloads_resultSet, resultSet, if_neg (by simp [hok, herr]), hread]
  simp only [Option.bind_eq_bind, Option.bind_some]
  rw [List.take_left' hlen, List.drop_left' hlen, hnames]
  simp [isEof_eof, hrows]

end ResultSet

end Client

/-! ## Framing -/

/-- A response on the wire: each packet in a frame, under the next sequence number. -/
theorem writePackets_eq (seq : UInt8) (ps : List Packet) : writePackets seq ps =
    (ps.mapIdx fun i p => (seq + UInt8.ofNat i, p.payload)).flatMap
      fun p => Frames.packet p.1 p.2 := by
  induction ps generalizing seq with
  | nil => rfl
  | cons p ps ih =>
    have hnext : ∀ i, seq + UInt8.ofNat (i + 1) = seq + 1 + UInt8.ofNat i := by
      intro i
      rw [UInt8.ofNat_add, UInt8.add_comm (UInt8.ofNat i), ← UInt8.add_assoc]
      rfl
    have hzero : seq + UInt8.ofNat 0 = seq := UInt8.add_zero seq
    rw [writePackets, ih, List.mapIdx_cons, List.flatMap_cons, hzero]
    simp only [hnext]
    rfl

/-- **`read_packet` reads one frame**: no length of three bytes is above `MAX_PACKET`. -/
theorem readPacket_eq (s : Bytes) :
    readPacket s = (Frames.read s).map fun p => ⟨p.1.2, p.1.1 + 1, p.2⟩ := by
  match s with
  | [] | [_] | [_, _] | [_, _, _] => rfl
  | b0 :: b1 :: b2 :: id :: s =>
    have hval : ofBe [b2, b1, b0] = b0.toNat + 256 * b1.toNat + 65536 * b2.toNat := by
      simp only [ofBe, List.foldl_cons, List.foldl_nil]
      omega
    have hle : ¬maxPacket < b0.toNat + 256 * b1.toNat + 65536 * b2.toNat := by
      have h0 := b0.toNat_lt
      have h1 := b1.toNat_lt
      have h2 := b2.toNat_lt
      have hmax : maxPacket = 67108864 := rfl
      omega
    have hread : Frames.read (b0 :: b1 :: b2 :: id :: s) =
        (takeN (ofBe [b2, b1, b0]) s).map fun p => ((id, p.1), p.2) := rfl
    rw [hread, hval, readPacket, if_neg hle, takeN]
    split_ifs <;> first | omega | rfl

theorem readPacket_writePacket {id : UInt8} {p : Bytes} (h : p.length < 2 ^ 24) (s : Bytes) :
    readPacket (writePacket id p ++ s) = some ⟨p, id + 1, s⟩ := by
  rw [readPacket_eq]
  have hread : Frames.read (Frames.packet id p ++ s) = some ((id, p), s) :=
    Frames.read_packet h s
  rw [show writePacket id p = Frames.packet id p from rfl, hread]
  rfl

/-! ## Responses -/

/-- The texts of `n` rows, as a generator draws them. -/
def textRows (cols : List Resolved) (g : Gen) (n : ℕ) (rng : C.Rng) : List (List Str) :=
  ((Pg.rowTexts g cols).times n rng).1.map (List.zipWith mysqlText cols)

theorem length_of_mem_textRows {cols : List Resolved} {g : Gen} {n : ℕ} {rng : C.Rng}
    {r : List Str} (h : r ∈ textRows cols g n rng) : r.length = cols.length := by
  obtain ⟨texts, htexts, rfl⟩ := List.mem_map.1 h
  obtain ⟨rng', rfl⟩ := Draw.mem_times htexts
  rw [List.length_zipWith, Pg.length_rowTexts, Nat.min_self]

@[simp] theorem length_textRows (cols : List Resolved) (g : Gen) (n : ℕ) (rng : C.Rng) :
    (textRows cols g n rng).length = n := by
  rw [textRows, List.length_map, Draw.length_times]

theorem times_textRow (cols : List Resolved) (g : Gen) (n : ℕ) (rng : C.Rng) :
    ((textRow cols g).times n rng).1 = (textRows cols g n rng).map .row := by
  have hmap := Pg.times_map (d := Pg.rowTexts g cols)
    (e := textRow cols g)
    (f := fun texts => .row (List.zipWith mysqlText cols texts)) (textRow_eq cols g) n rng
  rw [hmap, textRows, List.map_map]
  rfl

theorem crushStream_eq (cols : List Resolved) (cfg : Config) (sql : Str) (os : C.Rng) :
    crushStream cols cfg sql os = resultSet cols
      (textRows cols cfg.genCtx cfg.crush.maxRows (seedRng cfg (Utf8.encode sql) os)) := by
  unfold crushStream
  dsimp only
  rw [Pg.streamLoop_eq (Nat.zero_le _) (by omega), Nat.sub_zero, times_textRow]
  rfl

theorem normalRows_eq (shape : ResultShape) (cfg : Config) (rng : C.Rng) :
    (normalRows shape cfg rng).1 = resultSet (resolveCols shape cfg)
      (textRows (resolveCols shape cfg) cfg.genCtx (Pg.rowCount shape cfg rng).1
        (Pg.rowCount shape cfg rng).2) := by
  rw [mysql_normalRows_eq, times_textRow]
  rfl

/-- Whether a `SELECT` is crushed, given whether a slot is free. -/
def crushes (cfg : Config) (slot : Bool) (shape : ResultShape) : Bool :=
  match cfg.crushClass shape with
  | .crush _ => !cfg.crush.warnOnly && slot
  | _ => false

/-- The columns of a result set: those of the statement, or those that replace a star when it is
crushed. -/
def sentCols (cfg : Config) (slot : Bool) (shape : ResultShape) : List Resolved :=
  if crushes cfg slot shape ∧ shape.selectStar then
    wideCrushColumns.map fun n => Resolved.fromName n cfg.rules
  else resolveCols shape cfg

/-- The texts that the generators draw for them, row by row. -/
def drawnRows (cfg : Config) (slot : Bool) (os : C.Rng) (sql : Str) (shape : ResultShape) :
    List (List Str) :=
  let rng := seedRng cfg (Utf8.encode sql) os
  if crushes cfg slot shape then textRows (sentCols cfg slot shape) cfg.genCtx cfg.crush.maxRows rng
  else
    let n := Pg.rowCount shape cfg rng
    textRows (sentCols cfg slot shape) cfg.genCtx n.1 n.2

theorem sentCols_cases (cfg : Config) (slot : Bool) (shape : ResultShape) :
    sentCols cfg slot shape = resolveCols shape cfg ∨ shape.selectStar ∧
      sentCols cfg slot shape = wideCrushColumns.map fun n => Resolved.fromName n cfg.rules := by
  unfold sentCols
  split_ifs with h
  · exact .inr ⟨h.2, rfl⟩
  · exact .inl rfl

theorem drawnRows_eq (cfg : Config) (slot : Bool) (os : C.Rng) (sql : Str) (shape : ResultShape) :
    ∃ k, ∃ rng : C.Rng,
      drawnRows cfg slot os sql shape = textRows (sentCols cfg slot shape) cfg.genCtx k rng := by
  unfold drawnRows
  dsimp only
  split_ifs
  · exact ⟨_, _, rfl⟩
  · exact ⟨_, _, rfl⟩

theorem width_drawnRows (cfg : Config) (slot : Bool) (os : C.Rng) (sql : Str) (shape : ResultShape) :
    ∀ r ∈ drawnRows cfg slot os sql shape, r.length = (sentCols cfg slot shape).length := by
  obtain ⟨k, rng, hrows⟩ := drawnRows_eq cfg slot os sql shape
  rw [hrows]
  exact fun r hr => length_of_mem_textRows hr

/-- **Every `SELECT` is answered with a result set**, crushed or not. -/
theorem selectResponse_eq (cfg : Config) (slot : Bool) (os : C.Rng) (sql : Str) (shape : ResultShape) :
    selectResponse cfg slot os sql shape =
      resultSet (sentCols cfg slot shape) (drawnRows cfg slot os sql shape) := by
  have hnormal := normalRows_eq (C := C) shape cfg (seedRng cfg (Utf8.encode sql) os)
  unfold selectResponse drawnRows sentCols crushes
  cases cfg.crushClass shape with
  | safe => exact hnormal
  | warn sig => exact hnormal
  | crush sig =>
    dsimp only
    by_cases hslot : !cfg.crush.warnOnly ∧ slot
    · have hcrush : (!cfg.crush.warnOnly && slot) = true := by simpa using hslot
      rw [if_pos hslot, hcrush, crushStream_eq]
      simp only [true_and, if_true]
    · have hcalm : (!cfg.crush.warnOnly && slot) = false := by simpa using hslot
      rw [if_neg hslot, hcalm]
      exact hnormal

/-- A packet takes its header from the stream. -/
theorem length_readPacket {s : Bytes} {p : Received} (h : readPacket s = some p) :
    p.rest.length < s.length := by
  unfold readPacket at h
  split at h
  · dsimp only at h
    split_ifs at h
    obtain rfl := Option.some.inj h
    simp only [List.length_drop, List.length_cons]
    omega
  · cases h

/-- A query that the ghosts leave alone is run. -/
theorem answer_query {cfg : Config} {o : Outcome C} {text : Bytes} {ps : List Packet}
    (hghost : ¬(cfg.ghosts.haunting ∧ (o.crashed cfg ∨ o.dropped cfg ∨ o.errored cfg)))
    (h : runQuery cfg (o.slot 0) (o.os 0) (Utf8.fromUtf8Lossy text) = some ps) :
    answer cfg o (0x03 :: text) = .reply ps := by
  have hcrash : ¬(cfg.ghosts.haunting ∧ o.crashed cfg) := fun h => hghost ⟨h.1, .inl h.2⟩
  have hdrop : ¬(cfg.ghosts.haunting ∧ o.dropped cfg) := fun h => hghost ⟨h.1, .inr (.inl h.2)⟩
  have herror : ¬(cfg.ghosts.haunting ∧ o.errored cfg) := fun h => hghost ⟨h.1, .inr (.inr h.2)⟩
  rw [answer]
  simp only [if_neg hcrash, if_neg hdrop, if_neg herror, h]
  rfl

/-- What one turn of the command loop sends. -/
theorem turn_eq {cfg : Config} {o : Outcome C} {cmd : Bytes} {ps : List Packet}
    (hlen : cmd.length < 2 ^ 24) (hans : answer cfg o cmd = .reply ps) (id : UInt8) (rest : Bytes) :
    turn cfg o (writePacket id cmd ++ rest) = some (writePackets (id + 1) ps, rest) := by
  unfold turn
  simp only [readPacket_writePacket hlen, Option.bind_eq_bind, Option.bind_some, hans]
  rfl

/-- A client reads back a result set that is sent under consecutive sequence ids. -/
theorem response_resultSet {cols : List Resolved} {rows : List (List Str)} (hcols : cols ≠ [])
    (hcount : cols.length < 2 ^ 64) (hwidth : ∀ r ∈ rows, r.length = cols.length)
    (hsize : ∀ p ∈ resultSet cols rows, p.payload.length < 2 ^ 24 - 1) (id : UInt8) :
    Client.response (writePackets (id + 1) (resultSet cols rows)) =
      some ((List.range (resultSet cols rows).length).map (fun i => id + 1 + UInt8.ofNat i),
        ⟨cols.map Resolved.name, rows⟩) := by
  have hread : Frames.readAll (writePackets (id + 1) (resultSet cols rows)) =
      some ((resultSet cols rows).mapIdx fun i p => (id + 1 + UInt8.ofNat i, p.payload)) := by
    rw [writePackets_eq]
    refine Frames.readAll_packets ?_
    intro q hq
    obtain ⟨i, hi, rfl⟩ := List.mem_mapIdx.1 hq
    have hlt := hsize _ (List.getElem_mem hi)
    dsimp only
    omega
  have hids : ((resultSet cols rows).mapIdx fun i p => (id + 1 + UInt8.ofNat i, p.payload)).map
      Prod.fst = (List.range (resultSet cols rows).length).map fun i => id + 1 + UInt8.ofNat i := by
    apply List.ext_getElem
    · simp
    · simp
  have hpayloads : ((resultSet cols rows).mapIdx fun i p =>
      (id + 1 + UInt8.ofNat i, p.payload)).map Prod.snd =
        (resultSet cols rows).map Packet.payload := by
    apply List.ext_getElem
    · simp
    · simp
  unfold Client.response
  simp only [hread, Option.bind_eq_bind, Option.bind_some, hpayloads, hids,
    Client.resultSet_payloads hcols hcount hwidth hsize]
  rfl

/-- **Result sets decode.** A client reads back the names and the rows of a result set, and
nothing else, from packets with consecutive sequence ids. They start one past the id of the
command, and every `SELECT` is answered with such a result set. -/
theorem result_set_decodes {cols : List Resolved} {rows : List (List Str)} (hcols : cols ≠ [])
    (hcount : cols.length < 2 ^ 64) (hwidth : ∀ r ∈ rows, r.length = cols.length)
    (hsize : ∀ p ∈ resultSet cols rows, p.payload.length < 2 ^ 24 - 1) (id : UInt8) :
    Client.response (writePackets (id + 1) (resultSet cols rows)) =
      some ((List.range (resultSet cols rows).length).map (fun i => id + 1 + UInt8.ofNat i),
        ⟨cols.map Resolved.name, rows⟩) ∧
    (∀ (cfg : Config) (o : Outcome C) cmd rest, cmd.length < 2 ^ 24 →
      answer cfg o cmd = .reply (resultSet cols rows) →
      turn cfg o (writePacket id cmd ++ rest) =
        some (writePackets (id + 1) (resultSet cols rows), rest)) ∧
    ∀ (cfg : Config) slot (os : C.Rng) sql shape, ∃ cols rows,
      selectResponse cfg slot os sql shape = resultSet cols rows ∧
        ∀ r ∈ rows, r.length = cols.length := by
  refine ⟨response_resultSet hcols hcount hwidth hsize id,
    fun cfg o cmd rest hlen hans => turn_eq hlen hans id rest, ?_⟩
  intro cfg slot os sql shape
  exact ⟨_, _, selectResponse_eq cfg slot os sql shape, width_drawnRows cfg slot os sql shape⟩

/-- A result set of one number. -/
def oneNumber : List Resolved := [⟨"id", .idInt, .int4, none⟩]

theorem result_set_decodes_one :
    Client.response (writePackets 1 (resultSet oneNumber [["7"]])) =
      some ([1, 2, 3, 4, 5], ⟨["id"], [["7"]]⟩) := by
  have hsize : ∀ p ∈ resultSet oneNumber [["7"]], p.payload.length < 2 ^ 24 - 1 := by
    decide +kernel
  have hread := (@result_set_decodes Crates.least oneNumber [["7"]] (by decide) (by decide)
    (by decide) hsize 0).1
  have hlen : (resultSet oneNumber [["7"]]).length = 5 := rfl
  rw [hlen] at hread
  exact hread

/-! ## Payloads of any size -/

/-- A frame with a short payload is read as that payload. -/
theorem join_writePacket {id : UInt8} {p : Bytes} (h : p.length < 2 ^ 24 - 1) :
    Frames.join (writePacket id p) = some (p, []) := by
  have hjoin := @Frames.join_packet id p h []
  rwa [List.append_nil] at hjoin

/-- A frame with a longer one is not: its header leaves bytes out, or promises more. -/
theorem join_writePacket_ne {id : UInt8} {p : Bytes} (h : 2 ^ 24 - 1 ≤ p.length) :
    Frames.join (writePacket id p) ≠ some (p, []) := by
  intro hjoin
  have hlen : (writePacket id p).length = p.length + 4 := Frames.length_packet id p
  have hroom := Frames.room_le_of_join hjoin
  rw [Frames.room, if_pos (show Frames.full ≤ p.length from h), hlen, List.length_nil] at hroom
  omega

/-- `read_packet` stops after the first packet of a payload. -/
theorem readPacket_frame {id : UInt8} {p : Bytes} (h : 2 ^ 24 - 1 ≤ p.length) :
    readPacket (Frames.frame id p) =
      some ⟨p.take (2 ^ 24 - 1), id + 1, Frames.frame (id + 1) (p.drop (2 ^ 24 - 1))⟩ := by
  have htake : (p.take Frames.full).length < 2 ^ 24 := by
    have hfull : Frames.full < 2 ^ 24 := by decide
    rw [List.length_take]
    omega
  rw [Frames.frame_long h]
  exact readPacket_writePacket htake _

/-- **The framing is lossless exactly below `2^24 - 1` bytes.** There, a client that joins
continued packets reads each payload back, and `read_packet` reads a whole command; from
there on neither does. -/
theorem framing_iff (id : UInt8) (p : Bytes) :
    (Frames.join (writePacket id p) = some (p, []) ∧
      ∃ seq, readPacket (Frames.frame id p) = some ⟨p, seq, []⟩) ↔ p.length < 2 ^ 24 - 1 := by
  constructor
  · rintro ⟨hjoin, -⟩
    by_contra hlong
    exact join_writePacket_ne (by omega) hjoin
  · intro h
    refine ⟨join_writePacket h, id + 1, ?_⟩
    have hread : readPacket (writePacket id p ++ []) = some ⟨p, id + 1, []⟩ :=
      readPacket_writePacket (by omega) []
    rw [List.append_nil] at hread
    rw [Frames.frame_short h]
    exact hread

/-! ## A long name -/

theorem runQuery_single {cfg : Config} {sql stmt : Str} {shape : ResultShape}
    (hsplit : splitStatements sql = some [stmt]) (hshape : extract stmt = some shape)
    (hk : shape.kind = .select) (slot : Bool) (os : C.Rng) :
    runQuery cfg slot os sql = some (selectResponse cfg slot os stmt shape) := by
  unfold runQuery
  simp only [hsplit, hshape, hk, Option.bind_eq_bind, Option.bind_some, List.head?_cons,
    Option.getD_some]
  rfl

/-- `SELECT 1 AS "name" FROM t`. -/
def namedQuery (name : Str) (free : '"' ∉ name) : Query :=
  .ofItems [.expr (.int false "1" (by decide) (by decide)) none (some (.quoted name free))]
    (List.cons_ne_nil _ _)

theorem render_namedQuery (name : Str) (free : '"' ∉ name) :
    (namedQuery name free).render = "SELECT 1 AS \"".toList ++ (name ++ "\" FROM t".toList) := by
  have hitems : renderItems (namedQuery name free).items = "1 AS \"".toList ++ (name ++ ['"']) := rfl
  calc (namedQuery name free).render
      = "SELECT ".toList ++ (renderItems (namedQuery name free).items ++ " FROM t".toList) :=
        render_ofItems _ _
    _ = "SELECT 1 AS \"".toList ++ (name ++ "\" FROM t".toList) := by
        rw [hitems]
        simp

/-- A query with a quoted name is answered with a definition of a column of that name. -/
theorem columnDef_namedQuery {name : Str} (free : '"' ∉ name) (hsemi : ';' ∉ name) (cfg : Config)
    (slot : Bool) (os : C.Rng) :
    ∃ ps wt, runQuery cfg slot os (namedQuery name free).render = some ps ∧
      Packet.columnDef name wt ∈ ps := by
  have hsemi' : ';' ∉ (namedQuery name free).render := by
    rw [render_namedQuery]
    simp [hsemi]
  have hsplit := splitStatements_render _ rfl rfl hsemi'
  have hextract : extract (namedQuery name free).render = some (namedQuery name free).shape := by
    rw [extract_eq, shapeOf_render]
  have hset := selectResponse_eq cfg slot os (namedQuery name free).render (namedQuery name free).shape
  have hrun : runQuery cfg slot os (namedQuery name free).render = some (selectResponse cfg slot os
      (namedQuery name free).render (namedQuery name free).shape) :=
    runQuery_single hsplit hextract rfl slot os
  have hstar : (namedQuery name free).shape.selectStar = false := rfl
  rcases sentCols_cases cfg slot (namedQuery name free).shape with hcols | ⟨hstar', -⟩
  · let c := Resolved.fromSpec (.echo name "1" .int4) cfg.rules
    have hc : resolveCols (namedQuery name free).shape cfg = [c] := rfl
    refine ⟨_, c.wt, hrun, ?_⟩
    rw [hset, hcols, hc]
    exact List.mem_cons_of_mem _ (List.mem_cons_self ..)
  · rw [hstar] at hstar'
    cases hstar'

/-- The bytes of a definition are twice the name and a few more. -/
theorem length_columnDef (name : Str) (wt : WireType) :
    2 * len name < (Packet.columnDef name wt).payload.length ∧
      (Packet.columnDef name wt).payload.length ≤ 2 * len name + 60 := by
  have hput : (putLenencStr name).length ≤ len name + 9 := by
    have hint : (putLenencInt (len name)).length ≤ 9 := by
      unfold putLenencInt
      split_ifs <;> simp [le]
    rw [putLenencStr, List.length_append, Utf8.length_encode]
    omega
  have hlow := length_le_putLenencStr name
  have hconst : (putLenencStr "def").length = 4 ∧ (putLenencStr "ethereal").length = 9 ∧
      (putLenencStr "").length = 1 ∧ (putLenencInt 0x0c).length = 1 := by decide
  have hle : ∀ w n, (le w n).length = w := fun w n => by simp [le]
  simp only [Packet.payload, List.length_append, hle, List.length_singleton, hconst]
  omega

/-- The texts of one repeated letter. -/
theorem len_replicate (n : ℕ) : len (List.replicate n 'a') = n := by
  induction n with
  | zero => rfl
  | succ n ih =>
    rw [List.replicate_succ, len_cons, ih]
    exact Nat.add_comm _ _

/-- A name of eight million letters: `2 ^ 23`. -/
def longName : Str := List.replicate (2 ^ 23) 'a'

theorem longName_free {c : Char} (hc : c ≠ 'a') : c ∉ longName :=
  fun h => hc (List.eq_of_mem_replicate h)

/-- **A query below 16 MiB is answered with a payload that its frame loses**; and a command
of a full packet leaves its continuation to be read as the next command. -/
theorem framing_loses :
    (∃ ps wt, runQuery (C := Crates.least) Config.default false ()
        (namedQuery longName (longName_free (by decide))).render = some ps ∧
      Packet.columnDef longName wt ∈ ps ∧
      len (namedQuery longName (longName_free (by decide))).render + 1 < 2 ^ 24 ∧
      (Packet.columnDef longName wt).payload.length ≤ maxPacket ∧
      ∀ id, Frames.join (writePacket id (Packet.columnDef longName wt).payload) ≠
        some ((Packet.columnDef longName wt).payload, [])) ∧
    ∀ p : Bytes, p.length = 2 ^ 24 - 1 → ∀ id, ∃ rest, rest ≠ [] ∧
      readPacket (Frames.frame id p) = some ⟨p, id + 1, rest⟩ := by
  have hlen : len longName = 2 ^ 23 := len_replicate _
  refine ⟨?_, ?_⟩
  · obtain ⟨ps, wt, hrun, hmem⟩ := columnDef_namedQuery (C := Crates.least)
      (longName_free (by decide)) (longName_free (by decide)) Config.default false ()
    have hdef := length_columnDef longName wt
    have hmax : maxPacket = 67108864 := rfl
    refine ⟨ps, wt, hrun, hmem, ?_, by omega, fun id => join_writePacket_ne (by omega)⟩
    rw [render_namedQuery, len_append, len_append, hlen]
    decide
  · intro p hp id
    have htake : p.take (2 ^ 24 - 1) = p := List.take_of_length_le hp.le
    have hread : readPacket (Frames.frame id p) = some ⟨p.take (2 ^ 24 - 1), id + 1, _⟩ :=
      readPacket_frame hp.ge
    rw [htake] at hread
    refine ⟨_, ?_, hread⟩
    intro he
    have hlt := Frames.length_lt_frame (id + 1) (p.drop (2 ^ 24 - 1))
    rw [he] at hlt
    cases hlt

end EtherealDb.MySql
