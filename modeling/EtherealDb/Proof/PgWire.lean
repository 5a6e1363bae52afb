import EtherealDb.Proof.PgAnswer
import EtherealDb.Proof.Recover
import EtherealDb.Spec.PgClient

/-!
# Postgres messages on the wire

* `putMsg_eq`: a message is appended whole, whatever the buffer holds.
* `messages_decode`: **a client reads back the messages of a buffer**, the columns of a
  RowDescription and the cells of a DataRow.
-/

namespace EtherealDb.Pg

open Str
open Resp2 (many many_map length_many)

variable {C : Crates}

/-! ## Messages in a buffer -/

/-- **The length is patched where the message begins**: a body that only appends is framed
after whatever the buffer held. -/
theorem putMsg_eq {body : Bytes → Bytes} {w : Bytes} (h : ∀ buf, body buf = buf ++ w)
    (buf : Bytes) (tag : UInt8) :
    putMsg buf tag body = buf ++ (tag :: be 4 (w.length + 4) ++ w) := by
  have hplace : (beInt 4 0).length = 4 := length_beInt 4 0
  have hlen : (buf ++ [tag] ++ beInt 4 0 ++ w).length - (buf ++ [tag]).length = w.length + 4 := by
    simp only [List.length_append, hplace]
    omega
  have hgrown : buf ++ [tag] ++ beInt 4 0 ++ w = (buf ++ [tag]) ++ (beInt 4 0 ++ w) := by
    rw [List.append_assoc]
  unfold putMsg overwrite
  simp only [h, hlen, length_be]
  rw [hgrown, List.take_left, ← List.drop_drop, List.drop_left, List.drop_left' hplace]
  simp

theorem write_eq (buf : Bytes) (m : Backend) :
    m.write buf = buf ++ (m.tagByte :: be 4 (m.body.length + 4) ++ m.body) :=
  putMsg_eq (fun _ => rfl) buf m.tagByte

namespace Client

theorem message_append {m : Backend} (h : m.body.length < 2 ^ 31 - 4) (s : Bytes) :
    message (m.tagByte :: be 4 (m.body.length + 4) ++ m.body ++ s) =
      some ((m.tagByte, m.body), s) := by
  have hread : readInt 4 (be 4 (m.body.length + 4) ++ (m.body ++ s)) =
      some (((m.body.length + 4 : ℕ) : ℤ), m.body ++ s) := readInt_be_of_lt (by omega) _
  have hnat : (((m.body.length + 4 : ℕ) : ℤ) - 4).toNat = m.body.length := by omega
  have hge : ¬((m.body.length + 4 : ℕ) : ℤ) < 4 := by omega
  rw [List.cons_append, List.cons_append, List.append_assoc, message, hread]
  simp only [Option.bind_eq_bind, Option.bind_some, if_neg hge, hnat, takeN_append]
  rfl

/-- **Messages are read back in turn.** -/
theorem messages_append {ms : List Backend} (h : ∀ m ∈ ms, m.body.length < 2 ^ 31 - 4) :
    messages (ms.flatMap fun m => m.tagByte :: be 4 (m.body.length + 4) ++ m.body) =
      some (ms.map fun m => (m.tagByte, m.body)) := by
  unfold messages
  exact toEnd_flatMap (fun m : Backend => (m.tagByte, m.body)) (fun m hm s => message_append (h m hm) s)
    fun m _ => List.cons_ne_nil m.tagByte _

/-! ## Columns -/

/-- What a client should read of a column. -/
def columnOf (f : Field) : Column := ⟨Utf8.encode f.name, f.oid⟩

/-- After the name of a field, the type is read back. -/
theorem field_after {f : Field} (hoid : f.oid < 2 ^ 32) {s r name : Bytes}
    (hname : takeNul s = some (name, beInt 4 0 ++ (beInt 2 0 ++ (be 4 f.oid ++ (beInt 2 (-1) ++
      (beInt 4 (-1) ++ (beInt 2 f.format ++ r))))))) : field s = some (⟨name, f.oid⟩, r) := by
  have htable := readNat_of_length (length_beInt 4 0)
  have hattr := readInt_of_length (length_beInt 2 0)
  have hread : ∀ s, readNat 4 (be 4 f.oid ++ s) = some (f.oid, s) := readNat_be (w := 4) hoid
  have hlen := readInt_of_length (length_beInt 2 (-1))
  have hmod := readInt_of_length (length_beInt 4 (-1))
  have hformat := readInt_of_length (length_beInt 2 f.format)
  unfold field
  simp only [hname, Option.bind_eq_bind, Option.bind_some, htable, hattr, hread, hlen,
    hmod, hformat]
  rfl

/-- A field is its name, a NUL, and what stands after the name. -/
theorem encode_append (f : Field) (r : Bytes) :
    f.encode ++ r = Utf8.encode f.name ++ 0 :: (beInt 4 0 ++ (beInt 2 0 ++ (be 4 f.oid ++
      (beInt 2 (-1) ++ (beInt 4 (-1) ++ (beInt 2 f.format ++ r)))))) := by
  rw [Field.encode, cstr]
  generalize beInt 4 0 = a, beInt 2 0 = b, beInt 2 (-1) = c, beInt 4 (-1) = d
  simp only [List.append_assoc, List.cons_append, List.nil_append]

theorem field_encode {f : Field} (hoid : f.oid < 2 ^ 32) (hname : '\x00' ∉ f.name) (r : Bytes) :
    field (f.encode ++ r) = some (columnOf f, r) := by
  have hzero : (0 : UInt8) ∉ Utf8.encode f.name := fun h => hname (Utf8.zero_mem_encode.1 h)
  refine field_after hoid ?_
  rw [encode_append]
  exact takeNul_append hzero _

/-- A count is read back modulo `2 ^ 16`, when that is not negative. -/
theorem count_be (n : ℕ) (s : Bytes) :
    count (be 2 n ++ s) = if n % 65536 < 32768 then some (n % 65536, s) else none := by
  have hval : (n : ℤ).bmod (256 ^ 2) =
      if n % 65536 < 32768 then ((n % 65536 : ℕ) : ℤ) else ((n % 65536 : ℕ) : ℤ) - 65536 := by
    have hpow : 256 ^ 2 = 65536 := rfl
    rw [hpow, Int.bmod_def]
    split_ifs <;> omega
  unfold count
  rw [readInt_be, hval]
  simp only [Option.bind_eq_bind, Option.bind_some]
  by_cases h : n % 65536 < 32768
  · rw [if_pos h, if_pos h, if_neg (by omega), Int.toNat_natCast]
  · rw [if_neg h, if_neg h, if_pos (by omega)]

theorem count_be_of_lt {n : ℕ} (h : n < 32768) (s : Bytes) : count (be 2 n ++ s) = some (n, s) := by
  have hmod : n % 65536 = n := Nat.mod_eq_of_lt (by omega)
  rw [count_be, hmod, if_pos h]

/-- A field whose name is read back has no NUL in it. -/
theorem name_of_field {s r : Bytes} {c : Column} (h : field s = some (c, r)) : 0 ∉ c.name := by
  obtain ⟨⟨name, t⟩, hname, h⟩ := Option.bind_eq_some_iff.1 h
  obtain ⟨p₁, -, h⟩ := Option.bind_eq_some_iff.1 h
  obtain ⟨p₂, -, h⟩ := Option.bind_eq_some_iff.1 h
  obtain ⟨p₃, -, h⟩ := Option.bind_eq_some_iff.1 h
  obtain ⟨p₄, -, h⟩ := Option.bind_eq_some_iff.1 h
  obtain ⟨p₅, -, h⟩ := Option.bind_eq_some_iff.1 h
  obtain ⟨p₆, -, h⟩ := Option.bind_eq_some_iff.1 h
  obtain ⟨rfl, -⟩ := Prod.mk.inj (Option.some.inj h)
  exact takeNul_some hname

/-- Names that are read back one after another have no NUL in them. -/
theorem names_of_many {fields : List Field} (hoid : ∀ f ∈ fields, f.oid < 2 ^ 32) {s r : Bytes}
    (h : many field fields.length (fields.flatMap Field.encode ++ s) =
      some (fields.map columnOf, r)) : ∀ f ∈ fields, '\x00' ∉ f.name := by
  induction fields with
  | nil => simp
  | cons f fields ih =>
    rw [List.flatMap_cons, List.append_assoc] at h
    obtain ⟨⟨c, t⟩, hfirst, h⟩ := Option.bind_eq_some_iff.1 h
    obtain ⟨⟨l, t'⟩, hrest, he⟩ := Option.map_eq_some_iff.1 h
    obtain ⟨hlist, rfl⟩ := Prod.mk.inj he
    obtain ⟨rfl, rfl⟩ := List.cons.inj hlist
    have hname : '\x00' ∉ f.name :=
      fun hmem => name_of_field hfirst (Utf8.zero_mem_encode.2 hmem)
    -- so the reader stands where the next field begins
    rw [field_encode (hoid f (by simp)) hname] at hfirst
    obtain ⟨-, rfl⟩ := Prod.mk.inj (Option.some.inj hfirst)
    intro g hg
    rcases List.mem_cons.1 hg with rfl | hg
    · exact hname
    · exact ih (fun g hg => hoid g (by simp [hg])) hrest g hg

/-- **The columns of a RowDescription are read back** exactly when a signed count can tell
their number and no name is cut by a NUL. -/
theorem rowDescription_iff {fields : List Field} (hoid : ∀ f ∈ fields, f.oid < 2 ^ 32) :
    rowDescription (Backend.rowDescription fields).body = some (fields.map columnOf) ↔
      fields.length < 32768 ∧ ∀ f ∈ fields, '\x00' ∉ f.name := by
  unfold rowDescription
  rw [Backend.body, count_be]
  constructor
  · intro h
    by_cases hmod : fields.length % 65536 < 32768
    · rw [if_pos hmod] at h
      simp only [Option.bind_eq_bind, Option.bind_some] at h
      obtain ⟨⟨l, r⟩, hmany, he⟩ := Option.bind_eq_some_iff.1 h
      dsimp only at hmany he
      split_ifs at he with hr
      obtain rfl := Option.some.inj he
      have hlen := length_many hmany
      rw [List.length_map] at hlen
      rw [← hlen] at hmany hmod
      rw [← List.append_nil (fields.flatMap Field.encode)] at hmany
      exact ⟨hmod, names_of_many hoid hmany⟩
    · rw [if_neg hmod] at h
      cases h
  · rintro ⟨hcount, hnames⟩
    have hmod : fields.length % 65536 = fields.length := Nat.mod_eq_of_lt (by omega)
    have hmany := many_map (l := fields) (fun f hf => field_encode (hoid f hf) (hnames f hf)) []
    rw [List.append_nil] at hmany
    rw [hmod, if_pos hcount]
    simp only [Option.bind_eq_bind, Option.bind_some, hmany, if_true]

/-! ## Cells -/

theorem cell_append {b : Bytes} (h : b.length < 2 ^ 31) (r : Bytes) :
    cell (be 4 b.length ++ b ++ r) = some (some b, r) := by
  have hread : readInt 4 (be 4 b.length ++ (b ++ r)) = some ((b.length : ℤ), b ++ r) :=
    readInt_be_of_lt (by omega) _
  have hone : (b.length : ℤ) ≠ -1 := by omega
  have hneg : ¬(b.length : ℤ) < 0 := by omega
  rw [List.append_assoc, cell, hread]
  simp only [Option.bind_eq_bind, Option.bind_some, if_neg hone, if_neg hneg, Int.toNat_natCast,
    takeN_append]
  rfl

theorem length_le_dataRow {cells : List Cell} {c : Cell} (h : c ∈ cells) :
    c.bytes.length ≤ (Backend.dataRow cells).body.length := by
  obtain ⟨a, b, rfl⟩ := List.append_of_mem h
  simp only [Backend.body, List.flatMap_append, List.flatMap_cons, List.length_append]
  omega

/-- **The cells of a DataRow are read back.** -/
theorem dataRow_body {cells : List Cell} (hcount : cells.length < 32768)
    (hsize : (Backend.dataRow cells).body.length < 2 ^ 31) :
    dataRow (Backend.dataRow cells).body = some (cells.map fun c => some c.bytes) := by
  have hcell : ∀ c ∈ cells, ∀ r, cell (be 4 c.bytes.length ++ c.bytes ++ r) =
      some (some c.bytes, r) := by
    intro c hc r
    have hlen := length_le_dataRow hc
    exact cell_append (by omega) r
  have hmany := many_map hcell []
  rw [List.append_nil] at hmany
  rw [dataRow, Backend.body, count_be_of_lt hcount]
  simp only [Option.bind_eq_bind, Option.bind_some, hmany, if_true]

end Client

theorem foldl_write (buf : Bytes) (ms : List Backend) :
    ms.foldl Backend.write buf =
      buf ++ ms.flatMap fun m => m.tagByte :: be 4 (m.body.length + 4) ++ m.body := by
  induction ms generalizing buf with
  | nil => simp
  | cons m ms ih => rw [List.foldl_cons, ih, write_eq, List.flatMap_cons, List.append_assoc]

theorem oid_lt (wt : WireType) : oid wt < 2 ^ 32 := by cases wt <;> decide

/-- The bytes of the cells of a row: binary where the format code says so. -/
def cellBytes (formats : List ℤ) (cols : List Resolved) (texts : List Str) : List Bytes :=
  (cols.zip texts).mapIdx fun i ct =>
    if formatFor formats i = 1 then textToBinary ct.1.wt ct.2 else Utf8.encode ct.2

theorem putTexts_bytes (formats : List ℤ) (i : ℕ) (cols : List Resolved) (texts : List Str) :
    (putTexts formats i cols texts).map Cell.bytes = (cols.zip texts).mapIdx fun j ct =>
      if formatFor formats (i + j) = 1 then textToBinary ct.1.wt ct.2 else Utf8.encode ct.2 := by
  induction cols generalizing i texts with
  | nil => rfl
  | cons c cols ih =>
    cases texts with
    | nil => rfl
    | cons t texts =>
      have hcell : (putCell formats i c t).bytes =
          if formatFor formats i = 1 then textToBinary c.wt t else Utf8.encode t := by
        unfold putCell
        split_ifs <;> rfl
      rw [putTexts, List.map_cons, ih, hcell, List.zip_cons_cons, List.mapIdx_cons]
      simp only [Nat.add_zero, Nat.add_assoc, Nat.add_comm 1]

/-- **Backend framing.** The messages put into a buffer one after another are read back with
nothing left over; so are the columns of a RowDescription of at most 32767 names without a
NUL, and the cells of such a DataRow, each in the format that was asked for. -/
theorem messages_decode :
    (∀ (buf : Bytes) (ms : List Backend), (∀ m ∈ ms, m.body.length < 2 ^ 31 - 4) →
      ∃ out, ms.foldl Backend.write buf = buf ++ out ∧
        Client.messages out = some (ms.map fun m => (m.tagByte, m.body))) ∧
    (∀ cols : List Resolved, cols.length ≤ 32767 → (∀ c ∈ cols, '\x00' ∉ c.name) →
      Client.rowDescription (putRowDescription cols).body =
        some (cols.map fun c => ⟨Utf8.encode c.name, oid c.wt⟩)) ∧
    ∀ (cols : List Resolved) formats g (rng : C.Rng), cols.length ≤ 32767 →
      (putDataRowFmt cols formats g rng).1.body.length < 2 ^ 31 - 4 →
      Client.dataRow (putDataRowFmt cols formats g rng).1.body =
        some ((cellBytes formats cols (rowTexts g cols rng).1).map some) := by
  refine ⟨?_, ?_, ?_⟩
  · intro buf ms hms
    exact ⟨_, foldl_write buf ms, Client.messages_append hms⟩
  · intro cols hcount hnames
    have hoid : ∀ f ∈ cols.map (fun c => (⟨c.name, oid c.wt, 0⟩ : Field)), f.oid < 2 ^ 32 := by
      intro f hf
      obtain ⟨c, -, rfl⟩ := List.mem_map.1 hf
      exact oid_lt c.wt
    have hcols := (Client.rowDescription_iff hoid).2 ⟨by rw [List.length_map]; omega, by
      intro f hf
      obtain ⟨c, hc, rfl⟩ := List.mem_map.1 hf
      exact hnames c hc⟩
    rw [List.map_map] at hcols
    exact hcols
  · intro cols formats g rng hcount hsize
    rw [putDataRowFmt_eq] at hsize ⊢
    have hlen : (putTexts formats 0 cols (rowTexts g cols rng).1).length = cols.length :=
      length_putTexts 0 (length_rowTexts cols rng)
    dsimp only at hsize ⊢
    have hcells := Client.dataRow_body (by omega) (lt_trans hsize (by decide))
    have hbytes := putTexts_bytes formats 0 cols (rowTexts g cols rng).1
    simp only [Nat.zero_add] at hbytes
    rw [hcells, cellBytes, ← hbytes, List.map_map]
    rfl

theorem messages_decode_two :
    Client.messages ([.parseComplete, .commandComplete "SELECT 1"].foldl Backend.write []) =
      some [(49, []), (67, cstr "SELECT 1")] := by
  have hsize : ∀ m ∈ [Backend.parseComplete, .commandComplete "SELECT 1"],
      m.body.length < 2 ^ 31 - 4 := by
    simp only [List.forall_mem_cons]
    decide
  obtain ⟨out, hout, hread⟩ := (messages_decode (C := Crates.least)).1 [] _ hsize
  rw [hout]
  exact hread

end EtherealDb.Pg
