import EtherealDb.Proof.MySqlWire
import EtherealDb.Proof.PgWire
import EtherealDb.Spec.Crush

/-!
# Crush streams

The rows and the keys of a crush stream are the items of a chunked stream (`Text.Streaming`),
with the generator as the state behind them.

* `streamRowsTo_quiet`, `streamRowsTo_fault`: `stream_rows` to its end, and to a write that
  fails.
* `streamRowsTo_streamRows`: on a socket that takes everything it is the plain stream.
* `crushKeysTo_quiet`: the keys of `crush_keys`, under their header.
* `crush_streams`: **chunks change nothing**: every maximum of rows or keys goes out, and a
  failed write is reported with the rows of the chunks before it.
-/

namespace EtherealDb

open Streaming

variable {C : Crates}

/-- Items that a generator draws one after another. -/
theorem items_times {α : Type} {d : Draw C α} {item : Draw C Bytes} {e : α → Bytes}
    (h : ∀ rng, item rng = (e (d rng).1, (d rng).2)) (n : ℕ) (rng : C.Rng) :
    items item n rng = ((d.times n rng).1.flatMap e, (d.times n rng).2) := by
  induction n generalizing rng with
  | zero => rfl
  | succ n ih =>
    rw [items, h, ih]
    rfl

/-! ## Postgres -/

namespace Pg

/-- **The bytes of `n` rows**, drawn one after another. -/
def rowBytes (cols : List Resolved) (formats : List ℤ) (g : Gen) (n : ℕ) (rng : C.Rng) : Bytes :=
  ((putDataRowFmt cols formats g).times n rng).1.flatMap (Backend.write [])

variable {cols : List Resolved} {formats : List ℤ} {g : Gen} {max : UInt64} {rng : C.Rng}
  {sock : Socket}

/-- One row as an item. -/
def rowItem (cols : List Resolved) (formats : List ℤ) (g : Gen) : Draw C Bytes := do
  return (← putDataRowFmt cols formats g).write []

theorem appends_putRow : Appends (putRow (C := C) cols formats g) (rowItem cols formats g) := by
  intro buf rng
  simp only [putRow, rowItem, Draw.bind_apply, Draw.pure_apply, write_eq buf, write_eq [],
    List.nil_append]

theorem items_rowItem (n : ℕ) (rng : C.Rng) : items (rowItem cols formats g) n rng =
    (rowBytes cols formats g n rng, ((putDataRowFmt cols formats g).times n rng).2) :=
  items_times (fun _ => rfl) n rng

/-- **`stream_rows` to its end**: all the rows and the tag. -/
theorem streamRowsTo_quiet (h : sock.Quiet) : streamRowsTo cols formats max rng g sock =
    some (.ok max.toNat, sock.after (rowBytes cols formats g max.toNat rng ++ commandTail max.toNat)
      (rounds crushChunk max.toNat + 1)) := by
  have hle : rounds crushChunk max.toNat ≤ max.toNat := rounds_le (by decide)
  unfold streamRowsTo
  rw [send_quiet appends_putRow max.toNat_lt (by decide) (fun _ _ => h _) (by omega)]
  simp only [Option.bind_eq_bind, Option.bind_some, items_rowItem]
  rw [(h.after _ _).writeAll, Socket.after_after]
  rfl

/-- **`stream_rows` to a write that fails**: the count is that of the chunks before it. -/
theorem streamRowsTo_fault {k n : ℕ} (hk : k * crushChunk < max.toNat) (h : sock.FaultAt k n) :
    ∃ chunk, chunk = rowBytes cols formats g (min crushChunk (max.toNat - k * crushChunk))
        ((putDataRowFmt cols formats g).times (k * crushChunk) rng).2 ∧
      streamRowsTo cols formats max rng g sock = some (.error (k * crushChunk), sock.after
        (rowBytes cols formats g (k * crushChunk) rng ++ chunk.take n) (k + 1)) := by
  have hle : k ≤ k * crushChunk := Nat.le_mul_of_pos_right _ (by decide)
  refine ⟨_, rfl, ?_⟩
  unfold streamRowsTo
  rw [send_fault appends_putRow max.toNat_lt (by decide) hk h (by omega)]
  simp only [Option.bind_eq_bind, Option.bind_some, items_rowItem]
  rfl

/-- On a socket that takes everything, `stream_rows` is the plain stream. -/
theorem streamRowsTo_streamRows (h : sock.Quiet) : ∃ n,
    streamRowsTo cols formats max rng g sock = some (.ok max.toNat,
      sock.after ((streamRows cols formats max.toNat g rng).1.flatMap (Backend.write [])) n) := by
  refine ⟨rounds crushChunk max.toNat + 1, ?_⟩
  rw [streamRowsTo_quiet h, streamRows_eq, List.flatMap_append, List.flatMap_singleton]
  rfl

end Pg

/-! ## Redis -/

namespace Resp

variable {cfg : Config} {sock : Socket}

/-- One key as an item. -/
def keyItem (cfg : Config) : Draw C Bytes := do return bulk (Utf8.encode (← fakeKey cfg.theme))

theorem appends_putKey : Appends (putKey (C := C) cfg) (keyItem cfg) := fun _ _ => rfl

theorem items_keyItem (n : ℕ) (rng : C.Rng) :
    items (keyItem cfg) n rng = bulks n (fakeKey cfg.theme) rng :=
  items_times (e := fun s => bulk (Utf8.encode s)) (fun _ => rfl) n rng

/-- Two loops of bulk strings in a row are one. -/
theorem bulks_add (d : Draw C Str) (m n : ℕ) (rng : C.Rng) : bulks (m + n) d rng =
    ((bulks m d rng).1 ++ (bulks n d (bulks m d rng).2).1, (bulks n d (bulks m d rng).2).2) := by
  have hstep : ∀ k rng, bulks k d rng =
      ((d.times k rng).1.flatMap fun s => bulk (Utf8.encode s), (d.times k rng).2) := fun _ _ => rfl
  rw [hstep, hstep, hstep, Draw.times_add, List.flatMap_append]

/-- The chunks of keys are the keys. -/
theorem crushChunks_eq {fuel left : ℕ} (h : left ≤ fuel) (rng : C.Rng) :
    crushChunks cfg fuel left rng = bulks left (fakeKey cfg.theme) rng := by
  induction fuel generalizing left rng with
  | zero =>
    obtain rfl : left = 0 := by omega
    rfl
  | succ fuel ih =>
    rw [crushChunks]
    by_cases hz : left = 0
    · subst hz
      rfl
    · have hthis : 0 < min crushChunk left := by unfold crushChunk; omega
      have hsplit : left = min crushChunk left + (left - min crushChunk left) := by omega
      have hadd := bulks_add (fakeKey (C := C) cfg.theme) (min crushChunk left)
        (left - min crushChunk left) rng
      rw [← hsplit] at hadd
      have hle : left - min crushChunk left ≤ fuel := by omega
      rw [if_neg hz, hadd]
      simp only [Draw.bind_apply, ih hle, Draw.pure_apply]

/-- **`crush_keys` sends a header and the keys that it declares.** -/
theorem crushKeys_eq (cfg : Config) (os : C.Rng) : crushKeys cfg os = arrayHeader cfg.crush.maxRows ++
    (bulks cfg.crush.maxRows (fakeKey cfg.theme) (seedRng cfg (Utf8.encode "KEYS *") os)).1 := by
  unfold crushKeys
  dsimp only
  rw [crushChunks_eq le_rfl]

/-- On a socket that takes everything, `crush_keys` is the plain stream of keys. -/
theorem crushKeysTo_quiet (hmax : cfg.crush.maxRows < 2 ^ 64) (h : sock.Quiet) (os : C.Rng) :
    crushKeysTo cfg os sock = some (true, sock.after (crushKeys cfg os)
      (1 + rounds crushChunk cfg.crush.maxRows)) := by
  have hle : rounds crushChunk cfg.crush.maxRows ≤ cfg.crush.maxRows := rounds_le (by decide)
  unfold crushKeysTo
  simp only [h.writeAll, if_true]
  rw [send_quiet appends_putKey hmax (by decide) (fun _ _ => h.after _ 1 _) (by omega)]
  simp only [Option.bind_eq_bind, Option.bind_some, items_keyItem]
  rw [Socket.after_after, crushKeys_eq]
  rfl

end Resp

/-! ## All three -/

/-- **Chunks change nothing.** Let `stream_rows` be called with any maximum of rows, columns,
format codes and generator, and let the configuration have that maximum too.

While writes succeed, `stream_rows` sends the rows one after another and the tag of as many,
and returns their number. When the write of the chunk after `k` others fails, it returns the
number of rows in those `k`, and they are out in full. The crush stream of MySQL has that many
rows between its two EOFs, and the one of Redis has as many bulk strings as its header says,
on a socket as well. -/
theorem crush_streams (max : UInt64) (cols : List Resolved) (formats : List ℤ) (g : Gen)
    (rng : C.Rng) {cfg : Config} (hmax : cfg.crush.maxRows = max.toNat) (sql : Str) (os : C.Rng) :
    (∀ sock : Socket, sock.Quiet → ∃ calls,
      Pg.streamRowsTo cols formats max rng g sock = some (.ok max.toNat, sock.after
        (Pg.rowBytes cols formats g max.toNat rng ++
          Pg.Backend.write [] (.commandComplete (Pg.selectTag max.toNat))) calls)) ∧
    (∀ (sock : Socket) (k n : ℕ), k * crushChunk < max.toNat → sock.FaultAt k n →
      ∃ chunk, chunk = Pg.rowBytes cols formats g (min crushChunk (max.toNat - k * crushChunk))
          ((Pg.putDataRowFmt cols formats g).times (k * crushChunk) rng).2 ∧
        Pg.streamRowsTo cols formats max rng g sock = some (.error (k * crushChunk), sock.after
          (Pg.rowBytes cols formats g (k * crushChunk) rng ++ chunk.take n) (k + 1))) ∧
    (∃ rows : List (List Str), rows.length = max.toNat ∧
      MySql.crushStream cols cfg sql os =
        .columnCount cols.length :: cols.map (fun c => .columnDef c.name c.wt) ++ [.eof] ++
          rows.map .row ++ [.eof]) ∧
    ∃ keys : List Bytes, keys.length = max.toNat ∧
      Resp.crushKeys cfg os = Resp.arrayHeader max.toNat ++ keys.flatMap Resp.bulk ∧
      ∀ sock : Socket, sock.Quiet → ∃ calls,
        Resp.crushKeysTo cfg os sock = some (true, sock.after (Resp.crushKeys cfg os) calls) := by
  refine ⟨fun sock h => ⟨_, Pg.streamRowsTo_quiet h⟩,
    fun sock k n hk h => Pg.streamRowsTo_fault hk h, ?_, ?_⟩
  · refine ⟨_, ?_, MySql.crushStream_eq cols cfg sql os⟩
    rw [MySql.length_textRows, hmax]
  · let keys := (Resp.fakeKey (C := C) cfg.theme).times max.toNat
      (seedRng cfg (Utf8.encode "KEYS *") os)
    refine ⟨keys.1.map Utf8.encode, ?_, ?_, fun sock h =>
      ⟨_, Resp.crushKeysTo_quiet (hmax ▸ max.toNat_lt) h os⟩⟩
    · rw [List.length_map, Draw.length_times]
    · rw [Resp.crushKeys_eq, hmax, List.flatMap_map]
      rfl

/-- A key and a price, the price in binary, on a socket that fails with the second chunk. -/
theorem crush_streams_fault : Config.default.crush.maxRows = (5000000 : UInt64).toNat ∧
    (Pg.streamRowsTo (C := .least) [⟨"id", .idInt, .int8, none⟩, ⟨"price", .money, .float8, none⟩] [0, 1]
      5000000 () ⟨genericTheme, 0⟩ ⟨[], 0, fun i => if i = 1 then some 3 else none⟩).map (·.1) =
        some (.error 1000) := by
  have hmax : Config.default.crush.maxRows = (5000000 : UInt64).toNat := by decide
  refine ⟨hmax, ?_⟩
  obtain ⟨chunk, -, h⟩ := (crush_streams (C := .least) 5000000
    [⟨"id", .idInt, .int8, none⟩, ⟨"price", .money, .float8, none⟩] [0, 1] ⟨genericTheme, 0⟩ ()
    hmax [] ()).2.1 ⟨[], 0, fun i => if i = 1 then some 3 else none⟩ 1 3
    (by decide) ⟨by decide, rfl⟩
  rw [h]
  rfl

end EtherealDb
