import EtherealDb.Text.Checked
import EtherealDb.Text.Wire

/-!
# Streaming in chunks

A stream of `max` items goes to a socket in chunks of `size`, through one buffer that is
cleared before each of them. The state behind the items goes through both loops.

* `send_full`: **step lemma**: full chunks that are written leave the loop further on.
* `send_quiet`: while writes succeed, the loop writes every item and counts `max`.
* `send_fault`: a write that fails ends it with the count of the chunks before.
-/

namespace EtherealDb.Streaming

/-! ## Sockets -/

/-- A socket that is written to: the bytes that are out, the number of calls so far, and
which calls fail, each with the number of bytes that get out before it does. -/
structure Socket where
  written : Bytes
  calls : ℕ
  fault : ℕ → Option ℕ

/-- `write_all`: whether it succeeds. -/
def Socket.writeAll (bs : Bytes) (sock : Socket) : Bool × Socket :=
  match sock.fault sock.calls with
  | none => (true, { sock with written := sock.written ++ bs, calls := sock.calls + 1 })
  | some n => (false, { sock with written := sock.written ++ bs.take n, calls := sock.calls + 1 })

/-- The socket after `n` calls that wrote some bytes. -/
def Socket.after (sock : Socket) (bs : Bytes) (n : ℕ) : Socket :=
  { sock with written := sock.written ++ bs, calls := sock.calls + n }

/-- No call fails. -/
def Socket.Quiet (sock : Socket) : Prop := ∀ n, sock.fault n = none

/-- The `k`-th call from now on is the first that fails, after `n` bytes. -/
def Socket.FaultAt (sock : Socket) (k n : ℕ) : Prop :=
  (∀ i < k, sock.fault (sock.calls + i) = none) ∧ sock.fault (sock.calls + k) = some n

@[simp] theorem Socket.after_calls (sock : Socket) (bs : Bytes) (n : ℕ) :
    (sock.after bs n).calls = sock.calls + n := rfl

@[simp] theorem Socket.after_fault (sock : Socket) (bs : Bytes) (n : ℕ) :
    (sock.after bs n).fault = sock.fault := rfl

theorem Socket.after_after (sock : Socket) (a b : Bytes) (m n : ℕ) :
    (sock.after a m).after b n = sock.after (a ++ b) (m + n) := by
  simp [Socket.after, Nat.add_assoc]

theorem Socket.writeAll_of {sock : Socket} (h : sock.fault sock.calls = none) (bs : Bytes) :
    sock.writeAll bs = (true, sock.after bs 1) := by
  rw [Socket.writeAll, h]
  rfl

theorem Socket.writeAll_fault {sock : Socket} {n : ℕ} (h : sock.fault sock.calls = some n)
    (bs : Bytes) : sock.writeAll bs = (false, sock.after (bs.take n) 1) := by
  rw [Socket.writeAll, h]
  rfl

theorem Socket.Quiet.after {sock : Socket} (h : sock.Quiet) (bs : Bytes) (n : ℕ) :
    (sock.after bs n).Quiet := h

theorem Socket.Quiet.writeAll {sock : Socket} (h : sock.Quiet) (bs : Bytes) :
    sock.writeAll bs = (true, sock.after bs 1) := writeAll_of (h _) bs

/-! ## Items -/

variable {σ : Type*}

/-- The bytes of `n` items, one after another, and the state behind them. -/
def items (item : σ → Bytes × σ) : ℕ → σ → Bytes × σ
  | 0, s => ([], s)
  | n + 1, s =>
    let a := item s
    let rest := items item n a.2
    (a.1 ++ rest.1, rest.2)

/-- A loop that puts `n` items into a buffer. -/
def fill (put : Bytes → σ → Bytes × σ) : ℕ → Bytes → σ → Bytes × σ
  | 0, buf, s => (buf, s)
  | n + 1, buf, s =>
    let a := put buf s
    fill put n a.1 a.2

/-- What is put goes to the end of the buffer. -/
def Appends (put : Bytes → σ → Bytes × σ) (item : σ → Bytes × σ) : Prop :=
  ∀ buf s, put buf s = (buf ++ (item s).1, (item s).2)

variable {put : Bytes → σ → Bytes × σ} {item : σ → Bytes × σ}

theorem fill_eq (h : Appends put item) (n : ℕ) (buf : Bytes) (s : σ) :
    fill put n buf s = (buf ++ (items item n s).1, (items item n s).2) := by
  induction n generalizing buf s with
  | zero => simp [fill, items]
  | succ n ih => simp only [fill, items, h buf s, ih, List.append_assoc]

/-- **Two runs of items are one.** -/
theorem items_add (item : σ → Bytes × σ) (m n : ℕ) (s : σ) : items item (m + n) s =
    ((items item m s).1 ++ (items item n (items item m s).2).1,
      (items item n (items item m s).2).2) := by
  induction m generalizing s with
  | zero => simp [items]
  | succ m ih =>
    rw [Nat.add_right_comm]
    simp only [items, ih, List.append_assoc]

/-! ## The loop -/

/-- The loop that sends chunks, with `sent` items behind it: the count it ends with, as an
error when a write failed. An overflow is `none`, and so is a round too many. -/
def send (put : Bytes → σ → Bytes × σ) (size bound max : ℕ) :
    ℕ → ℕ → σ → Socket → Option (Except ℕ ℕ × Socket)
  | 0, _, _, _ => none
  | fuel + 1, sent, s, sock => do
    if sent < max then
      let this := min size (← Checked.sub max sent)
      -- the buffer has been cleared
      let chunk := fill put this [] s
      let w := sock.writeAll chunk.1
      if w.1 then
        let sent ← Checked.add bound sent this
        send put size bound max fuel sent chunk.2 w.2
      else return (.error sent, w.2)
    else return (.ok sent, sock)

variable {size bound max fuel sent : ℕ} {s : σ} {sock : Socket}

theorem send_done : send put size bound max (fuel + 1) max s sock = some (.ok max, sock) := by
  rw [send, if_neg (Nat.lt_irrefl max)]
  rfl

/-- A round whose write succeeds. -/
theorem send_round (h : Appends put item) (hb : max < bound) (hlt : sent < max)
    (hok : sock.fault sock.calls = none) :
    send put size bound max (fuel + 1) sent s sock =
      send put size bound max fuel (sent + min size (max - sent))
        (items item (min size (max - sent)) s).2
        (sock.after (items item (min size (max - sent)) s).1 1) := by
  have hadd : sent + min size (max - sent) < bound := by omega
  rw [send, if_pos hlt, Checked.sub_of hlt.le]
  simp only [Option.bind_eq_bind, Option.bind_some, fill_eq h, List.nil_append,
    Socket.writeAll_of hok, if_true, Checked.add_of hadd]

/-- **Full chunks that are written** leave the loop where their items end. -/
theorem send_full (h : Appends put item) (hb : max < bound) (k : ℕ)
    (hk : sent + k * size ≤ max) (hsize : 0 < size)
    (hok : ∀ i < k, sock.fault (sock.calls + i) = none) :
    send put size bound max (fuel + k) sent s sock =
      send put size bound max fuel (sent + k * size) (items item (k * size) s).2
        (sock.after (items item (k * size) s).1 k) := by
  induction k generalizing sent s sock with
  | zero => simp [items, Socket.after]
  | succ k ih =>
    have hmul : (k + 1) * size = size + k * size := by rw [Nat.succ_mul, Nat.add_comm]
    have hthis : min size (max - sent) = size := by omega
    rw [← Nat.add_assoc, send_round h hb (by omega) (hok 0 (Nat.succ_pos k)), hthis,
      ih (by omega) fun i hi => by simpa [Nat.add_assoc, Nat.add_comm 1] using hok (i + 1) (by omega)]
    rw [hmul, items_add, Socket.after_after, Nat.add_assoc, Nat.add_comm 1 k]

/-- The number of chunks of `n` items: the full ones, and one for what is left. -/
def rounds (size n : ℕ) : ℕ := n / size + if n % size = 0 then 0 else 1

theorem rounds_le {n : ℕ} (h : 0 < size) : rounds size n ≤ n := by
  unfold rounds
  have hdiv := Nat.div_add_mod n size
  have hle : n / size ≤ size * (n / size) := Nat.le_mul_of_pos_left _ h
  split_ifs <;> omega

/-- **While writes succeed**, the loop writes all that there is, and counts it. -/
theorem send_quiet (h : Appends put item) (hb : max < bound) (hsize : 0 < size)
    (hq : ∀ i < rounds size max, sock.fault (sock.calls + i) = none) (hf : rounds size max < fuel) :
    send put size bound max fuel 0 s sock =
      some (.ok max, sock.after (items item max s).1 (rounds size max)) := by
  have hdiv : max / size * size + max % size = max := Nat.div_add_mod' max size
  obtain ⟨f, rfl⟩ : ∃ f, fuel = f + 1 + max / size :=
    ⟨fuel - 1 - max / size, by unfold rounds at hf; omega⟩
  rw [send_full h hb (max / size) (by omega) hsize fun i hi => hq i (by unfold rounds; omega),
    Nat.zero_add]
  unfold rounds at hq hf ⊢
  by_cases hr : max % size = 0
  · -- no item is left for a partial chunk
    have hall : max / size * size = max := by omega
    rw [if_pos hr, hall, send_done]
    rfl
  · rw [if_neg hr] at hq hf ⊢
    have hlt : max % size < size := Nat.mod_lt max hsize
    have hthis : min size (max - max / size * size) = max % size := by omega
    obtain ⟨f, rfl⟩ : ∃ g, f = g + 1 := ⟨f - 1, by omega⟩
    rw [send_round h hb (by omega) (hq (max / size) (by omega)), hthis, hdiv, send_done,
      Socket.after_after]
    have hitems := items_add item (max / size * size) (max % size) s
    rw [hdiv] at hitems
    rw [hitems]

/-- **A write that fails** ends the loop: the count is that of the chunks written before. -/
theorem send_fault (h : Appends put item) (hb : max < bound) (hsize : 0 < size) {k n : ℕ}
    (hk : k * size < max) (hfault : sock.FaultAt k n) (hf : k < fuel) :
    send put size bound max fuel 0 s sock =
      some (.error (k * size), sock.after ((items item (k * size) s).1 ++
        (items item (min size (max - k * size)) (items item (k * size) s).2).1.take n) (k + 1)) := by
  obtain ⟨hok, hno⟩ := hfault
  obtain ⟨f, rfl⟩ : ∃ f, fuel = f + 1 + k := ⟨fuel - 1 - k, by omega⟩
  rw [send_full h hb k (by omega) hsize hok, Nat.zero_add, send, if_pos hk, Checked.sub_of hk.le]
  simp only [Option.bind_eq_bind, Option.bind_some, fill_eq h, List.nil_append]
  rw [Socket.writeAll_fault (n := n) (by simpa using hno), Socket.after_after]
  rfl

end EtherealDb.Streaming
