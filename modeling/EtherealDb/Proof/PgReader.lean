import EtherealDb.Spec.PgReader

/-!
# The reader of messages on an endless stream

Where the payload ends the reader goes on, as if zeros followed. Its position may be another
one than that of a cursor on the stream of payload and zeros, but only where both are past
the end (`Sim`).

* `run_sim`: **step lemma**: an operation reads what the cursor reads, and stays beside it.
* `reader_refines`: no sequence of operations panics, and each one reads what it reads on the
  stream.
* `read_of_run`: the readers of the message loop compute what the checked ones do.
-/

namespace EtherealDb.Pg.Reader

open Cursor

variable {b : Bytes} {r : Reader} {p : ℕ}

/-- **The reader stands where a cursor on the padded payload stands**, or both are past the
end. -/
structure Sim (b : Bytes) (r : Reader) (p : ℕ) : Prop where
  buf : r.b = b
  pos : min r.pos b.length = min p b.length

theorem u8_of (h : r.pos + 1 < usizeBound) :
    r.u8 = some (padded r.b r.pos, { r with pos := r.pos + 1 }) := by
  unfold u8
  rw [Checked.add_of h]
  rfl

theorem array_of (n : ℕ) (h : r.pos + n < usizeBound) :
    array n r = some (window (padded r.b) r.pos n, { r with pos := r.pos + n }) := by
  induction n generalizing r with
  | zero => rfl
  | succ n ih =>
    have hwindow : window (padded r.b) r.pos (n + 1) =
        padded r.b r.pos :: window (padded r.b) (r.pos + 1) n := by
      simp only [window, List.range_succ_eq_map, List.map_cons, List.map_map, Nat.add_zero]
      refine congrArg _ (List.map_congr_left fun i _ => ?_)
      simp only [Function.comp_apply, Nat.succ_eq_add_one, Nat.add_assoc, Nat.add_comm 1]
    rw [array, u8_of (by omega)]
    simp only [Option.bind_eq_bind, Option.bind_some, ih (r := { r with pos := r.pos + 1 })
      (by simp only; omega), hwindow, Nat.add_assoc, Nat.add_comm 1]
    rfl

/-- **`cstr` reads up to a NUL**, or to the end. -/
theorem cstr_of (h : r.b.length + 1 < usizeBound) :
    let text := (r.b.drop (min r.pos r.b.length)).takeWhile (· ≠ 0)
    r.cstr = some (Utf8.fromUtf8Lossy text,
      { r with pos := min r.pos r.b.length + text.length + 1 }) := by
  intro text
  set start := min r.pos r.b.length with hstart
  have hle : start ≤ r.b.length := Nat.min_le_right _ _
  have htail : slice r.b start r.b.length = some (r.b.drop start) := by
    rw [slice, if_pos ⟨hle, le_rfl⟩, List.take_length]
  have htext : text = (r.b.drop start).take ((r.b.drop start).findIdx (· = 0)) := by
    rw [show text = (r.b.drop start).takeWhile (· ≠ 0) from rfl, List.takeWhile_eq_take_findIdx_not]
    simp
  have hidx : (r.b.drop start).findIdx (· = 0) ≤ (r.b.drop start).length := List.findIdx_le_length
  have hlen : text.length = (r.b.drop start).findIdx (· = 0) := by
    rw [htext, List.length_take]
    omega
  rw [List.length_drop] at hidx
  have hstop : r.textEnd start (r.b.drop start) = some (start + text.length) := by
    unfold textEnd
    cases hfind : (r.b.drop start).findIdx? (· = 0) with
    | none =>
      have hend := List.findIdx?_eq_none_iff_findIdx_eq.1 hfind
      rw [List.length_drop] at hend
      exact congrArg some (by omega)
    | some i =>
      obtain ⟨-, rfl⟩ := List.findIdx?_eq_some_iff_findIdx_eq.1 hfind
      dsimp only
      rw [Checked.add_of (by omega), hlen]
  have hslice : slice r.b start (start + text.length) = some text := by
    rw [slice, if_pos ⟨by omega, by omega⟩, List.drop_take, Nat.add_sub_cancel_left, hlen, ← htext]
  unfold cstr
  simp only [← hstart, htail, Option.bind_eq_bind, Option.bind_some, hstop, hslice,
    Checked.add_of (show start + text.length + 1 < usizeBound by omega), Checked.add_of h]
  have hmin : min (start + text.length + 1) (r.b.length + 1) = start + text.length + 1 := by omega
  rw [hmin]
  rfl

/-! ## Simulation -/

/-- How far an operation moves the position, at most, when it does not move it back. -/
def reach : Op → ℕ
  | .skip n => n
  | _ => 4

/-- What an operation does from the reader's position, it does from the cursor's. -/
theorem Sim.move (h : Sim b r p) (n : ℕ) : Sim b { r with pos := r.pos + n } (p + n) := by
  refine ⟨h.buf, ?_⟩
  have hpos := h.pos
  simp only
  omega

/-- **An operation reads what the cursor reads**, and stays beside it. -/
theorem run_sim (h : Sim b r p) (hb : b.length + 1 < usizeBound) (hpos : r.pos + 4 < usizeBound)
    (op : Op) (hreach : r.pos + reach op < usizeBound) :
    ∃ v r' q, r.run op = some (v, r') ∧ Takes (padded b) op p v q ∧ Sim b r' q ∧
      r'.pos ≤ max (r.pos + reach op) (b.length + 1) := by
  obtain rfl := h.buf
  cases op with
  | u8 =>
    have hbyte := padded_congr h.pos 0
    simp only [Nat.add_zero] at hbyte
    refine ⟨_, _, _, by rw [run, u8_of (by omega)]; rfl, ?_, h.move 1, le_max_of_le_left ?_⟩
    · rw [hbyte]
      exact .u8 p
    · simp only [reach]
      omega
  | i16 =>
    refine ⟨_, _, _, by rw [run, i16, array_of 2 (by omega)]; rfl, ?_, h.move 2, le_max_of_le_left ?_⟩
    · rw [window_congr h.pos]
      exact .i16 p
    · simp only [reach]
      omega
  | i32 =>
    refine ⟨_, _, _, by rw [run, i32, array_of 4 hpos]; rfl, ?_, h.move 4, le_max_of_le_left ?_⟩
    · rw [window_congr h.pos]
      exact .i32 p
    · exact le_rfl
  | cstr =>
    -- past the end the reader goes back to it, and the cursor goes on
    have hdrop : r.b.drop (min r.pos r.b.length) = r.b.drop p := by
      rw [h.pos]
      rcases Nat.le_total p r.b.length with hp | hp
      · rw [Nat.min_eq_left hp]
      · rw [Nat.min_eq_right hp, List.drop_length, List.drop_eq_nil_of_le hp]
    have hread := takes_cstr r.b p
    rw [← hdrop] at hread
    have hlen : ((r.b.drop (min r.pos r.b.length)).takeWhile (· ≠ 0)).length ≤
        r.b.length - min r.pos r.b.length :=
      (List.takeWhile_prefix _).length_le.trans_eq List.length_drop
    have hrun := congrArg (Option.map fun a => (Datum.text a.1, a.2)) (cstr_of hb)
    refine ⟨_, _, _, hrun, hread, ⟨rfl, ?_⟩, le_max_of_le_right ?_⟩
    · have hsame := h.pos
      dsimp only
      omega
    · dsimp only
      omega
  | skip n =>
    have hskip : r.skip n = { r with pos := r.pos + n } := by
      have hmin : min (r.pos + n) (usizeBound - 1) = r.pos + n := by
        simp only [reach] at hreach
        omega
      rw [skip, hmin]
    refine ⟨_, _, _, rfl, .skip p n, by rw [hskip]; exact h.move n, ?_⟩
    rw [hskip]
    exact le_max_left _ _

/-! ## The readers of the message loop -/

theorem signed_two (x y : UInt8) : Read.signed 16 (x.toNat * 256 + y.toNat) = ofBeInt [x, y] := by
  have hx := x.toNat_lt
  have hy := y.toNat_lt
  have hval : ofBe [x, y] = x.toNat * 256 + y.toNat := by simp [ofBe]
  rw [ofBeInt, hval, Read.signed, Int.bmod_def]
  simp only [List.length_cons, List.length_nil]
  split_ifs <;> omega

theorem signed_four (x y z w : UInt8) :
    Read.signed 32 (((x.toNat * 256 + y.toNat) * 256 + z.toNat) * 256 + w.toNat) =
      ofBeInt [x, y, z, w] := by
  have hx := x.toNat_lt
  have hy := y.toNat_lt
  have hz := z.toNat_lt
  have hw := w.toNat_lt
  have hval : ofBe [x, y, z, w] =
      ((x.toNat * 256 + y.toNat) * 256 + z.toNat) * 256 + w.toNat := by simp [ofBe]
  rw [ofBeInt, hval, Read.signed, Int.bmod_def]
  simp only [List.length_cons, List.length_nil]
  split_ifs <;> omega

/-- An operation as the message loop runs it. -/
def read : Op → Read Datum
  | .u8 => Datum.byte <$> Read.u8
  | .i16 => Datum.int <$> Read.i16
  | .i32 => Datum.int <$> Read.i32
  | .cstr => Datum.text <$> Read.cstr
  | .skip n => do
    Read.skip n
    return .unit

/-- Operations one after another, as the message loop runs them. -/
def readAll : List Op → Read (List Datum)
  | [] => pure []
  | op :: ops => do return (← read op) :: (← readAll ops)

/-- **What does not panic is what the message loop computes.** -/
theorem read_of_run {op : Op} {v : Datum} {r' : Reader} (hb : r.b.length + 1 < usizeBound)
    (hpos : r.pos + 4 < usizeBound) (h : r.run op = some (v, r')) : (read op).run r = (v, r') := by
  cases op with
  | u8 =>
    rw [run, u8_of (by omega)] at h
    exact Option.some.inj h
  | i16 =>
    rw [run, i16, array_of 2 (by omega)] at h
    rw [← Option.some.inj h]
    exact congrArg (fun x => (Datum.int x, _)) (signed_two _ _)
  | i32 =>
    rw [run, i32, array_of 4 hpos] at h
    rw [← Option.some.inj h]
    exact congrArg (fun x => (Datum.int x, _)) (signed_four _ _ _ _)
  | cstr =>
    rw [run, cstr_of hb] at h
    rw [← Option.some.inj h]
    have hlen : ((r.b.drop (min r.pos r.b.length)).takeWhile (· ≠ 0)).length ≤
        r.b.length - min r.pos r.b.length :=
      (List.takeWhile_prefix _).length_le.trans_eq List.length_drop
    have hmin : min (min r.pos r.b.length +
        ((r.b.drop (min r.pos r.b.length)).takeWhile (· ≠ 0)).length + 1) (r.b.length + 1) =
        min r.pos r.b.length + ((r.b.drop (min r.pos r.b.length)).takeWhile (· ≠ 0)).length + 1 := by
      omega
    exact congrArg (fun n => (Datum.text _, (⟨r.b, n⟩ : Reader))) hmin
  | skip n => exact Option.some.inj h

/-! ## Runs -/

/-- **No sequence of operations gets away from the cursor.** -/
theorem runAll_sim {ops : List Op} {bound : ℕ} (hreach : ∀ op ∈ ops, reach op ≤ bound)
    (hbound : 4 ≤ bound) (h : Sim b r p)
    (hpos : max r.pos (b.length + 1) + ops.length * bound + 4 < usizeBound) :
    ∃ vs r' q, r.runAll ops = some (vs, r') ∧ (readAll ops).run r = (vs, r') ∧
      TakesAll (padded b) ops p vs q := by
  induction ops generalizing r p with
  | nil => exact ⟨[], r, p, rfl, rfl, .nil p⟩
  | cons op ops ih =>
    have hop := hreach op (by simp)
    rw [List.length_cons, Nat.succ_mul] at hpos
    obtain ⟨v, r₁, q₁, hrun, hread, hsim, hnext⟩ := run_sim h (by omega) (by omega) op (by omega)
    obtain ⟨vs, r₂, q₂, hruns, hloop, hreads⟩ :=
      ih (fun o ho => hreach o (by simp [ho])) hsim (by omega)
    refine ⟨v :: vs, r₂, q₂, ?_, ?_, .cons hread hreads⟩
    · rw [runAll, hrun]
      simp only [Option.bind_eq_bind, Option.bind_some, hruns]
      rfl
    · have hstep := read_of_run (by rw [h.buf]; omega) (by omega) hrun
      have hcons : (readAll (op :: ops)).run r =
          (((read op).run r).1 :: ((readAll ops).run ((read op).run r).2).1,
            ((readAll ops).run ((read op).run r).2).2) := rfl
      rw [hcons, hstep, hloop]

/-- **The message reader reads the payload as if zeros followed it.** Any sequence of fewer
than `2^20` operations, with skips below `2^31`, runs without a panic or an overflow on a
64-bit target, where a slice has at most `isize::MAX` bytes. Each operation returns what it
returns in the same sequence on the stream of the payload and endless zeros; the message loop
computes the same. -/
theorem reader_refines {b : Bytes} (hb : b.length ≤ isizeMax) {ops : List Op}
    (hops : ops.length < 2 ^ 20) (hskip : ∀ n, .skip n ∈ ops → n < 2 ^ 31) :
    ∃ vs r, (Reader.new b).runAll ops = some (vs, r) ∧ (readAll ops).run (Reader.new b) = (vs, r) ∧
      ∃ p, TakesAll (padded b) ops 0 vs p ∧ ∀ ws q, TakesAll (padded b) ops 0 ws q → ws = vs := by
  have hreach : ∀ op ∈ ops, reach op ≤ 2 ^ 31 := by
    intro op hop
    cases op with
    | skip n => exact (hskip n hop).le
    | _ => simp [reach]
  have hpos : max (Reader.new b).pos (b.length + 1) + ops.length * 2 ^ 31 + 4 < usizeBound := by
    simp only [Reader.new, usizeBound, isizeMax] at hb ⊢
    omega
  obtain ⟨vs, r, p, hrun, hloop, hreads⟩ := runAll_sim hreach (by decide) ⟨rfl, rfl⟩ hpos
  exact ⟨vs, r, hrun, hloop, p, hreads, fun ws q h => (h.unique hreads).1⟩

/-- A text without a NUL, a skip past the end, and a number there. -/
theorem reader_refines_past : ∃ vs r, (Reader.new [104, 105]).runAll [.cstr, .skip 7, .cstr, .i32] =
      some (vs, r) ∧ ∃ p, TakesAll (padded [104, 105]) [.cstr, .skip 7, .cstr, .i32] 0 vs p := by
  have hops : [Op.cstr, .skip 7, .cstr, .i32].length < 2 ^ 20 := by decide
  obtain ⟨vs, r, hrun, -, p, hreads, -⟩ := reader_refines (b := [104, 105]) (by decide) hops (by simp)
  exact ⟨vs, r, hrun, p, hreads⟩

end EtherealDb.Pg.Reader
