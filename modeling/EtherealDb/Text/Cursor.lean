import EtherealDb.Text.Reader

/-!
# A cursor on an endless stream

Reads of bytes, of big-endian integers and of NUL-terminated texts, and skips, on a stream
of bytes that never ends. A text ends where the next NUL is.

* `TakesAll.unique`: a sequence of reads has one result.
* `padded_congr`: past its end, a padded byte string is the same everywhere.
-/

namespace EtherealDb.Cursor

/-- What a cursor can be told to do. -/
inductive Op where
  | u8 | i16 | i32 | cstr
  | skip (n : ℕ)
  deriving DecidableEq, Repr

/-- What it answers. -/
inductive Datum where
  | byte (b : UInt8)
  | int (x : ℤ)
  | text (s : Str)
  | unit
  deriving DecidableEq, Repr

/-- `n` bytes of a stream from a position on. -/
def window (f : ℕ → UInt8) (p n : ℕ) : Bytes := (List.range n).map fun i => f (p + i)

/-- **One read**, from a position to a position. -/
inductive Takes (f : ℕ → UInt8) : Op → ℕ → Datum → ℕ → Prop where
  | u8 (p : ℕ) : Takes f .u8 p (.byte (f p)) (p + 1)
  | i16 (p : ℕ) : Takes f .i16 p (.int (ofBeInt (window f p 2))) (p + 2)
  | i32 (p : ℕ) : Takes f .i32 p (.int (ofBeInt (window f p 4))) (p + 4)
  | cstr {p n : ℕ} (hno : ∀ i < n, f (p + i) ≠ 0) (hnul : f (p + n) = 0) :
    Takes f .cstr p (.text (Utf8.fromUtf8Lossy (window f p n))) (p + n + 1)
  | skip (p n : ℕ) : Takes f (.skip n) p .unit (p + n)

/-- Reads one after another. -/
inductive TakesAll (f : ℕ → UInt8) : List Op → ℕ → List Datum → ℕ → Prop where
  | nil (p : ℕ) : TakesAll f [] p [] p
  | cons {op : Op} {ops : List Op} {v : Datum} {vs : List Datum} {p q r : ℕ} (h : Takes f op p v q)
    (hs : TakesAll f ops q vs r) : TakesAll f (op :: ops) p (v :: vs) r

variable {f : ℕ → UInt8} {op : Op} {ops : List Op} {v w : Datum} {vs ws : List Datum} {p q r : ℕ}

theorem Takes.unique (h : Takes f op p v q) (h' : Takes f op p w r) : v = w ∧ q = r := by
  cases h with
  | u8 => cases h'; exact ⟨rfl, rfl⟩
  | i16 => cases h'; exact ⟨rfl, rfl⟩
  | i32 => cases h'; exact ⟨rfl, rfl⟩
  | skip => cases h'; exact ⟨rfl, rfl⟩
  | @cstr _ n hno hnul =>
    cases h' with
    | @cstr _ m hno' hnul' =>
      -- neither NUL stands before the other
      have hle : n ≤ m := by
        by_contra hlt
        exact hno m (by omega) hnul'
      have hge : m ≤ n := by
        by_contra hlt
        exact hno' n (by omega) hnul
      obtain rfl := Nat.le_antisymm hle hge
      exact ⟨rfl, rfl⟩

/-- **A sequence of reads has one result.** -/
theorem TakesAll.unique (h : TakesAll f ops p vs q) (h' : TakesAll f ops p ws r) : vs = ws ∧ q = r := by
  induction h generalizing ws r with
  | nil => cases h'; exact ⟨rfl, rfl⟩
  | cons h _ ih =>
    cases h' with
    | cons h' hs' =>
      obtain ⟨rfl, rfl⟩ := h.unique h'
      obtain ⟨rfl, rfl⟩ := ih hs'
      exact ⟨rfl, rfl⟩

/-! ## Zero padding -/

/-- A byte string, and zeros behind it. -/
def padded (b : Bytes) (i : ℕ) : UInt8 := b[i]?.getD 0

theorem padded_of_le {b : Bytes} {i : ℕ} (h : b.length ≤ i) : padded b i = 0 := by
  rw [padded, List.getElem?_eq_none h]
  rfl

/-- **Past the end of a byte string all positions are alike.** -/
theorem padded_congr {b : Bytes} (h : min p b.length = min q b.length) (i : ℕ) :
    padded b (p + i) = padded b (q + i) := by
  by_cases hp : p < b.length
  · obtain rfl : p = q := by omega
    rfl
  · rw [padded_of_le (by omega), padded_of_le (by omega)]

theorem window_congr {b : Bytes} (h : min p b.length = min q b.length) (n : ℕ) :
    window (padded b) p n = window (padded b) q n :=
  List.map_congr_left fun i _ => padded_congr h i

/-- A text that stands at a position, with a NUL or the end behind it. -/
theorem takes_text {b t rest : Bytes} (h : b.drop p = t ++ rest) (hno : ∀ c ∈ t, c ≠ 0)
    (hnul : rest.head?.getD 0 = 0) :
    Takes (padded b) .cstr p (.text (Utf8.fromUtf8Lossy t)) (p + t.length + 1) := by
  have hget : ∀ i, padded b (p + i) = (t ++ rest)[i]?.getD 0 := by
    intro i
    rw [← h, List.getElem?_drop]
    rfl
  have htext : ∀ i (hi : i < t.length), padded b (p + i) = t[i] := by
    intro i hi
    rw [hget, List.getElem?_append_left hi, List.getElem?_eq_getElem hi]
    rfl
  have hwindow : window (padded b) p t.length = t :=
    List.ext_getElem (by simp [window]) fun i hi hi' => by simp [window, htext i hi']
  have hread := Takes.cstr (f := padded b) (p := p) (n := t.length) ?_ ?_
  · rwa [hwindow] at hread
  · intro i hi
    rw [htext i hi]
    exact hno _ (List.getElem_mem hi)
  · rw [hget, List.getElem?_append_right le_rfl, Nat.sub_self, ← List.head?_eq_getElem?]
    exact hnul

/-- **The text at a position** of a padded byte string: the bytes before the next NUL, or all
of them. -/
theorem takes_cstr (b : Bytes) (p : ℕ) :
    Takes (padded b) .cstr p (.text (Utf8.fromUtf8Lossy ((b.drop p).takeWhile (· ≠ 0))))
      (p + ((b.drop p).takeWhile (· ≠ 0)).length + 1) := by
  refine takes_text List.takeWhile_append_dropWhile.symm ?_ ?_
  · intro c hc
    simpa using List.mem_takeWhile_imp hc
  · have hzero := List.head?_dropWhile_not (· ≠ 0) (b.drop p)
    cases hhead : ((b.drop p).dropWhile (· ≠ 0)).head? with
    | none => rfl
    | some c =>
      rw [hhead] at hzero
      simpa using hzero

end EtherealDb.Cursor
