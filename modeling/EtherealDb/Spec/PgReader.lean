import EtherealDb.Spec.Pg
import EtherealDb.Text.Checked
import EtherealDb.Text.Cursor

/-!
# The reader of messages, checked

`Reader` with positions of 64 bits and slices that have to be in bounds: `none` is a panic.
`Read` in `Spec.Pg` is what its operations compute when there is none.
-/

namespace EtherealDb.Pg.Reader

open Cursor

/-- The bound of `usize` on a 64-bit target. -/
def usizeBound : ℕ := 2 ^ 64

/-- `Reader::new`. -/
def new (b : Bytes) : Reader := ⟨b, 0⟩

/-- `Reader::u8`. -/
def u8 (r : Reader) : Option (UInt8 × Reader) := do
  let v := r.b[r.pos]?.getD 0
  return (v, { r with pos := ← Checked.add usizeBound r.pos 1 })

/-- The loop that fills an array of `n` bytes. -/
def array : ℕ → Reader → Option (Bytes × Reader)
  | 0, r => some ([], r)
  | n + 1, r => do
    let (x, r) ← r.u8
    let (a, r) ← array n r
    return (x :: a, r)

/-- `Reader::i16`. -/
def i16 (r : Reader) : Option (ℤ × Reader) := (array 2 r).map fun a => (ofBeInt a.1, a.2)

/-- `Reader::i32`. -/
def i32 (r : Reader) : Option (ℤ × Reader) := (array 4 r).map fun a => (ofBeInt a.1, a.2)

/-- `&b[start..stop]`. -/
def slice (b : Bytes) (start stop : ℕ) : Option Bytes :=
  if start ≤ stop ∧ stop ≤ b.length then some ((b.take stop).drop start) else none

/-- The end of the text that `cstr` reads from `start` on. -/
def textEnd (r : Reader) (start : ℕ) (tail : Bytes) : Option ℕ :=
  match tail.findIdx? (· = 0) with
  | some i => Checked.add usizeBound start i
  | none => some r.b.length

/-- `Reader::cstr`. -/
def cstr (r : Reader) : Option (Str × Reader) := do
  let start := min r.pos r.b.length
  let tail ← slice r.b start r.b.length
  let stop ← r.textEnd start tail
  let text ← slice r.b start stop
  let past ← Checked.add usizeBound stop 1
  let last ← Checked.add usizeBound r.b.length 1
  return (Utf8.fromUtf8Lossy text, { r with pos := min past last })

/-- `Reader::skip`, which saturates. -/
def skip (n : ℕ) (r : Reader) : Reader := { r with pos := min (r.pos + n) (usizeBound - 1) }

/-- One operation of the reader. -/
def run (r : Reader) : Op → Option (Datum × Reader)
  | .u8 => r.u8.map fun a => (.byte a.1, a.2)
  | .i16 => r.i16.map fun a => (.int a.1, a.2)
  | .i32 => r.i32.map fun a => (.int a.1, a.2)
  | .cstr => r.cstr.map fun a => (.text a.1, a.2)
  | .skip n => some (.unit, r.skip n)

/-- Operations one after another. -/
def runAll : Reader → List Op → Option (List Datum × Reader)
  | r, [] => some ([], r)
  | r, op :: ops => do
    let (v, r) ← r.run op
    let (vs, r) ← runAll r ops
    return (v :: vs, r)

end EtherealDb.Pg.Reader
