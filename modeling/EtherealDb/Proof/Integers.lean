import EtherealDb.Proof.Literals
import EtherealDb.Text.Reader

/-!
# Integer literals

`classify_expr` announces a literal by its characters, and `text_to_binary` reads its value.

* `parseSigned_text`: a literal is read back when its type holds it.
* `integers_keep_iff`: **integer literals keep their value exactly in the range of an
  `int4`**; in the binary format every other literal is the least `int4`.
-/

namespace EtherealDb

open Str

variable {C : Crates}

/-- An integer literal: an optional minus, and digits. -/
structure IntLiteral where
  neg : Bool
  digits : Str
  ne : digits ≠ []
  digit : digits.all Char.isDigit

namespace IntLiteral

variable (l : IntLiteral)

def expr : Expr := .int l.neg l.digits l.ne l.digit

def text : Str := l.expr.render

/-- The number that the digits stand for. -/
def magnitude : ℕ := Nat.ofDigitChars 10 l.digits 0

def value : ℤ := if l.neg then -(l.magnitude : ℤ) else l.magnitude

/-- `select` of the literal. -/
def query : Str := selectItems [.expr l.expr none none]

end IntLiteral

/-- The bytes of the integer types. -/
def intWidth : WireType → Option ℕ
  | .int4 => some 4
  | .int8 => some 8
  | _ => none

/-- The literal is in the range of the type that its column is announced with, and the
binary form of its text is the literal's value. -/
def IntLiteral.Encodes (l : IntLiteral) : Prop :=
  ∃ wt w, classifyExpr l.text = some (.echo unnamed l.text wt) ∧ intWidth wt = some w ∧
    (-2 ^ (8 * w - 1) ≤ l.value ∧ l.value < 2 ^ (8 * w - 1)) ∧
    Pg.textToBinary wt l.text = beInt w l.value

/-- The simple path sends the literal, and the extended path, in the binary format, bytes
of the literal's value. -/
def IntLiteral.Agrees (l : IntLiteral) (C : Crates) : Prop :=
  ∀ (cfg : Config) (o : Outcome C) (slot : Bool) (os : C.Rng) (maxRows : ℤ),
    ∃ simple extended desc bytes, Pg.query cfg o l.query = some simple ∧
      simple.all = [desc, .dataRow [.text l.text], .commandComplete "SELECT 1", .readyForQuery] ∧
      Pg.executePortal cfg slot os ⟨l.query, [1]⟩ maxRows .new = some extended ∧
      extended.all = [.dataRow [.binary bytes], .commandComplete "SELECT 1"] ∧
      ofBeInt bytes = l.value

/-! ## The value of a literal -/

theorem text_eq (l : IntLiteral) : l.text = if l.neg then '-' :: l.digits else l.digits := rfl

/-- A literal is read back when its type holds it. -/
theorem parseSigned_text (l : IntLiteral) {half : ℕ} (hpos : 0 < half) :
    parseSigned half l.text =
      if -(half : ℤ) ≤ l.value ∧ l.value < half then some l.value else none := by
  obtain ⟨neg, digits, ne, digit⟩ := l
  have hparse : parseDigits digits = some (Nat.ofDigitChars 10 digits 0) := if_pos ⟨ne, digit⟩
  rw [text_eq]
  unfold IntLiteral.value IntLiteral.magnitude
  dsimp only
  obtain ⟨n, hn⟩ : ∃ n, n = Nat.ofDigitChars 10 digits 0 := ⟨_, rfl⟩
  rw [← hn] at hparse ⊢
  -- the type holds one more number below zero than above
  cases neg with
  | true =>
    rw [if_pos rfl, if_pos rfl, parseSigned_neg hparse]
    by_cases h : n ≤ half
    · rw [if_pos h, if_pos (by omega)]
    · rw [if_neg h, if_neg (by omega)]
  | false =>
    rw [if_neg Bool.false_ne_true, if_neg Bool.false_ne_true, parseSigned_eq hparse]
    by_cases h : n < half
    · rw [if_pos h, if_pos (by omega)]
    · rw [if_neg h, if_neg (by omega)]

/-- The binary form of a literal. -/
theorem textToBinary_text (l : IntLiteral) : Pg.textToBinary .int4 l.text =
    beInt 4 (if -2 ^ 31 ≤ l.value ∧ l.value < 2 ^ 31 then l.value else -2 ^ 31) := by
  rw [Pg.textToBinary, parseSigned_text l (by decide)]
  congr 1
  by_cases h : -2 ^ 31 ≤ l.value ∧ l.value < 2 ^ 31
  · rw [if_pos h, if_pos (by omega)]
    rfl
  · rw [if_neg h, if_neg (by omega)]
    rfl

/-! ## Answers -/

/-- The shape of a select of the literal. -/
def IntLiteral.shape (l : IntLiteral) : ResultShape :=
  { ResultShape.of .select none with columns := [.echo unnamed l.text .int4] }

theorem extract_query (l : IntLiteral) : extract l.query = some l.shape := by
  have hends : Ends Solid Solid (renderItems [.expr l.expr none none]) := l.expr.ends
  rw [IntLiteral.query, extract_selectItems hends]
  rfl

theorem splitStatements_query (l : IntLiteral) : splitStatements l.query = some [l.query] := by
  have hrender : Ends Solid Solid (renderItems [.expr l.expr none none]) := l.expr.ends
  have hends := ends_selectItems hrender
  refine splitStatements_single ?_ hends.firm.trim hends.ne
  have hdigits : ∀ c ∈ l.digits, c ≠ ';' := by
    rintro c hc rfl
    exact absurd (List.all_eq_true.1 l.digit _ hc) (by decide)
  have hrender : Hides (· ≠ ';') (Scan.start.run ("select".toList ++ [' '])) l.text := by
    refine hides_of_forall ?_
    intro c hc
    rw [text_eq] at hc
    split at hc
    · rcases List.mem_cons.1 hc with rfl | hc
      · decide
      · exact hdigits c hc
    · exact hdigits c hc
  have hquery : l.query = "select".toList ++ [' '] ++ l.text :=
    (List.append_assoc "select".toList [' '] l.text).symm
  have hselect : ∀ c ∈ "select".toList ++ [' '], c ≠ ';' := by
    rintro c hc rfl
    exact absurd hc (by decide)
  rw [hquery, hides_append]
  exact ⟨hides_of_forall hselect, hrender⟩

theorem fixed_query (l : IntLiteral) : Fixed l.shape [l.text] := ⟨rfl, rfl, rfl, rfl, rfl⟩

/-- **Integer literals keep their value exactly in the range of an `int4`**: only there does
the announced type hold the value, and do both paths send it. The binary form of any other
literal is the least `int4`. -/
theorem integers_keep_iff (l : IntLiteral) :
    (l.Encodes ∧ l.Agrees C ↔ -2 ^ 31 ≤ l.value ∧ l.value < 2 ^ 31) ∧
      Pg.textToBinary .int4 l.text =
        beInt 4 (if -2 ^ 31 ≤ l.value ∧ l.value < 2 ^ 31 then l.value else -2 ^ 31) := by
  have hclass : classifyExpr l.text = some (.echo unnamed l.text .int4) :=
    classifyExpr_render l.expr
  have hbytes := textToBinary_text l
  refine ⟨⟨?_, ?_⟩, hbytes⟩
  · rintro ⟨⟨wt, w, hwt, hw, hrange, -⟩, -⟩
    rw [hclass] at hwt
    cases hwt
    cases hw
    exact hrange
  · intro h
    rw [if_pos h] at hbytes
    refine ⟨⟨.int4, 4, hclass, rfl, h, hbytes⟩, ?_⟩
    -- a literal needs no draw, so the answers are the same in every world
    intro cfg o slot os maxRows
    obtain ⟨simple, hsimple, hrows⟩ :=
      query_fixed (fixed_query l) cfg (extract_query l) (splitStatements_query l) o
    obtain ⟨extended, hextended, hcells⟩ :=
      portal_fixed (fixed_query l) cfg (extract_query l) slot os [1] maxRows
    refine ⟨simple, extended, _, beInt 4 l.value, hsimple, hrows, hextended, ?_,
      ofBeInt_beInt (by decide) h.1 h.2⟩
    rw [hcells, ← hbytes]
    rfl

/-- The first integer that is too large. -/
def tooLarge : IntLiteral := ⟨false, "2147483648", by decide, by decide⟩

/-- **It is announced as an `int4`, and another number is sent.** -/
theorem tooLarge_lost : tooLarge.value = 2147483648 ∧
    classifyExpr tooLarge.text = some (.echo unnamed tooLarge.text .int4) ∧
    ofBeInt (Pg.textToBinary .int4 tooLarge.text) = -2147483648 ∧ ¬tooLarge.Encodes := by
  have hclass : classifyExpr tooLarge.text = some (.echo unnamed tooLarge.text .int4) := by decide
  refine ⟨by decide, hclass, by decide, ?_⟩
  rintro ⟨wt, w, hwt, hw, hrange, -⟩
  rw [hclass] at hwt
  cases hwt
  cases hw
  revert hrange
  decide

end EtherealDb
