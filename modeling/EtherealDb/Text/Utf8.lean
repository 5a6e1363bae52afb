import EtherealDb.Text.Machine
import EtherealDb.Text.Str

/-!
# UTF-8

`encode` is `str::as_bytes`. Decoding is a machine that reads one byte at a time and
emits a character, or `none` for each maximal ill-formed part; `fromUtf8` accepts when
there is no such part, and `fromUtf8Lossy` puts U+FFFD in its place.

* `length_encode`: the length of a text in bytes.
* `fromUtf8_encode`: text is read back from its bytes.
* `crlf_lossy`, `crlf_encode`: decoding and encoding neither make nor break a CR LF pair.
-/

namespace EtherealDb

/-- A byte string. -/
abbrev Bytes := List UInt8

namespace Utf8

/-- `as_bytes`. -/
def encode (s : Str) : Bytes := s.flatMap String.utf8EncodeChar

@[simp] theorem encode_nil : encode [] = [] := rfl

theorem encode_cons (c : Char) (s : Str) : encode (c :: s) = String.utf8EncodeChar c ++ encode s :=
  rfl

@[simp] theorem encode_append (a b : Str) : encode (a ++ b) = encode a ++ encode b := by
  simp [encode]

@[simp] theorem length_encode (s : Str) : (encode s).length = Str.len s := by
  induction s with
  | nil => rfl
  | cons c s ih => rw [encode_cons, List.length_append, ih, Str.len_cons,
      String.length_utf8EncodeChar]

theorem toNat_ofNat {n : ℕ} (h : n < 128) : (UInt8.ofNat n).toNat = n := by
  rw [UInt8.toNat_ofNat', Nat.mod_eq_of_lt (by omega)]

/-- An ASCII character is one byte. -/
theorem encode_ascii {c : Char} (h : c.toNat < 128) :
    String.utf8EncodeChar c = [UInt8.ofNat c.toNat] := by
  have h1 : c.utf8Size = 1 := by
    rw [Char.utf8Size, if_pos]
    rw [UInt32.le_iff_toNat_le]
    exact Nat.lt_succ_iff.1 h
  rw [String.utf8EncodeChar_eq_singleton h1]
  rfl

/-- Any other has no ASCII byte. -/
theorem encode_not_ascii {c : Char} (h : 128 ≤ c.toNat) :
    ∀ b ∈ String.utf8EncodeChar c, 128 ≤ b.toNat := by
  have hor : ∀ (a m : UInt8), 128 ≤ m.toNat → 128 ≤ (a ||| m).toNat := by
    intro a m hm
    rw [UInt8.toNat_or]
    exact hm.trans Nat.right_le_or
  have h1 : c.utf8Size ≠ 1 := by
    intro h1
    rw [Char.utf8Size_eq_one_iff, UInt32.le_iff_toNat_le] at h1
    have : c.toNat ≤ 127 := h1
    omega
  intro b hb
  rcases Char.utf8Size_eq c with h' | h' | h' | h'
  · exact absurd h' h1
  · rw [String.utf8EncodeChar_eq_cons_cons h'] at hb
    simp only [List.mem_cons, List.not_mem_nil, or_false] at hb
    rcases hb with rfl | rfl <;> exact hor _ _ (by decide)
  · rw [String.utf8EncodeChar_eq_cons_cons_cons h'] at hb
    simp only [List.mem_cons, List.not_mem_nil, or_false] at hb
    rcases hb with rfl | rfl | rfl <;> exact hor _ _ (by decide)
  · rw [String.utf8EncodeChar_eq_cons_cons_cons_cons h'] at hb
    simp only [List.mem_cons, List.not_mem_nil, or_false] at hb
    rcases hb with rfl | rfl | rfl | rfl <;> exact hor _ _ (by decide)

/-! ## Decoding -/

/-- A character in progress: the continuation bytes it still needs, the range of the
next one, and the bits read so far. -/
structure Begun where
  left : ℕ
  lo : ℕ
  hi : ℕ
  bits : ℕ
  deriving DecidableEq, Repr

/-- A byte at the start of a character. -/
def lead (b : UInt8) : Option Begun × List (Option Char) :=
  let n := b.toNat
  if n < 0x80 then (none, [some (Char.ofNat n)])
  else if 0xC2 ≤ n ∧ n ≤ 0xDF then (some ⟨1, 0x80, 0xBF, n - 0xC0⟩, [])
  else if n = 0xE0 then (some ⟨2, 0xA0, 0xBF, 0⟩, [])
  else if n = 0xED then (some ⟨2, 0x80, 0x9F, 0xD⟩, [])
  else if 0xE1 ≤ n ∧ n ≤ 0xEF then (some ⟨2, 0x80, 0xBF, n - 0xE0⟩, [])
  else if n = 0xF0 then (some ⟨3, 0x90, 0xBF, 0⟩, [])
  else if 0xF1 ≤ n ∧ n ≤ 0xF3 then (some ⟨3, 0x80, 0xBF, n - 0xF0⟩, [])
  else if n = 0xF4 then (some ⟨3, 0x80, 0x8F, 4⟩, [])
  else (none, [none])

/-- One byte. A byte outside the range ends an ill-formed part and is read afresh. -/
def step (st : Option Begun) (b : UInt8) : Option Begun × List (Option Char) :=
  match st with
  | none => lead b
  | some p =>
    if p.lo ≤ b.toNat ∧ b.toNat ≤ p.hi then
      let bits := p.bits * 64 + (b.toNat - 0x80)
      if p.left ≤ 1 then (none, [some (Char.ofNat bits)])
      else (some ⟨p.left - 1, 0x80, 0xBF, bits⟩, [])
    else ((lead b).1, none :: (lead b).2)

/-- What is left at the end of the bytes. -/
def finish : Option Begun → List (Option Char)
  | none => []
  | some _ => [none]

/-- The characters and the ill-formed parts of a byte string, from a state. -/
def chunks (st : Option Begun) (bs : Bytes) : List (Option Char) :=
  (Machine.run step st bs).2 ++ finish (Machine.run step st bs).1

theorem chunks_cons (st : Option Begun) (b : UInt8) (bs : Bytes) :
    chunks st (b :: bs) = (step st b).2 ++ chunks (step st b).1 bs := by
  simp [chunks]

/-- `str::from_utf8`, with its failure as `none`. -/
def fromUtf8 (bs : Bytes) : Option Str :=
  if (chunks none bs).all Option.isSome then some ((chunks none bs).filterMap id) else none

/-- `String::from_utf8_lossy`. -/
def fromUtf8Lossy (bs : Bytes) : Str := (chunks none bs).map (·.getD '\uFFFD')

theorem lead_ascii {b : UInt8} (h : b.toNat < 128) : lead b = (none, [some (Char.ofNat b.toNat)]) := by
  simp [lead, h]

theorem toNat_ofNat_valid {n : ℕ} (h : n.isValidChar) : (Char.ofNat n).toNat = n := by
  rw [Char.ofNat, dif_pos h]
  rfl

theorem toNat_ofNat_ascii {n : ℕ} (h : n < 128) : (Char.ofNat n).toNat = n :=
  toNat_ofNat_valid (Or.inl (by omega))

/-! ## Lengths -/

/-- A byte gives at most two characters: one for what it breaks off, and its own. -/
theorem length_step (st : Option Begun) (b : UInt8) : (step st b).2.length ≤ 2 := by
  have hlead : (lead b).2.length ≤ 1 := by
    unfold lead
    dsimp only
    split_ifs <;> simp
  unfold step
  cases st with
  | none =>
    dsimp only
    omega
  | some p =>
    dsimp only
    split_ifs
    · exact Nat.le_succ 1
    · exact Nat.zero_le 2
    · rw [List.length_cons]
      omega

theorem length_chunks (st : Option Begun) (bs : Bytes) :
    (chunks st bs).length ≤ 2 * bs.length + 1 := by
  induction bs generalizing st with
  | nil => cases st <;> simp [chunks, finish]
  | cons b bs ih =>
    have hstep := length_step st b
    have hrest := ih (step st b).1
    rw [chunks_cons, List.length_append, List.length_cons]
    omega

/-- **Decoding does not make a text much longer.** -/
theorem length_fromUtf8Lossy (bs : Bytes) : (fromUtf8Lossy bs).length ≤ 2 * bs.length + 1 := by
  rw [fromUtf8Lossy, List.length_map]
  exact length_chunks none bs

/-! ## Reading back -/

/-- The low `k` bits of a byte under a mask of higher bits. -/
theorem toNat_mask {a l m : UInt8} (k j : ℕ) (hl : l.toNat = 2 ^ k - 1) (hm : m.toNat = 2 ^ k * j) :
    (a &&& l ||| m).toNat = a.toNat % 2 ^ k + m.toNat := by
  have hlt : a.toNat % 2 ^ k < 2 ^ k := Nat.mod_lt _ (Nat.two_pow_pos k)
  rw [UInt8.toNat_or, UInt8.toNat_and, hl, Nat.and_two_pow_sub_one_eq_mod, Nat.or_comm, hm,
    ← Nat.two_pow_add_eq_or_of_lt hlt, Nat.add_comm]

/-- The bits of a code point from the `k`-th on. -/
theorem toNat_shift (c : Char) {s : UInt32} (k : ℕ) (hs : s.toNat = k) (hk : k < 32) :
    (c.val >>> s).toUInt8.toNat = c.toNat / 2 ^ k % 256 := by
  rw [UInt32.toNat_toUInt8, UInt32.toNat_shiftRight, hs, Nat.mod_eq_of_lt hk,
    Nat.shiftRight_eq_div_pow]
  rfl

theorem toNat_low (c : Char) : c.val.toUInt8.toNat = c.toNat % 256 := by
  rw [UInt32.toNat_toUInt8]
  rfl

/-- The bytes of a character past ASCII, as numbers. -/
theorem encode_wide (c : Char) (h : 128 ≤ c.toNat) :
    (c.toNat < 0x800 ∧ (String.utf8EncodeChar c).map UInt8.toNat =
      [c.toNat / 64 + 0xC0, c.toNat % 64 + 0x80]) ∨
    (0x800 ≤ c.toNat ∧ c.toNat < 0x10000 ∧ (String.utf8EncodeChar c).map UInt8.toNat =
      [c.toNat / 4096 + 0xE0, c.toNat / 64 % 64 + 0x80, c.toNat % 64 + 0x80]) ∨
    (0x10000 ≤ c.toNat ∧ (String.utf8EncodeChar c).map UInt8.toNat =
      [c.toNat / 262144 + 0xF0, c.toNat / 4096 % 64 + 0x80, c.toNat / 64 % 64 + 0x80,
        c.toNat % 64 + 0x80]) := by
  have hsize : c.utf8Size = if c.toNat < 0x800 then 2 else if c.toNat < 0x10000 then 3 else 4 := by
    have h1 : ¬ c.val ≤ 127 := by
      rw [UInt32.le_iff_toNat_le]
      exact fun hle => absurd (show c.toNat ≤ 127 from hle) (by omega)
    have h2 : c.val ≤ 2047 ↔ c.toNat < 0x800 := by
      rw [UInt32.le_iff_toNat_le]
      exact Nat.lt_succ_iff.symm
    have h3 : c.val ≤ 65535 ↔ c.toNat < 0x10000 := by
      rw [UInt32.le_iff_toNat_le]
      exact Nat.lt_succ_iff.symm
    change (if c.val ≤ 127 then 1 else if c.val ≤ 2047 then 2 else if c.val ≤ 65535 then 3
      else 4) = _
    rw [if_neg h1]
    simp only [h2, h3]
  have hmax : c.toNat < 0x110000 := by
    rcases c.valid with hv | hv
    · exact lt_trans hv (by decide)
    · exact hv.2
  have hcont : ∀ x : UInt8, (x &&& 63 ||| 128).toNat = x.toNat % 64 + 0x80 :=
    fun x => toNat_mask 6 2 rfl rfl
  by_cases hlt2 : c.toNat < 0x800
  · left
    rw [if_pos hlt2] at hsize
    refine ⟨hlt2, ?_⟩
    rw [String.utf8EncodeChar_eq_cons_cons hsize]
    simp only [List.map_cons, List.map_nil, hcont, toNat_low,
      toNat_mask (l := 31) (m := 192) 5 6 rfl rfl, toNat_shift c (s := 6) 6 rfl (by decide)]
    simp only [List.cons.injEq, and_true]
    have h192 : (192 : UInt8).toNat = 192 := rfl
    omega
  · by_cases hlt3 : c.toNat < 0x10000
    · right; left
      rw [if_neg hlt2, if_pos hlt3] at hsize
      refine ⟨by omega, hlt3, ?_⟩
      rw [String.utf8EncodeChar_eq_cons_cons_cons hsize]
      simp only [List.map_cons, List.map_nil, hcont, toNat_low,
        toNat_mask (l := 15) (m := 224) 4 14 rfl rfl, toNat_shift c (s := 6) 6 rfl (by decide),
        toNat_shift c (s := 12) 12 rfl (by decide)]
      simp only [List.cons.injEq, and_true]
      have h224 : (224 : UInt8).toNat = 224 := rfl
      omega
    · right; right
      rw [if_neg hlt2, if_neg hlt3] at hsize
      refine ⟨by omega, ?_⟩
      rw [String.utf8EncodeChar_eq_cons_cons_cons_cons hsize]
      simp only [List.map_cons, List.map_nil, hcont, toNat_low,
        toNat_mask (l := 7) (m := 240) 3 30 rfl rfl, toNat_shift c (s := 6) 6 rfl (by decide),
        toNat_shift c (s := 12) 12 rfl (by decide), toNat_shift c (s := 18) 18 rfl (by decide)]
      simp only [List.cons.injEq, and_true]
      have h240 : (240 : UInt8).toNat = 240 := rfl
      omega

section Continue

variable {b : UInt8} {bs : Bytes} {p : Begun}

theorem chunks_lead (h : lead b = (some p, [])) : chunks none (b :: bs) = chunks (some p) bs := by
  rw [chunks_cons, step, h, List.nil_append]

/-- A continuation byte that does not complete the character. -/
theorem chunks_more (hlo : p.lo ≤ b.toNat) (hhi : b.toNat ≤ p.hi) (hl : 1 < p.left) :
    chunks (some p) (b :: bs) =
      chunks (some ⟨p.left - 1, 0x80, 0xBF, p.bits * 64 + (b.toNat - 0x80)⟩) bs := by
  rw [chunks_cons, step, if_pos ⟨hlo, hhi⟩, if_neg (by omega), List.nil_append]

/-- A continuation byte that completes it. -/
theorem chunks_last (hlo : p.lo ≤ b.toNat) (hhi : b.toNat ≤ p.hi) (hl : p.left ≤ 1) :
    chunks (some p) (b :: bs) =
      some (Char.ofNat (p.bits * 64 + (b.toNat - 0x80))) :: chunks none bs := by
  rw [chunks_cons, step, if_pos ⟨hlo, hhi⟩, if_pos hl, List.singleton_append]

theorem lead_two (h : 0xC2 ≤ b.toNat ∧ b.toNat ≤ 0xDF) :
    lead b = (some ⟨1, 0x80, 0xBF, b.toNat - 0xC0⟩, []) := by
  unfold lead
  rw [if_neg (by omega), if_pos h]

theorem lead_three (h : 0xE0 ≤ b.toNat ∧ b.toNat ≤ 0xEF) :
    lead b = (some ⟨2, if b.toNat = 0xE0 then 0xA0 else 0x80,
      if b.toNat = 0xED then 0x9F else 0xBF, b.toNat - 0xE0⟩, []) := by
  unfold lead
  rw [if_neg (by omega), if_neg (by omega)]
  split_ifs <;> first | omega | simp_all

theorem lead_four (h : 0xF0 ≤ b.toNat ∧ b.toNat ≤ 0xF4) :
    lead b = (some ⟨3, if b.toNat = 0xF0 then 0x90 else 0x80,
      if b.toNat = 0xF4 then 0x8F else 0xBF, b.toNat - 0xF0⟩, []) := by
  unfold lead
  rw [if_neg (by omega), if_neg (by omega), if_neg (by omega), if_neg (by omega),
    if_neg (by omega)]
  split_ifs <;> first | omega | simp_all

end Continue

/-- **A character is read back from its bytes.** -/
theorem chunks_encodeChar (c : Char) (bs : Bytes) :
    chunks none (String.utf8EncodeChar c ++ bs) = some c :: chunks none bs := by
  by_cases h : c.toNat < 128
  · have hb : (UInt8.ofNat c.toNat).toNat = c.toNat := toNat_ofNat (by omega)
    rw [encode_ascii h, List.singleton_append, chunks_cons, step,
      lead_ascii (by rw [hb]; exact h), hb, Char.ofNat_toNat]
    rfl
  have hof : ∀ n, n = c.toNat → Char.ofNat n = c := by
    intro n hn
    rw [hn, Char.ofNat_toNat]
  have hvalid : c.toNat < 0xD800 ∨ 0xDFFF < c.toNat ∧ c.toNat < 0x110000 := c.valid
  rcases encode_wide c (by omega) with ⟨h1, he⟩ | ⟨h0, h1, he⟩ | ⟨h0, he⟩
  · obtain ⟨x, l, hl, hx, he⟩ := List.map_eq_cons_iff.1 he
    obtain ⟨y, l, rfl, hy, he⟩ := List.map_eq_cons_iff.1 he
    obtain rfl := List.map_eq_nil_iff.1 he
    rw [hl, List.cons_append, chunks_lead (lead_two (by omega)), List.cons_append,
      chunks_last (by simp only; omega) (by simp only; omega) (by simp only; omega),
      hof _ (by simp only; omega), List.nil_append]
  · obtain ⟨x, l, hl, hx, he⟩ := List.map_eq_cons_iff.1 he
    obtain ⟨y, l, rfl, hy, he⟩ := List.map_eq_cons_iff.1 he
    obtain ⟨z, l, rfl, hz, he⟩ := List.map_eq_cons_iff.1 he
    obtain rfl := List.map_eq_nil_iff.1 he
    have hlo : (if x.toNat = 0xE0 then 0xA0 else 0x80) ≤ y.toNat := by split_ifs <;> omega
    have hhi : y.toNat ≤ (if x.toNat = 0xED then 0x9F else 0xBF) := by split_ifs <;> omega
    rw [hl, List.cons_append, chunks_lead (lead_three (by omega)), List.cons_append,
      chunks_more hlo hhi (by simp only; omega), List.cons_append,
      chunks_last (by simp only; omega) (by simp only; omega) (by simp only; omega),
      hof _ (by simp only; omega), List.nil_append]
  · obtain ⟨x, l, hl, hx, he⟩ := List.map_eq_cons_iff.1 he
    obtain ⟨y, l, rfl, hy, he⟩ := List.map_eq_cons_iff.1 he
    obtain ⟨z, l, rfl, hz, he⟩ := List.map_eq_cons_iff.1 he
    obtain ⟨w, l, rfl, hw, he⟩ := List.map_eq_cons_iff.1 he
    obtain rfl := List.map_eq_nil_iff.1 he
    have hlo : (if x.toNat = 0xF0 then 0x90 else 0x80) ≤ y.toNat := by split_ifs <;> omega
    have hhi : y.toNat ≤ (if x.toNat = 0xF4 then 0x8F else 0xBF) := by split_ifs <;> omega
    rw [hl, List.cons_append, chunks_lead (lead_four (by omega)), List.cons_append,
      chunks_more hlo hhi (by simp only; omega), List.cons_append,
      chunks_more (by simp only; omega) (by simp only; omega) (by simp only; omega),
      List.cons_append,
      chunks_last (by simp only; omega) (by simp only; omega) (by simp only; omega),
      hof _ (by simp only; omega), List.nil_append]

theorem chunks_encode (s : Str) : chunks none (encode s) = s.map some := by
  induction s with
  | nil => rfl
  | cons c s ih => rw [encode_cons, chunks_encodeChar, ih, List.map_cons]

/-- **Text is read back.** -/
theorem fromUtf8_encode (s : Str) : fromUtf8 (encode s) = some s := by
  unfold fromUtf8
  rw [chunks_encode, if_pos (by simp [List.all_map])]
  simp

theorem fromUtf8Lossy_encode (s : Str) : fromUtf8Lossy (encode s) = s := by
  unfold fromUtf8Lossy
  rw [chunks_encode, List.map_map]
  exact List.map_id s

theorem encode_injective {s t : Str} (h : encode s = encode t) : s = t := by
  have hs := fromUtf8Lossy_encode s
  rw [h, fromUtf8Lossy_encode] at hs
  exact hs.symm

/-- **A text holds a NUL when its bytes do.** -/
theorem zero_mem_encode {s : Str} : (0 : UInt8) ∈ encode s ↔ '\x00' ∈ s := by
  induction s with
  | nil => simp
  | cons c s ih =>
    have hchar : (0 : UInt8) ∈ String.utf8EncodeChar c ↔ '\x00' = c := by
      constructor
      · intro h
        by_cases hc : c.toNat < 128
        · rw [encode_ascii hc, List.mem_singleton] at h
          have hn : c.toNat = 0 := by
            rw [← toNat_ofNat hc, ← h]
            rfl
          rw [← Char.ofNat_toNat c, hn]
        · have hb := encode_not_ascii (by omega) _ h
          exact absurd hb (by decide)
      · rintro rfl
        decide
    rw [encode_cons, List.mem_append, List.mem_cons, hchar, ih]

/-! ## CR LF -/

/-- Whether a list holds an item of the first kind right before one of the second; `p`
says that one of the first kind stands before it. -/
def pairIn {α : Type} (isCr isLf : α → Bool) : Bool → List α → Bool
  | _, [] => false
  | p, a :: l => (p && isLf a) || pairIn isCr isLf (isCr a) l

variable {α : Type} {isCr isLf : α → Bool}

theorem pairIn_true (l : List α) :
    pairIn isCr isLf true l = (l.head?.any isLf || pairIn isCr isLf false l) := by
  cases l <;> simp [pairIn]

theorem pairIn_skip {p : Bool} {a l : List α} (h : ∀ x ∈ a, isCr x = false ∧ isLf x = false)
    (hne : a ≠ []) : pairIn isCr isLf p (a ++ l) = pairIn isCr isLf false l := by
  induction a generalizing p with
  | nil => exact absurd rfl hne
  | cons x a ih =>
    obtain ⟨h1, h2⟩ := h x (by simp)
    rw [List.cons_append, pairIn, h1, h2, Bool.and_false, Bool.false_or]
    cases a with
    | nil => rfl
    | cons y a => exact ih (fun z hz => h z (by simp [hz])) (by simp)

theorem pairIn_concat {p : Bool} {l : List α} {a : α} (h : isLf a = false) :
    pairIn isCr isLf p (l ++ [a]) = pairIn isCr isLf p l := by
  induction l generalizing p with
  | nil => simp [pairIn, h]
  | cons b l ih => rw [List.cons_append, pairIn, pairIn, ih]

theorem pairIn_map {β : Type} (f : β → α) (p : Bool) (l : List β) :
    pairIn isCr isLf p (l.map f) = pairIn (fun b => isCr (f b)) (fun b => isLf (f b)) p l := by
  induction l generalizing p with
  | nil => rfl
  | cons b l ih => rw [List.map_cons, pairIn, pairIn, ih]

/-- The pair is an infix. -/
theorem pairIn_iff (l : List α) : pairIn isCr isLf false l = true ↔
    ∃ x a b y, l = x ++ a :: b :: y ∧ isCr a = true ∧ isLf b = true := by
  induction l with
  | nil => simp [pairIn]
  | cons c l ih =>
    rw [pairIn, Bool.false_and, Bool.false_or]
    constructor
    · intro h
      cases hc : isCr c with
      | false =>
        rw [hc, ih] at h
        obtain ⟨x, a, b, y, rfl, ha, hb⟩ := h
        exact ⟨c :: x, a, b, y, rfl, ha, hb⟩
      | true =>
        rw [hc, pairIn_true, Bool.or_eq_true, ih] at h
        rcases h with h | ⟨x, a, b, y, rfl, ha, hb⟩
        · cases l with
          | nil => simp at h
          | cons d l => exact ⟨[], c, d, l, rfl, hc, by simpa using h⟩
        · exact ⟨c :: x, a, b, y, rfl, ha, hb⟩
    · rintro ⟨x, a, b, y, hl, ha, hb⟩
      cases x with
      | nil =>
        obtain ⟨rfl, rfl⟩ := List.cons.inj hl
        rw [ha, pairIn, hb]
        rfl
      | cons d x =>
        obtain ⟨rfl, rfl⟩ := List.cons.inj hl
        have := ih.2 ⟨x, a, b, y, rfl, ha, hb⟩
        cases isCr c with
        | false => exact this
        | true => rw [pairIn_true, this, Bool.or_true]

/-- A CR LF pair in bytes, after a CR or not. -/
def crlfBytes : Bool → Bytes → Bool := pairIn (· == 13) (· == 10)

/-- A CR LF pair in characters, after a CR or not. -/
def crlfChars : Bool → Str → Bool := pairIn (· == '\r') (· == '\n')

theorem crlfBytes_skip {p : Bool} {a : Bytes} (h : ∀ b ∈ a, 128 ≤ b.toNat) (hne : a ≠ [])
    (s : Bytes) : crlfBytes p (a ++ s) = crlfBytes false s := by
  refine pairIn_skip ?_ hne
  intro b hb
  have := h b hb
  simp only [beq_eq_false_iff_ne, ne_eq]
  exact ⟨by rintro rfl; simp at this, by rintro rfl; simp at this⟩

theorem crlfChars_skip {p : Bool} {a : Str} (h : ∀ c ∈ a, (c == '\r') = false ∧ (c == '\n') = false)
    (hne : a ≠ []) (s : Str) : crlfChars p (a ++ s) = crlfChars false s := pairIn_skip h hne

/-- Case mapping keeps the pairs. -/
theorem crlf_lower_upper (p : Bool) (s : Str) :
    crlfChars p (Str.lower (Str.upper s)) = crlfChars p s := by
  have hcase : ∀ d : Char, d = '\r' ∨ d = '\n' → ∀ c : Char,
      (c.toUpper.toLower == d) = (c == d) := by
    intro d hd c
    have hn : d.toNat = 13 ∨ d.toNat = 10 := by
      rcases hd with rfl | rfl
      · exact Or.inl rfl
      · exact Or.inr rfl
    rw [Bool.eq_iff_iff, beq_iff_eq, beq_iff_eq, ← Char.toNat_inj, ← Char.toNat_inj,
      Str.toNat_toLower, Str.toNat_toUpper]
    split <;> split <;> omega
  unfold Str.lower Str.upper crlfChars
  rw [pairIn_map, pairIn_map]
  simp only [hcase '\r' (Or.inl rfl), hcase '\n' (Or.inr rfl)]

/-- **Encoding keeps the pairs.** -/
theorem crlf_encode (p : Bool) (s : Str) : crlfBytes p (encode s) = crlfChars p s := by
  induction s generalizing p with
  | nil => rfl
  | cons c s ih =>
    rw [encode_cons]
    by_cases hc : c.toNat < 128
    · have hb : (UInt8.ofNat c.toNat).toNat = c.toNat := toNat_ofNat (by omega)
      have hcr : (UInt8.ofNat c.toNat == 13) = (c == '\r') := by
        rw [Bool.eq_iff_iff, beq_iff_eq, beq_iff_eq, ← UInt8.toNat_inj, hb, ← Char.toNat_inj]
        rfl
      have hlf : (UInt8.ofNat c.toNat == 10) = (c == '\n') := by
        rw [Bool.eq_iff_iff, beq_iff_eq, beq_iff_eq, ← UInt8.toNat_inj, hb, ← Char.toNat_inj]
        rfl
      rw [encode_ascii hc, List.singleton_append, crlfBytes, crlfChars, pairIn, pairIn, hcr, hlf]
      congr 1
      exact ih _
    · have hbytes := encode_not_ascii (c := c) (by omega)
      have hne : String.utf8EncodeChar c ≠ [] := by
        rw [← List.length_pos_iff, String.length_utf8EncodeChar]
        exact Char.utf8Size_pos c
      have hc' : ∀ d : Char, d.toNat < 128 → (c == d) = false := by
        intro d hd
        rw [beq_eq_false_iff_ne]
        rintro rfl
        exact hc hd
      rw [crlfBytes_skip hbytes hne, crlfChars, pairIn, hc' '\r' (by decide), hc' '\n' (by decide),
        Bool.and_false, Bool.false_or]
      exact ih false

/-- A character that is neither of the pair. -/
def Plain (c : Char) : Prop := (c == '\r') = false ∧ (c == '\n') = false

theorem plain_ofNat {n : ℕ} (h : 128 ≤ n) : Plain (Char.ofNat n) := by
  have hne : ∀ d : Char, d.toNat < 128 → d ≠ '\x00' → (Char.ofNat n == d) = false := by
    intro d hd h0
    rw [beq_eq_false_iff_ne]
    intro he
    by_cases hv : n.isValidChar
    · have hn := toNat_ofNat_valid hv
      rw [he] at hn
      omega
    · rw [Char.ofNat, dif_neg hv] at he
      exact h0 he.symm
  exact ⟨hne '\r' (by decide) (by decide), hne '\n' (by decide) (by decide)⟩

/-- The bits of a begun character are those of a code point past ASCII. -/
def Begun.Wide (p : Begun) : Prop := 128 ≤ (p.bits * 64 + (p.lo - 0x80)) * 64 ^ (p.left - 1) ∧
  1 ≤ p.left ∧ 0x80 ≤ p.lo

theorem lead_wide {b : UInt8} (h : 128 ≤ b.toNat) :
    (∀ p ∈ (lead b).1, p.Wide) ∧ (∀ c ∈ (lead b).2, c = none) ∧
      ((lead b).1 = none → (lead b).2 ≠ []) := by
  have hwide : ∀ left lo hi bits, 128 ≤ (bits * 64 + (lo - 0x80)) * 64 ^ (left - 1) → 1 ≤ left →
      0x80 ≤ lo → ∀ p ∈ some (Begun.mk left lo hi bits), p.Wide := by
    intro left lo hi bits h1 h2 h3 p hp
    obtain rfl := Option.some.inj hp
    exact ⟨h1, h2, h3⟩
  unfold lead
  simp only
  rw [if_neg (by omega)]
  split_ifs
  all_goals first
    | exact ⟨hwide _ _ _ _ (by omega) (by omega) (by omega), by simp, by simp⟩
    | exact ⟨by simp, by simp, by simp⟩

/-- **One byte of the decoder.** An ASCII byte is read as itself; any other gives nothing
that looks like a CR or an LF. -/
theorem step_cases {st : Option Begun} (hst : ∀ p ∈ st, p.Wide) (b : UInt8) :
    (b.toNat < 128 ∧ (step st b).1 = none ∧
      (step st b).2 = finish st ++ [some (Char.ofNat b.toNat)]) ∨
    (128 ≤ b.toNat ∧ (∀ p ∈ (step st b).1, p.Wide) ∧
      (∀ c ∈ (step st b).2, Plain (c.getD '\uFFFD')) ∧
      ((step st b).1 = none → (step st b).2 ≠ [])) := by
  have hnone : Plain ((none : Option Char).getD '\uFFFD') := by unfold Plain; decide
  by_cases hb : b.toNat < 128
  · left
    refine ⟨hb, ?_⟩
    cases st with
    | none => rw [step, lead_ascii hb]; exact ⟨rfl, rfl⟩
    | some p =>
      -- no character in progress takes an ASCII byte
      have hlo := (hst p rfl).2.2
      rw [step, if_neg (by omega), lead_ascii hb]
      exact ⟨rfl, rfl⟩
  · right
    obtain ⟨h1, h2, h3⟩ := lead_wide (b := b) (by omega)
    refine ⟨by omega, ?_⟩
    cases st with
    | none =>
      refine ⟨h1, fun c hc => ?_, h3⟩
      rw [h2 c hc]; exact hnone
    | some p =>
      obtain ⟨hw, hleft, hlo⟩ := hst p rfl
      rw [step]
      split
      · -- a continuation byte: the code point is complete, or wider still
        rename_i hr
        have hbits : p.bits * 64 + (p.lo - 0x80) ≤ p.bits * 64 + (b.toNat - 0x80) := by omega
        split
        · rename_i hl
          have hp : 64 ^ (p.left - 1) = 1 := by rw [show p.left - 1 = 0 by omega, Nat.pow_zero]
          rw [hp, Nat.mul_one] at hw
          refine ⟨by simp, ?_, by simp⟩
          intro c hc
          rw [List.mem_singleton] at hc
          rw [hc, Option.getD_some]
          exact plain_ofNat (hw.trans hbits)
        · rename_i hl
          refine ⟨?_, by simp, by simp⟩
          intro q hq
          obtain rfl := Option.some.inj hq
          refine ⟨?_, by simp only; omega, le_rfl⟩
          simp only [Nat.sub_self, Nat.add_zero]
          have hpow : 64 * 64 ^ (p.left - 1 - 1) = 64 ^ (p.left - 1) := by
            rw [Nat.mul_comm, ← Nat.pow_succ, show (p.left - 1 - 1).succ = p.left - 1 by omega]
          rw [Nat.mul_assoc, hpow]
          exact hw.trans (Nat.mul_le_mul_right _ hbits)
      · -- the byte ends an ill-formed part and is read afresh
        refine ⟨h1, ?_, by simp⟩
        intro c hc
        rcases List.mem_cons.1 hc with rfl | hc
        · exact hnone
        · rw [h2 c hc]; exact hnone

/-- **Lossy decoding keeps the pairs.** A character in progress hides what stood before
it. -/
theorem crlf_chunks (bs : Bytes) : ∀ (st : Option Begun) (p : Bool), (∀ q ∈ st, q.Wide) →
    crlfChars p ((chunks st bs).map (·.getD '\uFFFD')) = crlfBytes (p && st.isNone) bs := by
  induction bs with
  | nil =>
    intro st p _
    cases st with
    | none => rfl
    | some q => cases p <;> rfl
  | cons b bs ih =>
    intro st p hst
    rw [chunks_cons, List.map_append]
    rcases step_cases hst b with ⟨hb, h1, h2⟩ | ⟨hb, h1, h2, h3⟩
    · -- an ASCII byte comes out as itself
      have hcr : (Char.ofNat b.toNat == '\r') = (b == 13) := by
        rw [Bool.eq_iff_iff, beq_iff_eq, beq_iff_eq, ← Char.toNat_inj, toNat_ofNat_ascii hb,
          ← UInt8.toNat_inj]
        rfl
      have hlf : (Char.ofNat b.toNat == '\n') = (b == 10) := by
        rw [Bool.eq_iff_iff, beq_iff_eq, beq_iff_eq, ← Char.toNat_inj, toNat_ofNat_ascii hb,
          ← UInt8.toNat_inj]
        rfl
      have hih := ih none (b == 13) (by simp)
      rw [Option.isNone_none, Bool.and_true] at hih
      have hbytes : crlfBytes (p && st.isNone) (b :: bs) =
          ((p && st.isNone && b == 10) || crlfBytes (b == 13) bs) := rfl
      rw [h1, h2, hbytes, ← hih]
      cases st with
      | none => simp only [finish, List.nil_append, List.map_cons, List.map_nil,
          Option.getD_some, List.singleton_append, crlfChars, pairIn, hcr, hlf, Option.isNone_none,
          Bool.and_true]
      | some q =>
        have hfffd : ('\uFFFD' == '\r') = false ∧ ('\uFFFD' == '\n') = false := by decide
        simp only [finish, List.map_cons, List.map_nil, Option.getD_none,
          Option.getD_some, List.cons_append, List.nil_append, crlfChars, pairIn, hcr, hfffd,
          Option.isNone_some, Bool.and_false, Bool.false_and, Bool.false_or]
    · -- any other byte parts what stands around it
      have hbytes : ∀ r, crlfBytes r (b :: bs) = crlfBytes false bs := fun r =>
        crlfBytes_skip (a := [b]) (by simpa using hb) (by simp) bs
      rw [hbytes]
      by_cases hout : (step st b).2 = []
      · -- nothing is emitted, so a character is in progress
        rw [hout, List.map_nil, List.nil_append, ih _ p h1]
        cases hs : (step st b).1 with
        | none => exact absurd hout (h3 hs)
        | some q => rw [Option.isNone_some, Bool.and_false]
      · rw [crlfChars_skip _ (by simpa using hout)]
        · have := ih (step st b).1 false h1
          rwa [Bool.false_and] at this
        · intro c hc
          obtain ⟨d, hd, rfl⟩ := List.mem_map.1 hc
          exact h2 d hd

theorem crlf_lossy (bs : Bytes) : crlfChars false (fromUtf8Lossy bs) = crlfBytes false bs :=
  crlf_chunks bs none false (by simp)

/-- **Bytes that are neither of the pair** are read as characters that are neither. -/
theorem plain_chunks {bs : Bytes} (h : ∀ b ∈ bs, b ≠ 13 ∧ b ≠ 10) {st : Option Begun}
    (hst : ∀ q ∈ st, q.Wide) : ∀ c ∈ chunks st bs, Plain (c.getD '\uFFFD') := by
  have hfinish : ∀ st : Option Begun, ∀ c ∈ finish st, Plain (c.getD '\uFFFD') := by
    rintro (_ | q) c hc
    · cases hc
    · rw [List.mem_singleton.1 hc]
      unfold Plain
      decide
  induction bs generalizing st with
  | nil => exact hfinish st
  | cons b bs ih =>
    have hb := h b (by simp)
    have hbs : ∀ b ∈ bs, b ≠ 13 ∧ b ≠ 10 := fun b hb => h b (by simp [hb])
    rw [chunks_cons]
    intro c hc
    rcases step_cases hst b with ⟨hlt, h1, h2⟩ | ⟨-, h1, h2, -⟩
    · rw [h1, h2] at hc
      rcases List.mem_append.1 hc with hc | hc
      · rcases List.mem_append.1 hc with hc | hc
        · exact hfinish st c hc
        · -- an ASCII byte is read as itself
          rw [List.mem_singleton.1 hc, Option.getD_some]
          have hne : ∀ d : Char, d.toNat < 128 → b ≠ UInt8.ofNat d.toNat →
              (Char.ofNat b.toNat == d) = false := by
            intro d hd hbd
            rw [beq_eq_false_iff_ne]
            rintro rfl
            rw [toNat_ofNat_ascii hlt, UInt8.ofNat_toNat] at hbd
            exact hbd rfl
          exact ⟨hne '\r' (by decide) hb.1, hne '\n' (by decide) hb.2⟩
      · exact ih hbs (by simp) c hc
    · rcases List.mem_append.1 hc with hc | hc
      · exact h2 c hc
      · exact ih hbs h1 c hc

theorem plain_lossy {bs : Bytes} (h : ∀ b ∈ bs, b ≠ 13 ∧ b ≠ 10) : ∀ c ∈ fromUtf8Lossy bs, Plain c := by
  intro c hc
  obtain ⟨d, hd, rfl⟩ := List.mem_map.1 hc
  exact plain_chunks h (by simp) d hd

/-- Case mapping keeps such characters. -/
theorem plain_lower_upper {c : Char} (h : Plain c) : Plain c.toUpper.toLower := by
  have hcase : ∀ d : Char, d.toNat = 13 ∨ d.toNat = 10 → (c == d) = false →
      (c.toUpper.toLower == d) = false := by
    intro d hd hc
    rw [beq_eq_false_iff_ne, ne_eq, ← Char.toNat_inj] at hc ⊢
    rw [Str.toNat_toLower, Str.toNat_toUpper]
    split <;> split <;> omega
  exact ⟨hcase '\r' (.inl rfl) h.1, hcase '\n' (.inr rfl) h.2⟩

/-- They are written with bytes that are neither. -/
theorem encode_plain {s : Str} (h : ∀ c ∈ s, Plain c) : ∀ b ∈ encode s, b ≠ 13 ∧ b ≠ 10 := by
  intro b hb
  obtain ⟨c, hc, hb⟩ := List.mem_flatMap.1 hb
  have hplain := h c hc
  by_cases hlt : c.toNat < 128
  · rw [encode_ascii hlt, List.mem_singleton] at hb
    have hne : ∀ d : Char, d.toNat < 128 → (c == d) = false → b ≠ UInt8.ofNat d.toNat := by
      rintro d hd hcd rfl
      have hnat := congrArg UInt8.toNat hb
      rw [toNat_ofNat hd, toNat_ofNat hlt, Char.toNat_inj] at hnat
      exact beq_eq_false_iff_ne.1 hcd hnat.symm
    exact ⟨hne '\r' (by decide) hplain.1, hne '\n' (by decide) hplain.2⟩
  · have hwide := encode_not_ascii (Nat.not_lt.1 hlt) b hb
    exact ⟨by rintro rfl; simp at hwide, by rintro rfl; simp at hwide⟩

end Utf8

end EtherealDb
