import EtherealDb.Text.Utf8

/-!
# RESP2

The replies of the RESP2 grammar, their encoding, and a reader. The reader takes the
first reply of a byte string and the bytes after it; its fuel bounds the nesting of
arrays.

* `parse_encode`: **a well-formed reply followed by anything is read back**, and nothing
  more is consumed.
-/

namespace EtherealDb.Resp2

/-- A reply. -/
inductive Reply where
  | simple (text : Bytes)
  | error (text : Bytes)
  | int (n : ℤ)
  | bulk (data : Bytes)
  | array (items : List Reply)
  | nullBulk
  | nullArray

/-- CR LF. -/
def crlf : Bytes := [13, 10]

/-- The bytes of an ASCII text. -/
def ascii (s : Str) : Bytes := s.map fun c => UInt8.ofNat c.toNat

/-- A natural number in decimal. -/
def natBytes (n : ℕ) : Bytes := ascii (Nat.toDigits 10 n)

/-- An integer in decimal. -/
def intBytes (n : ℤ) : Bytes := if n < 0 then 45 :: natBytes n.natAbs else natBytes n.natAbs

/-- The bytes of a reply. -/
def encode : Reply → Bytes
  | .simple t => 43 :: t ++ crlf
  | .error t => 45 :: t ++ crlf
  | .int n => 58 :: intBytes n ++ crlf
  | .bulk d => 36 :: natBytes d.length ++ crlf ++ d ++ crlf
  | .array l => 42 :: natBytes l.length ++ crlf ++ l.flatMap encode
  | .nullBulk => 36 :: 45 :: 49 :: crlf
  | .nullArray => 42 :: 45 :: 49 :: crlf

/-- The text of a line holds no CR and no LF. -/
def LineText (t : Bytes) : Prop := ∀ b ∈ t, b ≠ 13 ∧ b ≠ 10

instance (t : Bytes) : Decidable (LineText t) := List.decidableBAll _ t

/-- A reply whose lines are lines. -/
inductive WellFormed : Reply → Prop where
  | simple {t : Bytes} (h : LineText t) : WellFormed (.simple t)
  | error {t : Bytes} (h : LineText t) : WellFormed (.error t)
  | int (n : ℤ) : WellFormed (.int n)
  | bulk (d : Bytes) : WellFormed (.bulk d)
  | array {l : List Reply} (h : ∀ r ∈ l, WellFormed r) : WellFormed (.array l)
  | nullBulk : WellFormed .nullBulk
  | nullArray : WellFormed .nullArray

/-! ## Reading -/

/-- A line up to its CR LF, and the bytes after it; a lone CR or LF is refused. -/
def takeLine : Bytes → Option (Bytes × Bytes)
  | [] => none
  | b :: s =>
    if b = 13 then (if s.head? = some 10 then some ([], s.tail) else none)
    else if b = 10 then none
    else (takeLine s).map fun p => (b :: p.1, p.2)

/-- A non-empty run of decimal digits. -/
def readNat (t : Bytes) : Option ℕ :=
  if t ≠ [] ∧ t.all (fun b => 48 ≤ b && b ≤ 57) then
    some (Nat.ofDigitChars 10 (t.map fun b => Char.ofNat b.toNat) 0)
  else none

/-- An optional minus sign and digits. -/
def readInt : Bytes → Option ℤ
  | 45 :: t => (readNat t).map fun n : ℕ => -(n : ℤ)
  | t => (readNat t).map fun n : ℕ => (n : ℤ)

/-- The first `n` bytes and the CR LF after them. -/
def takeBulk (n : ℕ) (s : Bytes) : Option (Bytes × Bytes) :=
  if (s.drop n).take 2 = crlf then some (s.take n, s.drop (n + 2)) else none

/-- `n` items in turn. -/
def many {α : Type} (p : Bytes → Option (α × Bytes)) : ℕ → Bytes → Option (List α × Bytes)
  | 0, s => some ([], s)
  | n + 1, s => (p s).bind fun a => (many p n a.2).map fun l => (a.1 :: l.1, l.2)

/-- **The first reply of a byte string**, and the bytes after it. -/
def parse : ℕ → Bytes → Option (Reply × Bytes)
  | 0, _ => none
  | _, [] => none
  | fuel + 1, b :: s =>
    (takeLine s).bind fun line =>
      if b = 43 then some (.simple line.1, line.2)
      else if b = 45 then some (.error line.1, line.2)
      else if b = 58 then (readInt line.1).map fun n => (.int n, line.2)
      else if b = 36 then (readInt line.1).bind fun n =>
        if n = -1 then some (.nullBulk, line.2)
        else if n < 0 then none
        else (takeBulk n.toNat line.2).map fun d => (.bulk d.1, d.2)
      else if b = 42 then (readInt line.1).bind fun n =>
        if n = -1 then some (.nullArray, line.2)
        else if n < 0 then none
        else (many (parse fuel) n.toNat line.2).map fun l => (.array l.1, l.2)
      else none

theorem takeLine_append {t : Bytes} (h : LineText t) (s : Bytes) :
    takeLine (t ++ crlf ++ s) = some (t, s) := by
  induction t with
  | nil => rfl
  | cons b t ih =>
    obtain ⟨h1, h2⟩ := h b (by simp)
    have := ih fun c hc => h c (by simp [hc])
    simp only [List.cons_append, takeLine, if_neg h1, if_neg h2, this, Option.map_some]

theorem digit_toNat {n : ℕ} {c : Char} (h : c ∈ Nat.toDigits 10 n) :
    48 ≤ c.toNat ∧ c.toNat ≤ 57 :=
  (Str.isDigit_iff c).1 (Nat.isDigit_of_mem_toDigits (by decide) (by decide) h)

theorem natBytes_digits (n : ℕ) : ∀ b ∈ natBytes n, 48 ≤ b.toNat ∧ b.toNat ≤ 57 := by
  intro b hb
  obtain ⟨c, hc, rfl⟩ := List.mem_map.1 hb
  have := digit_toNat hc
  rw [Utf8.toNat_ofNat (by omega)]
  exact this

theorem readNat_natBytes (n : ℕ) : readNat (natBytes n) = some n := by
  have hmap : (natBytes n).map (fun b => Char.ofNat b.toNat) = Nat.toDigits 10 n := by
    unfold natBytes ascii
    rw [List.map_map]
    conv_rhs => rw [← List.map_id (Nat.toDigits 10 n)]
    refine List.map_congr_left ?_
    intro c hc
    have := digit_toNat hc
    simp only [Function.comp_apply, id]
    rw [Utf8.toNat_ofNat (by omega), Char.ofNat_toNat]
  unfold readNat
  rw [if_pos, hmap]
  · exact congrArg some Nat.ofDigitChars_ten_toDigits
  · refine ⟨by simp [natBytes, ascii, Nat.toDigits_ne_nil], ?_⟩
    rw [List.all_eq_true]
    intro b hb
    have := natBytes_digits n b hb
    simp only [Bool.and_eq_true, decide_eq_true_eq, UInt8.le_iff_toNat_le]
    exact this

theorem readInt_natBytes (n : ℕ) : readInt (natBytes n) = some (n : ℤ) := by
  unfold readInt
  split
  · rename_i t ht
    have := natBytes_digits n 45 (by rw [ht]; simp)
    simp at this
  · rw [readNat_natBytes]; rfl

theorem readInt_intBytes (n : ℤ) : readInt (intBytes n) = some n := by
  unfold intBytes
  split
  · rw [readInt, readNat_natBytes, Option.map_some]
    congr 1
    omega
  · rw [readInt_natBytes]
    congr 1
    omega

theorem lineText_natBytes (n : ℕ) : LineText (natBytes n) := by
  intro b hb
  have := natBytes_digits n b hb
  exact ⟨by rintro rfl; simp at this, by rintro rfl; simp at this⟩

theorem lineText_intBytes (n : ℤ) : LineText (intBytes n) := by
  unfold intBytes
  split
  · intro b hb
    rcases List.mem_cons.1 hb with rfl | hb
    · decide
    · exact lineText_natBytes _ b hb
  · exact lineText_natBytes _

theorem takeBulk_append (d s : Bytes) : takeBulk d.length (d ++ crlf ++ s) = some (d, s) := by
  unfold takeBulk
  rw [List.append_assoc, List.drop_left, if_pos (show (crlf ++ s).take 2 = crlf from rfl),
    List.take_left, ← List.drop_drop,
    List.drop_left]
  rfl

/-- **Items that are read back one by one are read back in turn.** -/
theorem many_map {α β : Type} {p : Bytes → Option (β × Bytes)} {e : α → Bytes} {g : α → β}
    {l : List α} (h : ∀ a ∈ l, ∀ s, p (e a ++ s) = some (g a, s)) (s : Bytes) :
    many p l.length (l.flatMap e ++ s) = some (l.map g, s) := by
  induction l with
  | nil => rfl
  | cons a l ih =>
    rw [List.length_cons, many, List.flatMap_cons, List.append_assoc, h a (by simp),
      Option.bind_some, ih fun b hb => h b (by simp [hb])]
    rfl

theorem many_flatMap {α : Type} {p : Bytes → Option (α × Bytes)} {e : α → Bytes} {l : List α}
    (h : ∀ a ∈ l, ∀ s, p (e a ++ s) = some (a, s)) (s : Bytes) :
    many p l.length (l.flatMap e ++ s) = some (l, s) := by
  have hmap := many_map (g := id) h s
  rwa [List.map_id] at hmap

theorem length_many {α : Type} {p : Bytes → Option (α × Bytes)} {n : ℕ} {s r : Bytes} {l : List α}
    (h : many p n s = some (l, r)) : l.length = n := by
  induction n generalizing s l with
  | zero =>
    obtain ⟨rfl, -⟩ := Prod.mk.inj (Option.some.inj h)
    rfl
  | succ n ih =>
    obtain ⟨a, -, h⟩ := Option.bind_eq_some_iff.1 h
    obtain ⟨⟨l', r'⟩, hl, he⟩ := Option.map_eq_some_iff.1 h
    obtain ⟨rfl, rfl⟩ := Prod.mk.inj he
    exact congrArg (· + 1) (ih hl)

/-- How deep arrays nest in a reply. -/
def depth : Reply → ℕ
  | .array l => (l.map depth).foldr max 0 + 1
  | _ => 1

theorem depth_le_of_mem {r : Reply} {l : List Reply} (h : r ∈ l) :
    depth r ≤ (l.map depth).foldr max 0 := by
  induction l with
  | nil => simp at h
  | cons a l ih =>
    rw [List.map_cons, List.foldr_cons]
    rcases List.mem_cons.1 h with rfl | h
    · exact le_max_left _ _
    · exact (ih h).trans (le_max_right _ _)

theorem depth_bulk (d : Bytes) : depth (.bulk d) = 1 := by simp [depth]

theorem depth_array_le {l : List Reply} {d : ℕ} (h : ∀ r ∈ l, depth r ≤ d) :
    depth (.array l) ≤ d + 1 := by
  rw [depth]
  refine Nat.succ_le_succ ?_
  induction l with
  | nil => exact Nat.zero_le d
  | cons r l ih => exact max_le (h r (by simp)) (ih fun s hs => h s (by simp [hs]))

/-- Fuel for a reply is fuel for one call at least. -/
theorem exists_fuel {r : Reply} {fuel : ℕ} (h : depth r ≤ fuel) : ∃ k, fuel = k + 1 := by
  have hpos : 1 ≤ depth r := by cases r <;> simp [depth]
  exact ⟨fuel - 1, by omega⟩

/-- The length line of a null. -/
theorem takeLine_minusOne (s : Bytes) : takeLine (45 :: 49 :: crlf ++ s) = some ([45, 49], s) :=
  takeLine_append (t := [45, 49]) (by decide) s

theorem readInt_minusOne : readInt [45, 49] = some (-1) := by decide

/-- **A well-formed reply followed by anything is read back.** -/
theorem parse_encode {r : Reply} (hr : WellFormed r) :
    ∀ {fuel : ℕ}, depth r ≤ fuel → ∀ s, parse fuel (encode r ++ s) = some (r, s) := by
  induction hr with
  | @simple t h =>
    intro fuel hf s
    obtain ⟨fuel, rfl⟩ := exists_fuel hf
    simp only [encode, List.cons_append, parse, takeLine_append h, Option.bind_some, if_true]
  | @error t h =>
    intro fuel hf s
    obtain ⟨fuel, rfl⟩ := exists_fuel hf
    simp only [encode, List.cons_append, parse, takeLine_append h, Option.bind_some]
    rfl
  | int n =>
    intro fuel hf s
    obtain ⟨fuel, rfl⟩ := exists_fuel hf
    simp only [encode, List.cons_append, parse, takeLine_append (lineText_intBytes n),
      Option.bind_some, readInt_intBytes]
    rfl
  | bulk d =>
    intro fuel hf s
    obtain ⟨fuel, rfl⟩ := exists_fuel hf
    have hline := takeLine_append (lineText_natBytes d.length) (d ++ crlf ++ s)
    have heq : encode (.bulk d) ++ s = 36 :: (natBytes d.length ++ crlf ++ (d ++ crlf ++ s)) := by
      simp [encode]
    rw [heq, parse, hline]
    simp only [Option.bind_some, readInt_natBytes]
    have hn : ¬((d.length : ℤ) = -1) ∧ ¬((d.length : ℤ) < 0) := by omega
    rw [if_neg (by decide), if_neg (by decide), if_neg (by decide), if_pos trivial,
      if_neg hn.1, if_neg hn.2, Int.toNat_natCast, takeBulk_append]
    rfl
  | @array l h ih =>
    intro fuel hf s
    obtain ⟨fuel, rfl⟩ := exists_fuel hf
    -- the items nest one level less deep than the array
    have hitems : many (parse fuel) l.length (l.flatMap encode ++ s) = some (l, s) := by
      refine many_flatMap ?_ s
      intro r hr
      refine ih r hr ?_
      simp only [depth] at hf
      exact (depth_le_of_mem hr).trans (by omega)
    have hline := takeLine_append (lineText_natBytes l.length) (l.flatMap encode ++ s)
    have heq : encode (.array l) ++ s = 42 :: (natBytes l.length ++ crlf ++
        (l.flatMap encode ++ s)) := by
      simp [encode]
    rw [heq, parse, hline]
    simp only [Option.bind_some, readInt_natBytes]
    have hn : ¬((l.length : ℤ) = -1) ∧ ¬((l.length : ℤ) < 0) := by omega
    rw [if_neg (by decide), if_neg (by decide), if_neg (by decide), if_neg (by decide),
      if_pos trivial, if_neg hn.1, if_neg hn.2, Int.toNat_natCast, hitems]
    rfl
  | nullBulk =>
    intro fuel hf s
    obtain ⟨fuel, rfl⟩ := exists_fuel hf
    rw [encode, List.cons_append, parse, takeLine_minusOne]
    simp only [Option.bind_some, readInt_minusOne]
    rfl
  | nullArray =>
    intro fuel hf s
    obtain ⟨fuel, rfl⟩ := exists_fuel hf
    rw [encode, List.cons_append, parse, takeLine_minusOne]
    simp only [Option.bind_some, readInt_minusOne]
    rfl

/-- **Well-formed replies are told apart.** -/
theorem encode_injective {r s : Reply} (hr : WellFormed r) (hs : WellFormed s) (h : encode r = encode s) :
    r = s := by
  have hread := parse_encode hr (Nat.le_max_left (depth r) (depth s)) []
  rw [h, parse_encode hs (Nat.le_max_right (depth r) (depth s)) []] at hread
  exact (Prod.mk.inj (Option.some.inj hread)).1.symm

end EtherealDb.Resp2
