import EtherealDb.Proof.Extract
import EtherealDb.Proof.Params

/-!
# Placeholders in characters

`param_types` works on bytes: forwards to each dollar sign, and from there backwards to a
column. Here is what it reads in the characters of the text.

* `skipBack_encode`: a walk back over ASCII bytes drops characters from an end.
* `nearbyColumn_eq`: the column of a placeholder depends on the text before it alone.
* `placeholders_eq`: the placeholders are the dollar signs with a number, in order.
* `paramTypes_reads`: **the types of a text, from its dollar signs.**
-/

namespace EtherealDb

open Str

/-- A class of ASCII bytes, as one of characters. -/
def onByte (p : UInt8 → Bool) (c : Char) : Bool := c.toNat < 128 && p (UInt8.ofNat c.toNat)

/-- The name that `nearby_column` reads off the text before a placeholder. -/
def columnBefore (a : Str) : Option Str :=
  let k := a.rdropWhile (onByte isAsciiWhitespace)
  if k.getLast?.any (onByte isOperator) then
    let stop := (k.rdropWhile (onByte isOperator)).rdropWhile (onByte isAsciiWhitespace)
    let name := stop.rtakeWhile (onByte isNameByte)
    if name = [] then none else some (rsplitNext '.' name)
  else none

/-- The type of a placeholder, by the text before it. -/
def typeBefore (rules : Rules) (a : Str) : WireType :=
  ((columnBefore a).map fun n => wireType (inferWith n rules)).getD .text

/-- The number that a text begins with, in a `usize`. -/
def numberAt (s : Str) : ℕ := wrapNumber ((Utf8.encode s).takeWhile isAsciiDigit)

/-- The dollar signs that have a number, each by the text before it, from the text `a` on. -/
def marks : Str → Str → List (Str × ℕ)
  | _, [] => []
  | a, c :: s =>
    (if c = '$' ∧ 1 ≤ numberAt s then [(a, numberAt s)] else []) ++ marks (a ++ [c]) s

/-- The number and the type of each placeholder. -/
def reads (rules : Rules) (sql : Str) : List (ℕ × WireType) :=
  (marks [] sql).map fun m => (m.2, typeBefore rules m.1)

/-! ## Backwards -/

section Back

variable {p : UInt8 → Bool} (hp : ∀ b, p b → b.toNat < 128)

include hp in
/-- The last byte of a character is in a class of ASCII bytes when the character is. -/
theorem lastByte (a s : Str) (c : Char) :
    ((Utf8.encode (a ++ [c] ++ s))[len a + c.utf8Size - 1]?).any p = onByte p c := by
  have hsize := Char.utf8Size_pos c
  have hget : (Utf8.encode (a ++ [c] ++ s))[len a + c.utf8Size - 1]? =
      (String.utf8EncodeChar c)[c.utf8Size - 1]? := by
    have hlen := String.length_utf8EncodeChar c
    rw [Utf8.encode_append, Utf8.encode_append, List.append_assoc,
      List.getElem?_append_right (by rw [Utf8.length_encode]; omega), Utf8.length_encode,
      Utf8.encode_cons, Utf8.encode_nil, List.append_nil,
      List.getElem?_append_left (by omega)]
    congr 1
    omega
  rw [hget]
  unfold onByte
  -- an ASCII character is its byte, and any other ends in one that is not ASCII
  by_cases h : c.toNat < 128
  · have hone : c.utf8Size = 1 := by
      rw [← String.length_utf8EncodeChar, Utf8.encode_ascii h]
      rfl
    rw [Utf8.encode_ascii h, hone]
    simp [h]
  · have hwide := Utf8.encode_not_ascii (c := c) (by omega)
    have hlt : c.utf8Size - 1 < (String.utf8EncodeChar c).length := by
      rw [String.length_utf8EncodeChar]
      omega
    rw [List.getElem?_eq_getElem hlt, Option.any_some]
    have hbyte := hwide _ (List.getElem_mem hlt)
    have hno : p (String.utf8EncodeChar c)[c.utf8Size - 1] = false := by
      by_contra hyes
      have hlow := hp _ (Bool.eq_true_of_not_eq_false hyes)
      omega
    rw [hno]
    simp [h]

include hp in
/-- **A walk back** over ASCII bytes drops characters from the end of the text before it. -/
theorem skipBack_encode (a s : Str) :
    skipBack p (Utf8.encode (a ++ s)) (len a) = len (a.rdropWhile (onByte p)) := by
  induction a using List.reverseRecOn generalizing s with
  | nil => rfl
  | append_singleton a c ih =>
    have hsize := Char.utf8Size_pos c
    obtain ⟨k, hk⟩ : ∃ k, len (a ++ [c]) = k + 1 :=
      ⟨len a + c.utf8Size - 1, by rw [len_append, len_cons, len_nil]; omega⟩
    have hlast : ((Utf8.encode (a ++ [c] ++ s))[k]?).any p = onByte p c := by
      have hbyte := lastByte hp a s c
      rw [len_append, len_cons, len_nil] at hk
      rwa [show len a + c.utf8Size - 1 = k by omega] at hbyte
    rw [hk, skipBack, hlast]
    -- a byte that is dropped is a whole character, so the walk goes on at an offset of one
    by_cases hc : onByte p c
    · have hone : c.utf8Size = 1 := by
        unfold onByte at hc
        have hlow : c.toNat < 128 := by simpa using (Bool.and_eq_true_iff.1 hc).1
        rw [← String.length_utf8EncodeChar, Utf8.encode_ascii hlow]
        rfl
      have hka : k = len a := by
        rw [len_append, len_cons, len_nil] at hk
        omega
      rw [if_pos hc, List.rdropWhile_concat_pos _ _ _ hc, hka, List.append_assoc, ih]
    · rw [if_neg hc, List.rdropWhile_concat_neg _ _ _ hc, hk]

include hp in
/-- The byte before an offset. -/
theorem byteBefore (a s : Str) :
    (decide (0 < len a) && ((Utf8.encode (a ++ s))[len a - 1]?).any p) =
      a.getLast?.any (onByte p) := by
  induction a using List.reverseRecOn with
  | nil => rfl
  | append_singleton a c _ =>
    have hsize := Char.utf8Size_pos c
    have hlen : len (a ++ [c]) = len a + c.utf8Size := by
      rw [len_append, len_cons, len_nil, Nat.add_zero]
    rw [hlen, lastByte hp a s c, List.getLast?_concat, Option.any_some,
      decide_eq_true (by omega), Bool.true_and]

end Back

/-- What is dropped at the end stays in front of the rest. -/
theorem rdrop_append {p : Char → Bool} (a s : Str) :
    a ++ s = a.rdropWhile p ++ (a.rtakeWhile p ++ s) := by
  rw [← List.append_assoc, List.rdropWhile_append_rtakeWhile]

/-- **The column of a placeholder** is read off the text before it. -/
theorem nearbyColumn_eq (a s : Str) : nearbyColumn (a ++ s) (len a) = some (columnBefore a) := by
  unfold nearbyColumn columnBefore
  dsimp only
  -- each walk leaves the text in two parts, and the next one starts between them
  rw [skipBack_encode isAsciiWhitespace_lt]
  obtain ⟨k, hk⟩ : ∃ k, k = a.rdropWhile (onByte isAsciiWhitespace) := ⟨_, rfl⟩
  obtain ⟨s₁, h₁⟩ : ∃ t, a ++ s = k ++ t := ⟨_, hk ▸ rdrop_append a s⟩
  rw [← hk, h₁, byteBefore isOperator_lt, skipBack_encode isOperator_lt]
  obtain ⟨m, hm⟩ : ∃ m, m = k.rdropWhile (onByte isOperator) := ⟨_, rfl⟩
  obtain ⟨s₂, h₂⟩ : ∃ t, k ++ s₁ = m ++ t := ⟨_, hm ▸ rdrop_append k s₁⟩
  rw [← hm, h₂, skipBack_encode isAsciiWhitespace_lt]
  obtain ⟨stop, hstop⟩ : ∃ x, x = m.rdropWhile (onByte isAsciiWhitespace) := ⟨_, rfl⟩
  obtain ⟨s₃, h₃⟩ : ∃ t, m ++ s₂ = stop ++ t := ⟨_, hstop ▸ rdrop_append m s₂⟩
  rw [← hstop, h₃, skipBack_encode isNameByte_lt]
  split
  · obtain ⟨x, hx⟩ : ∃ x, x = stop.rdropWhile (onByte isNameByte) := ⟨_, rfl⟩
    obtain ⟨name, hname⟩ : ∃ x, x = stop.rtakeWhile (onByte isNameByte) := ⟨_, rfl⟩
    have hsplit : stop = x ++ name := by rw [hx, hname, List.rdropWhile_append_rtakeWhile]
    rw [← hx, ← hname, hsplit, len_append]
    by_cases hne : name = []
    · rw [hne, len_nil, if_neg (by omega), if_pos rfl]
    · have hpos : 0 < len name := Nat.pos_of_ne_zero fun h => hne (len_eq_zero.1 h)
      rw [if_pos (by omega), if_neg hne, slice_append, Option.map_some]
  · rfl

/-! ## Numbers -/

/-- A number is wrapped at the end as it is all along. -/
theorem wrapNumber_eq (digits : Bytes) : wrapNumber digits = number digits % 2 ^ 64 := by
  have hfold : ∀ (ds : Bytes) (a : ℕ),
      ds.foldl (fun num d => (num * 10 + (d.toNat - 48)) % 2 ^ 64) (a % 2 ^ 64) =
        ds.foldl (fun num d => num * 10 + (d.toNat - 48)) a % 2 ^ 64 := by
    intro ds
    induction ds with
    | nil => intro a; rfl
    | cons d ds ih =>
      intro a
      have hstep : (a % 2 ^ 64 * 10 + (d.toNat - 48)) % 2 ^ 64 =
          (a * 10 + (d.toNat - 48)) % 2 ^ 64 := by omega
      rw [List.foldl_cons, List.foldl_cons, hstep, ih]
  exact hfold digits 0

/-- A character that is no digit ends a number. -/
theorem numberAt_append {c : Char} (h : onByte isAsciiDigit c = false) (s t : Str) :
    numberAt (s ++ c :: t) = numberAt s := by
  obtain ⟨b, bs, hbytes, hb⟩ : ∃ b bs, String.utf8EncodeChar c = b :: bs ∧
      isAsciiDigit b = false := by
    -- the first byte of a longer character is no digit either
    by_cases hlow : c.toNat < 128
    · refine ⟨_, [], Utf8.encode_ascii hlow, ?_⟩
      unfold onByte at h
      simpa [hlow] using h
    · obtain ⟨b, bs, hbytes⟩ := List.exists_cons_of_ne_nil (l := String.utf8EncodeChar c) (by
        intro hnil
        have hlen := String.length_utf8EncodeChar c
        rw [hnil] at hlen
        exact absurd hlen (Char.utf8Size_pos c).ne)
      refine ⟨b, bs, hbytes, ?_⟩
      have hwide := Utf8.encode_not_ascii (c := c) (by omega) b (by rw [hbytes]; simp)
      by_contra hdigit
      have hle := (Bool.and_eq_true_iff.1 (Bool.eq_true_of_not_eq_false hdigit)).2
      have hnine : b.toNat ≤ 57 := by simpa [UInt8.le_iff_toNat_le] using hle
      omega
  unfold numberAt
  rw [Utf8.encode_append, Utf8.encode_cons, hbytes, List.cons_append]
  congr 1
  induction Utf8.encode s with
  | nil => rw [List.nil_append, List.takeWhile_cons, hb]; rfl
  | cons d ds ih => rw [List.cons_append, List.takeWhile_cons, List.takeWhile_cons, ih]

/-- Digits that are followed by no digit are a number. -/
theorem numberAt_digits {d u : Str} (hd : ∀ c ∈ d, onByte isAsciiDigit c)
    (hu : ∀ c ∈ u.head?, onByte isAsciiDigit c = false) :
    numberAt (d ++ u) = number (Utf8.encode d) % 2 ^ 64 := by
  have hall : ∀ b ∈ Utf8.encode d, isAsciiDigit b := by
    intro b hb
    obtain ⟨c, hc, hbc⟩ := List.mem_flatMap.1 hb
    have hdigit := hd c hc
    unfold onByte at hdigit
    rw [Bool.and_eq_true, decide_eq_true_eq] at hdigit
    rw [Utf8.encode_ascii hdigit.1, List.mem_singleton] at hbc
    rw [hbc]
    exact hdigit.2
  have hself : numberAt d = number (Utf8.encode d) % 2 ^ 64 := by
    rw [numberAt, List.takeWhile_eq_self_iff.2 hall, wrapNumber_eq]
  cases u with
  | nil => rw [List.append_nil, hself]
  | cons c u => rw [numberAt_append (hu c rfl), hself]

/-! ## Forwards -/

theorem mem_marks {a s x : Str} {n : ℕ} : (x, n) ∈ marks a s ↔
    ∃ t u, s = t ++ '$' :: u ∧ x = a ++ t ∧ n = numberAt u ∧ 1 ≤ n := by
  induction s generalizing a with
  | nil =>
    refine iff_of_false (by simp [marks]) ?_
    rintro ⟨t, u, h, -⟩
    simp at h
  | cons c s ih =>
    rw [marks, List.mem_append, ih]
    constructor
    · rintro (h | ⟨t, u, rfl, rfl, hn⟩)
      · split_ifs at h with hc
        · obtain ⟨rfl, rfl⟩ := Prod.mk.inj (List.mem_singleton.1 h)
          exact ⟨[], s, by rw [hc.1]; rfl, (List.append_nil _).symm, rfl, hc.2⟩
        · cases h
      · exact ⟨c :: t, u, rfl, by simp, hn⟩
    · rintro ⟨t, u, h, rfl, rfl, hone⟩
      cases t with
      | nil =>
        obtain ⟨rfl, rfl⟩ := List.cons.inj h
        exact .inl (by rw [if_pos ⟨rfl, hone⟩, List.append_nil]; exact List.mem_singleton_self _)
      | cons d t =>
        obtain ⟨rfl, rfl⟩ := List.cons.inj h
        exact .inr ⟨t, u, rfl, by simp, rfl, hone⟩

/-- The marks of a text in two parts. -/
theorem marks_append (a s t : Str) (h : ∀ x y, s = x ++ '$' :: y → numberAt (y ++ t) = numberAt y) :
    marks a (s ++ t) = marks a s ++ marks (a ++ s) t := by
  induction s generalizing a with
  | nil => rw [List.nil_append, marks, List.nil_append, List.append_nil]
  | cons c s ih =>
    have hrest := ih (a ++ [c]) fun x y hs => h (c :: x) y (by rw [hs]; rfl)
    rw [List.cons_append, marks, marks, hrest, List.append_assoc, List.append_assoc,
      List.singleton_append]
    by_cases hc : c = '$'
    · rw [h [] s (by rw [hc]; rfl)]
    · rw [if_neg (fun hh => hc hh.1), if_neg (fun hh => hc hh.1)]

/-- The marks of a text at one of them. -/
theorem marks_dollar {a u : Str} (h : 1 ≤ numberAt u) : marks [] (a ++ '$' :: u) =
    marks [] a ++ (a, numberAt u) :: marks (a ++ ['$']) u := by
  rw [marks_append [] a _ fun _ y _ => numberAt_append (by decide) y u, marks, if_pos ⟨rfl, h⟩]
  rfl

/-- A dollar sign among the bytes is one among the characters. -/
theorem dollar_iff {sql : Str} {i : ℕ} : (Utf8.encode sql)[i]? = some 36 ↔
    ∃ t u, sql = t ++ '$' :: u ∧ len t = i := by
  constructor
  · intro h
    obtain ⟨p, q, rfl, rfl⟩ := boundary_of_ascii (b := 36) (by decide) h
    rw [Utf8.encode_append, List.getElem?_append_right (by rw [Utf8.length_encode]),
      Utf8.length_encode, Nat.sub_self] at h
    cases q with
    | nil => simp at h
    | cons c q =>
      refine ⟨p, q, ?_, rfl⟩
      have hc : c = '$' := by
        by_cases hlow : c.toNat < 128
        · rw [Utf8.encode_cons, Utf8.encode_ascii hlow] at h
          have hbyte : UInt8.ofNat c.toNat = 36 := by simpa using h
          have hnat := congrArg UInt8.toNat hbyte
          rw [Utf8.toNat_ofNat hlow] at hnat
          exact Char.toNat_inj.1 hnat
        · have hwide := Utf8.encode_not_ascii (c := c) (by omega)
          have hpos : 0 < (String.utf8EncodeChar c).length := by
            rw [String.length_utf8EncodeChar]
            exact Char.utf8Size_pos c
          rw [Utf8.encode_cons, List.getElem?_append_left hpos] at h
          have hmem := hwide _ (List.mem_of_getElem? h)
          exact absurd hmem (by decide)
      rw [hc]
  · rintro ⟨t, u, rfl, rfl⟩
    rw [Utf8.encode_append, List.getElem?_append_right (by rw [Utf8.length_encode]),
      Utf8.length_encode, Nat.sub_self]
    rfl

/-- The digits after a dollar sign. -/
theorem digitsAfter_dollar (t u : Str) : digitsAfter (Utf8.encode (t ++ '$' :: u)) (len t) =
    (Utf8.encode u).takeWhile isAsciiDigit := by
  have hdollar : Utf8.encode ('$' :: u) = 36 :: Utf8.encode u := rfl
  unfold digitsAfter
  rw [Utf8.encode_append, hdollar, List.drop_append, Utf8.length_encode, List.drop_of_length_le (by
    rw [Utf8.length_encode]; omega), List.nil_append, Nat.add_sub_cancel_left]
  rfl

theorem placeholdersFrom_sorted (b : Bytes) (fuel i : ℕ) :
    (placeholdersFrom b fuel i).Pairwise (fun p q => p.1 < q.1) ∧
      ∀ p ∈ placeholdersFrom b fuel i, i ≤ p.1 := by
  induction fuel generalizing i with
  | zero => simp [placeholdersFrom]
  | succ fuel ih =>
    unfold placeholdersFrom
    split_ifs with h
    · dsimp only
      obtain ⟨hsorted, hle⟩ := ih (i + 1 + ((b.drop (i + 1)).takeWhile isAsciiDigit).length)
      split_ifs with hone
      · rw [List.singleton_append]
        refine ⟨List.pairwise_cons.2 ⟨?_, hsorted⟩, ?_⟩
        · intro p hp
          have hfar := hle p hp
          dsimp only
          omega
        · intro p hp
          rcases List.mem_cons.1 hp with rfl | hp
          · exact le_rfl
          · have hfar := hle p hp
            omega
      · rw [List.nil_append]
        refine ⟨hsorted, fun p hp => ?_⟩
        have hfar := hle p hp
        omega
    · obtain ⟨hsorted, hle⟩ := ih (i + 1)
      refine ⟨hsorted, fun p hp => ?_⟩
      have hfar := hle p hp
      omega

theorem marks_sorted (a s : Str) : ((marks a s).map fun m => (len m.1, m.2)).Pairwise
    (fun p q => p.1 < q.1) := by
  induction s generalizing a with
  | nil => simp [marks]
  | cons c s ih =>
    rw [marks]
    split_ifs with h
    · rw [List.singleton_append, List.map_cons, List.pairwise_cons]
      refine ⟨?_, ih _⟩
      intro p hp
      obtain ⟨⟨x, n⟩, hm, rfl⟩ := List.mem_map.1 hp
      obtain ⟨t, u, -, rfl, -⟩ := mem_marks.1 hm
      have hsize := Char.utf8Size_pos c
      simp only [len_append, len_cons]
      omega
    · rw [List.nil_append]
      exact ih _

/-- **The placeholders of a text** are its marks, in order. -/
theorem placeholders_eq (sql : Str) :
    placeholders sql = (marks [] sql).map fun m => (len m.1, m.2) := by
  have hsorted := (placeholdersFrom_sorted (Utf8.encode sql) (len sql) 0).1
  have hmarks := marks_sorted [] sql
  have hmem : ∀ p : ℕ × ℕ, p ∈ placeholders sql ↔
      p ∈ (marks [] sql).map fun m => (len m.1, m.2) := by
    rintro ⟨i, n⟩
    rw [mem_placeholders_iff, dollar_iff, List.mem_map]
    constructor
    · rintro ⟨⟨t, u, rfl, rfl⟩, hn, hone⟩
      rw [digitsAfter_dollar] at hn
      exact ⟨(t, n), mem_marks.2 ⟨t, u, rfl, rfl, hn, hone⟩, rfl⟩
    · rintro ⟨⟨x, m⟩, hm, heq⟩
      obtain ⟨t, u, rfl, hx, hn, hone⟩ := mem_marks.1 hm
      rw [List.nil_append] at hx
      obtain ⟨rfl, rfl⟩ := Prod.mk.inj heq
      refine ⟨⟨t, u, rfl, by rw [hx]⟩, ?_, hone⟩
      rw [hx, digitsAfter_dollar]
      exact hn
  have hirrefl : ∀ {l : List (ℕ × ℕ)}, l.Pairwise (fun p q => p.1 < q.1) → l.Nodup :=
    fun h => h.imp fun hlt heq => absurd hlt (by rw [heq]; exact lt_irrefl _)
  refine List.Perm.eq_of_pairwise ?_ hsorted hmarks
    ((List.perm_ext_iff_of_nodup (hirrefl hsorted) (hirrefl hmarks)).2 hmem)
  intro p q _ _ hpq hqp
  exact absurd (hpq.trans hqp) (lt_irrefl _)

/-- **The types of a text, from its dollar signs.** -/
theorem paramTypes_reads (memory : Memory) (sql : Str) (rules : Rules) :
    paramTypes memory sql rules = fillTypes memory (reads rules sql) := by
  have htypes : (placeholders sql).mapM (fun p =>
      (placeholderType sql rules p.1).map fun wt => (p.2, wt)) = some (reads rules sql) := by
    rw [placeholders_eq]
    refine mapM_map_some ?_
    rintro ⟨x, n⟩ hm
    obtain ⟨t, u, hsql, hx, -⟩ := mem_marks.1 hm
    rw [List.nil_append] at hx
    have hcolumn := nearbyColumn_eq t ('$' :: u)
    rw [← hsql] at hcolumn
    rw [placeholderType, hx, hcolumn]
    rfl
  unfold paramTypes
  rw [htypes]
  rfl

end EtherealDb
