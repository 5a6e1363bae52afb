import Mathlib.Algebra.Order.Ring.Int
import Mathlib.Data.List.DropRight
import Mathlib.Tactic.Common

/-!
# Rust's `str`

A `str` is a list of Unicode scalar values (`Str`); an offset into it counts UTF-8
bytes. An offset is a **char boundary** exactly when it is the length of a prefix
(`splitAt?_eq_some`), so every slice fact below is a fact about appending lists.

* `splitAt?`, `slice`: slicing by byte offsets, `none` where Rust panics.
* `charIndices`: the characters with the offsets at which they start.
* `trim`, `trimEndMatches`, `trimMatches`: trimming.
* `find`: the offset of the first character of a kind; `sliceTo_find` cuts there.
-/

namespace EtherealDb

/-- Rust's `str`: its characters in order. -/
abbrev Str := List Char

/-- Text in a source file, as a `Str`. -/
instance : Coe String Str := ⟨String.toList⟩

namespace Str

/-- `str::len`: the length in UTF-8 bytes. -/
def len (s : Str) : ℕ := (s.map Char.utf8Size).sum

@[simp] theorem len_nil : len [] = 0 := rfl

@[simp] theorem len_cons (c : Char) (s : Str) : len (c :: s) = c.utf8Size + len s := rfl

@[simp] theorem len_append (a b : Str) : len (a ++ b) = len a + len b := by
  simp [len]

theorem len_eq_zero {s : Str} : len s = 0 ↔ s = [] := by
  cases s with
  | nil => simp
  | cons c s => simp [(Char.utf8Size_pos c).ne']

/-! ## Slices -/

/-- `str::split_at` at a byte offset; `none` (Rust panics) unless the offset is a
char boundary. -/
def splitAt? : Str → ℕ → Option (Str × Str)
  | s, 0 => some ([], s)
  | [], _ + 1 => none
  | c :: s, n + 1 =>
    if c.utf8Size ≤ n + 1 then
      (splitAt? s (n + 1 - c.utf8Size)).map fun p => (c :: p.1, p.2)
    else none

/-- `&s[i..]`. -/
def sliceFrom (s : Str) (i : ℕ) : Option Str := (splitAt? s i).map Prod.snd

/-- `&s[..j]`. -/
def sliceTo (s : Str) (j : ℕ) : Option Str := (splitAt? s j).map Prod.fst

/-- `&s[i..j]`. -/
def slice (s : Str) (i j : ℕ) : Option Str :=
  if i ≤ j then (sliceFrom s i).bind fun t => sliceTo t (j - i) else none

@[simp] theorem splitAt?_append (a b : Str) : splitAt? (a ++ b) (len a) = some (a, b) := by
  induction a with
  | nil => cases b <;> rfl
  | cons c a ih =>
    obtain ⟨n, hn⟩ : ∃ n, c.utf8Size + len a = n + 1 :=
      ⟨c.utf8Size + len a - 1, by have := Char.utf8Size_pos c; omega⟩
    rw [List.cons_append, len_cons, hn, splitAt?, if_pos (by omega),
      show n + 1 - c.utf8Size = len a by omega, ih]
    rfl

/-- **Char boundaries are the lengths of prefixes.** -/
theorem splitAt?_eq_some {s a b : Str} {n : ℕ} :
    splitAt? s n = some (a, b) ↔ s = a ++ b ∧ len a = n := by
  constructor
  · intro h
    induction s generalizing n a b with
    | nil =>
      cases n with
      | zero => simp [splitAt?] at h; obtain ⟨rfl, rfl⟩ := h; simp
      | succ n => simp [splitAt?] at h
    | cons c s ih =>
      cases n with
      | zero => simp [splitAt?] at h; obtain ⟨rfl, rfl⟩ := h; simp
      | succ n =>
        rw [splitAt?] at h
        split at h
        · obtain ⟨p, hp, he⟩ := Option.map_eq_some_iff.1 h
          obtain ⟨rfl, rfl⟩ := Prod.mk.inj he
          obtain ⟨rfl, hl⟩ := ih (a := p.1) (b := p.2) hp
          exact ⟨rfl, by rw [len_cons]; omega⟩
        · simp at h
  · rintro ⟨rfl, rfl⟩
    exact splitAt?_append a b

@[simp] theorem sliceFrom_append (a b : Str) : sliceFrom (a ++ b) (len a) = some b := by
  simp [sliceFrom]

@[simp] theorem sliceTo_append (a b : Str) : sliceTo (a ++ b) (len a) = some a := by
  simp [sliceTo]

theorem sliceTo_self (a : Str) : sliceTo a (len a) = some a := by
  simpa using sliceTo_append a []

theorem slice_append (a b c : Str) :
    slice (a ++ b ++ c) (len a) (len a + len b) = some b := by
  simp [slice]

theorem slice_append_end (a b : Str) : slice (a ++ b) (len a) (len (a ++ b)) = some b := by
  simpa using slice_append a b []

/-- **Of two beginnings of a text the shorter begins the longer.** -/
theorem append_eq_append_of_len_le {a b c d : Str} (h : a ++ b = c ++ d) (hle : len a ≤ len c) :
    ∃ m, c = a ++ m ∧ b = m ++ d := by
  rcases List.append_eq_append_iff.1 h with ⟨m, hc, hb⟩ | ⟨m, ha, hd⟩
  · exact ⟨m, hc, hb⟩
  · have hlen : len a = len c + len m := by rw [ha, len_append]
    obtain rfl : m = [] := len_eq_zero.1 (by omega)
    exact ⟨[], by rw [ha]; simp, by rw [hd]; simp⟩

/-- Text after an offset does not move it. -/
theorem splitAt?_append_of_le {p : Str} {n : ℕ} (h : n ≤ len p) (x : Str) :
    splitAt? (p ++ x) n = (splitAt? p n).map fun q => (q.1, q.2 ++ x) := by
  induction p generalizing n with
  | nil =>
    obtain rfl : n = 0 := by simpa using h
    cases x <;> rfl
  | cons c p ih =>
    cases n with
    | zero => rfl
    | succ n =>
      rw [List.cons_append, splitAt?, splitAt?]
      split
      · rw [len_cons] at h
        rw [ih (by omega)]
        cases splitAt? p (n + 1 - c.utf8Size) <;> rfl
      · rfl

theorem sliceFrom_append_of_le {p : Str} {n : ℕ} (h : n ≤ len p) (x : Str) :
    sliceFrom (p ++ x) n = (sliceFrom p n).map (· ++ x) := by
  unfold sliceFrom
  rw [splitAt?_append_of_le h]
  cases splitAt? p n <;> rfl

/-- **A slice inside a part** does not see what follows it. -/
theorem slice_append_of_le {p : Str} {i j : ℕ} (h : j ≤ len p) (x : Str) :
    slice (p ++ x) i j = slice p i j := by
  unfold slice
  split
  · rename_i hij
    rw [sliceFrom_append_of_le (hij.trans h)]
    cases hs : sliceFrom p i with
    | none => rfl
    | some t =>
      obtain ⟨q, hq, rfl⟩ := Option.map_eq_some_iff.1 hs
      obtain ⟨hp, hl⟩ := (splitAt?_eq_some (a := q.1) (b := q.2)).1 hq
      have hlen : j - i ≤ len q.2 := by
        have : len p = len q.1 + len q.2 := by rw [← len_append, ← hp]
        omega
      simp only [Option.map_some, Option.bind_some, sliceTo, splitAt?_append_of_le hlen]
      cases splitAt? q.2 (j - i) <;> rfl
  · rfl

/-- Text before an offset moves it by its length. -/
theorem splitAt?_add (p s : Str) (n : ℕ) :
    splitAt? (p ++ s) (len p + n) = (splitAt? s n).map fun q => (p ++ q.1, q.2) := by
  induction p with
  | nil =>
    rw [List.nil_append, len_nil, Nat.zero_add]
    cases splitAt? s n <;> rfl
  | cons c p ih =>
    obtain ⟨k, hk⟩ : ∃ k, c.utf8Size + len p + n = k + 1 :=
      ⟨c.utf8Size + len p + n - 1, by have := Char.utf8Size_pos c; omega⟩
    rw [List.cons_append, len_cons, hk, splitAt?, if_pos (by omega),
      show k + 1 - c.utf8Size = len p + n by omega, ih]
    cases splitAt? s n <;> rfl

theorem sliceFrom_add (p s : Str) (n : ℕ) : sliceFrom (p ++ s) (len p + n) = sliceFrom s n := by
  unfold sliceFrom
  rw [splitAt?_add]
  cases splitAt? s n <;> rfl

/-- **A slice behind a part** does not see the part. -/
theorem slice_add (p s : Str) (i j : ℕ) :
    slice (p ++ s) (len p + i) (len p + j) = slice s i j := by
  unfold slice
  rw [sliceFrom_add, Nat.add_sub_add_left]
  by_cases h : i ≤ j
  · rw [if_pos h, if_pos (by omega)]
  · rw [if_neg h, if_neg (by omega)]

/-! ## Characters and their offsets -/

/-- `char_indices`, counting from offset `i`. -/
def charIndicesFrom : ℕ → Str → List (ℕ × Char)
  | _, [] => []
  | i, c :: s => (i, c) :: charIndicesFrom (i + c.utf8Size) s

/-- `str::char_indices`. -/
def charIndices (s : Str) : List (ℕ × Char) := charIndicesFrom 0 s

/-! ## Character classes and case -/

/-- `char::is_whitespace`: the Unicode property `White_Space`. -/
def isWhitespace (c : Char) : Bool :=
  let n := c.toNat
  (9 ≤ n && n ≤ 13) || n == 0x20 || n == 0x85 || n == 0xA0 || n == 0x1680 ||
    (0x2000 ≤ n && n ≤ 0x200A) || n == 0x2028 || n == 0x2029 || n == 0x202F ||
    n == 0x205F || n == 0x3000

/-- `to_ascii_lowercase`. -/
def lower (s : Str) : Str := s.map Char.toLower

/-- `to_ascii_uppercase`. -/
def upper (s : Str) : Str := s.map Char.toUpper

@[simp] theorem lower_append (a b : Str) : lower (a ++ b) = lower a ++ lower b := by
  simp [lower]

theorem isDigit_iff (c : Char) : c.isDigit = true ↔ 48 ≤ c.toNat ∧ c.toNat ≤ 57 := by
  simp only [Char.isDigit, Bool.and_eq_true, decide_eq_true_eq, UInt32.le_iff_toNat_le, ge_iff_le]
  rfl

theorem isAlpha_iff (c : Char) : c.isAlpha = true ↔
    (65 ≤ c.toNat ∧ c.toNat ≤ 90) ∨ 97 ≤ c.toNat ∧ c.toNat ≤ 122 := by
  unfold Char.isAlpha Char.isUpper Char.isLower
  simp only [Bool.or_eq_true, Bool.and_eq_true, decide_eq_true_eq, UInt32.le_iff_toNat_le,
    ge_iff_le]
  rfl

/-- Lower case by code point. -/
theorem toNat_toLower (c : Char) :
    c.toLower.toNat = if 65 ≤ c.toNat ∧ c.toNat ≤ 90 then c.toNat + 32 else c.toNat := by
  unfold Char.toLower
  by_cases h : 65 ≤ c.toNat ∧ c.toNat ≤ 90
  · have h' : c.val ≥ 'A'.val ∧ c.val ≤ 'Z'.val := by
      rw [ge_iff_le, UInt32.le_iff_toNat_le, UInt32.le_iff_toNat_le]
      exact h
    rw [if_pos h, dif_pos h']
    change (c.val + ('a'.val - 'A'.val)).toNat = c.val.toNat + 32
    have : c.val.toNat ≤ 90 := h.2
    rw [UInt32.toNat_add, show ('a'.val - 'A'.val).toNat = 32 from rfl]
    omega
  · have h' : ¬(c.val ≥ 'A'.val ∧ c.val ≤ 'Z'.val) := by
      rw [ge_iff_le, UInt32.le_iff_toNat_le, UInt32.le_iff_toNat_le]
      exact h
    rw [if_neg h, dif_neg h']

/-- Upper case by code point. -/
theorem toNat_toUpper (c : Char) :
    c.toUpper.toNat = if 97 ≤ c.toNat ∧ c.toNat ≤ 122 then c.toNat - 32 else c.toNat := by
  unfold Char.toUpper
  by_cases h : 97 ≤ c.toNat ∧ c.toNat ≤ 122
  · have h' : c.val ≥ 'a'.val ∧ c.val ≤ 'z'.val := by
      rw [ge_iff_le, UInt32.le_iff_toNat_le, UInt32.le_iff_toNat_le]
      exact h
    rw [if_pos h, dif_pos h']
    change (c.val + ('A'.val - 'a'.val)).toNat = c.val.toNat - 32
    have h1 : 97 ≤ c.val.toNat := h.1
    have h2 : c.val.toNat ≤ 122 := h.2
    rw [UInt32.toNat_add, show ('A'.val - 'a'.val).toNat = 2 ^ 32 - 32 from rfl]
    omega
  · have h' : ¬(c.val ≥ 'a'.val ∧ c.val ≤ 'z'.val) := by
      rw [ge_iff_le, UInt32.le_iff_toNat_le, UInt32.le_iff_toNat_le]
      exact h
    rw [if_neg h, dif_neg h']

/-- Lower case keeps what is no capital letter. -/
theorem toLower_eq_self {c : Char} (h : ¬(65 ≤ c.toNat ∧ c.toNat ≤ 90)) : c.toLower = c := by
  rw [← Char.toNat_inj, toNat_toLower, if_neg h]

/-- Lower case keeps the size of a character. -/
theorem utf8Size_toLower (c : Char) : c.toLower.utf8Size = c.utf8Size := by
  have hn := toNat_toLower c
  have hsize : ∀ d : Char, d.toNat ≤ 127 → d.utf8Size = 1 := by
    intro d hd
    rw [Char.utf8Size, if_pos]
    rw [UInt32.le_iff_toNat_le]
    exact hd
  split at hn
  · rename_i h
    rw [hsize c (by omega), hsize _ (by omega)]
  · rw [Char.toNat_inj.1 hn]

@[simp] theorem len_lower (s : Str) : len (lower s) = len s := by
  simp [len, lower, Function.comp_def, utf8Size_toLower]

@[simp] theorem lower_eq_nil {s : Str} : lower s = [] ↔ s = [] := by simp [lower]

/-! ## Trimming -/

/-- `trim_start`. -/
def trimStart (s : Str) : Str := s.dropWhile isWhitespace

/-- `trim_end`. -/
def trimEnd (s : Str) : Str := s.rdropWhile isWhitespace

/-- `trim`. -/
def trim (s : Str) : Str := trimEnd (trimStart s)

/-- Nothing is trimmed from a text without blanks. -/
theorem trim_eq_self {s : Str} (h : ∀ c ∈ s, isWhitespace c = false) : trim s = s := by
  have hstart : trimStart s = s := by
    cases s with
    | nil => rfl
    | cons c s => simp [trimStart, h c (by simp)]
  unfold trim
  rw [hstart, trimEnd, List.rdropWhile_eq_self_iff]
  intro hne
  simp [h _ (List.getLast_mem hne)]

/-- `trim_end_matches(c)`. -/
def trimEndMatches (c : Char) (s : Str) : Str := s.rdropWhile (· == c)

/-- `trim_matches(c)`. -/
def trimMatches (c : Char) (s : Str) : Str := (s.dropWhile (· == c)).rdropWhile (· == c)

/-- An end that is not dropped protects what stands before it. -/
theorem rdropWhile_append {α : Type*} {p : α → Bool} {r q : List α} {c : α} (hc : p c = false) :
    (r ++ [c] ++ q).rdropWhile p = r ++ [c] ++ q.rdropWhile p := by
  induction q using List.reverseRecOn with
  | nil => simp [hc]
  | append_singleton q d ih =>
    rw [← List.append_assoc]
    by_cases hd : p d
    · rw [List.rdropWhile_concat_pos _ _ _ hd, List.rdropWhile_concat_pos _ _ _ hd, ih]
    · rw [List.rdropWhile_concat_neg _ _ _ hd, List.rdropWhile_concat_neg _ _ _ hd,
        List.append_assoc]

/-- `str::find`: the offset of the first character that satisfies `p`. -/
def find (p : Char → Bool) (s : Str) : Option ℕ :=
  if s.any p then some (len (s.takeWhile fun c => !p c)) else none

/-- Cutting at the first character that satisfies `p`, or at the end. -/
theorem sliceTo_find (p : Char → Bool) (s : Str) :
    sliceTo s ((find p s).getD (len s)) = some (s.takeWhile fun c => !p c) := by
  by_cases h : s.any p
  · rw [find, if_pos h, Option.getD_some]
    conv_lhs => rw [← s.takeWhile_append_dropWhile (p := fun c => !p c)]
    rw [List.takeWhile_append_dropWhile]
    have := sliceTo_append (s.takeWhile fun c => !p c) (s.dropWhile fun c => !p c)
    rwa [List.takeWhile_append_dropWhile] at this
  · rw [find, if_neg h, Option.getD_none, sliceTo_self, List.takeWhile_eq_self_iff.2]
    intro c hc
    simp only [List.any_eq_true, not_exists, not_and] at h
    simpa using h c hc

/-- `split(c).next()`. -/
def splitNext (c : Char) (s : Str) : Str := s.takeWhile (· != c)

/-- `rsplit(c).next()`. -/
def rsplitNext (c : Char) (s : Str) : Str := s.rtakeWhile (· != c)

end Str

end EtherealDb
