import EtherealDb.Text.Num

/-!
# JSON

Objects of scalars: their text, and a reader that takes them only. Nested values and fractions are
left to larger readers, which read what this one reads.

* `chars_escape`: an escaped string is read back.
* `read_write`: **an object that is written is read back**, with blanks around it or not.
-/

namespace EtherealDb.Json

/-- A value of a member. -/
inductive Scalar where
  | null
  | bool (b : Bool)
  | int (n : ℤ)
  | string (s : Str)
  deriving DecidableEq, Repr

/-- The members of an object, in order. -/
abbrev Object := List (Str × Scalar)

/-! ## Writing -/

/-- A character of a string. -/
def escape (c : Char) : Str :=
  if c = '"' then ['\\', '"']
  else if c = '\\' then ['\\', '\\']
  else if c.toNat < 32 then
    ['\\', 'u', '0', '0', Nat.digitChar (c.toNat / 16), Nat.digitChar (c.toNat % 16)]
  else [c]

def writeString (s : Str) : Str := '"' :: s.flatMap escape ++ ['"']

def Scalar.write : Scalar → Str
  | .null => "null"
  | .bool b => if b then "true" else "false"
  | .int n => intText n
  | .string s => writeString s

def writeMember (m : Str × Scalar) : Str := writeString m.1 ++ ':' :: ' ' :: m.2.write

/-- The members with commas between them. -/
def writeMembers : Object → Str
  | [] => []
  | [m] => writeMember m
  | m :: n :: o => writeMember m ++ ',' :: ' ' :: writeMembers (n :: o)

/-- The text of an object. -/
def write (o : Object) : Str := '\x7b' :: writeMembers o ++ ['\x7d']

/-! ## Reading -/

def isBlank (c : Char) : Bool := c = ' ' || c = '\t' || c = '\n' || c = '\r'

/-- The text after its leading blanks. -/
def skip (s : Str) : Str := s.dropWhile isBlank

def hexDigit (c : Char) : Option ℕ :=
  if '0' ≤ c ∧ c ≤ '9' then some (c.toNat - 48)
  else if 'a' ≤ c ∧ c ≤ 'f' then some (c.toNat - 87)
  else if 'A' ≤ c ∧ c ≤ 'F' then some (c.toNat - 55)
  else none

/-- The character of four hexadecimal digits; a half of a surrogate pair is none. -/
def codePoint (a b c d : Char) : Option Char := do
  let n := ((← hexDigit a) * 16 + (← hexDigit b)) * 256 + (← hexDigit c) * 16 + (← hexDigit d)
  if n.isValidChar then some (Char.ofNat n) else none

/-- The character that a letter after a backslash stands for. -/
def unescape (c : Char) : Option Char :=
  if c = '"' ∨ c = '\\' ∨ c = '/' then some c
  else if c = 'b' then some '\x08'
  else if c = 'f' then some '\x0c'
  else if c = 'n' then some '\n'
  else if c = 'r' then some '\r'
  else if c = 't' then some '\t'
  else none

/-- The rest of a string, and the text after its quote. -/
def chars : Str → Option (Str × Str)
  | '\\' :: 'u' :: a :: b :: c :: d :: s => do
    let x ← codePoint a b c d
    (chars s).map fun p => (x :: p.1, p.2)
  | '\\' :: c :: s => do
    let x ← unescape c
    (chars s).map fun p => (x :: p.1, p.2)
  | c :: s =>
    if c = '"' then some ([], s)
    else if c = '\\' ∨ c.toNat < 32 then none
    else (chars s).map fun p => (c :: p.1, p.2)
  | [] => none

def readString : Str → Option (Str × Str)
  | '"' :: s => chars s
  | _ => none

/-- Digits without a zero in front. -/
def readNat (s : Str) : Option (ℕ × Str) :=
  let digits := s.takeWhile Char.isDigit
  if digits = [] ∨ (digits.head? = some '0' ∧ digits ≠ ['0']) then none
  else some (Nat.ofDigitChars 10 digits 0, s.dropWhile Char.isDigit)

def readInt : Str → Option (ℤ × Str)
  | '-' :: s => (readNat s).map fun p => (-(p.1 : ℤ), p.2)
  | s => (readNat s).map fun p => ((p.1 : ℤ), p.2)

def readScalar : Str → Option (Scalar × Str)
  | 'n' :: 'u' :: 'l' :: 'l' :: s => some (.null, s)
  | 't' :: 'r' :: 'u' :: 'e' :: s => some (.bool true, s)
  | 'f' :: 'a' :: 'l' :: 's' :: 'e' :: s => some (.bool false, s)
  | '"' :: s => (chars s).map fun p => (.string p.1, p.2)
  | s => (readInt s).map fun p => (.int p.1, p.2)

/-- A member, and the text after it. -/
def readMember (s : Str) : Option ((Str × Scalar) × Str) := do
  let (key, s) ← readString (skip s)
  match skip s with
  | ':' :: s =>
    let (v, s) ← readScalar (skip s)
    return ((key, v), skip s)
  | _ => none

/-- The members up to the brace. -/
def readMembers : ℕ → Str → Option (Object × Str)
  | 0, _ => none
  | fuel + 1, s => do
    let (m, s) ← readMember s
    match s with
    | ',' :: s => (readMembers fuel s).map fun p => (m :: p.1, p.2)
    | '\x7d' :: s => some ([m], s)
    | _ => none

/-- **The object that a text is**, with blanks around it or not. -/
def read (s : Str) : Option Object :=
  match skip s with
  | '\x7b' :: s =>
    match skip s with
    | '\x7d' :: s => if skip s = [] then some [] else none
    | s => (readMembers s.length s).bind fun p => if skip p.2 = [] then some p.1 else none
  | _ => none

/-! ## Strings -/

theorem hexDigit_digitChar {n : ℕ} (h : n < 16) : hexDigit (Nat.digitChar n) = some n := by
  have hall : ∀ n < 16, hexDigit (Nat.digitChar n) = some n := by decide
  exact hall n h

/-- A control character is read back from its four digits. -/
theorem codePoint_control {c : Char} (h : c.toNat < 32) :
    codePoint '0' '0' (Nat.digitChar (c.toNat / 16)) (Nat.digitChar (c.toNat % 16)) = some c := by
  have hzero : hexDigit '0' = some 0 := by decide
  have hnum : (0 * 16 + 0) * 256 + c.toNat / 16 * 16 + c.toNat % 16 = c.toNat := by omega
  unfold codePoint
  simp only [hzero, hexDigit_digitChar (show c.toNat / 16 < 16 by omega),
    hexDigit_digitChar (show c.toNat % 16 < 16 by omega), Option.bind_eq_bind, Option.bind_some, hnum]
  rw [if_pos (show c.toNat.isValidChar from c.valid), Char.ofNat_toNat]

/-- **A character is read back** from its escape. -/
theorem chars_escape_cons (c : Char) (s : Str) :
    chars (escape c ++ s) = (chars s).map fun p => (c :: p.1, p.2) := by
  unfold escape
  split_ifs with hquote hslash hcontrol
  · subst hquote
    rfl
  · subst hslash
    rfl
  · simp only [List.cons_append, List.nil_append, chars, codePoint_control hcontrol, Option.bind_eq_bind,
      Option.bind_some]
  · have hplain : ¬(c = '\\' ∨ c.toNat < 32) := not_or.2 ⟨hslash, hcontrol⟩
    rw [List.singleton_append, chars.eq_def]
    split
    · rename_i heq
      exact absurd (List.cons.inj heq).1 hslash
    · rename_i heq
      exact absurd (List.cons.inj heq).1 hslash
    · rename_i d t _ _ heq
      obtain ⟨rfl, rfl⟩ := List.cons.inj heq
      rw [if_neg hquote, if_neg hplain]
    · rename_i heq
      cases heq

/-- **An escaped string is read back.** -/
theorem chars_escape (s rest : Str) : chars (s.flatMap escape ++ '"' :: rest) = some (s, rest) := by
  induction s with
  | nil => rfl
  | cons c s ih =>
    rw [List.flatMap_cons, List.append_assoc, chars_escape_cons, ih]
    rfl

/-! ## Numbers -/

/-- A text after which no number goes on. -/
def Ends (s : Str) : Prop := ∀ c ∈ s.head?, c.isDigit = false

theorem decimal_zero : decimal 0 = ['0'] := by decide

/-- A printed number has no zero in front. -/
theorem decimal_head {n : ℕ} (h : n ≠ 0) : (decimal n).head? ≠ some '0' := by
  induction n using Nat.strongRecOn with
  | ind n ih =>
    rw [decimal, Nat.toDigits_eq_if (by decide)]
    split_ifs with hlt
    · have hall : ∀ d < 10, d ≠ 0 → Nat.digitChar d ≠ '0' := by decide
      simpa using hall n hlt h
    · change (decimal (n / 10) ++ [Nat.digitChar (n % 10)]).head? ≠ some '0'
      rw [List.head?_append_of_ne_nil _ (decimal_ne_nil (n / 10))]
      exact ih (n / 10) (by omega) (by omega)

theorem readNat_decimal (n : ℕ) {rest : Str} (h : Ends rest) :
    readNat (decimal n ++ rest) = some (n, rest) := by
  have hdigits : ∀ c ∈ decimal n, c.isDigit = true := fun c hc => isDigit_of_mem_decimal hc
  have htake : (decimal n ++ rest).takeWhile Char.isDigit = decimal n := by
    rw [List.takeWhile_append_of_pos hdigits]
    cases rest with
    | nil => rw [List.takeWhile_nil, List.append_nil]
    | cons c r => rw [List.takeWhile_cons_of_neg (by simp [h c rfl]), List.append_nil]
  have hdrop : (decimal n ++ rest).dropWhile Char.isDigit = rest := by
    rw [List.dropWhile_append_of_pos hdigits]
    cases rest with
    | nil => rfl
    | cons c r => rw [List.dropWhile_cons_of_neg (by simp [h c rfl])]
  have hzero : ¬((decimal n).head? = some '0' ∧ decimal n ≠ ['0']) := by
    rintro ⟨hhead, hne⟩
    by_cases hn : n = 0
    · exact hne (hn ▸ decimal_zero)
    · exact decimal_head hn hhead
  unfold readNat
  dsimp only
  rw [htake, hdrop, if_neg (not_or.2 ⟨decimal_ne_nil n, hzero⟩)]
  congr 2
  exact Nat.ofDigitChars_ten_toDigits

theorem readInt_intText (n : ℤ) {rest : Str} (h : Ends rest) :
    readInt (intText n ++ rest) = some (n, rest) := by
  unfold intText
  split_ifs with hneg
  · rw [List.cons_append, readInt, readNat_decimal _ h, Option.map_some]
    congr 2
    omega
  · cases hd : decimal n.natAbs with
    | nil => exact absurd hd (decimal_ne_nil _)
    | cons c r =>
      have hread := readNat_decimal n.natAbs h
      rw [hd, List.cons_append] at hread
      have hsign : ∀ s, c :: (r ++ rest) = '-' :: s → False := by
        intro s hs
        obtain ⟨rfl, -⟩ := List.cons.inj hs
        exact absurd (decimal_cons hd) (by decide)
      rw [List.cons_append, readInt.eq_2 _ hsign, hread, Option.map_some]
      congr 2
      omega

/-! ## Members -/

/-- **A scalar is read back**, when what follows goes on no number. -/
theorem readScalar_write (v : Scalar) {rest : Str} (h : Ends rest) :
    readScalar (v.write ++ rest) = some (v, rest) := by
  cases v with
  | null => rfl
  | bool b => cases b <;> rfl
  | string s =>
    have hchars := chars_escape s rest
    rw [Scalar.write, writeString, List.cons_append, List.cons_append, List.append_assoc,
      List.singleton_append, readScalar, hchars]
    rfl
  | int n =>
    have hread := readInt_intText n h
    -- the text of a number begins with a sign or a digit, so with no other scalar
    have hhead : ∀ {c : Char} {r : Str}, intText n ++ rest = c :: r → c = '-' ∨ c.isDigit := by
      intro c r hs
      unfold intText at hs
      split_ifs at hs with hneg
      · exact .inl (List.cons.inj hs).1.symm
      · cases hd : decimal n.natAbs with
        | nil => exact absurd hd (decimal_ne_nil _)
        | cons d t =>
          rw [hd, List.cons_append] at hs
          exact .inr ((List.cons.inj hs).1 ▸ decimal_cons hd)
    rw [Scalar.write, readScalar.eq_def]
    split
    · rename_i hs
      exact absurd (hhead hs) (by decide)
    · rename_i hs
      exact absurd (hhead hs) (by decide)
    · rename_i hs
      exact absurd (hhead hs) (by decide)
    · rename_i hs
      exact absurd (hhead hs) (by decide)
    · rw [hread]
      rfl

theorem skip_of_ne {c : Char} {s : Str} (h : isBlank c = false) : skip (c :: s) = c :: s :=
  List.dropWhile_cons_of_neg (by simp [h])

/-- A scalar begins with no blank. -/
theorem skip_scalar (v : Scalar) (rest : Str) : skip (v.write ++ rest) = v.write ++ rest := by
  cases v with
  | null => rfl
  | bool b => cases b <;> rfl
  | string s => rfl
  | int n =>
    rw [Scalar.write, intText]
    split_ifs
    · rfl
    · cases hd : decimal n.natAbs with
      | nil => exact absurd hd (decimal_ne_nil _)
      | cons c r =>
        have hdigit := (Str.isDigit_iff c).1 (decimal_cons hd)
        rw [List.cons_append, skip_of_ne]
        simp only [isBlank, Bool.or_eq_false_iff, decide_eq_false_iff_not]
        refine ⟨⟨⟨?_, ?_⟩, ?_⟩, ?_⟩ <;>
          · rintro rfl
            revert hdigit
            decide

/-- **A member is read back**, and the blanks after it are skipped. -/
theorem readMember_write (m : Str × Scalar) {rest : Str} (h : Ends rest) :
    readMember (writeMember m ++ rest) = some (m, skip rest) := by
  obtain ⟨key, v⟩ := m
  have hkey : readString (skip (writeMember (key, v) ++ rest)) =
      some (key, ':' :: ' ' :: (v.write ++ rest)) := by
    have htext : writeMember (key, v) ++ rest =
        '"' :: (key.flatMap escape ++ '"' :: ':' :: ' ' :: (v.write ++ rest)) := by
      simp [writeMember, writeString]
    rw [htext, skip_of_ne rfl, readString, chars_escape]
  have hvalue : readScalar (skip (' ' :: (v.write ++ rest))) = some (v, rest) := by
    have hblank : skip (' ' :: (v.write ++ rest)) = skip (v.write ++ rest) := List.dropWhile_cons_of_pos rfl
    rw [hblank, skip_scalar, readScalar_write v h]
  unfold readMember
  rw [hkey, Option.bind_eq_bind, Option.bind_some]
  change (readScalar (skip (' ' :: (v.write ++ rest)))).bind _ = _
  rw [hvalue]
  rfl

/-! ## Objects -/

/-- A blank in front of the members is skipped. -/
theorem readMembers_blank (fuel : ℕ) (s : Str) : readMembers fuel (' ' :: s) = readMembers fuel s := by
  cases fuel with
  | zero => rfl
  | succ fuel => rfl

/-- **The members are read back**, each with fuel of its own. -/
theorem readMembers_write {o : Object} (hne : o ≠ []) {fuel : ℕ} (hfuel : o.length ≤ fuel) (rest : Str) :
    readMembers fuel (writeMembers o ++ '\x7d' :: rest) = some (o, rest) := by
  induction o generalizing fuel with
  | nil => exact absurd rfl hne
  | cons m o ih =>
    obtain ⟨fuel, rfl⟩ : ∃ k, fuel = k + 1 := ⟨fuel - 1, by simp at hfuel; omega⟩
    cases o with
    | nil =>
      have hend : Ends ('\x7d' :: rest) := by
        rintro c ⟨⟩
        rfl
      rw [writeMembers, readMembers, readMember_write m hend]
      rfl
    | cons n o =>
      have hend : Ends (',' :: ' ' :: (writeMembers (n :: o) ++ '\x7d' :: rest)) := by
        rintro c ⟨⟩
        rfl
      have htext : writeMembers (m :: n :: o) ++ '\x7d' :: rest =
          writeMember m ++ ',' :: ' ' :: (writeMembers (n :: o) ++ '\x7d' :: rest) := by
        simp [writeMembers]
      have hlen : (n :: o).length ≤ fuel := Nat.le_of_succ_le_succ hfuel
      rw [htext, readMembers, readMember_write m hend, Option.bind_eq_bind, Option.bind_some, skip_of_ne rfl]
      change (readMembers fuel (' ' :: (writeMembers (n :: o) ++ '\x7d' :: rest))).map _ = _
      rw [readMembers_blank, ih (List.cons_ne_nil _ _) hlen]
      rfl

theorem length_writeMembers (o : Object) : o.length ≤ (writeMembers o).length := by
  induction o with
  | nil => exact Nat.zero_le _
  | cons m o ih =>
    cases o with
    | nil => simp [writeMembers, writeMember, writeString]
    | cons n o =>
      rw [writeMembers]
      simp only [List.length_append, List.length_cons] at ih ⊢
      omega

/-- **An object that is written is read back**, with blanks around it or not. -/
theorem read_write (o : Object) {before after : Str} (hbefore : before.all isBlank)
    (hafter : after.all isBlank) : read (before ++ write o ++ after) = some o := by
  have hskip : ∀ a b : Str, a.all isBlank → skip (a ++ b) = skip b := by
    intro a b ha
    exact List.dropWhile_append_of_pos (List.all_eq_true.1 ha)
  have hend : skip after = [] := by
    have h := hskip after [] hafter
    rwa [List.append_nil] at h
  have htext : write o ++ after = '\x7b' :: (writeMembers o ++ '\x7d' :: after) := by simp [write]
  rw [read, List.append_assoc, hskip _ _ hbefore, htext, skip_of_ne rfl]
  cases o with
  | nil => exact if_pos hend
  | cons m o =>
    obtain ⟨s, hs⟩ : ∃ s, writeMembers (m :: o) ++ '\x7d' :: after = '"' :: s := by
      cases o <;> exact ⟨_, rfl⟩
    have hlen : (m :: o).length ≤ (writeMembers (m :: o) ++ '\x7d' :: after).length := by
      have h := length_writeMembers (m :: o)
      rw [List.length_append]
      omega
    have hread := readMembers_write (List.cons_ne_nil m o) hlen after
    rw [hs] at hread ⊢
    change (readMembers ('"' :: s).length ('"' :: s)).bind _ = _
    rw [hread, Option.bind_some]
    exact if_pos hend

end EtherealDb.Json
