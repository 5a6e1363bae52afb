import EtherealDb.Proof.Items
import EtherealDb.Proof.Marks

/-!
# Placeholders with a column

Every placeholder with a number writes the entry of the number, so the last one decides, and
`nearby_column` looks to the left alone.

* `columnBefore_left`: `col op $n` is always recognised.
* `fillTypes_last`: the last of the placeholders with a number decides.
* `contexts_decide_iff`: **an entry has the type of a column that the placeholder is
  compared with exactly when the text to the left of its last occurrence gives one.**
-/

namespace EtherealDb

open Str

variable {rules : Rules} {sql : Str} {n : ℕ}

/-! ## Contexts -/

/-- The comparison operators. -/
def comparisons : List Str := ["=", "<", ">", "<=", ">=", "<>", "!="]

/-- A column with its qualifiers. -/
structure ColumnRef where
  quals : List Ident
  name : Ident

def ColumnRef.text (c : ColumnRef) : Str := qualified c.quals c.name.text

/-- The type that is inferred for a column. -/
def ColumnRef.type (c : ColumnRef) (rules : Rules) : WireType :=
  wireType (inferWith c.name.text rules)

/-- `col op`, up to the end of the text. -/
def LeftContext (a : Str) (c : ColumnRef) : Prop :=
  ∃ x g op h, a = x ++ c.text ++ g ++ op ++ h ∧ (∀ d ∈ x.getLast?, onByte isNameByte d = false) ∧
    (∀ d ∈ g, onByte isAsciiWhitespace d) ∧ op ∈ comparisons ∧ ∀ d ∈ h, onByte isAsciiWhitespace d

/-- `op col`, from the start of the text. -/
def RightContext (u : Str) (c : ColumnRef) : Prop :=
  ∃ g op h y, u = g ++ op ++ h ++ c.text ++ y ∧ (∀ d ∈ g, onByte isAsciiWhitespace d) ∧
    op ∈ comparisons ∧ (∀ d ∈ h, onByte isAsciiWhitespace d) ∧
    ∀ d ∈ y.head?, onByte isNameByte d = false

/-- An occurrence of `$n`, with the text before and after it. -/
def Occurrence (sql : Str) (n : ℕ) (a u : Str) : Prop :=
  ∃ d, sql = a ++ '$' :: (d ++ u) ∧ d ≠ [] ∧ (∀ x ∈ d, onByte isAsciiDigit x) ∧
    (∀ x ∈ u.head?, onByte isAsciiDigit x = false) ∧ number (Utf8.encode d) = n ∧ 1 ≤ n

/-- A type that a column gives to `$n` by a comparison. -/
def Context (sql : Str) (rules : Rules) (n : ℕ) (wt : WireType) : Prop :=
  ∃ a u c, Occurrence sql n a u ∧ (LeftContext a c ∨ RightContext u c) ∧ wt = c.type rules

/-- Where `$n` has a context, its entry is the type that a context gives. -/
def Contextual (memory : Memory) (sql : Str) (rules : Rules) (n : ℕ) : Prop :=
  (∃ wt, Context sql rules n wt) →
    ∃ types wt, paramTypes memory sql rules = some types ∧ types[n - 1]? = some wt ∧
      Context sql rules n wt

/-- The last dollar sign with a number, up to the wrapping of a `usize`, by the text before
it. -/
def LastMark (sql : Str) (n : ℕ) (a : Str) : Prop :=
  ∃ u, sql = a ++ '$' :: u ∧ numberAt u = n ∧ ∀ t v, u = t ++ '$' :: v → numberAt v ≠ n

/-! ## The left side -/

theorem byte_word {c : Char} (h : isWordChar c = true) : onByte isNameByte c = true ∧
    onByte isOperator c = false ∧ onByte isAsciiWhitespace c = false := by
  have hall : ∀ n < 128, (48 ≤ n ∧ n ≤ 57) ∨ (65 ≤ n ∧ n ≤ 90) ∨ n = 95 ∨ (97 ≤ n ∧ n ≤ 122) →
      isNameByte (UInt8.ofNat n) = true ∧ isOperator (UInt8.ofNat n) = false ∧
        isAsciiWhitespace (UInt8.ofNat n) = false := by decide
  have hrange := (isWordChar_iff c).1 h
  have hlow : c.toNat < 128 := by omega
  obtain ⟨hname, hop, hblank⟩ := hall c.toNat hlow hrange
  unfold onByte
  rw [decide_eq_true hlow, hname, hop, hblank]
  exact ⟨rfl, rfl, rfl⟩

theorem byte_column {c : ColumnRef} : ∀ d ∈ c.text, onByte isNameByte d = true ∧
    onByte isOperator d = false ∧ onByte isAsciiWhitespace d = false := by
  obtain ⟨quals, name⟩ := c
  intro d hd
  have hchars : isWordChar d ∨ d = '.' := by
    change d ∈ qualified quals name.text at hd
    induction quals with
    | nil => exact .inl (List.all_eq_true.1 name.all_word d hd)
    | cons q quals ih =>
      rcases List.mem_append.1 hd with hd | hd
      · exact .inl (List.all_eq_true.1 q.all_word d hd)
      · rcases List.mem_cons.1 hd with rfl | hd
        · exact .inr rfl
        · exact ih hd
  rcases hchars with h | rfl
  · exact byte_word h
  · decide

theorem column_ne_nil (c : ColumnRef) : c.text ≠ [] := by
  unfold ColumnRef.text
  cases c.quals with
  | nil => exact c.name.ne_nil
  | cons q quals =>
    intro h
    exact q.ne_nil (List.append_eq_nil_iff.1 h).1

/-- Of an operator each character is one, and there is one at least. -/
theorem byte_comparison : ∀ op ∈ comparisons, op ≠ [] ∧ op.all (onByte isOperator) ∧
    op.all (fun d => !onByte isAsciiWhitespace d) := by decide

theorem rdropWhile_cut {p : Char → Bool} {m h : Str} (hh : ∀ d ∈ h, p d)
    (hm : ∀ d ∈ m.getLast?, p d = false) : (m ++ h).rdropWhile p = m := by
  induction h using List.reverseRecOn with
  | nil =>
    rw [List.append_nil, List.rdropWhile_eq_self_iff]
    intro hne
    rw [hm _ (List.getLast?_eq_some_getLast hne)]
    exact Bool.false_ne_true
  | append_singleton h d ih =>
    rw [← List.append_assoc, List.rdropWhile_concat_pos _ _ _ (hh d (by simp))]
    exact ih fun e he => hh e (by simp [he])

theorem rtakeWhile_cut {p : Char → Bool} {x t : Str} (ht : ∀ d ∈ t, p d)
    (hx : ∀ d ∈ x.getLast?, p d = false) : (x ++ t).rtakeWhile p = t := by
  induction t using List.reverseRecOn with
  | nil =>
    rw [List.append_nil, List.rtakeWhile_eq_nil_iff]
    intro hne
    rw [hx _ (List.getLast?_eq_some_getLast hne)]
    exact Bool.false_ne_true
  | append_singleton t d ih =>
    rw [← List.append_assoc, List.rtakeWhile_concat_pos _ _ _ (ht d (by simp))]
    rw [ih fun e he => ht e (by simp [he])]

/-- The end of a text with a part that is not empty. -/
theorem mem_of_getLast? {x m : Str} (hm : m ≠ []) {d : Char} (hd : d ∈ (x ++ m).getLast?) :
    d ∈ m := by
  rw [List.getLast?_append_of_ne_nil x hm] at hd
  exact List.mem_of_mem_getLast? hd

/-- **`col op $n` is always recognised.** -/
theorem columnBefore_left {a : Str} {c : ColumnRef} (h : LeftContext a c) :
    columnBefore a = some c.name.text := by
  obtain ⟨x, g, op, h, rfl, hx, hg, hop, hh⟩ := h
  obtain ⟨hne, hall, hnone⟩ := byte_comparison op hop
  have hcol := byte_column (c := c)
  -- back over the blanks, the operator, the other blanks and the column
  have hblank : (x ++ c.text ++ g ++ op ++ h).rdropWhile (onByte isAsciiWhitespace) =
      x ++ c.text ++ g ++ op := by
    refine rdropWhile_cut hh fun d hd => ?_
    have hd' := List.all_eq_true.1 hnone d (mem_of_getLast? hne hd)
    simpa using hd'
  have hlast : (x ++ c.text ++ g ++ op).getLast?.any (onByte isOperator) = true := by
    obtain ⟨d, hd⟩ := Option.isSome_iff_exists.1 (show (x ++ c.text ++ g ++ op).getLast?.isSome by
      simp [hne])
    rw [hd, Option.any_some]
    exact List.all_eq_true.1 hall d (mem_of_getLast? hne hd)
  have hops : (x ++ c.text ++ g ++ op).rdropWhile (onByte isOperator) = x ++ c.text ++ g := by
    refine rdropWhile_cut (List.all_eq_true.1 hall) fun d hd => ?_
    by_cases hgap : g = []
    · rw [hgap, List.append_nil] at hd
      exact (hcol d (mem_of_getLast? (column_ne_nil c) hd)).2.1
    · have hspace := hg d (mem_of_getLast? hgap hd)
      have hdisjoint : ∀ n < 128, isAsciiWhitespace (UInt8.ofNat n) = true →
          isOperator (UInt8.ofNat n) = false := by decide
      unfold onByte at hspace ⊢
      rw [Bool.and_eq_true, decide_eq_true_eq] at hspace
      rw [hdisjoint _ hspace.1 hspace.2, Bool.and_false]
  have hgap : (x ++ c.text ++ g).rdropWhile (onByte isAsciiWhitespace) = x ++ c.text :=
    rdropWhile_cut hg fun d hd => (hcol d (mem_of_getLast? (column_ne_nil c) hd)).2.2
  have hname : (x ++ c.text).rtakeWhile (onByte isNameByte) = c.text :=
    rtakeWhile_cut (fun d hd => (hcol d hd).1) hx
  have hdot : '.' ∉ c.name.text := fun hd =>
    absurd (List.all_eq_true.1 c.name.all_word _ hd) (by decide)
  unfold columnBefore
  dsimp only
  rw [hblank, hlast, if_pos rfl, hops, hgap, hname, if_neg (column_ne_nil c)]
  exact congrArg some (rsplitNext_qualified c.quals hdot)

/-! ## The last occurrence -/

/-- **The last of the placeholders with a number decides.** -/
theorem fillTypes_last {memory : Memory} {l₁ l₂ : List (ℕ × WireType)} {wt : WireType}
    {types : List WireType} (h : fillTypes memory (l₁ ++ (n, wt) :: l₂) = some types) (hn : 1 ≤ n)
    (hlast : ∀ p ∈ l₂, 1 ≤ p.1 ∧ p.1 ≠ n) : types[n - 1]? = some wt := by
  have hlen := length_fillTypes h
  have hle : n ≤ types.length := by
    rw [hlen]
    exact (foldl_max_le.1 le_rfl).2 n (by simp)
  -- what comes later writes other entries
  have hkeep : ∀ (l : List (ℕ × WireType)) (out : List WireType), (∀ p ∈ l, 1 ≤ p.1 ∧ p.1 ≠ n) →
      (l.foldl (fun out p => out.set (p.1 - 1) p.2) out)[n - 1]? = out[n - 1]? ∧
        (l.foldl (fun out p => out.set (p.1 - 1) p.2) out).length = out.length := by
    intro l
    induction l with
    | nil => intro out _; exact ⟨rfl, rfl⟩
    | cons p l ih =>
      intro out hl
      obtain ⟨hone, hne⟩ := hl p (by simp)
      obtain ⟨hget, hsame⟩ := ih (out.set (p.1 - 1) p.2) fun q hq => hl q (by simp [hq])
      rw [List.foldl_cons, hget, hsame, List.getElem?_set_ne (by omega), List.length_set]
      exact ⟨rfl, rfl⟩
  rw [fillTypes] at h
  split_ifs at h
  obtain rfl := Option.some.inj h
  rw [List.foldl_append, List.foldl_cons] at hle ⊢
  obtain ⟨hget, hsame⟩ := hkeep l₂ _ hlast
  rw [hsame, List.length_set] at hle
  rw [hget, List.getElem?_set_self (by omega)]

theorem exists_lastMark {a u : Str} (h : sql = a ++ '$' :: u) (hn : numberAt u = n) :
    ∃ b, LastMark sql n b := by
  induction hlen : u.length using Nat.strong_induction_on generalizing a u with
  | _ k ih =>
    by_cases hlast : ∀ t v, u = t ++ '$' :: v → numberAt v ≠ n
    · exact ⟨a, u, h, hn, hlast⟩
    · push Not at hlast
      -- go on with the one behind it: less is left
      obtain ⟨t, v, rfl, hv⟩ := hlast
      refine ih v.length ?_ (a := a ++ '$' :: t) (by rw [h]; simp) hv rfl
      rw [← hlen, List.length_append, List.length_cons]
      omega

theorem LastMark.type {a : Str} (h : LastMark sql n a) (hn : 1 ≤ n) {memory : Memory}
    {types : List WireType} (htypes : paramTypes memory sql rules = some types) :
    types[n - 1]? = some (typeBefore rules a) := by
  obtain ⟨u, rfl, rfl, hlast⟩ := h
  rw [paramTypes_reads, reads, marks_dollar hn, List.map_append, List.map_cons] at htypes
  refine fillTypes_last htypes hn ?_
  intro p hp
  obtain ⟨⟨x, m⟩, hm, rfl⟩ := List.mem_map.1 hp
  obtain ⟨t, v, hu, -, rfl, hone⟩ := mem_marks.1 hm
  exact ⟨hone, hlast t v hu⟩

/-! ## The exact condition -/

/-- No number is too large for the vector of types. -/
def Allocates (memory : Memory) (sql : Str) : Prop :=
  ∀ t u, sql = t ++ '$' :: u → numberAt u ≤ memory.vector

theorem paramTypes_allocates (memory : Memory) (sql : Str) (rules : Rules) :
    (paramTypes memory sql rules).isSome ↔ Allocates memory sql := by
  rw [paramTypes_reads, fillTypes_isSome]
  constructor
  · intro h t u hs
    by_cases hone : 1 ≤ numberAt u
    · have hmem : (t, numberAt u) ∈ marks [] sql := mem_marks.2 ⟨t, u, hs, rfl, rfl, hone⟩
      exact h _ (List.mem_map_of_mem hmem)
    · omega
  · intro h p hp
    obtain ⟨⟨x, m⟩, hm, rfl⟩ := List.mem_map.1 hp
    obtain ⟨t, u, hs, -, rfl, -⟩ := mem_marks.1 hm
    exact h t u hs

/-- Where `$n` has a context, no number is too large, and what stands to the left of the last
occurrence gives the type of a context. -/
def Decided (memory : Memory) (sql : Str) (rules : Rules) (n : ℕ) : Prop :=
  (∃ wt, Context sql rules n wt) →
    Allocates memory sql ∧ ∃ a, LastMark sql n a ∧ Context sql rules n (typeBefore rules a)

/-- **The last occurrence decides.** An entry has the type of a column that its placeholder
is compared with exactly when the text to the left of the last occurrence gives one; a
comparison there always does. -/
theorem contexts_decide_iff (memory : Memory) (sql : Str) (rules : Rules) (n : ℕ) :
    (Contextual memory sql rules n ↔ Decided memory sql rules n) ∧
      ∀ a c, LeftContext a c → typeBefore rules a = c.type rules := by
  refine ⟨⟨?_, ?_⟩, ?_⟩
  · intro h hctx
    obtain ⟨types, wt, htypes, hget, hwt⟩ := h hctx
    have halloc : Allocates memory sql := (paramTypes_allocates memory sql rules).1 (by rw [htypes]; rfl)
    obtain ⟨a, u, c, ⟨d, hsql, -, hdigits, hend, hnum, hone⟩, -, -⟩ := id hwt
    -- the entry exists, so the number is not wrapped
    have hsmall : n < 2 ^ 64 := by
      obtain ⟨hlt, -⟩ := List.getElem?_eq_some_iff.1 hget
      have hle := length_paramTypes_le htypes
      have hmax := memory.vector_le
      unfold isizeMax at hmax
      omega
    obtain ⟨b, hb⟩ := exists_lastMark hsql
      (by rw [numberAt_digits hdigits hend, hnum, Nat.mod_eq_of_lt hsmall])
    have htype := hb.type hone htypes
    obtain rfl : wt = typeBefore rules b := Option.some.inj (hget.symm.trans htype)
    exact ⟨halloc, b, hb, hwt⟩
  · intro h hctx
    obtain ⟨halloc, a, hlast, hwt⟩ := h hctx
    obtain ⟨types, htypes⟩ := Option.isSome_iff_exists.1
      ((paramTypes_allocates memory sql rules).2 halloc)
    obtain ⟨-, -, -, ⟨-, -, -, -, -, -, hone⟩, -, -⟩ := id hwt
    exact ⟨types, _, htypes, hlast.type hone htypes, hwt⟩
  · intro a c h
    rw [typeBefore, columnBefore_left h]
    rfl

/-- Behind `$n` an operator comes first. -/
theorem right_operator {u : Str} {c : ColumnRef} (h : RightContext u c) :
    (u.dropWhile (onByte isAsciiWhitespace)).head?.any (onByte isOperator) = true := by
  obtain ⟨g, op, h, y, rfl, hg, hop, -⟩ := h
  obtain ⟨hne, hall, hnone⟩ := byte_comparison op hop
  obtain ⟨d, r, rfl⟩ := List.exists_cons_of_ne_nil hne
  rw [List.all_cons, Bool.and_eq_true] at hall hnone
  have hd : onByte isAsciiWhitespace d = false := by simpa using hnone.1
  rw [List.append_assoc, List.append_assoc, List.append_assoc, List.dropWhile_append_of_pos hg,
    List.cons_append, List.dropWhile_cons_of_neg (by rw [hd]; exact Bool.false_ne_true)]
  exact hall.1

theorem drop_digits {d u : Str} (hd : ∀ c ∈ d, onByte isAsciiDigit c)
    (hu : ∀ c ∈ u.head?, onByte isAsciiDigit c = false) :
    (d ++ u).dropWhile (onByte isAsciiDigit) = u := by
  rw [List.dropWhile_append_of_pos hd]
  cases u with
  | nil => rfl
  | cons c u => rw [List.dropWhile_cons_of_neg (by rw [hu c rfl]; exact Bool.false_ne_true)]

/-- A text that compares a parameter with a column, and then tests it. -/
def nullTest : Str := "id = $1 or $1 is null"

/-- The column is the only context of the parameter. -/
theorem context_nullTest {wt : WireType} (h : Context nullTest ⟨[]⟩ 1 wt) : wt = .int8 := by
  obtain ⟨a, u, c, ⟨d, hsql, -, hdigits, hend, hnum, -⟩, hside, rfl⟩ := h
  have hmarks : marks [] nullTest = [("id = ".toList, 1), ("id = $1 or ".toList, 1)] := by
    decide +kernel
  have hone : numberAt (d ++ u) = 1 := by
    rw [numberAt_digits hdigits hend, hnum]
    rfl
  have hmem : (a, 1) ∈ marks [] nullTest := mem_marks.2 ⟨a, d ++ u, hsql, rfl, hone.symm, le_rfl⟩
  have hu := drop_digits hdigits hend
  rw [hmarks, List.mem_cons, List.mem_singleton] at hmem
  -- the first occurrence has the column on its left, and the second has nothing
  rcases hmem with hmem | hmem <;> obtain ⟨rfl, -⟩ := Prod.mk.inj hmem
  · have hcut : nullTest = "id = ".toList ++ '$' :: "1 or $1 is null".toList := by decide
    have hrest : d ++ u = "1 or $1 is null".toList :=
      (List.cons.inj (List.append_cancel_left (hcut.symm.trans hsql))).2.symm
    rw [hrest] at hu
    rcases hside with hleft | hright
    · have hname := columnBefore_left hleft
      have hid : columnBefore "id = " = some "id".toList := by decide
      rw [hid] at hname
      rw [ColumnRef.type, ← Option.some.inj hname]
      decide
    · rw [← hu] at hright
      exact absurd (right_operator hright) (by decide)
  · have hcut : nullTest = "id = $1 or ".toList ++ '$' :: "1 is null".toList := by decide
    have hrest : d ++ u = "1 is null".toList :=
      (List.cons.inj (List.append_cancel_left (hcut.symm.trans hsql))).2.symm
    rw [hrest] at hu
    rcases hside with hleft | hright
    · have hname := columnBefore_left hleft
      have hnone : columnBefore "id = $1 or " = none := by decide
      rw [hnone] at hname
      cases hname
    · rw [← hu] at hright
      exact absurd (right_operator hright) (by decide)

/-- **A test for null hides the column.** -/
theorem nullTest_hidden : Context nullTest ⟨[]⟩ 1 .int8 ∧
    paramTypes .most nullTest ⟨[]⟩ = some [.text] ∧ ¬Contextual .most nullTest ⟨[]⟩ 1 := by
  have hid : Context nullTest ⟨[]⟩ 1 .int8 := by
    refine ⟨"id = ", " or $1 is null", ⟨[], ⟨"id", by decide, by decide⟩⟩, ?_, .inl ?_, by decide⟩
    · refine ⟨"1", by decide, by decide, List.all_eq_true.1 (by decide), ?_, by decide, le_rfl⟩
      intro c hc
      obtain rfl : ' ' = c := Option.some.inj hc
      decide
    · have hblank : ∀ c ∈ (" " : Str), onByte isAsciiWhitespace c := List.all_eq_true.1 (by decide)
      exact ⟨[], " ", "=", " ", by decide, by simp, hblank, by decide, hblank⟩
  have htypes : paramTypes .most nullTest ⟨[]⟩ = some [.text] := by decide +kernel
  refine ⟨hid, htypes, ?_⟩
  intro h
  obtain ⟨types, wt, hsome, hget, hwt⟩ := h ⟨_, hid⟩
  obtain rfl := Option.some.inj (htypes.symm.trans hsome)
  obtain rfl : WireType.text = wt := Option.some.inj hget
  exact absurd (context_nullTest hwt) (by decide)

end EtherealDb
