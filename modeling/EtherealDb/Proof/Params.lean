import EtherealDb.Spec.Params

/-!
# Parameter discovery: when it panics, and what it finds

* `nearbyColumn_isSome`: the name next to a placeholder is sliced at char boundaries.
* `paramTypes_isSome`: **`param_types` panics exactly on a `$`-number above the largest
  vector**, where the types cannot be allocated.
* `length_paramTypes`: there are as many types as the greatest `$`-number.
* `mem_placeholders_iff`: the `$`-numbers of a text, without the loop that reads them.
-/

namespace EtherealDb

open Str

/-! ## Boundaries -/

/-- A char boundary of a text. -/
def Boundary (s : Str) (k : ℕ) : Prop := ∃ p q, s = p ++ q ∧ len p = k

/-- An ASCII byte stands at a boundary. -/
theorem boundary_of_ascii {s : Str} {k : ℕ} {b : UInt8} (hb : b.toNat < 128)
    (h : (Utf8.encode s)[k]? = some b) : Boundary s k := by
  obtain ⟨hk, hget⟩ := List.getElem?_eq_some_iff.1 h
  have hsplit : Utf8.encode s = (Utf8.encode s).take k ++ b :: (Utf8.encode s).drop (k + 1) := by
    rw [← hget, List.getElem_cons_drop, List.take_append_drop]
  obtain ⟨p, q, rfl, hp, -⟩ := Utf8.ascii_boundary hb hsplit
  refine ⟨p, q, rfl, ?_⟩
  rw [← Utf8.length_encode, hp, List.length_take]
  omega

/-- **A slice between two boundaries** does not panic. -/
theorem slice_isSome {s : Str} {i j : ℕ} (hi : Boundary s i) (hj : Boundary s j) (hij : i ≤ j) :
    (slice s i j).isSome := by
  obtain ⟨p, q, rfl, rfl⟩ := hi
  obtain ⟨p', q', heq, rfl⟩ := hj
  rcases List.append_eq_append_iff.1 heq with ⟨m, rfl, rfl⟩ | ⟨m, rfl, rfl⟩
  · rw [← List.append_assoc, len_append, slice_append]
    rfl
  · -- then nothing stands between the two
    have hm : m = [] := len_eq_zero.1 (by rw [len_append] at hij; omega)
    subst hm
    have := slice_append p' [] q
    simp only [List.append_nil, len_nil, Nat.add_zero] at this ⊢
    rw [this]
    rfl

/-- Where a walk over ASCII bytes stops is a boundary. -/
theorem Boundary.skipBack {s : Str} {p : UInt8 → Bool} (hp : ∀ b, p b → b.toNat < 128) {k : ℕ}
    (h : Boundary s k) : Boundary s (skipBack p (Utf8.encode s) k) := by
  induction k with
  | zero => exact h
  | succ k ih =>
    unfold EtherealDb.skipBack
    split
    · rename_i hk
      obtain ⟨b, hb, hpb⟩ := (Option.any_eq_true _ _).1 hk
      exact ih (boundary_of_ascii (hp b hpb) hb)
    · exact h

/-! ## Placeholders -/

theorem isAsciiWhitespace_lt (b : UInt8) (h : isAsciiWhitespace b) : b.toNat < 128 := by
  simp only [isAsciiWhitespace, Bool.or_eq_true, decide_eq_true_eq] at h
  rcases h with (((rfl | rfl) | rfl) | rfl) | rfl <;> decide

theorem isOperator_lt (b : UInt8) (h : isOperator b) : b.toNat < 128 := by
  simp only [isOperator, Bool.or_eq_true, decide_eq_true_eq] at h
  rcases h with (((((((rfl | rfl) | rfl) | rfl) | rfl) | rfl) | rfl) | rfl) | rfl <;> decide

theorem isNameByte_lt (b : UInt8) (h : isNameByte b) : b.toNat < 128 := by
  simp only [isNameByte, isAsciiAlphanumeric, isAsciiDigit, Bool.or_eq_true, Bool.and_eq_true,
    decide_eq_true_eq, UInt8.le_iff_toNat_le] at h
  rcases h with (((h | h) | h) | rfl) | rfl
  · have : b.toNat ≤ 57 := h.2
    omega
  · have : b.toNat ≤ 90 := h.2
    omega
  · have : b.toNat ≤ 122 := h.2
    omega
  · decide
  · decide

/-- **The name next to a placeholder** is sliced at char boundaries. -/
theorem nearbyColumn_isSome {sql : Str} {dollar : ℕ} (h : Boundary sql dollar) :
    (nearbyColumn sql dollar).isSome := by
  unfold nearbyColumn
  -- back over blanks, the operator and more blanks, then over the name
  have hstop := ((h.skipBack isAsciiWhitespace_lt).skipBack isOperator_lt).skipBack
    isAsciiWhitespace_lt
  dsimp only
  split
  · split
    · rename_i hlt
      rw [Option.isSome_map]
      exact slice_isSome (hstop.skipBack isNameByte_lt) hstop hlt.le
    · rfl
  · rfl

/-- A placeholder starts with a dollar sign. -/
theorem getElem?_of_mem_placeholdersFrom {b : Bytes} {fuel i : ℕ} {p : ℕ × ℕ}
    (h : p ∈ placeholdersFrom b fuel i) : b[p.1]? = some 36 := by
  induction fuel generalizing i with
  | zero => simp [placeholdersFrom] at h
  | succ fuel ih =>
    unfold placeholdersFrom at h
    split at h
    · rename_i hd
      rcases List.mem_append.1 h with h | h
      · split at h
        · rw [List.mem_singleton.1 h]; exact hd.1
        · simp at h
      · exact ih h
    · exact ih h

theorem placeholderType_isSome {sql : Str} {p : ℕ × ℕ} (h : p ∈ placeholders sql) (rules : Rules) :
    (placeholderType sql rules p.1).isSome := by
  rw [placeholderType, Option.isSome_map]
  exact nearbyColumn_isSome (boundary_of_ascii (by decide) (getElem?_of_mem_placeholdersFrom h))

theorem foldl_max_le {l : List ℕ} {a m : ℕ} : l.foldl max a ≤ m ↔ a ≤ m ∧ ∀ n ∈ l, n ≤ m := by
  induction l generalizing a with
  | nil => simp
  | cons b l ih => simp [ih, and_assoc]

/-- Every placeholder has a type, so the loop gets to the allocation. -/
theorem paramTypes_eq (memory : Memory) (sql : Str) (rules : Rules) :
    ∃ found, paramTypes memory sql rules = fillTypes memory found ∧
      found.map Prod.fst = (placeholders sql).map Prod.snd := by
  have hfound : ∀ l : List (ℕ × ℕ), (∀ p ∈ l, (placeholderType sql rules p.1).isSome) →
      ∃ found, (l.mapM fun p => (placeholderType sql rules p.1).map fun wt => (p.2, wt)) =
        some found ∧ found.map Prod.fst = l.map Prod.snd := by
    intro l
    induction l with
    | nil => intro _; exact ⟨[], rfl, rfl⟩
    | cons p l ih =>
      intro h
      obtain ⟨wt, hwt⟩ := Option.isSome_iff_exists.1 (h p (by simp))
      obtain ⟨found, hf, hn⟩ := ih fun q hq => h q (by simp [hq])
      refine ⟨(p.2, wt) :: found, ?_, by simp [hn]⟩
      rw [List.mapM_cons, hf, hwt]
      rfl
  obtain ⟨found, hf, hn⟩ := hfound _ fun p hp => placeholderType_isSome hp rules
  refine ⟨found, ?_, hn⟩
  unfold paramTypes
  rw [hf]
  rfl

/-- The vector of types has no room. -/
theorem fillTypes_isSome {memory : Memory} {found : List (ℕ × WireType)} :
    (fillTypes memory found).isSome ↔ ∀ p ∈ found, p.1 ≤ memory.vector := by
  have hall : (∀ n ∈ found.map Prod.fst, n ≤ memory.vector) ↔ ∀ p ∈ found, p.1 ≤ memory.vector := by
    simp only [List.mem_map, forall_exists_index, and_imp, forall_apply_eq_imp_iff₂]
  rw [← hall, fillTypes]
  split
  · rename_i hlt
    constructor
    · intro h; simp at h
    · intro h
      have := foldl_max_le.2 ⟨Nat.zero_le memory.vector, h⟩
      omega
  · rename_i hle
    simp only [Option.isSome_some, true_iff]
    exact (foldl_max_le.1 (not_lt.1 hle)).2

theorem length_fillTypes {memory : Memory} {found : List (ℕ × WireType)} {types : List WireType}
    (h : fillTypes memory found = some types) : types.length = (found.map Prod.fst).foldl max 0 := by
  have hlen : ∀ (l : List (ℕ × WireType)) (out : List WireType),
      (l.foldl (fun out p => out.set (p.1 - 1) p.2) out).length = out.length := by
    intro l
    induction l with
    | nil => intro out; rfl
    | cons p l ih => intro out; rw [List.foldl_cons, ih, List.length_set]
  rw [fillTypes] at h
  split_ifs at h
  rw [← Option.some.inj h, hlen, List.length_replicate]

/-- **When `param_types` panics**: on a `$`-number that no vector has room for. -/
theorem paramTypes_isSome (memory : Memory) (sql : Str) (rules : Rules) :
    (paramTypes memory sql rules).isSome ↔ ∀ p ∈ placeholders sql, p.2 ≤ memory.vector := by
  obtain ⟨found, hpt, hn⟩ := paramTypes_eq memory sql rules
  have hall : (∀ n ∈ found.map Prod.fst, n ≤ memory.vector) ↔
      ∀ n ∈ (placeholders sql).map Prod.snd, n ≤ memory.vector := by rw [hn]
  simp only [List.mem_map, forall_exists_index, and_imp, forall_apply_eq_imp_iff₂] at hall
  rw [hpt, fillTypes_isSome, hall]

/-- **There are as many types as the greatest `$`-number.** -/
theorem length_paramTypes {memory : Memory} {sql : Str} {rules : Rules} {types : List WireType}
    (h : paramTypes memory sql rules = some types) :
    types.length = ((placeholders sql).map Prod.snd).foldl max 0 := by
  obtain ⟨found, hpt, hn⟩ := paramTypes_eq memory sql rules
  rw [hpt] at h
  rw [length_fillTypes h, hn]

/-- The vector of types was allocated. -/
theorem length_paramTypes_le {memory : Memory} {sql : Str} {rules : Rules} {types : List WireType}
    (h : paramTypes memory sql rules = some types) : types.length ≤ memory.vector := by
  rw [length_paramTypes h, foldl_max_le]
  refine ⟨Nat.zero_le _, fun n hn => ?_⟩
  obtain ⟨p, hp, rfl⟩ := List.mem_map.1 hn
  exact (paramTypes_isSome memory sql rules).1 (by rw [h]; rfl) p hp

/-! ## The numbers -/

/-- The digits after an offset. -/
def digitsAfter (b : Bytes) (i : ℕ) : Bytes := (b.drop (i + 1)).takeWhile isAsciiDigit

/-- The number that digits stand for. -/
def number (digits : Bytes) : ℕ := digits.foldl (fun num d => num * 10 + (d.toNat - 48)) 0

/-- The number in a `usize`; `none` is an overflow. -/
def checkedNumber (digits : Bytes) : Option ℕ :=
  digits.foldlM (fun num d =>
    if num * 10 + (d.toNat - 48) < 2 ^ 64 then some (num * 10 + (d.toNat - 48)) else none) 0

/-- **A number that fits does so all along**, and is not wrapped. -/
theorem checkedNumber_isSome (digits : Bytes) :
    ((checkedNumber digits).isSome ↔ number digits < 2 ^ 64) ∧
      (number digits < 2 ^ 64 → wrapNumber digits = number digits) := by
  have hle : ∀ (ds : Bytes) (a : ℕ),
      a ≤ ds.foldl (fun num d => num * 10 + (d.toNat - 48)) a := by
    intro ds
    induction ds with
    | nil => intro a; exact le_rfl
    | cons d ds ih =>
      intro a
      have hnext := ih (a * 10 + (d.toNat - 48))
      rw [List.foldl_cons]
      omega
  unfold checkedNumber number wrapNumber
  generalize hzero : (0 : ℕ) = a
  have ha : a < 2 ^ 64 := by omega
  clear hzero
  induction digits generalizing a with
  | nil => exact ⟨iff_of_true rfl ha, fun _ => rfl⟩
  | cons d ds ih =>
    have hnext := hle ds (a * 10 + (d.toNat - 48))
    rw [List.foldlM_cons, List.foldl_cons, List.foldl_cons]
    by_cases hd : a * 10 + (d.toNat - 48) < 2 ^ 64
    · rw [if_pos hd, Nat.mod_eq_of_lt hd]
      exact ih _ hd
    · rw [if_neg hd]
      refine ⟨iff_of_false (by simp) (by omega), fun h => ?_⟩
      omega

/-- No dollar sign stands among digits. -/
theorem le_of_dollar {b : Bytes} {i j : ℕ} (hij : i < j) (hj : b[j]? = some 36) :
    i + 1 + (digitsAfter b i).length ≤ j := by
  by_contra hlt
  have hk : j - (i + 1) < (digitsAfter b i).length := by omega
  have hdigit : isAsciiDigit ((digitsAfter b i)[j - (i + 1)]) :=
    List.mem_takeWhile_imp (List.getElem_mem hk)
  have hget : (digitsAfter b i)[j - (i + 1)] = 36 := by
    have hprefix := (List.takeWhile_prefix (l := b.drop (i + 1)) isAsciiDigit).getElem hk
    have hdrop : (b.drop (i + 1))[j - (i + 1)]? = some 36 := by
      rw [List.getElem?_drop, Nat.add_sub_cancel' (show i + 1 ≤ j from hij), hj]
    obtain ⟨_, heq⟩ := List.getElem?_eq_some_iff.1 hdrop
    exact hprefix.trans heq
  rw [hget] at hdigit
  exact absurd hdigit (by decide)

/-- Digits after an offset begin right after it. -/
theorem digitsAfter_nil {b : Bytes} {i : ℕ} (h : ¬(b[i + 1]?).any isAsciiDigit) :
    digitsAfter b i = [] := by
  unfold digitsAfter
  rw [List.takeWhile_eq_nil_iff]
  intro hpos hdig
  apply h
  have hget : b[i + 1]? = (b.drop (i + 1))[0]? := by rw [List.getElem?_drop]
  rw [hget, List.getElem?_eq_getElem hpos]
  exact hdig

/-- The loop of `param_types` from an offset, with enough rounds for the rest. -/
theorem mem_placeholdersFrom_iff {b : Bytes} {j n : ℕ} (fuel i : ℕ) (h : b.length ≤ i + fuel) :
    (j, n) ∈ placeholdersFrom b fuel i ↔
      i ≤ j ∧ b[j]? = some 36 ∧ n = wrapNumber (digitsAfter b j) ∧ 1 ≤ n := by
  induction fuel generalizing i with
  | zero =>
    refine iff_of_false (by simp [placeholdersFrom]) ?_
    rintro ⟨hij, hj, -⟩
    obtain ⟨hlt, -⟩ := List.getElem?_eq_some_iff.1 hj
    omega
  | succ fuel ih =>
    have hdigits : (b.drop (i + 1)).takeWhile isAsciiDigit = digitsAfter b i := rfl
    unfold placeholdersFrom
    split_ifs with hd
    · -- the digits after this dollar sign are skipped
      dsimp only
      rw [List.mem_append, hdigits, ih _ (by omega)]
      constructor
      · rintro (hmem | ⟨hij, hrest⟩)
        · split_ifs at hmem with hone
          · obtain ⟨rfl, rfl⟩ := Prod.mk.inj (List.mem_singleton.1 hmem)
            exact ⟨le_rfl, hd.1, rfl, hone⟩
          · cases hmem
        · exact ⟨by omega, hrest⟩
      · rintro ⟨hij, hj, hn, hone⟩
        rcases hij.eq_or_lt with rfl | hlt
        · left
          rw [← hn, if_pos hone]
          exact List.mem_singleton_self _
        · exact .inr ⟨le_of_dollar hlt hj, hj, hn, hone⟩
    · rw [ih _ (by omega)]
      constructor
      · rintro ⟨hij, hrest⟩
        exact ⟨by omega, hrest⟩
      · rintro ⟨hij, hj, hn, hone⟩
        refine ⟨?_, hj, hn, hone⟩
        by_contra hlt
        obtain rfl : i = j := by omega
        -- without a digit there is no number
        have hnil := digitsAfter_nil fun hdig => hd ⟨hj, hdig⟩
        rw [hnil] at hn
        have hzero : wrapNumber [] = 0 := rfl
        omega

/-- **The placeholders of a text** are its dollar signs with a number after them. -/
theorem mem_placeholders_iff {sql : Str} {i n : ℕ} : (i, n) ∈ placeholders sql ↔
    (Utf8.encode sql)[i]? = some 36 ∧ n = wrapNumber (digitsAfter (Utf8.encode sql) i) ∧
      1 ≤ n := by
  have hlen : (Utf8.encode sql).length ≤ 0 + len sql := by
    rw [Utf8.length_encode, Nat.zero_add]
  rw [placeholders, mem_placeholdersFrom_iff _ _ hlen]
  exact and_iff_right (Nat.zero_le i)

end EtherealDb
