import EtherealDb.Proof.Marks
import EtherealDb.Proof.Scan

/-!
# Placeholders inside literals

`param_types` keeps no track of quotes, so it reads what a literal says.

* `reads_literal`: the placeholders before a literal, those in it, and those after it; only
  the ones in it depend on what it says.
* `literal_hidden_iff`: **a literal is invisible exactly when no dollar sign in it has a
  number**, and between two given texts every literal is exactly when they panic anyway.
-/

namespace EtherealDb

open Str

/-! ## Numbers -/

/-- Doubling quotes keeps the number that a text begins with. -/
theorem numberAt_double (s : Str) : numberAt (double s) = numberAt s := by
  have hdigits : ∀ s, (Utf8.encode (double s)).takeWhile isAsciiDigit =
      (Utf8.encode s).takeWhile isAsciiDigit := by
    intro s
    induction s with
    | nil => rfl
    | cons c s ih =>
      rw [double_cons]
      by_cases hc : c = '\''
      · subst hc
        rfl
      · rw [if_neg hc, List.singleton_append, Utf8.encode_cons, Utf8.encode_cons,
          List.takeWhile_append, List.takeWhile_append, ih]
  rw [numberAt, numberAt, hdigits]

/-! ## Walls -/

theorem rtakeWhile_append {p : Char → Bool} {c : Char} (hc : p c = false) (x t : Str) :
    (x ++ [c] ++ t).rtakeWhile p = t.rtakeWhile p := by
  induction t using List.reverseRecOn with
  | nil =>
    rw [List.append_nil, List.rtakeWhile_concat_neg _ _ _ (by rw [hc]; exact Bool.false_ne_true)]
    rfl
  | append_singleton t d ih =>
    rw [← List.append_assoc]
    by_cases hd : p d
    · rw [List.rtakeWhile_concat_pos _ _ _ hd, List.rtakeWhile_concat_pos _ _ _ hd, ih]
    · rw [List.rtakeWhile_concat_neg _ _ _ hd, List.rtakeWhile_concat_neg _ _ _ hd]

/-- Nothing before a quote is read: it is no blank, no operator and no part of a name. -/
theorem columnBefore_wall (x t : Str) :
    columnBefore (x ++ ['\''] ++ t) = columnBefore (['\''] ++ t) := by
  obtain ⟨k, hk⟩ : ∃ k, k = t.rdropWhile (onByte isAsciiWhitespace) := ⟨_, rfl⟩
  have hread : ∀ x : Str, columnBefore (x ++ ['\''] ++ t) =
      if ('\'' :: k).getLast?.any (onByte isOperator) then
        let name := ((k.rdropWhile (onByte isOperator)).rdropWhile
          (onByte isAsciiWhitespace)).rtakeWhile (onByte isNameByte)
        if name = [] then none else some (rsplitNext '.' name)
      else none := by
    intro x
    have hlast : (x ++ ['\''] ++ k).getLast? = ('\'' :: k).getLast? := by
      rw [List.append_assoc, List.singleton_append]
      exact List.getLast?_append_of_ne_nil x (List.cons_ne_nil _ _)
    unfold columnBefore
    dsimp only
    rw [rdropWhile_append (by decide), ← hk, hlast, rdropWhile_append (by decide),
      rdropWhile_append (by decide), rtakeWhile_append (by decide)]
  rw [hread x]
  exact (hread []).symm

/-! ## A literal among the rest -/

/-- The marks of a text with a literal in it. -/
theorem marks_quoted (p s q : Str) : marks [] (p ++ quoted s ++ q) =
    marks [] p ++ marks (p ++ ['\'']) (double s) ++ marks (p ++ quoted s) q := by
  have hquote : ∀ a r : Str, marks a ('\'' :: r) = marks (a ++ ['\'']) r := by
    intro a r
    rw [marks, if_neg (fun h => absurd h.1 (by decide)), List.nil_append]
  have hnumber : ∀ y r : Str, numberAt (y ++ '\'' :: r) = numberAt y :=
    fun y r => numberAt_append (by decide) y r
  have htext : p ++ quoted s ++ q = p ++ '\'' :: (double s ++ '\'' :: q) := by simp [quoted]
  have hend : p ++ ['\''] ++ double s ++ ['\''] = p ++ quoted s := by simp [quoted]
  rw [htext, marks_append [] p _ (fun _ y _ => hnumber y _), hquote,
    marks_append _ (double s) _ (fun _ y _ => hnumber y _), hquote, List.nil_append, hend,
    List.append_assoc]

/-- The types of the placeholders behind a quote do not depend on what stands before it. -/
theorem marks_behind (rules : Rules) (x t s : Str) :
    (marks (x ++ ['\''] ++ t) s).map (fun m => (m.2, typeBefore rules m.1)) =
      (marks (['\''] ++ t) s).map (fun m => (m.2, typeBefore rules m.1)) := by
  induction s generalizing t with
  | nil => rfl
  | cons c s ih =>
    have hrest := ih (t ++ [c])
    rw [← List.append_assoc, ← List.append_assoc] at hrest
    have htype : typeBefore rules (x ++ ['\''] ++ t) = typeBefore rules (['\''] ++ t) := by
      rw [typeBefore, typeBefore, columnBefore_wall]
    rw [marks, marks, List.map_append, List.map_append, hrest]
    split_ifs
    · rw [List.map_singleton, List.map_singleton, htype]
    · rfl

/-- The placeholders that a literal says. -/
def said (rules : Rules) (s : Str) : List (ℕ × WireType) :=
  (marks ['\''] (double s)).map fun m => (m.2, typeBefore rules m.1)

@[simp] theorem said_nil (rules : Rules) : said rules [] = [] := rfl

/-- **What is read of a text with a literal in it**: only what the literal says depends on
the literal. -/
theorem reads_literal (rules : Rules) (p s q : Str) : reads rules (p ++ quoted s ++ q) =
    reads rules p ++ said rules s ++
      (marks ['\''] q).map (fun m => (m.2, typeBefore rules m.1)) := by
  have hsaid : (marks (p ++ ['\'']) (double s)).map (fun m => (m.2, typeBefore rules m.1)) =
      said rules s := by
    have hbehind := marks_behind rules p [] (double s)
    rwa [List.append_nil, List.append_nil] at hbehind
  have hafter : (marks (p ++ quoted s) q).map (fun m => (m.2, typeBefore rules m.1)) =
      (marks ['\''] q).map (fun m => (m.2, typeBefore rules m.1)) := by
    have hbehind := marks_behind rules (p ++ '\'' :: double s) [] q
    have hquoted : p ++ quoted s = p ++ '\'' :: double s ++ ['\''] := by
      rw [quoted, List.append_assoc]
    rwa [List.append_nil, List.append_nil, ← hquoted] at hbehind
  unfold reads
  rw [marks_quoted, List.map_append, List.map_append, hsaid, hafter]

/-! ## Literals that are not seen -/

/-- Doubling quotes keeps the numbers of a text. -/
theorem marks_double (a b s : Str) :
    (marks a (double s)).map Prod.snd = (marks b s).map Prod.snd := by
  induction s generalizing a b with
  | nil => rfl
  | cons c s ih =>
    rw [double_cons]
    by_cases hc : c = '\''
    · have hskip : ∀ (x : Str) (d : Char) (r : Str), d = '\'' →
          marks x (d :: r) = marks (x ++ [d]) r := by
        rintro x d r rfl
        rw [marks, if_neg (fun h => absurd h.1 (by decide)), List.nil_append]
      rw [if_pos hc, List.cons_append, List.singleton_append, hskip a _ _ rfl, hskip _ _ _ rfl,
        hskip b _ _ hc, ih]
    · rw [if_neg hc, List.singleton_append, marks, marks, numberAt_double, List.map_append,
        List.map_append, ih (a ++ [c]) (b ++ [c])]
      split_ifs <;> rfl

/-- No dollar sign of a text has a number, up to the wrapping of a `usize`. -/
def Silent (s : Str) : Prop :=
  ∀ t u, s = t ++ '$' :: u → number ((Utf8.encode u).takeWhile isAsciiDigit) % 2 ^ 64 = 0

theorem said_eq_nil (rules : Rules) {s : Str} : said rules s = [] ↔ Silent s := by
  have hmarks : said rules s = [] ↔ marks [] s = [] := by
    rw [said, List.map_eq_nil_iff, ← List.map_eq_nil_iff (f := Prod.snd), marks_double _ [] s,
      List.map_eq_nil_iff]
  rw [hmarks, List.eq_nil_iff_forall_not_mem]
  constructor
  · intro h t u hs
    by_contra hne
    refine h (t, numberAt u) (mem_marks.2 ⟨t, u, hs, rfl, rfl, ?_⟩)
    rw [numberAt, wrapNumber_eq]
    omega
  · rintro h ⟨x, n⟩ hm
    obtain ⟨t, u, hs, -, hn, hone⟩ := mem_marks.1 hm
    have hzero := h t u hs
    rw [numberAt, wrapNumber_eq] at hn
    omega

/-- A text that ends outside quotes. -/
def Outside (p : Str) : Prop :=
  (Scan.start.run p).inSq = false ∧ (Scan.start.run p).inDq = false

/-- The types of a prepared statement are the same with a literal as with the empty one. -/
def Hidden (memory : Memory) (s : Str) : Prop := ∀ p q rules, Outside p →
  paramTypes memory (p ++ quoted s ++ q) rules = paramTypes memory (p ++ quoted [] ++ q) rules

theorem hidden_iff (memory : Memory) (s : Str) : Hidden memory s ↔ Silent s := by
  constructor
  · intro h
    have heq := h [] [] ⟨[]⟩ ⟨rfl, rfl⟩
    rw [paramTypes_reads, paramTypes_reads, reads_literal, reads_literal] at heq
    -- alone in its text, the literal would be all that is read
    have hfill : fillTypes memory (said ⟨[]⟩ s) = some [] := by
      have hempty : reads ⟨[]⟩ [] = [] := rfl
      have hnone : fillTypes memory [] = some [] := by simp [fillTypes]
      rw [hempty, said_nil] at heq
      simpa [marks, hnone] using heq
    refine (said_eq_nil ⟨[]⟩).1 ?_
    rw [List.eq_nil_iff_forall_not_mem]
    rintro ⟨n, wt⟩ hm
    have hle := (foldl_max_le.1 (length_fillTypes hfill).symm.le).2 n
      (List.mem_map_of_mem (f := Prod.fst) hm)
    obtain ⟨⟨x, k⟩, hmark, heq⟩ := List.mem_map.1 hm
    obtain ⟨t, u, -, -, -, hone⟩ := mem_marks.1 hmark
    obtain ⟨rfl, -⟩ := Prod.mk.inj heq
    simp only [List.length_nil] at hle
    omega
  · intro h p q rules _
    rw [paramTypes_reads, paramTypes_reads, reads_literal, reads_literal, (said_eq_nil rules).2 h,
      said_nil]

/-- A number that no vector has room for. -/
def hugeParam : Str := "$9223372036854775808"

theorem said_huge (rules : Rules) : ∃ p ∈ said rules hugeParam, isizeMax < p.1 := by
  refine ⟨(9223372036854775808, typeBefore rules ['\'']), ?_, ?_⟩
  swap
  · change isizeMax < 9223372036854775808
    decide
  have hdouble : double hugeParam = '$' :: "9223372036854775808".toList := by decide
  have hnumber : numberAt "9223372036854775808" = 9223372036854775808 := by decide +kernel
  rw [said, hdouble, marks, if_pos ⟨rfl, by rw [hnumber]; decide⟩, hnumber]
  exact List.mem_cons_self

/-- **Literals are read for placeholders.** What a literal says never matters exactly when no
dollar sign in it has a number; and between given texts it does not matter what a literal
says exactly when they panic with the empty one, and so with each. -/
theorem literal_hidden_iff (memory : Memory) (content p q : Str) (rules : Rules) :
    (Hidden memory content ↔ Silent content) ∧
    ((∀ s s', paramTypes memory (p ++ quoted s ++ q) rules =
      paramTypes memory (p ++ quoted s' ++ q) rules) ↔
        paramTypes memory (p ++ quoted [] ++ q) rules = none) := by
  refine ⟨hidden_iff memory content, ?_⟩
  have hnone : ∀ s, paramTypes memory (p ++ quoted s ++ q) rules = none ↔
      ∃ m ∈ reads rules p ++ said rules s ++
        (marks ['\''] q).map (fun m => (m.2, typeBefore rules m.1)), memory.vector < m.1 := by
    intro s
    rw [paramTypes_reads, reads_literal, ← Option.not_isSome_iff_eq_none, fillTypes_isSome]
    push Not
    rfl
  constructor
  · intro h
    -- one literal makes every text panic
    rw [h [] hugeParam, hnone]
    obtain ⟨m, hm, hlt⟩ := said_huge rules
    exact ⟨m, List.mem_append_left _ (List.mem_append_right _ hm), memory.vector_le.trans_lt hlt⟩
  · intro h
    have hall : ∀ s, paramTypes memory (p ++ quoted s ++ q) rules = none := by
      intro s
      rw [hnone] at h ⊢
      obtain ⟨m, hm, hlt⟩ := h
      -- the number that is too large stands outside the literal
      rw [said_nil, List.append_nil] at hm
      refine ⟨m, ?_, hlt⟩
      rcases List.mem_append.1 hm with hm | hm
      · exact List.mem_append_left _ (List.mem_append_left _ hm)
      · exact List.mem_append_right _ hm
    intro s s'
    rw [hall s, hall s']

/-- **A literal adds a parameter.** -/
theorem literal_seen : paramTypes .most ("select ".toList ++ quoted "$1" ++ []) ⟨[]⟩ = some [.text] ∧
    paramTypes .most ("select ".toList ++ quoted [] ++ []) ⟨[]⟩ = some [] ∧ ¬Hidden .most "$1" := by
  have hone : paramTypes .most ("select ".toList ++ quoted "$1" ++ []) ⟨[]⟩ = some [.text] := by
    decide +kernel
  have hnone : paramTypes .most ("select ".toList ++ quoted [] ++ []) ⟨[]⟩ = some [] := by decide +kernel
  refine ⟨hone, hnone, ?_⟩
  intro h
  have heq := h "select ".toList [] ⟨[]⟩ ⟨by decide, by decide⟩
  rw [hone, hnone] at heq
  cases heq

end EtherealDb
