import EtherealDb.Text.Str

/-!
# Lines and fields

`str::lines` and `split_whitespace`, with the texts that they take apart.

* `Fields`: a text as fields between gaps.
* `fields_eq_iff`: **`split` without its empty pieces finds the fields**, and no others.
* `mem_fields_iff`: a field is a run without separators that has one, or an end, on each side.
* `lines_line`: the first line of a text, up to its newline.
-/

namespace EtherealDb.Str

/-! ## Fields -/

section Fields

variable {p : Char → Bool}

/-- `split(p)` without the empty pieces. -/
def fields (p : Char → Bool) (s : Str) : List Str := (s.splitOnP p).filter (· ≠ [])

/-- `split_whitespace`. -/
def splitWhitespace (s : Str) : List Str := fields isWhitespace s

/-- A text of separators alone. -/
def Blank (p : Char → Bool) (s : Str) : Prop := ∀ c ∈ s, p c = true

/-- A field: some text without separators. -/
def IsField (p : Char → Bool) (w : Str) : Prop := w ≠ [] ∧ ∀ c ∈ w, p c = false

instance (s : Str) : Decidable (Blank p s) := List.decidableBAll _ s

instance (w : Str) : Decidable (IsField p w) :=
  @instDecidableAnd _ _ inferInstance (List.decidableBAll _ w)

/-- **A text as fields between gaps.** Behind a field stands a separator or the end. -/
inductive Fields (p : Char → Bool) : Str → List Str → Prop where
  | nil {g : Str} (hg : Blank p g) : Fields p g []
  | cons {g w s : Str} {ws : List Str} (hg : Blank p g) (hw : IsField p w)
      (hs : ∀ c ∈ s.head?, p c = true) (h : Fields p s ws) : Fields p (g ++ w ++ s) (w :: ws)

/-- One field alone. -/
theorem Fields.last {w : Str} (hw : IsField p w) : Fields p w [w] := by
  have h := Fields.cons (p := p) (g := []) (List.forall_mem_nil _) hw (s := []) (by simp)
    (.nil (List.forall_mem_nil _))
  rwa [List.append_nil] at h

theorem fields_blank_append {g : Str} (hg : Blank p g) (s : Str) :
    fields p (g ++ s) = fields p s := by
  induction g with
  | nil => rfl
  | cons c g ih =>
    have hc : p c = true := hg c (by simp)
    rw [List.cons_append, fields, List.splitOnP_cons_eq_if_modifyHead, if_pos hc,
      List.filter_cons_of_neg (by simp)]
    exact ih fun d hd => hg d (by simp [hd])

theorem fields_blank {g : Str} (hg : Blank p g) : fields p g = [] := by
  have h := fields_blank_append hg []
  rw [List.append_nil] at h
  rw [h]
  rfl

theorem fields_field {w s : Str} (hw : IsField p w) (hs : ∀ c ∈ s.head?, p c = true) :
    fields p (w ++ s) = w :: fields p s := by
  obtain ⟨hne, hall⟩ := hw
  cases s with
  | nil =>
    rw [List.append_nil, fields, List.splitOnP_eq_singleton hall, List.filter_cons_of_pos (by simpa)]
    rfl
  | cons c s =>
    have hc : p c = true := hs c (by simp)
    rw [fields, List.splitOnP_append_cons_of_forall_mem hall c hc, List.filter_cons_of_pos (by simpa)]
    exact congrArg (w :: ·) (fields_blank_append (g := [c]) (by simpa [Blank] using hc) s).symm

theorem Fields.fields_eq {s : Str} {ws : List Str} (h : Fields p s ws) : fields p s = ws := by
  induction h with
  | nil hg => exact fields_blank hg
  | cons hg hw hs _ ih => rw [List.append_assoc, fields_blank_append hg, fields_field hw hs, ih]

/-- A separator in front of a text adds to its first gap. -/
theorem Fields.sep {c : Char} (hc : p c = true) {s : Str} {ws : List Str} (h : Fields p s ws) :
    Fields p (c :: s) ws := by
  have hcons : ∀ g : Str, Blank p g → Blank p (c :: g) := by
    intro g hg d hd
    rcases List.mem_cons.1 hd with rfl | hd
    · exact hc
    · exact hg d hd
  cases h with
  | nil hg => exact .nil (hcons _ hg)
  | @cons g w t _ hg hw hs h => exact .cons (g := c :: g) (hcons _ hg) hw hs h

/-- **Every text has fields.** -/
theorem exists_fields (p : Char → Bool) (s : Str) : ∃ ws, Fields p s ws := by
  induction s with
  | nil => exact ⟨[], .nil (by simp [Blank])⟩
  | cons c s ih =>
    obtain ⟨ws, h⟩ := ih
    by_cases hc : p c = true
    · exact ⟨ws, h.sep hc⟩
    · have hfield : ∀ w : Str, (∀ d ∈ w, p d = false) → IsField p (c :: w) := by
        intro w hw
        refine ⟨by simp, fun d hd => ?_⟩
        rcases List.mem_cons.1 hd with rfl | hd
        · simpa using hc
        · exact hw d hd
      cases h with
      | nil hg =>
        have hs : ∀ d ∈ s.head?, p d = true := fun d hd => hg d (List.mem_of_mem_head? hd)
        exact ⟨[[c]], .cons (g := []) (w := [c]) (by simp [Blank]) (hfield [] (by simp)) hs (.nil hg)⟩
      | @cons g w t us hg hw hs h =>
        cases g with
        | nil =>
          -- the character stands before the first field, and joins it
          exact ⟨(c :: w) :: us, .cons (g := []) (by simp [Blank]) (hfield w hw.2) hs h⟩
        | cons d g =>
          refine ⟨[c] :: w :: us, .cons (g := []) (w := [c]) (by simp [Blank])
            (hfield [] (by simp)) ?_ (.cons hg hw hs h)⟩
          intro e he
          obtain rfl : d = e := by simpa using he
          exact hg d (by simp)

/-- **What `fields` finds are the fields.** -/
theorem fields_eq_iff {s : Str} {ws : List Str} : fields p s = ws ↔ Fields p s ws := by
  constructor
  · rintro rfl
    obtain ⟨ws, h⟩ := exists_fields p s
    rwa [h.fields_eq]
  · exact Fields.fields_eq

theorem fields_sep {c : Char} (hc : p c = true) (a b : Str) :
    fields p (a ++ c :: b) = fields p a ++ fields p b := by
  rw [fields, List.splitOnP_append_cons _ _ hc, List.filter_append]
  rfl

/-- A text that ends in a separator, or at the front, is apart from what follows. -/
theorem fields_append {a b : Str} (h : ∀ c ∈ a.getLast?, p c = true) :
    fields p (a ++ b) = fields p a ++ fields p b := by
  induction a using List.reverseRecOn with
  | nil => rfl
  | append_singleton a c _ =>
    have hc : p c = true := h c (by simp)
    rw [List.append_assoc, List.singleton_append, fields_sep hc, fields_sep hc a []]
    simp [fields]

theorem fields_append_blank {g : Str} (hg : Blank p g) (a : Str) : fields p (a ++ g) = fields p a := by
  cases g with
  | nil => rw [List.append_nil]
  | cons c g =>
    have htail : Blank p g := fun d hd => hg d (by simp [hd])
    rw [fields_sep (hg c (by simp)), fields_blank htail, List.append_nil]

theorem fields_eq_nil_iff {s : Str} : fields p s = [] ↔ Blank p s := by
  constructor
  · intro h
    cases fields_eq_iff.1 h with
    | nil hg => exact hg
  · exact fields_blank

/-- A text with a place where a field stands: between separators, or at an end. -/
def Placed (p : Char → Bool) (w s : Str) : Prop :=
  ∃ a b, s = a ++ w ++ b ∧ (∀ c ∈ a.getLast?, p c = true) ∧ ∀ c ∈ b.head?, p c = true

theorem Fields.mem {s w : Str} {ws : List Str} (h : Fields p s ws) (hw : w ∈ ws) :
    IsField p w ∧ Placed p w s := by
  induction h with
  | nil hg => simp at hw
  | @cons g u t us hg hu hs _ ih =>
    rcases List.mem_cons.1 hw with rfl | hw
    · exact ⟨hu, g, t, rfl, fun c hc => hg c (List.mem_of_mem_getLast? hc), hs⟩
    · obtain ⟨hfield, a, b, rfl, ha, hb⟩ := ih hw
      refine ⟨hfield, g ++ u ++ a, b, by simp, ?_, hb⟩
      cases a with
      | cons c a => rwa [List.getLast?_append_cons]
      | nil =>
        -- the field would go on from the one before it
        obtain ⟨c, w, rfl⟩ := List.exists_cons_of_ne_nil hfield.1
        have hsep : p c = true := hs c (by simp)
        rw [hfield.2 c (by simp)] at hsep
        cases hsep

/-- **A field of a text** stands between separators, or at an end. -/
theorem mem_fields_iff {s w : Str} : w ∈ fields p s ↔ IsField p w ∧ Placed p w s := by
  constructor
  · intro h
    exact (fields_eq_iff.1 rfl).mem h
  · rintro ⟨hw, a, b, rfl, ha, hb⟩
    rw [List.append_assoc, fields_append ha, fields_field hw hb]
    simp

end Fields

/-- `trim` takes no field away. -/
theorem splitWhitespace_trim (s : Str) : splitWhitespace (trim s) = splitWhitespace s := by
  have hstart : Blank isWhitespace (s.takeWhile isWhitespace) := fun _ => List.mem_takeWhile_imp
  have hend : Blank isWhitespace ((trimStart s).rtakeWhile isWhitespace) :=
    fun _ => List.mem_rtakeWhile_imp
  have hfront := fields_blank_append hstart (trimStart s)
  have hback := fields_append_blank hend (trim s)
  rw [trimStart, List.takeWhile_append_dropWhile] at hfront
  rw [trim, trimEnd, List.rdropWhile_append_rtakeWhile] at hback
  exact hback.symm.trans hfront.symm

/-- `trim` leaves nothing of a blank text. -/
theorem trim_eq_nil {s : Str} (h : Blank isWhitespace s) : trim s = [] := by
  rw [trim, trimStart, List.dropWhile_eq_nil_iff.2 h]
  rfl

/-! ## Lines -/

/-- `split_inclusive('\n')`. -/
def splitInclusive : Str → List Str
  | [] => []
  | c :: s =>
    if c = '\n' then [c] :: splitInclusive s
    else match splitInclusive s with
      | [] => [[c]]
      | l :: ls => (c :: l) :: ls

/-- A line without its ending: a `\n`, and a `\r` before it. -/
def stripEol (l : Str) : Str :=
  match l.reverse with
  | '\n' :: '\r' :: r => r.reverse
  | '\n' :: r => r.reverse
  | _ => l

/-- `str::lines`. -/
def lines (s : Str) : List Str := (splitInclusive s).map stripEol

theorem splitInclusive_line {l : Str} (h : '\n' ∉ l) (s : Str) :
    splitInclusive (l ++ '\n' :: s) = (l ++ ['\n']) :: splitInclusive s := by
  induction l with
  | nil => simp [splitInclusive]
  | cons c l ih =>
    obtain ⟨hc, hl⟩ := not_or.1 (mt List.mem_cons.2 h)
    rw [List.cons_append, splitInclusive, if_neg (Ne.symm hc), ih hl]
    rfl

/-- A line that ends with `\n`. -/
theorem lines_line {l : Str} (h : '\n' ∉ l) (hr : l.getLast? ≠ some '\r') (s : Str) :
    lines (l ++ '\n' :: s) = l :: lines s := by
  rw [lines, splitInclusive_line h, List.map_cons]
  refine congrArg (· :: _) ?_
  have hrev : (l ++ ['\n']).reverse = '\n' :: l.reverse := by simp
  unfold stripEol
  rw [hrev]
  split
  · next r heq =>
    obtain ⟨-, hl⟩ := List.cons.inj heq
    rw [List.getLast?_eq_head?_reverse, hl] at hr
    simp at hr
  · next r _ heq =>
    obtain ⟨-, hl⟩ := List.cons.inj heq
    rw [← hl, List.reverse_reverse]
  · next hno => exact absurd rfl (hno _)

end EtherealDb.Str
