import EtherealDb.Spec.Shape
import Mathlib.Data.List.Infix

/-!
# Quotes and brackets along a text

`Scan.run` is the state a scanning loop reaches after a text. A text is **opaque** from
a state when each of its characters either is a quote or bracket that the loops count,
or stands inside quotes or brackets (`Opaque`): no scanner can see into it.

* `opaque_quoted`: a single-quoted literal with doubled quotes is opaque.
* `opaque_ident`: a double-quoted text is opaque.
* `opaque_group`: a parenthesised balanced text is opaque at depth at least zero.
* `Scan.depth_fits`: no text that a message holds makes the depth wrap.

Each leaves the state as it found it.
-/

namespace EtherealDb

open Str

/-! ## Word characters -/

/-- The word characters by code point. -/
theorem isWordChar_iff (c : Char) : isWordChar c = true ↔
    (48 ≤ c.toNat ∧ c.toNat ≤ 57) ∨ (65 ≤ c.toNat ∧ c.toNat ≤ 90) ∨ c.toNat = 95 ∨
      (97 ≤ c.toNat ∧ c.toNat ≤ 122) := by
  have h_ : c = '_' ↔ c.toNat = 95 := by rw [← Char.toNat_inj]; rfl
  simp only [isWordChar, Char.isAlphanum, Bool.or_eq_true, isAlpha_iff, isDigit_iff, beq_iff_eq, h_]
  omega

/-- Lower case keeps the word characters. -/
theorem isWordChar_toLower (c : Char) : isWordChar c.toLower = isWordChar c := by
  rw [Bool.eq_iff_iff, isWordChar_iff, isWordChar_iff, toNat_toLower]
  split <;> omega

theorem all_isWordChar_lower (s : Str) : (lower s).all isWordChar = s.all isWordChar := by
  simp [lower, Function.comp_def, isWordChar_toLower]

/-- A keyword in any case is a run of word characters. -/
theorem spelled_word {u kw : Str} (h : lower u = kw) (hne : kw ≠ []) (hkw : kw.all isWordChar) :
    u ≠ [] ∧ u.all isWordChar := by
  subst h
  rw [all_isWordChar_lower] at hkw
  exact ⟨fun hnil => hne (lower_eq_nil.2 hnil), hkw⟩

/-- A word character is not blank. -/
theorem not_isWhitespace_of_isWordChar {c : Char} (h : isWordChar c = true) :
    isWhitespace c = false := by
  rw [isWordChar_iff] at h
  simp only [isWhitespace, Bool.or_eq_false_iff, Bool.and_eq_false_iff, decide_eq_false_iff_not,
    beq_eq_false_iff_ne]
  omega

/-! ## The scan along a text -/

namespace Scan

/-- The state after a text. -/
def run (σ : Scan) (s : Str) : Scan := s.foldl step σ

@[simp] theorem run_nil (σ : Scan) : σ.run [] = σ := rfl

@[simp] theorem run_cons (σ : Scan) (c : Char) (s : Str) : σ.run (c :: s) = (σ.step c).run s := rfl

theorem run_append (σ : Scan) (a b : Str) : σ.run (a ++ b) = (σ.run a).run b :=
  List.foldl_append

/-- Outside quotes. -/
def Open (σ : Scan) : Prop := σ.inSq = false ∧ σ.inDq = false

/-- Inside quotes or brackets: no word, separator or cast is seen here. -/
def Nested (σ : Scan) : Prop := σ.inSq = true ∨ σ.inDq = true ∨ 0 < σ.depth

instance (σ : Scan) : Decidable σ.Nested := by unfold Nested; infer_instance

theorem open_start : start.Open := ⟨rfl, rfl⟩

theorem not_nested_start : ¬ start.Nested := by decide

/-- A character moves the depth by one at most. -/
theorem natAbs_depth_step (σ : Scan) (c : Char) : (σ.step c).depth.natAbs ≤ σ.depth.natAbs + 1 := by
  unfold step arm
  split_ifs <;> simp only [Option.getD_some, Option.getD_none] <;> omega

/-- A text moves it by its characters at most. -/
theorem natAbs_depth_run (σ : Scan) (s : Str) :
    (σ.run s).depth.natAbs ≤ σ.depth.natAbs + s.length := by
  induction s generalizing σ with
  | nil => exact Nat.le_refl _
  | cons c s ih =>
    have hstep := natAbs_depth_step σ c
    have hrest := ih (σ.step c)
    rw [run_cons, List.length_cons]
    omega

/-- **The depth never wraps.** Along a text of less than 2^31 characters, which is more than a
message of 16 MiB or a packet holds, an `i32` has every depth. -/
theorem depth_fits {s p : Str} (hp : p <+: s) (h : s.length < 2 ^ 31) :
    -2 ^ 31 ≤ (start.run p).depth ∧ (start.run p).depth < 2 ^ 31 := by
  have hrun := natAbs_depth_run start p
  have hle := hp.length_le
  have hzero : start.depth.natAbs = 0 := rfl
  omega

/-- A character that no arm counts leaves the state alone. -/
theorem step_of_arm {σ : Scan} {c : Char} (h : σ.arm c = none) : σ.step c = σ := by
  simp [step, h]

theorem step_of_arm_some {σ τ : Scan} {c : Char} (h : σ.arm c = some τ) : σ.step c = τ := by
  simp [step, h]

/-- A text without a counted character leaves the state alone. -/
theorem run_of_arm {σ : Scan} {s : Str} (h : ∀ c ∈ s, σ.arm c = none) : σ.run s = σ := by
  induction s with
  | nil => rfl
  | cons c s ih =>
    rw [run_cons, step_of_arm (h c (by simp)), ih fun d hd => h d (by simp [hd])]

/-- Only quotes and brackets are counted. -/
theorem arm_eq_none {σ : Scan} {c : Char}
    (h : c ≠ '\'' ∧ c ≠ '"' ∧ c ≠ '(' ∧ c ≠ '[' ∧ c ≠ ')' ∧ c ≠ ']') : σ.arm c = none := by
  obtain ⟨h1, h2, h3, h4, h5, h6⟩ := h
  simp [arm, h1, h2, h3, h4, h5, h6]

theorem isWordChar_ne {c : Char} (h : isWordChar c = true) :
    c ≠ '\'' ∧ c ≠ '"' ∧ c ≠ '(' ∧ c ≠ '[' ∧ c ≠ ')' ∧ c ≠ ']' := by
  refine ⟨?_, ?_, ?_, ?_, ?_, ?_⟩ <;> (rintro rfl; exact absurd h (by decide))

/-- A counted character is not part of a word. -/
theorem isWordChar_of_arm {σ τ : Scan} {c : Char} (h : σ.arm c = some τ) :
    isWordChar c = false := by
  by_contra hw
  rw [arm_eq_none (isWordChar_ne (by simpa using hw))] at h
  exact absurd h (by simp)

/-- Inside single quotes only a single quote counts. -/
theorem arm_inSq {σ : Scan} (hs : σ.inSq = true) {c : Char} (hc : c ≠ '\'') : σ.arm c = none := by
  simp [arm, hs, hc]

/-- Inside double quotes only a double quote counts. -/
theorem arm_inDq {σ : Scan} (hd : σ.inDq = true) {c : Char} (hc : c ≠ '"') : σ.arm c = none := by
  simp [arm, hd, hc]

/-- The depth `d` higher. -/
def lift (d : ℤ) (σ : Scan) : Scan := { σ with depth := d + σ.depth }

theorem arm_lift (d : ℤ) (σ : Scan) (c : Char) :
    (σ.lift d).arm c = (σ.arm c).map (lift d) := by
  obtain ⟨e, q, r⟩ := σ
  -- with the quotes known, each arm is a question about the character alone
  cases q <;> cases r <;> simp [arm, lift, add_assoc, add_sub_assoc]
  all_goals split_ifs <;> rfl

/-- Scanning never looks at the depth. -/
theorem step_lift (d : ℤ) (σ : Scan) (c : Char) : (σ.lift d).step c = (σ.step c).lift d := by
  unfold step
  rw [arm_lift]
  cases σ.arm c <;> rfl

theorem run_lift (d : ℤ) (σ : Scan) (s : Str) : (σ.lift d).run s = (σ.run s).lift d := by
  induction s generalizing σ with
  | nil => rfl
  | cons c s ih => rw [run_cons, step_lift, ih, run_cons]

/-- An open state is the start state, lifted. -/
theorem Open.eq_lift {σ : Scan} (h : σ.Open) : σ = start.lift σ.depth := by
  obtain ⟨d, q, r⟩ := σ
  obtain ⟨rfl, rfl⟩ := h
  simp [lift, start]

end Scan

/-- Word characters do not move a scan. -/
theorem run_word_chars {u : Str} (hu : u.all isWordChar) (σ : Scan) : σ.run u = σ :=
  Scan.run_of_arm fun c hc => Scan.arm_eq_none (Scan.isWordChar_ne (List.all_eq_true.1 hu c hc))

/-! ## Opaque texts -/

/-- No character of the text can be seen by a scanner that starts in `σ`. -/
def Opaque (σ : Scan) : Str → Prop
  | [] => True
  | c :: s => ((σ.arm c).isSome ∨ σ.Nested) ∧ Opaque (σ.step c) s

theorem Opaque.append {σ : Scan} {a b : Str} (ha : Opaque σ a) (hb : Opaque (σ.run a) b) :
    Opaque σ (a ++ b) := by
  induction a generalizing σ with
  | nil => exact hb
  | cons c a ih => exact ⟨ha.1, ih ha.2 hb⟩

/-- A text all of whose prefixes end inside quotes or brackets is opaque. -/
theorem opaque_of_nested {σ : Scan} {s : Str}
    (h : ∀ a b, s = a ++ b → b ≠ [] → (σ.run a).Nested) : Opaque σ s := by
  induction s generalizing σ with
  | nil => trivial
  | cons c s ih =>
    refine ⟨Or.inr (h [] (c :: s) rfl (by simp)), ih ?_⟩
    intro a b hs hb
    exact h (c :: a) b (by rw [hs]; rfl) hb

/-- Inside quotes or brackets, a text that no arm counts is opaque. -/
theorem scan_inside {σ : Scan} (hσ : σ.Nested) {s : Str} (hs : ∀ c ∈ s, σ.arm c = none) :
    σ.run s = σ ∧ Opaque σ s := by
  refine ⟨Scan.run_of_arm hs, ?_⟩
  induction s with
  | nil => trivial
  | cons c s ih =>
    have hstep := Scan.step_of_arm (hs c (by simp))
    exact ⟨Or.inr hσ, by rw [hstep]; exact ih fun d hd => hs d (by simp [hd])⟩

/-! ### Single-quoted literals -/

/-- A text with its single quotes doubled. -/
def double (s : Str) : Str := s.flatMap fun c => if c = '\'' then ['\'', '\''] else [c]

/-- A single-quoted literal of a text. -/
def quoted (s : Str) : Str := '\'' :: double s ++ ['\'']

theorem double_cons (c : Char) (s : Str) :
    double (c :: s) = (if c = '\'' then ['\'', '\''] else [c]) ++ double s := rfl

/-- Inside a literal, doubled quotes leave it and enter it again. -/
theorem scan_double {σ : Scan} (hq : σ.inSq = true) (hd : σ.inDq = false) (s : Str) :
    σ.run (double s) = σ ∧ Opaque σ (double s) := by
  induction s with
  | nil => exact ⟨rfl, trivial⟩
  | cons c s ih =>
    obtain ⟨d, q, r⟩ := σ
    obtain rfl : q = true := hq
    obtain rfl : r = false := hd
    rw [double_cons]
    by_cases hc : c = '\''
    · -- the first quote of the pair closes the literal, the second opens it again
      rw [if_pos hc]
      exact ⟨ih.1, Or.inl rfl, Or.inl rfl, ih.2⟩
    · rw [if_neg hc]
      have harm := Scan.arm_inSq (σ := ⟨d, true, false⟩) rfl hc
      have hstep := Scan.step_of_arm harm
      refine ⟨?_, Or.inr (Or.inl rfl), ?_⟩
      · rw [List.singleton_append, Scan.run_cons, hstep]; exact ih.1
      · rw [hstep]; exact ih.2

/-- **A literal is opaque and leaves the scan where it was.** -/
theorem opaque_quoted {σ : Scan} (h : σ.Open) (s : Str) :
    Opaque σ (quoted s) ∧ σ.run (quoted s) = σ := by
  obtain ⟨d, q, r⟩ := σ
  obtain ⟨rfl, rfl⟩ := h
  obtain ⟨h1, h2⟩ := scan_double (σ := ⟨d, true, false⟩) rfl rfl s
  have hrun : (Scan.mk d false false).run ('\'' :: double s) = ⟨d, true, false⟩ := h1
  refine ⟨Opaque.append ⟨Or.inl rfl, h2⟩ ?_, ?_⟩
  · rw [hrun]; exact ⟨Or.inl rfl, trivial⟩
  · unfold quoted; rw [Scan.run_append, hrun]; rfl

/-! ### Double-quoted identifiers -/

/-- A double-quoted text. -/
def dquoted (s : Str) : Str := '"' :: s ++ ['"']

theorem scan_inDq {σ : Scan} (hd : σ.inDq = true) {s : Str} (hs : '"' ∉ s) :
    σ.run s = σ ∧ Opaque σ s := by
  refine scan_inside (.inr (.inl hd)) fun c hc => Scan.arm_inDq hd ?_
  rintro rfl
  exact hs hc

/-- **A double-quoted text is opaque and leaves the scan where it was.** -/
theorem opaque_ident {σ : Scan} (h : σ.Open) {s : Str} (hs : '"' ∉ s) :
    Opaque σ (dquoted s) ∧ σ.run (dquoted s) = σ := by
  obtain ⟨d, q, r⟩ := σ
  obtain ⟨rfl, rfl⟩ := h
  obtain ⟨h1, h2⟩ := scan_inDq (σ := ⟨d, false, true⟩) rfl hs
  have hrun : (Scan.mk d false false).run ('"' :: s) = ⟨d, false, true⟩ := h1
  refine ⟨Opaque.append ⟨Or.inl rfl, h2⟩ ?_, ?_⟩
  · rw [hrun]; exact ⟨Or.inl rfl, trivial⟩
  · unfold dquoted; rw [Scan.run_append, hrun]; rfl

/-! ### Parenthesised groups -/

/-- **Quote- and bracket-balanced**: a scan from the start never goes below depth zero
and ends where it began. -/
structure Balanced (s : Str) : Prop where
  closed : Scan.start.run s = Scan.start
  nonneg : ∀ a b, s = a ++ b → 0 ≤ (Scan.start.run a).depth

theorem balanced_iff (s : Str) : Balanced s ↔
    Scan.start.run s = Scan.start ∧ ∀ a ∈ s.inits, 0 ≤ (Scan.start.run a).depth := by
  constructor
  · rintro ⟨h1, h2⟩
    refine ⟨h1, fun a ha => ?_⟩
    obtain ⟨b, rfl⟩ := (List.mem_inits a s).1 ha
    exact h2 a b rfl
  · rintro ⟨h1, h2⟩
    exact ⟨h1, fun a b hab => h2 a ((List.mem_inits a s).2 ⟨b, hab.symm⟩)⟩

instance (s : Str) : Decidable (Balanced s) := decidable_of_iff' _ (balanced_iff s)

/-- A parenthesised text. -/
def group (s : Str) : Str := '(' :: s ++ [')']

/-- A balanced text leaves any open scan where it was. -/
theorem Balanced.run_eq {s : Str} (hs : Balanced s) {σ : Scan} (h : σ.Open) : σ.run s = σ := by
  rw [h.eq_lift, Scan.run_lift, hs.closed]

/-- **A group is opaque at depth at least zero and leaves the scan where it was.** -/
theorem opaque_group {σ : Scan} (h : σ.Open) (h0 : 0 ≤ σ.depth) {s : Str} (hs : Balanced s) :
    Opaque σ (group s) ∧ σ.run (group s) = σ := by
  obtain ⟨d, q, r⟩ := σ
  obtain ⟨rfl, rfl⟩ := h
  -- the body never goes below the depth that the bracket opens
  have hin : Opaque ⟨d + 1, false, false⟩ s := by
    apply opaque_of_nested
    intro a b hab _
    have hl : (Scan.mk (d + 1) false false).run a = (Scan.start.run a).lift (d + 1) := by
      rw [← Scan.run_lift]; simp [Scan.lift, Scan.start]
    have hnn := hs.nonneg a b hab
    rw [hl]
    exact Or.inr (Or.inr (by simp only [Scan.lift]; simp only at h0; omega))
  have hrun : (Scan.mk d false false).run ('(' :: s) = ⟨d + 1, false, false⟩ :=
    hs.run_eq (σ := ⟨d + 1, false, false⟩) ⟨rfl, rfl⟩
  refine ⟨Opaque.append ⟨Or.inl rfl, hin⟩ ?_, ?_⟩
  · rw [hrun]; exact ⟨Or.inl rfl, trivial⟩
  · unfold group; rw [Scan.run_append, hrun]
    simp [Scan.step, Scan.arm]

end EtherealDb
