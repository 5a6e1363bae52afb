import EtherealDb.Proof.Recover

/-!
# What the scanners pass over

A character is **faint** when no scanner counts it and no word holds it: a blank, a
semicolon, a comma, a dollar sign.

* `words_gap`: faint characters between two parts only end the word before them.
* `trim_cut`, `bareStmt_cut`: a text is its trimmed part with faint ends.
* `textsOf_bareStmt`: **trimming a statement keeps its words.**
-/

namespace EtherealDb

open Str Reading

/-! ## Faint characters -/

/-- No word character, no quote and no bracket. -/
def Faint (c : Char) : Prop :=
  isWordChar c = false ∧ c ≠ '\'' ∧ c ≠ '"' ∧ c ≠ '(' ∧ c ≠ '[' ∧ c ≠ ')' ∧ c ≠ ']'

instance (c : Char) : Decidable (Faint c) := by unfold Faint; infer_instance

/-- A space is a blank. -/
theorem blank_space : ∀ c ∈ [' '], isWhitespace c = true := List.forall_mem_singleton.2 (by decide)

theorem faint_blank {c : Char} (h : isWhitespace c = true) : Faint c := by
  refine ⟨?_, ?_, ?_, ?_, ?_, ?_, ?_⟩
  · rw [Bool.eq_false_iff]
    intro hword
    rw [not_isWhitespace_of_isWordChar hword] at h
    cases h
  all_goals
    rintro rfl
    exact absurd h (by decide)

/-- Faint characters do not move a scan. -/
theorem run_faint {s : Str} (h : ∀ c ∈ s, Faint c) (σ : Scan) : σ.run s = σ :=
  Scan.run_of_arm fun c hc => Scan.arm_eq_none (h c hc).2

theorem breaks_faint {s : Str} (h : ∀ c ∈ s, Faint c) (σ : Scan) : Breaks σ s :=
  fun c hc => .inr (h c (List.mem_of_mem_head? hc)).1

/-- Faint characters hold no word. -/
theorem readWords_faint {i : ℕ} {σ : Scan} {g : Str} (h : ∀ c ∈ g, Faint c) (b : Str) :
    readWords (at' i σ) (g ++ b) = readWords (at' (i + len g) σ) b := by
  induction g generalizing i with
  | nil => rfl
  | cons c g ih =>
    have hc := h c (by simp)
    have hstep : (at' i σ).step c = (at' (i + c.utf8Size) σ, []) := by
      unfold Reading.step
      rw [if_pos (.inr hc.1)]
      simp only [at', Scan.step_of_arm (Scan.arm_eq_none hc.2)]
      rfl
    rw [List.cons_append, readWords_cons, hstep, List.nil_append,
      ih fun d hd => h d (by simp [hd]), len_cons, Nat.add_assoc]

/-- **A gap between two parts.** -/
theorem words_gap {r : Reading} {a g : Str} (h : ∀ c ∈ g, Faint c) (hne : g ≠ []) (b : Str) :
    readWords r (a ++ (g ++ b)) =
      readWords r a ++ readWords (at' (r.pos + len a + len g) (r.scan.run a)) b := by
  obtain ⟨c, g', rfl⟩ := List.exists_cons_of_ne_nil hne
  have hbreaks : Breaks (r.scan.run a) (c :: g' ++ b) := breaks_cons (h c (by simp)).1 _
  rw [readWords_append hbreaks, readWords_faint h]

/-- Faint characters at the end add no word. -/
theorem words_trail {r : Reading} {a g : Str} (h : ∀ c ∈ g, Faint c) :
    readWords r (a ++ g) = readWords r a := by
  have hread := readWords_faint (i := r.pos + len a) (σ := r.scan.run a) h []
  rw [List.append_nil, readWords_nil] at hread
  rw [readWords_append (breaks_faint h _), hread]
  exact List.append_nil _

/-! ## Trimming -/

/-- **A text is its trimmed part between blanks.** -/
theorem trim_cut (s : Str) : ∃ a b, s = a ++ trim s ++ b ∧
    (∀ c ∈ a, isWhitespace c = true) ∧ ∀ c ∈ b, isWhitespace c = true := by
  refine ⟨s.takeWhile isWhitespace, (trimStart s).rtakeWhile isWhitespace, ?_, ?_, ?_⟩
  · have hend : trimStart s = trim s ++ (trimStart s).rtakeWhile isWhitespace :=
      List.rdropWhile_append_rtakeWhile.symm
    rw [List.append_assoc, ← hend]
    exact List.takeWhile_append_dropWhile.symm
  · exact fun c hc => List.mem_takeWhile_imp hc
  · exact fun c hc => List.mem_rtakeWhile_imp hc

/-- The first character that `trim_start` leaves is not blank. -/
theorem head_trimStart {s : Str} {c : Char} (h : c ∈ (trimStart s).head?) :
    isWhitespace c = false := by
  cases hd : trimStart s with
  | nil =>
    rw [hd] at h
    cases h
  | cons d r =>
    rw [hd] at h
    obtain rfl : d = c := Option.some.inj h
    have hne : s.dropWhile isWhitespace ≠ [] := by
      rw [show s.dropWhile isWhitespace = d :: r from hd]
      simp
    have hhead := List.head_dropWhile_not isWhitespace hne
    have hdr : (s.dropWhile isWhitespace).head hne = d := by
      simp only [show s.dropWhile isWhitespace = d :: r from hd, List.head_cons]
    rw [hdr] at hhead
    exact hhead

/-- **What is left of a text that is not blank has firm ends.** -/
theorem trim_ends {s : Str} (h : trim s ≠ []) : Ends Firm Firm (trim s) := by
  refine ⟨h, ?_, ?_⟩
  · intro c hc
    obtain ⟨d, hd⟩ : trim s <+: trimStart s := List.rdropWhile_prefix _ _
    refine head_trimStart (s := s) ?_
    rw [← hd]
    exact List.mem_head?_append_of_mem_head? hc
  · intro c hc
    rw [List.getLast?_eq_some_getLast h, Option.mem_def, Option.some.injEq] at hc
    have hlast : ¬isWhitespace ((trim s).getLast h) = true :=
      List.rdropWhile_last_not isWhitespace (trimStart s) h
    rw [hc] at hlast
    simpa [Firm] using hlast

theorem trim_trim (s : Str) : trim (trim s) = trim s := by
  by_cases h : trim s = []
  · rw [h]
    rfl
  · exact (trim_ends h).trim

/-- **Blanks around a text are trimmed.** -/
theorem trim_blanks {a b : Str} (s : Str) (ha : ∀ c ∈ a, isWhitespace c = true)
    (hb : ∀ c ∈ b, isWhitespace c = true) : trim (a ++ s ++ b) = trim s := by
  obtain ⟨x, y, hs, hx, hy⟩ := trim_cut s
  have hall : ∀ {p q : Str}, (∀ c ∈ p, isWhitespace c = true) → (∀ c ∈ q, isWhitespace c = true) →
      ∀ c ∈ p ++ q, isWhitespace c = true := by
    intro p q hp hq c hc
    exact (List.mem_append.1 hc).elim (hp c) (hq c)
  have hsplit : a ++ s ++ b = (a ++ x) ++ trim s ++ (y ++ b) := by
    conv_lhs => rw [hs]
    simp only [List.append_assoc]
  by_cases h : trim s = []
  · rw [hsplit, h, List.append_nil]
    have hblank := hall (hall ha hx) (hall hy hb)
    unfold trim trimStart
    rw [List.dropWhile_eq_nil_iff.2 hblank]
    rfl
  · rw [hsplit]
    exact (trim_ends h).trim_blank (hall ha hx) (hall hy hb)

/-- A statement is trimmed from its end alone once its start is. -/
theorem bareStmt_eq (s : Str) : bareStmt s = bareEnd (trimStart s) := by
  have hpre : ∀ t, t <+: trimStart s → trimStart t = t := by
    rintro t ⟨d, hd⟩
    cases t with
    | nil => rfl
    | cons c t =>
      have hc : isWhitespace c = false := head_trimStart (s := s) (by rw [← hd]; rfl)
      exact List.dropWhile_cons_of_neg (by simp [hc])
  have hpre' : trimEndMatches ';' (trimEnd (trimStart s)) <+: trimStart s :=
    (List.rdropWhile_prefix _ _).trans (List.rdropWhile_prefix _ _)
  unfold bareStmt bareEnd trim
  rw [hpre _ hpre']

/-- A trimmed statement is read alike. -/
theorem bareStmt_trim (s : Str) : bareStmt (trim s) = bareStmt s := by
  rw [bareStmt, trim_trim, bareStmt]

theorem extract_trim (s : Str) : extract (trim s) = extract s := by
  rw [extract, extract, bareStmt_trim]

/-- **A solid part keeps what stands before it** from being trimmed. -/
theorem bareStmt_solid {p : Str} (h : Ends Solid Solid p) (q : Str) :
    bareStmt (p ++ q) = p ++ bareEnd q := by
  have hstart : trimStart (p ++ q) = p ++ q := by
    obtain ⟨a, m, rfl⟩ := List.exists_cons_of_ne_nil h.ne
    have ha : isWhitespace a = false := (h.first a rfl).1
    exact List.dropWhile_cons_of_neg (by simp [ha])
  obtain ⟨m, c, hm⟩ : ∃ m c, p = m ++ [c] := by
    rcases List.eq_nil_or_concat p with hnil | ⟨m, c, hm⟩
    · exact absurd hnil h.ne
    · exact ⟨m, c, by simpa using hm⟩
  obtain ⟨hc, -, hsemi⟩ := h.last c (by rw [hm]; simp)
  rw [bareStmt_eq, hstart, hm]
  unfold bareEnd trimEnd trimEndMatches
  rw [rdropWhile_append hc, rdropWhile_append (by simpa using hsemi), rdropWhile_append hc]

/-- **A statement is its bare part between blanks**, with semicolons among the last. -/
theorem bareStmt_cut (s : Str) : ∃ a b, s = a ++ bareStmt s ++ b ∧
    (∀ c ∈ a, isWhitespace c = true) ∧ ∀ c ∈ b, isWhitespace c = true ∨ c = ';' := by
  obtain ⟨b, hb, hall⟩ := bareEnd_append (trimStart s)
  refine ⟨s.takeWhile isWhitespace, b, ?_, fun c hc => List.mem_takeWhile_imp hc, hall⟩
  rw [bareStmt_eq, List.append_assoc, ← hb]
  exact List.takeWhile_append_dropWhile.symm

/-- **Trimming a statement keeps its words.** -/
theorem textsOf_bareStmt (s : Str) : textsOf (bareStmt s) = textsOf s := by
  obtain ⟨a, b, hs, ha, hb⟩ := bareStmt_cut s
  have ha' : ∀ c ∈ a, Faint c := fun c hc => faint_blank (ha c hc)
  have hb' : ∀ c ∈ b, Faint c := by
    intro c hc
    rcases hb c hc with h | rfl
    · exact faint_blank h
    · decide
  have hwords : wordsOf s = readWords (at' (0 + len a) .start) (bareStmt s) := by
    conv_lhs => rw [hs]
    rw [wordsOf, List.append_assoc, readWords_faint ha', words_trail hb']
  rw [textsOf, textsOf, hwords]
  exact texts_readWords _ _ _ _

end EtherealDb
