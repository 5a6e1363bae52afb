import EtherealDb.Proof.Scan
import EtherealDb.Text.Machine

/-!
# The word scanner without slices

`scanWords` keeps the offset at which the pending word began and slices the word out
when it ends. `readWords` keeps the pending characters instead, so nothing can panic.
The two agree (`scanWords_eq`): every word is a piece of the text at its offsets.

* `readWords_append`: a text read in two parts, when the second does not continue a
  word of the first (`Breaks`).
* `run_hidden`: an opaque text has no words.
* `texts_readWords`: the texts of the words do not depend on the offset.
* `piece_of_mem`, `ordered_wordsOf`: every word is a piece of the text, and the words
  stand in order.
-/

namespace EtherealDb

open Str

/-- The state of `readWords`: the offset, the quotes and brackets, and the pending word
with its offset. -/
structure Reading where
  pos : ℕ
  scan : Scan
  pend : Option (ℕ × Str)

namespace Reading

/-- The start of a text read from offset `i` in scan state `σ`. -/
def at' (i : ℕ) (σ : Scan) : Reading := ⟨i, σ, none⟩

/-- The pending word, ended here. -/
def flush (r : Reading) : List Word :=
  match r.pend with
  | none => []
  | some (i, w) => [⟨lower w, i, r.pos⟩]

/-- The pending word with one more character. -/
def extend (r : Reading) (c : Char) : ℕ × Str :=
  match r.pend with
  | none => (r.pos, [c])
  | some (i, w) => (i, w ++ [c])

/-- One character. -/
def step (r : Reading) (c : Char) : Reading × List Word :=
  if r.scan.Nested ∨ isWordChar c = false then
    (⟨r.pos + c.utf8Size, r.scan.step c, none⟩, r.flush)
  else (⟨r.pos + c.utf8Size, r.scan.step c, some (r.extend c)⟩, [])

/-- The state after a text. -/
def after (r : Reading) (s : Str) : Reading := (Machine.run step r s).1

/-- **The words of a text**, read from a state; the last one ends with the text. -/
def readWords (r : Reading) (s : Str) : List Word :=
  (Machine.run step r s).2 ++ (r.after s).flush

@[simp] theorem readWords_nil (r : Reading) : readWords r [] = r.flush := rfl

@[simp] theorem after_nil (r : Reading) : r.after [] = r := rfl

theorem readWords_cons (r : Reading) (c : Char) (s : Str) :
    readWords r (c :: s) = (r.step c).2 ++ readWords (r.step c).1 s := by
  simp [readWords, after]

theorem after_cons (r : Reading) (c : Char) (s : Str) :
    r.after (c :: s) = (r.step c).1.after s := rfl

@[simp] theorem after_pos (r : Reading) (s : Str) : (r.after s).pos = r.pos + len s := by
  induction s generalizing r with
  | nil => rfl
  | cons c s ih => rw [after_cons, ih, len_cons]; unfold step; split <;> simp [Nat.add_assoc]

@[simp] theorem after_scan (r : Reading) (s : Str) : (r.after s).scan = r.scan.run s := by
  induction s generalizing r with
  | nil => rfl
  | cons c s ih => rw [after_cons, ih, Scan.run_cons]; unfold step; split <;> rfl

/-- The state with no pending word. -/
def drop (r : Reading) : Reading := at' r.pos r.scan

/-- A text does not continue a word: it is empty, or its first character ends one. -/
def Breaks (σ : Scan) (s : Str) : Prop := ∀ c ∈ s.head?, σ.Nested ∨ isWordChar c = false

theorem breaks_nil (σ : Scan) : Breaks σ [] := by simp [Breaks]

theorem breaks_cons {σ : Scan} {c : Char} (h : isWordChar c = false) (s : Str) :
    Breaks σ (c :: s) := by
  intro d hd
  simp only [List.head?_cons, Option.mem_def, Option.some.injEq] at hd
  subst hd
  exact Or.inr h

/-- **A pending word ends where the text breaks.** -/
theorem readWords_of_breaks {r : Reading} {s : Str} (h : Breaks r.scan s) :
    readWords r s = r.flush ++ readWords r.drop s := by
  cases s with
  | nil => simp [drop, at', flush]
  | cons c s =>
    have hc := h c rfl
    rw [readWords_cons, readWords_cons]
    have h1 : r.step c = (⟨r.pos + c.utf8Size, r.scan.step c, none⟩, r.flush) := by
      rw [step, if_pos hc]
    have h2 : r.drop.step c = (⟨r.pos + c.utf8Size, r.scan.step c, none⟩, []) :=
      if_pos hc
    rw [h1, h2, List.nil_append]

/-- **Reading two parts.** -/
theorem readWords_append {r : Reading} {a b : Str} (h : Breaks (r.scan.run a) b) :
    readWords r (a ++ b) = readWords r a ++ readWords (at' (r.pos + len a) (r.scan.run a)) b := by
  have hb : Breaks (r.after a).scan b := by rw [after_scan]; exact h
  have hsplit : readWords r (a ++ b) = (Machine.run step r a).2 ++ readWords (r.after a) b := by
    simp [readWords, after, Machine.run_append]
  rw [hsplit, readWords_of_breaks hb, ← List.append_assoc]
  congr 1
  simp [drop]

/-- **Reading past a character that ends a word.** -/
theorem readWords_sep {r : Reading} {a b : Str} {c : Char} (hc : isWordChar c = false) :
    readWords r (a ++ c :: b) = readWords r a ++
      readWords (at' (r.pos + len a + c.utf8Size) ((r.scan.run a).step c)) b := by
  rw [readWords_append (breaks_cons hc b), readWords_cons]
  have hs : (at' (r.pos + len a) (r.scan.run a)).step c =
      (at' (r.pos + len a + c.utf8Size) ((r.scan.run a).step c), []) := if_pos (Or.inr hc)
  rw [hs]
  rfl

/-- A word character after word characters extends the pending word. -/
theorem run_word {i j : ℕ} {σ : Scan} {w u : Str} (hσ : ¬σ.Nested) (hu : u.all isWordChar) :
    Machine.run step ⟨i, σ, some (j, w)⟩ u = (⟨i + len u, σ, some (j, w ++ u)⟩, []) := by
  induction u generalizing i w with
  | nil => simp
  | cons c u ih =>
    rw [List.all_cons, Bool.and_eq_true] at hu
    have hs : (Reading.mk i σ (some (j, w))).step c =
        (⟨i + c.utf8Size, σ, some (j, w ++ [c])⟩, []) := by
      unfold step
      rw [if_neg (by simp [hσ, hu.1]), Scan.step_of_arm (Scan.arm_eq_none (Scan.isWordChar_ne hu.1))]
      rfl
    rw [Machine.run_cons, hs, ih hu.2]
    simp [Nat.add_assoc]

/-- **A run of word characters is one word.** -/
theorem readWords_word {i : ℕ} {σ : Scan} {u : Str} (hσ : ¬σ.Nested) (hne : u ≠ [])
    (hu : u.all isWordChar) : readWords (at' i σ) u = [⟨lower u, i, i + len u⟩] := by
  cases u with
  | nil => exact absurd rfl hne
  | cons c u =>
    rw [List.all_cons, Bool.and_eq_true] at hu
    have hs : (at' i σ).step c = (⟨i + c.utf8Size, σ, some (i, [c])⟩, []) := by
      unfold step
      rw [if_neg (by simp [at', hσ, hu.1])]
      simp [at', extend, Scan.step_of_arm (Scan.arm_eq_none (Scan.isWordChar_ne hu.1))]
    rw [readWords_cons, hs, readWords, after, run_word hσ hu.2]
    simp [flush, Nat.add_assoc]

/-- **An opaque text has no words**, and leaves none pending. -/
theorem run_hidden {i : ℕ} {σ : Scan} {s : Str} (h : Opaque σ s) :
    Machine.run step (at' i σ) s = (at' (i + len s) (σ.run s), []) := by
  induction s generalizing i σ with
  | nil => rfl
  | cons c s ih =>
    have hc : σ.Nested ∨ isWordChar c = false := by
      rcases h.1 with h | h
      · obtain ⟨τ, hτ⟩ := Option.isSome_iff_exists.1 h
        exact Or.inr (Scan.isWordChar_of_arm hτ)
      · exact Or.inl h
    have hs : (at' i σ).step c = (at' (i + c.utf8Size) (σ.step c), []) := if_pos hc
    rw [Machine.run_cons, hs, ih h.2, len_cons, Scan.run_cons, Nat.add_assoc]
    rfl

theorem readWords_hidden {i : ℕ} {σ : Scan} {s : Str} (h : Opaque σ s) (b : Str) :
    readWords (at' i σ) (s ++ b) = readWords (at' (i + len s) (σ.run s)) b := by
  simp [readWords, after, Machine.run_append, run_hidden h]

/-- Texts of the words, in order. -/
def texts (ws : List Word) : List Str := ws.map Word.text

/-- **The texts do not depend on the offset.** -/
theorem texts_readWords (i j : ℕ) (σ : Scan) (s : Str) :
    texts (readWords (at' i σ) s) = texts (readWords (at' j σ) s) := by
  -- two readings that agree on quotes, brackets and pending characters
  let R : Reading → Reading → Prop := fun r t =>
    r.scan = t.scan ∧ r.pend.map Prod.snd = t.pend.map Prod.snd
  have hflush : ∀ r t, R r t → r.flush.map Word.text = t.flush.map Word.text := by
    rintro ⟨_, _, p⟩ ⟨_, _, q⟩ ⟨-, hp⟩
    cases p <;> cases q <;> simp_all [flush]
  have hstep : ∀ r t c, R r t → R (r.step c).1 (t.step c).1 ∧
      (r.step c).2.map Word.text = (t.step c).2.map Word.text := by
    intro r t c h
    have hf := hflush r t h
    obtain ⟨_, σ', p⟩ := r
    obtain ⟨_, τ', q⟩ := t
    obtain ⟨rfl, hp⟩ := h
    unfold step
    by_cases hc : σ'.Nested ∨ isWordChar c = false
    · rw [if_pos hc, if_pos hc]; exact ⟨⟨rfl, rfl⟩, hf⟩
    · rw [if_neg hc, if_neg hc]
      refine ⟨⟨rfl, ?_⟩, rfl⟩
      cases p <;> cases q <;> simp_all [extend]
  obtain ⟨h1, h2⟩ := Machine.run_rel hstep s (s := at' i σ) (t := at' j σ) ⟨rfl, rfl⟩
  unfold texts readWords
  rw [List.map_append, List.map_append, h2]
  exact congrArg _ (hflush _ _ h1)

/-! ## Words are pieces of the text -/

/-- A word of a text: a piece of it made of word characters, at its offsets. -/
def Piece (s : Str) (w : Word) : Prop :=
  ∃ a u b, s = a ++ u ++ b ∧ w = ⟨lower u, len a, len a + len u⟩ ∧ u ≠ [] ∧ u.all isWordChar

/-- A piece cuts the text at its offsets. -/
theorem Piece.cut {s : Str} {w : Word} (h : Piece s w) :
    ∃ a u b, s = a ++ u ++ b ∧ w = ⟨lower u, len a, len a + len u⟩ ∧
      sliceTo s w.start = some a ∧ sliceFrom s w.stop = some b := by
  obtain ⟨a, u, b, rfl, rfl, -, -⟩ := h
  refine ⟨a, u, b, rfl, rfl, ?_, ?_⟩
  · rw [List.append_assoc]; exact sliceTo_append a (u ++ b)
  · rw [← len_append]; exact sliceFrom_append (a ++ u) b

/-- The pending word of a reading of `a` is the end of `a`. -/
def Pending (a : Str) (r : Reading) : Prop :=
  r.pos = len a ∧
    ∀ p ∈ r.pend, ∃ x, a = x ++ p.2 ∧ len x = p.1 ∧ p.2 ≠ [] ∧ p.2.all isWordChar

theorem Pending.flush {a b : Str} {r : Reading} (h : Pending a r) :
    ∀ w ∈ r.flush, Piece (a ++ b) w := by
  obtain ⟨pos, scan, p⟩ := r
  obtain ⟨hpos, hp⟩ := h
  intro w hw
  cases p with
  | none => simp [Reading.flush] at hw
  | some p =>
    obtain ⟨x, hx, hl, hne, hall⟩ := hp p rfl
    simp only [Reading.flush, List.mem_singleton] at hw
    have hpos' : pos = len x + len p.2 := by rw [← len_append, ← hx]; exact hpos
    exact ⟨x, p.2, b, by rw [← hx], by rw [hw, hl, hpos', hl], hne, hall⟩

theorem Pending.step {a : Str} {r : Reading} (h : Pending a r) (c : Char) :
    Pending (a ++ [c]) (r.step c).1 := by
  obtain ⟨hpos, hp⟩ := h
  unfold Reading.step
  by_cases hc : r.scan.Nested ∨ isWordChar c = false
  · rw [if_pos hc]; exact ⟨by simp [hpos], by simp⟩
  · rw [if_neg hc]
    rw [not_or, Bool.not_eq_false] at hc
    refine ⟨by simp [hpos], ?_⟩
    intro p hp'
    simp only [Option.mem_def, Option.some.injEq] at hp'
    subst hp'
    cases hq : r.pend with
    | none => exact ⟨a, by simp [extend, hq, hpos, hc.2]⟩
    | some q =>
      obtain ⟨x, hx, hl, hne, hall⟩ := hp q hq
      refine ⟨x, by simp [extend, hq, ← List.append_assoc, ← hx], by simp [extend, hq, hl],
        by simp [extend, hq], ?_⟩
      simp only [extend, hq, List.all_append, hall, List.all_cons, hc.2, List.all_nil]
      rfl

theorem step_words (r : Reading) (c : Char) : (r.step c).2 = r.flush ∨ (r.step c).2 = [] := by
  unfold step
  split
  · exact Or.inl rfl
  · exact Or.inr rfl

theorem Pending.readWords {a b : Str} {r : Reading} (h : Pending a r) :
    ∀ w ∈ readWords r b, Piece (a ++ b) w := by
  induction b generalizing a r with
  | nil => exact h.flush
  | cons c b ih =>
    intro w hw
    rw [readWords_cons] at hw
    rcases List.mem_append.1 hw with hw | hw
    · rcases step_words r c with hs | hs
      · exact h.flush w (hs ▸ hw)
      · rw [hs] at hw; exact absurd hw (by simp)
    · simpa using ih (h.step c) w hw

/-- The words after an offset, in order and apart. -/
def Ordered : ℕ → List Word → Prop
  | _, [] => True
  | i, w :: ws => i ≤ w.start ∧ w.start ≤ w.stop ∧ Ordered w.stop ws

theorem Ordered.mono {i j : ℕ} {ws : List Word} (h : Ordered j ws) (hij : i ≤ j) :
    Ordered i ws := by
  cases ws with
  | nil => trivial
  | cons w ws => exact ⟨hij.trans h.1, h.2⟩

/-- Every word of an ordered list starts after the offset. -/
theorem Ordered.le_start {i : ℕ} {ws : List Word} (h : Ordered i ws) :
    ∀ w ∈ ws, i ≤ w.start := by
  induction ws generalizing i with
  | nil => simp
  | cons v ws ih =>
    intro w hw
    rcases List.mem_cons.1 hw with rfl | hw
    · exact h.1
    · exact (h.1.trans h.2.1).trans (ih h.2.2 w hw)

theorem Ordered.suffix {i : ℕ} {a : List Word} {w : Word} {b : List Word}
    (h : Ordered i (a ++ w :: b)) : Ordered w.stop b := by
  induction a generalizing i with
  | nil => exact h.2.2
  | cons v a ih => exact ih h.2.2

/-- Where the next word can start: at the pending word, or here. -/
def front (r : Reading) : ℕ := (r.pend.map Prod.fst).getD r.pos

theorem ordered_readWords {r : Reading} (h : r.front ≤ r.pos) (s : Str) :
    Ordered r.front (readWords r s) := by
  induction s generalizing r with
  | nil =>
    cases hp : r.pend with
    | none => simp [flush, hp, Ordered]
    | some p => simp_all [flush, Ordered, front]
  | cons c s ih =>
    rw [readWords_cons]
    unfold step
    by_cases hc : r.scan.Nested ∨ isWordChar c = false
    · -- the pending word ends, and the next one starts after it
      rw [if_pos hc]
      have hrest := ih (r := ⟨r.pos + c.utf8Size, r.scan.step c, none⟩) le_rfl
      have hpos : Ordered r.pos (readWords ⟨r.pos + c.utf8Size, r.scan.step c, none⟩ s) :=
        hrest.mono (Nat.le_add_right _ _)
      cases hp : r.pend with
      | none => simpa [flush, hp, front] using hpos
      | some p =>
        have hp' : p.1 ≤ r.pos := by simpa [front, hp] using h
        simp only [flush, hp, List.singleton_append, front, Option.map_some, Option.getD_some]
        exact ⟨le_rfl, hp', hpos⟩
    · rw [if_neg hc]
      have hfront : (Reading.mk (r.pos + c.utf8Size) (r.scan.step c) (some (r.extend c))).front
          = r.front := by
        cases hp : r.pend <;> simp [front, extend, hp]
      have hrest := ih (r := ⟨r.pos + c.utf8Size, r.scan.step c, some (r.extend c)⟩)
        (by rw [hfront]; exact h.trans (Nat.le_add_right _ _))
      rw [hfront] at hrest
      exact hrest

/-! ## The source's scanner -/

/-- The scanner's loop state stands for a reading of the prefix `a`: the pending word is
the end of `a`, from the offset where it began. -/
structure Stands (a : Str) (st : WordScan) (r : Reading) : Prop where
  pos : r.pos = len a
  scan : st.scan = r.scan
  start : st.wordStart = r.pend.map Prod.fst
  word : ∀ p ∈ r.pend, ∃ x, a = x ++ p.2 ∧ len x = p.1

theorem Stands.close {a b : Str} {st : WordScan} {r : Reading} (h : Stands a st r) :
    st.close (a ++ b) (len a) = some ⟨st.out ++ r.flush, st.scan, none⟩ := by
  obtain ⟨out, σ, w⟩ := st
  obtain ⟨pos, scan, p⟩ := r
  cases p with
  | none =>
    obtain rfl : w = none := h.start
    simp [WordScan.close, flush]
  | some p =>
    obtain rfl : w = some p.1 := h.start
    obtain ⟨x, rfl, hx⟩ := h.word p rfl
    have hpos : pos = len x + len p.2 := by simpa using h.pos
    simp only [WordScan.close, flush, ← hx, hpos, len_append, slice_append, Option.map_some]

theorem stands_step {a : Str} {st : WordScan} {r : Reading} (h : Stands a st r) (c : Char)
    (b : Str) : ∃ st', WordScan.step (a ++ c :: b) st (len a, c) = some st' ∧
      st'.out = st.out ++ (r.step c).2 ∧ Stands (a ++ [c]) st' (r.step c).1 := by
  have hclose := h.close (b := c :: b)
  obtain ⟨hpos, hscan, hstart, hword⟩ := h
  by_cases hn : r.scan.Nested
  · refine ⟨⟨st.out ++ r.flush, st.scan.step c, none⟩, ?_, ?_, ?_⟩
    · have hn' : st.scan.inSq ∨ st.scan.inDq ∨ 0 < st.scan.depth := hscan ▸ hn
      simp [WordScan.step, hn', hclose]
    · simp [step, hn]
    · simp only [step, hn, true_or, if_true]
      exact ⟨by simp [hpos], by rw [hscan], rfl, by simp⟩
  · have hn' : ¬(st.scan.inSq ∨ st.scan.inDq ∨ 0 < st.scan.depth) := hscan ▸ hn
    by_cases hw : isWordChar c = false
    · refine ⟨⟨st.out ++ r.flush, st.scan.step c, none⟩, ?_, ?_, ?_⟩
      · simp [WordScan.step, hn', hw, hclose]
      · simp [step, hw]
      · simp only [step, hw, or_true, if_true]
        exact ⟨by simp [hpos], by rw [hscan], rfl, by simp⟩
    · have hw' : isWordChar c = true := by simpa using hw
      refine ⟨⟨st.out, st.scan.step c, some (st.wordStart.getD (len a))⟩, ?_, ?_, ?_⟩
      · simp [WordScan.step, hn', hw']
      · simp [step, hn, hw']
      · simp only [step, hn, hw', false_or, Bool.true_eq_false, if_false]
        refine ⟨by simp [hpos], by rw [hscan], ?_, ?_⟩
        · rw [hstart]
          cases hp : r.pend <;> simp [extend, hp, hpos]
        · intro p hp
          simp only [Option.mem_def, Option.some.injEq] at hp
          subst hp
          cases hp : r.pend with
          | none => exact ⟨a, by simp [extend, hp, hpos]⟩
          | some q =>
            obtain ⟨x, hx, hl⟩ := hword q hp
            exact ⟨x, by simp [extend, hp, hl, ← List.append_assoc, ← hx]⟩

theorem stands_run {a : Str} {st : WordScan} {r : Reading} (h : Stands a st r) (b : Str) :
    ∃ st', (charIndicesFrom (len a) b).foldlM (WordScan.step (a ++ b)) st = some st' ∧
      st'.out = st.out ++ (Machine.run step r b).2 ∧ Stands (a ++ b) st' (r.after b) := by
  induction b generalizing a st r with
  | nil => exact ⟨st, by simp [charIndicesFrom], by simp, by simpa using h⟩
  | cons c b ih =>
    obtain ⟨st₁, h1, h2, h3⟩ := stands_step h c b
    obtain ⟨st₂, h4, h5, h6⟩ := ih h3
    refine ⟨st₂, ?_, ?_, ?_⟩
    · simp only [charIndicesFrom, List.foldlM_cons, h1]
      simpa using h4
    · rw [h5, h2]; simp
    · simpa [after_cons] using h6

end Reading

open Reading

/-- The words of a text that starts outside quotes and brackets. -/
def wordsOf (s : Str) : List Word := readWords (at' 0 .start) s

/-- **The first word** of a text that begins with one. -/
theorem wordsOf_first {u b : Str} (hne : u ≠ []) (hu : u.all isWordChar)
    (hb : Breaks .start b) : ∃ ws, wordsOf (u ++ b) = ⟨lower u, 0, len u⟩ :: ws := by
  have hrun := run_word_chars hu .start
  refine ⟨readWords (at' (0 + len u) .start) b, ?_⟩
  rw [wordsOf, readWords_append (by simpa [at', hrun] using hb),
    readWords_word Scan.not_nested_start hne hu]
  simp [at', hrun]

/-- **Every word is a piece of the text.** -/
theorem piece_of_mem {s : Str} {w : Word} (h : w ∈ wordsOf s) : Piece s w := by
  have h0 : Pending [] (at' 0 .start) := ⟨rfl, by simp [at']⟩
  simpa using h0.readWords (b := s) w h

/-- A word of a text ends in it. -/
theorem word_le_len {s : Str} {w : Word} (h : w ∈ wordsOf s) :
    w.start ≤ len s ∧ w.stop ≤ len s := by
  obtain ⟨a, u, b, hs, rfl, -, -⟩ := piece_of_mem h
  rw [hs]
  simp only [len_append]
  omega

/-- **The words stand in order.** -/
theorem ordered_wordsOf (s : Str) : Ordered 0 (wordsOf s) :=
  ordered_readWords (r := at' 0 .start) le_rfl s

/-- **The source's scanner never panics, and finds these words.** -/
theorem scanWords_eq (s : Str) : scanWords s = some (wordsOf s) := by
  have h0 : Stands [] ⟨[], .start, none⟩ (at' 0 .start) := ⟨rfl, rfl, rfl, by simp [at']⟩
  obtain ⟨st, h1, h2, h3⟩ := stands_run h0 s
  have h4 := h3.close (b := [])
  simp only [len_nil, List.nil_append, List.append_nil] at h1 h4 h2
  unfold scanWords charIndices
  rw [h1]
  simp only [Option.bind_eq_bind, Option.bind_some, h4, h2]
  rfl

end EtherealDb
