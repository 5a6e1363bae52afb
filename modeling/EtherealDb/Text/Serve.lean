import Mathlib.Tactic.Common

/-!
# Server loops

A server takes one request at a time; it answers each with a list of outputs and goes
on from a new state or stops. `serve step` answers a whole list of requests, one list
of outputs for each request that it gets to.

* `serve_answers_iff`: **run lemma.** If exactly the steps that meet a condition go on and
  answer as they should, then so it is with runs.
* `serve_inv`: an invariant of the states, against the requests that keep it.
* `serve_last`: a part of the state is what the last request that writes it has made of it.
* `serve_map`, `serve_takeWhile`, `serve_filter`: requests that are not told apart, that end a run,
  and that change nothing.
* `serve_watch`: recording the history of a run changes none of its answers.
-/

namespace EtherealDb.Serve

variable {σ α β ε : Type*}

/-- What a server does after an answer. -/
inductive Next (σ ε : Type*) where
  /-- It takes the next request from a state. -/
  | go (s : σ)
  /-- It stops, for a reason. -/
  | stop (e : ε)

/-- Answer a list of requests. -/
def serve (step : σ → α → List β × Next σ ε) : σ → List α → List (List β) × Next σ ε
  | s, [] => ([], .go s)
  | s, a :: l =>
    match (step s a).2 with
    | .go s' => ((step s a).1 :: (serve step s' l).1, (serve step s' l).2)
    | .stop e => ([(step s a).1], .stop e)

variable {step : σ → α → List β × Next σ ε} {s s' : σ} {a : α} {l m : List α} {e : ε}

@[simp] theorem serve_nil : serve step s [] = ([], .go s) := rfl

theorem serve_go (h : (step s a).2 = .go s') :
    serve step s (a :: l) = ((step s a).1 :: (serve step s' l).1, (serve step s' l).2) := by
  rw [serve, h]

theorem serve_stop (h : (step s a).2 = .stop e) :
    serve step s (a :: l) = ([(step s a).1], .stop e) := by
  rw [serve, h]

/-- There are no more answers than requests. -/
theorem length_serve_le : ∀ (l : List α) (s : σ), (serve step s l).1.length ≤ l.length := by
  intro l
  induction l with
  | nil => intro s; exact Nat.le_refl _
  | cons a l ih =>
    intro s
    cases h : (step s a).2 with
    | go s' => rw [serve_go h]; exact Nat.succ_le_succ (ih s')
    | stop e => rw [serve_stop h]; simp

/-- A run that gets through its first part goes on from the state it is in. -/
theorem serve_append (h : (serve step s l).2 = .go s') :
    serve step s (l ++ m) = ((serve step s l).1 ++ (serve step s' m).1, (serve step s' m).2) := by
  induction l generalizing s with
  | nil =>
    obtain rfl : s = s' := by simpa using h
    rfl
  | cons a l ih =>
    cases ha : (step s a).2 with
    | go t =>
      rw [serve_go ha] at h ⊢
      rw [List.cons_append, serve_go ha, ih h]
      rfl
    | stop e =>
      rw [serve_stop ha] at h
      cases h

/-- A run that stops in its first part does not see the second. -/
theorem serve_append_stop (h : (serve step s l).2 = .stop e) :
    serve step s (l ++ m) = serve step s l := by
  induction l generalizing s with
  | nil => cases h
  | cons a l ih =>
    cases ha : (step s a).2 with
    | go t =>
      rw [serve_go ha] at h
      rw [List.cons_append, serve_go ha, serve_go ha, ih h]
    | stop e => rw [List.cons_append, serve_stop ha, serve_stop ha]

/-- A run that goes on has answered everything. -/
theorem length_serve (h : (serve step s l).2 = .go s') : (serve step s l).1.length = l.length := by
  induction l generalizing s with
  | nil => rfl
  | cons a l ih =>
    cases ha : (step s a).2 with
    | go t =>
      rw [serve_go ha] at h ⊢
      rw [List.length_cons, ih h, List.length_cons]
    | stop e =>
      rw [serve_stop ha] at h
      cases h

/-- A condition on each step that a run comes to. -/
def Along (step : σ → α → List β × Next σ ε) (C : σ → α → Prop) : σ → List α → Prop
  | _, [] => True
  | s, a :: l => C s a ∧ ∀ s', (step s a).2 = .go s' → Along step C s' l

/-- Conditions that agree on every step agree along a run. -/
theorem along_congr {C D : σ → α → Prop} (h : ∀ s a, C s a ↔ D s a) :
    ∀ (l : List α) (s : σ), Along step C s l ↔ Along step D s l := by
  intro l
  induction l with
  | nil => intro s; exact Iff.rfl
  | cons a l ih =>
    intro s
    exact and_congr (h s a) (forall_congr' fun s' => imp_congr_right fun _ => ih s')

/-- **Run lemma.** If exactly the steps that meet `C` go on and answer in `P`, then exactly
the runs whose steps all meet it go on and answer in `P` throughout. -/
theorem serve_answers_iff {D : α → Prop} {C : σ → α → Prop} {P : α → List β → Prop}
    (hstep : ∀ s a, D a → ((∃ s', (step s a).2 = .go s') ∧ P a (step s a).1 ↔ C s a)) :
    ∀ (l : List α) (s : σ), (∀ a ∈ l, D a) →
      ((∃ s', (serve step s l).2 = .go s') ∧ List.Forall₂ P l (serve step s l).1 ↔
        Along step C s l) := by
  intro l
  induction l with
  | nil => intro s _; exact ⟨fun _ => trivial, fun _ => ⟨⟨s, rfl⟩, .nil⟩⟩
  | cons a l ih =>
    intro s hD
    have ha := hstep s a (hD a (by simp))
    have hl := fun t => ih t fun b hb => hD b (by simp [hb])
    cases hnext : (step s a).2 with
    | go t =>
      -- the first step and the rest of the run answer for themselves
      rw [serve_go hnext, List.forall₂_cons]
      constructor
      · rintro ⟨hgo, hp, hall⟩
        refine ⟨ha.1 ⟨⟨t, hnext⟩, hp⟩, ?_⟩
        intro s' hs'
        rw [hnext] at hs'
        cases hs'
        exact (hl t).1 ⟨hgo, hall⟩
      · rintro ⟨hC, hrest⟩
        obtain ⟨hgo, hall⟩ := (hl t).2 (hrest t hnext)
        exact ⟨hgo, (ha.2 hC).2, hall⟩
    | stop e =>
      -- neither side holds of a run that stops here
      rw [serve_stop hnext]
      constructor
      · rintro ⟨⟨s', hs'⟩, -⟩
        cases hs'
      · rintro ⟨hC, -⟩
        obtain ⟨⟨s', hs'⟩, -⟩ := ha.2 hC
        rw [hnext] at hs'
        cases hs'

/-- **Invariant.** Requests that keep `I` step by step keep it along a run. -/
theorem serve_inv {I : σ → Prop} (hstep : ∀ s s', ∀ a ∈ l, I s → (step s a).2 = .go s' → I s')
    (hs : I s) (h : (serve step s l).2 = .go s') : I s' := by
  induction l generalizing s with
  | nil =>
    obtain rfl : s = s' := by simpa using h
    exact hs
  | cons a l ih =>
    cases ha : (step s a).2 with
    | go t =>
      rw [serve_go ha] at h
      exact ih (fun u u' b hb => hstep u u' b (by simp [hb]))
        (hstep s t a (by simp) hs ha) h
    | stop e =>
      rw [serve_stop ha] at h
      cases h

/-! ## Registers -/

/-- A history has a last request outside `K`, or none. -/
theorem exists_last (K : α → Prop) (l : List α) : (∀ a ∈ l, K a) ∨
    ∃ before a after, l = before ++ a :: after ∧ ¬K a ∧ ∀ b ∈ after, K b := by
  induction l with
  | nil => exact .inl (by simp)
  | cons a l ih =>
    rcases ih with hall | ⟨before, b, after, rfl, hb, hafter⟩
    · by_cases ha : K a
      · exact .inl (List.forall_mem_cons.2 ⟨ha, hall⟩)
      · exact .inr ⟨[], a, l, rfl, ha, hall⟩
    · exact .inr ⟨a :: before, b, after, rfl, hb, hafter⟩

variable {ρ : Type*} {r : σ → ρ} {K : α → Prop}

/-- Requests in `K` keep a register along a run. -/
theorem serve_keeps (hkeep : ∀ s s' a, K a → (step s a).2 = .go s' → r s' = r s)
    (hl : ∀ a ∈ l, K a) (h : (serve step s l).2 = .go s') : r s' = r s :=
  serve_inv (I := fun t => r t = r s)
    (fun t t' a ha ht hgo => (hkeep t t' a (hl a ha) hgo).trans ht) rfl h

/-- **The last request outside `K` decides a register** that those in `K` keep. -/
theorem serve_last (hkeep : ∀ s s' a, K a → (step s a).2 = .go s' → r s' = r s)
    (hm : ∀ b ∈ m, K b) (h : (serve step s (l ++ a :: m)).2 = .go s') :
    ∃ t u, (serve step s l).2 = .go t ∧ (step t a).2 = .go u ∧ r s' = r u := by
  cases hl : (serve step s l).2 with
  | stop e =>
    rw [serve_append_stop hl, hl] at h
    cases h
  | go t =>
    rw [serve_append hl] at h
    cases ha : (step t a).2 with
    | stop e =>
      rw [serve_stop ha] at h
      cases h
    | go u =>
      rw [serve_go ha] at h
      exact ⟨t, u, rfl, ha, serve_keeps hkeep hm h⟩

/-- Each answer is that of a step. -/
theorem mem_zip_serve {p : α × List β} (hp : p ∈ l.zip (serve step s l).1) : ∃ t, p.2 = (step t p.1).1 := by
  induction l generalizing s with
  | nil => cases hp
  | cons a l ih =>
    cases h : (step s a).2 with
    | go t =>
      rw [serve_go h, List.zip_cons_cons] at hp
      rcases List.mem_cons.1 hp with rfl | hp
      · exact ⟨s, rfl⟩
      · exact ih hp
    | stop e =>
      rw [serve_stop h, List.zip_cons_cons, List.zip_nil_right] at hp
      obtain rfl := List.mem_singleton.1 hp
      exact ⟨s, rfl⟩

/-! ## Two servers -/

variable {step' : σ → α → List β × Next σ ε}

/-- **Requests that a server does not tell apart** are answered alike. -/
theorem serve_map {γ : Type*} {f : α → γ} (h : ∀ s a b, f a = f b → step s a = step s b) {l l' : List α}
    (hl : l.map f = l'.map f) : serve step s l = serve step s l' := by
  induction l generalizing l' s with
  | nil =>
    cases l' with
    | nil => rfl
    | cons b l' => cases hl
  | cons a l ih =>
    cases l' with
    | nil => cases hl
    | cons b l' =>
      obtain ⟨hab, hl⟩ := List.cons.inj hl
      have hstep := h s a b hab
      cases hnext : (step s b).2 with
      | go t => rw [serve_go hnext, serve_go (hstep ▸ hnext), hstep, ih hl]
      | stop e => rw [serve_stop hnext, serve_stop (hstep ▸ hnext), hstep]

/-- **Servers that differ in how their answers look** alone differ so in whole sessions. -/
theorem serve_image {γ : Type*} {g : β → γ} (h : ∀ s a, (step s a).1.map g = (step' s a).1.map g ∧
    (step s a).2 = (step' s a).2) (l : List α) (s : σ) :
    (serve step s l).1.map (List.map g) = (serve step' s l).1.map (List.map g) ∧
      (serve step s l).2 = (serve step' s l).2 := by
  induction l generalizing s with
  | nil => exact ⟨rfl, rfl⟩
  | cons a l ih =>
    obtain ⟨hout, hnext⟩ := h s a
    cases hgo : (step' s a).2 with
    | go t =>
      rw [serve_go hgo, serve_go (hnext.trans hgo), List.map_cons, List.map_cons, hout, (ih t).1]
      exact ⟨rfl, (ih t).2⟩
    | stop e =>
      rw [serve_stop hgo, serve_stop (hnext.trans hgo), List.map_singleton, List.map_singleton, hout]
      exact ⟨rfl, rfl⟩

/-- **Requests that end a run** without an output: it is the run of those before the first of them, and
then ends for the reason of that one, unless it has ended before. -/
theorem serve_takeWhile {ends : α → Option ε} (h : ∀ s a e, ends a = some e → step s a = ([], .stop e)) :
    (serve step s l).1.flatten = (serve step s (l.takeWhile fun a => (ends a).isNone)).1.flatten ∧
      ((serve step s l).2 = (serve step s (l.takeWhile fun a => (ends a).isNone)).2 ∨
        ∃ a rest e, l = (l.takeWhile fun a => (ends a).isNone) ++ a :: rest ∧ ends a = some e ∧
          (serve step s l).2 = .stop e) := by
  induction l generalizing s with
  | nil => exact ⟨rfl, .inl rfl⟩
  | cons a l ih =>
    cases ha : ends a with
    | some e =>
      have hstep := h s a e ha
      rw [List.takeWhile_cons_of_neg (by simp [ha]), serve_stop (by rw [hstep]), hstep]
      exact ⟨rfl, .inr ⟨a, l, e, rfl, ha, rfl⟩⟩
    | none =>
      rw [List.takeWhile_cons_of_pos (by simp [ha])]
      cases hnext : (step s a).2 with
      | stop e =>
        rw [serve_stop hnext, serve_stop hnext]
        exact ⟨rfl, .inl rfl⟩
      | go t =>
        obtain ⟨hout, hend⟩ := ih (s := t)
        rw [serve_go hnext, serve_go hnext]
        refine ⟨?_, hend.imp_right ?_⟩
        · rw [List.flatten_cons, List.flatten_cons, hout]
        · rintro ⟨b, rest, e, hl, hb, hstop⟩
          exact ⟨b, rest, e, congrArg (a :: ·) hl, hb, hstop⟩

/-- **Requests that leave the state alone** can be left out: the others get the answers of a
server that never sees them. -/
theorem serve_filter {K : α → Bool} (hskip : ∀ s, ∀ a ∈ l, K a = false → (step s a).2 = .go s)
    (hsame : ∀ s, ∀ a ∈ l, K a = true → step s a = step' s a) :
    (serve step s l).2 = (serve step' s (l.filter K)).2 ∧
      ((l.zip (serve step s l).1).filter fun x => K x.1).map Prod.snd =
        (serve step' s (l.filter K)).1 := by
  induction l generalizing s with
  | nil => exact ⟨rfl, rfl⟩
  | cons a l ih =>
    have hrest := fun t => @ih t (fun s b hb => hskip s b (by simp [hb]))
      fun s b hb => hsame s b (by simp [hb])
    cases hK : K a with
    | false =>
      rw [serve_go (hskip s a (by simp) hK), List.filter_cons_of_neg (by simp [hK])]
      refine ⟨(hrest s).1, ?_⟩
      rw [List.zip_cons_cons, List.filter_cons_of_neg (by simp [hK])]
      exact (hrest s).2
    | true =>
      have hstep := hsame s a (by simp) hK
      rw [List.filter_cons_of_pos hK]
      cases hnext : (step s a).2 with
      | go t =>
        rw [serve_go hnext, serve_go (hstep ▸ hnext), List.zip_cons_cons,
          List.filter_cons_of_pos (by simp [hK]), List.map_cons, hstep]
        exact ⟨(hrest t).1, congrArg _ (hrest t).2⟩
      | stop e =>
        rw [serve_stop hnext, serve_stop (hstep ▸ hnext), hstep]
        refine ⟨rfl, ?_⟩
        simp [hK]

/-! ## Watching a server -/

/-- A server with a record of its history, which each answer updates. -/
def watch {τ : Type*} (step : σ → α → List β × Next σ ε) (note : τ → α → List β → τ)
    (w : σ × τ) (a : α) : List β × Next (σ × τ) ε :=
  ((step w.1 a).1, match (step w.1 a).2 with
    | .go s => .go (s, note w.2 a (step w.1 a).1)
    | .stop e => .stop e)

/-- **Watching changes no answer.** -/
theorem serve_watch {τ : Type*} (note : τ → α → List β → τ) :
    ∀ (l : List α) (s : σ) (t : τ), (serve (watch step note) (s, t) l).1 = (serve step s l).1 := by
  intro l
  induction l with
  | nil => intro s t; rfl
  | cons a l ih =>
    intro s t
    cases h : (step s a).2 with
    | go s' =>
      have hw : (watch step note (s, t) a).2 = .go (s', note t a (step s a).1) := by
        simp only [watch, h]
      rw [serve_go h, serve_go hw, ih]
      rfl
    | stop e =>
      have hw : (watch step note (s, t) a).2 = .stop e := by simp only [watch, h]
      rw [serve_stop h, serve_stop hw]
      rfl

end EtherealDb.Serve
