import Mathlib.Tactic.Common

/-!
# Machines that read a list and emit a list

A step function `f : σ → α → σ × List β` reads one input, moves to the next state and
emits outputs. `run f` reads a whole list.

* `run_append`: reading two lists in turn.
* `run_rel`: two machines in related states emit related outputs.
-/

namespace EtherealDb.Machine

variable {α β γ δ σ τ : Type*}

/-- Read a list from a state: the last state, and the outputs in order. -/
def run (f : σ → α → σ × List β) : σ → List α → σ × List β
  | s, [] => (s, [])
  | s, a :: l => ((run f (f s a).1 l).1, (f s a).2 ++ (run f (f s a).1 l).2)

variable (f : σ → α → σ × List β)

@[simp] theorem run_nil (s : σ) : run f s [] = (s, []) := rfl

@[simp] theorem run_cons (s : σ) (a : α) (l : List α) :
    run f s (a :: l) = ((run f (f s a).1 l).1, (f s a).2 ++ (run f (f s a).1 l).2) := rfl

theorem run_append (s : σ) (l m : List α) :
    run f s (l ++ m) = ((run f (run f s l).1 m).1, (run f s l).2 ++ (run f (run f s l).1 m).2) := by
  induction l generalizing s with
  | nil => simp
  | cons a l ih => simp [ih]

variable {f}

/-- **Simulation.** Machines whose steps keep `R` and emit outputs with equal images
do so along a whole input. -/
theorem run_rel {f' : τ → α → τ × List γ} {R : σ → τ → Prop} {g : β → δ} {g' : γ → δ}
    (h : ∀ s t a, R s t → R (f s a).1 (f' t a).1 ∧ (f s a).2.map g = (f' t a).2.map g')
    (l : List α) : ∀ {s t}, R s t →
      R (run f s l).1 (run f' t l).1 ∧ (run f s l).2.map g = (run f' t l).2.map g' := by
  induction l with
  | nil => intro s t hR; exact ⟨hR, rfl⟩
  | cons a l ih =>
    intro s t hR
    obtain ⟨h1, h2⟩ := h s t a hR
    obtain ⟨h3, h4⟩ := ih h1
    exact ⟨h3, by simp [h2, h4]⟩

end EtherealDb.Machine
