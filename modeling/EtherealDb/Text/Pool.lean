import EtherealDb.Text.Proc
import Mathlib.Data.Fintype.Card
import Mathlib.Logic.Hydra
import Mathlib.Order.WellFounded

/-!
# Processes that share a pool of slots

A pool runs a family of processes one step at a time, in any order. A slot is taken only
while there is one, and nobody waits for it.

* `Run.path`: what a process does in a pool is a run of its own.
* `Run.slots`: **the slots in use and the free ones are as many as ever.**
* `Run.acquired`: a slot is refused exactly when all of them are in use.
* `step_of_not_done`: a process that is never stuck can go on until it is done, whatever the others
  do.
* `no_infinite_run`, `exists_halt`: no order of steps goes on for ever.
-/

namespace EtherealDb

variable {D ι : Type} {V : D → Type} {α : Type}

/-- The free slots after a step; `none` when the pool does not allow it. -/
def Event.slots (free : ℕ) : Event V → Option ℕ
  | .acquired true => if 0 < free then some (free - 1) else none
  | .acquired false => if free = 0 then some 0 else none
  | .released => some (free + 1)
  | _ => some free

/-- Processes by name, and the free slots. -/
structure Pool (ι : Type) {D : Type} (V : D → Type) (α : Type) where
  procs : ι → Proc V (Option α)
  free : ℕ

namespace Pool

variable [DecidableEq ι] {s t u : Pool ι V α} {i : ι} {e : Event V} {tr : List (ι × Event V)}

/-- One step of one process. -/
inductive Step : Pool ι V α → ι × Event V → Pool ι V α → Prop where
  | mk {s : Pool ι V α} {i : ι} {e : Event V} {q : Proc V (Option α)} {free : ℕ}
    (h : Proc.Step (s.procs i) e q) (hfree : e.slots s.free = some free) :
    Step s (i, e) ⟨Function.update s.procs i q, free⟩

/-- Steps in any order. -/
inductive Run : Pool ι V α → List (ι × Event V) → Pool ι V α → Prop where
  | nil (s : Pool ι V α) : Run s [] s
  | cons {s t u : Pool ι V α} {x : ι × Event V} {tr : List (ι × Event V)} (h : Step s x t)
    (hs : Run t tr u) : Run s (x :: tr) u

/-- The steps of one process. -/
def of (i : ι) (tr : List (ι × Event V)) : List (Event V) :=
  tr.filterMap fun x => if x.1 = i then some x.2 else none

@[simp] theorem of_nil (i : ι) : of i ([] : List (ι × Event V)) = [] := rfl

@[simp] theorem of_cons_self (i : ι) (e : Event V) : of i ((i, e) :: tr) = e :: of i tr := by
  simp [of]

theorem of_cons_of_ne {j : ι} (h : j ≠ i) (e : Event V) : of i ((j, e) :: tr) = of i tr := by
  simp [of, h]

theorem Run.append_iff {tr' : List (ι × Event V)} :
    Run s (tr ++ tr') u ↔ ∃ t, Run s tr t ∧ Run t tr' u := by
  induction tr generalizing s with
  | nil =>
    constructor
    · exact fun h => ⟨s, .nil s, h⟩
    · rintro ⟨t, h, h'⟩
      cases h
      exact h'
  | cons x tr ih =>
    constructor
    · intro h
      cases h with
      | cons hstep h =>
        obtain ⟨t, h1, h2⟩ := ih.1 h
        exact ⟨t, .cons hstep h1, h2⟩
    · rintro ⟨t, h, h'⟩
      cases h with
      | cons hstep h => exact .cons hstep (ih.2 ⟨t, h, h'⟩)

/-- **What a process does among others is a run of its own.** -/
theorem Run.path (h : Run s tr t) (i : ι) : Proc.Path (s.procs i) (of i tr) (t.procs i) := by
  induction h with
  | nil s => exact .nil _
  | @cons s t u x tr hstep _ ih =>
    cases hstep with
    | @mk j e q free hs _ =>
      by_cases hj : j = i
      · subst hj
        rw [of_cons_self]
        refine .cons hs ?_
        simpa using ih
      · rw [of_cons_of_ne hj]
        simpa [Function.update_of_ne (Ne.symm hj)] using ih

/-! ## Slots -/

/-- Whether a process has a slot after its steps, given whether it had one before. -/
def holding (h : Bool) (es : List (Event V)) : Bool := es.foldl Event.holds h

section Slots

variable [Fintype ι]

/-- The processes that have a slot. -/
def holders (h : ι → Bool) : Finset ι := Finset.univ.filter fun i => h i = true

theorem card_holders_update {h : ι → Bool} (b : Bool) :
    (holders (Function.update h i b)).card + (h i).toNat = (holders h).card + b.toNat := by
  have hrest : (holders (Function.update h i b)).erase i = (holders h).erase i := by
    ext j
    by_cases hj : j = i
    · simp [hj]
    · simp [holders, Function.update_of_ne hj]
  have hcard : ∀ g : ι → Bool, (holders g).card = ((holders g).erase i).card + (g i).toNat := by
    intro g
    by_cases hi : g i = true
    · have hmem : i ∈ holders g := by simp [holders, hi]
      have hpos : 0 < (holders g).card := Finset.card_pos.2 ⟨i, hmem⟩
      rw [Finset.card_erase_of_mem hmem, hi]
      simp only [Bool.toNat_true]
      omega
    · have hmem : i ∉ holders g := by simp [holders, hi]
      rw [Finset.erase_eq_of_notMem hmem, Bool.eq_false_iff.2 hi]
      rfl
  rw [hcard h, hcard (Function.update h i b), hrest, Function.update_self]
  omega

/-- A pool whose processes are in order, and who has a slot in it. -/
def Ordered (h : ι → Bool) (s : Pool ι V α) : Prop := ∀ i, Tame false (h i) (s.procs i)

/-- **Step lemma.** A step keeps the order, and the number of slots. -/
theorem Step.slots {h : ι → Bool} (hs : Ordered h s) (hstep : Step s (i, e) t) :
    Ordered (Function.update h i (e.holds (h i))) t ∧
      t.free + (holders (Function.update h i (e.holds (h i)))).card = s.free + (holders h).card := by
  cases hstep with
  | @mk _ _ q free hp hfree =>
    obtain ⟨hq, hacq, hrel⟩ := (hs i).step hp
    constructor
    · intro j
      by_cases hj : j = i
      · subst hj
        simpa using hq
      · simpa [Function.update_of_ne hj] using hs j
    · have hcard := card_holders_update (h := h) (i := i) (e.holds (h i))
      dsimp only
      cases e with
      | wrote bs fault | drew d v =>
        obtain rfl := Option.some.inj hfree
        simp only [Event.holds] at hcard ⊢
        omega
      | released =>
        obtain rfl := Option.some.inj hfree
        simp only [Event.holds, hrel rfl, Bool.toNat_true, Bool.toNat_false] at hcard ⊢
        omega
      | acquired ok =>
        simp only [Event.holds, hacq ok rfl, Bool.false_or, Bool.toNat_false] at hcard ⊢
        cases ok with
        | true =>
          simp only [Event.slots, Option.ite_none_right_eq_some, Option.some.injEq] at hfree
          simp only [Bool.toNat_true] at hcard
          omega
        | false =>
          simp only [Event.slots, Option.ite_none_right_eq_some, Option.some.injEq] at hfree
          simp only [Bool.toNat_false] at hcard
          omega

/-- **Run lemma.** -/
theorem Run.slots_from {h : ι → Bool} (hs : Ordered h s) (hrun : Run s tr t) :
    Ordered (fun i => holding (h i) (of i tr)) t ∧
      t.free + (holders fun i => holding (h i) (of i tr)).card = s.free + (holders h).card := by
  induction hrun generalizing h with
  | nil s => exact ⟨hs, rfl⟩
  | @cons s t u x tr hstep _ ih =>
    obtain ⟨i, e⟩ := x
    obtain ⟨ht, hcard⟩ := hstep.slots hs
    obtain ⟨hu, hcard'⟩ := ih ht
    have hnow : (fun j => holding (Function.update h i (e.holds (h i)) j) (of j tr)) =
        fun j => holding (h j) (of j ((i, e) :: tr)) := by
      funext j
      by_cases hj : j = i
      · subst hj
        simp [holding]
      · rw [of_cons_of_ne (Ne.symm hj), Function.update_of_ne hj]
    rw [hnow] at hu hcard'
    exact ⟨hu, hcard'.trans hcard⟩

/-- The processes that have a slot after a run from the start. -/
def using' (tr : List (ι × Event V)) : Finset ι := holders fun i => holding false (of i tr)

/-- **The slots in use and the free ones are as many as at the start.** -/
theorem Run.slots (hs : ∀ i, Orderly false false (s.procs i)) (hrun : Run s tr t) :
    t.free + (using' tr).card = s.free := by
  have h := (hrun.slots_from (h := fun _ => false) fun i => .inl (hs i)).2
  have hnone : (holders fun _ : ι => false) = ∅ := by simp [holders]
  rw [hnone] at h
  simpa [using'] using h

/-- **A slot is refused exactly when all of them are in use.** -/
theorem Run.acquired (hs : ∀ i, Orderly false false (s.procs i)) {ok : Bool} {after : List (ι × Event V)}
    (hrun : Run s (tr ++ (i, .acquired ok) :: after) t) : ok = true ↔ (using' tr).card < s.free := by
  obtain ⟨u, hu, hrest⟩ := Run.append_iff.1 hrun
  have hcard := hu.slots hs
  cases hrest with
  | cons hstep _ =>
    cases hstep with
    | mk _ hfree =>
      cases ok with
      | true =>
        simp only [Event.slots, Option.ite_none_right_eq_some] at hfree
        simp only [true_iff]
        omega
      | false =>
        simp only [Event.slots, Option.ite_none_right_eq_some] at hfree
        simp only [Bool.false_eq_true, false_iff]
        omega

/-- **Done processes have given their slots back.** -/
theorem Run.free_of_done (hs : ∀ i, Orderly false false (s.procs i)) (hrun : Run s tr t)
    (hdone : ∀ i, ∃ r, t.procs i = .done r) : t.free = s.free := by
  have hslots := hrun.slots hs
  have horder := (hrun.slots_from (h := fun _ => false) fun i => .inl (hs i)).1
  have hnone : using' tr = ∅ := by
    refine Finset.filter_eq_empty_iff.2 fun i _ => ?_
    obtain ⟨r, hr⟩ := hdone i
    have hi := horder i
    rw [hr] at hi
    rcases hi with hi | hi
    · exact Bool.eq_false_iff.1 hi
    · exact Bool.eq_false_iff.1 hi.1
  rw [hnone] at hslots
  simpa using hslots

end Slots

/-! ## Progress -/

/-- **Step lemma.** -/
theorem Step.total (hs : ∀ i, Total (s.procs i)) {x : ι × Event V} (hstep : Step s x t) (j : ι) :
    Total (t.procs j) := by
  cases hstep with
  | @mk i _ q _ h _ =>
    by_cases hj : j = i
    · subst hj
      simpa using (hs j).step h
    · simpa [Function.update_of_ne hj] using hs j

/-- **Run lemma.** -/
theorem Run.total (hs : ∀ i, Total (s.procs i)) (hrun : Run s tr t) (j : ι) : Total (t.procs j) := by
  induction hrun with
  | nil s => exact hs j
  | cons hstep _ ih => exact ih (hstep.total hs)

/-- **Nobody waits**: a process that is not done can go on, unless it is stuck by itself. -/
theorem step_of_not_done (hs : Total (s.procs i)) (h : ∀ r, s.procs i ≠ .done r) :
    ∃ e t, Step s (i, e) t := by
  -- whatever the process asks, the pool has an answer
  suffices hnext : ∃ e q free, Proc.Step (s.procs i) e q ∧ e.slots s.free = some free by
    obtain ⟨e, q, free, hs, hfree⟩ := hnext
    exact ⟨e, _, .mk hs hfree⟩
  cases hp : s.procs i with
  | done r => exact absurd hp (h r)
  | write bs k => exact ⟨_, _, _, .write bs k none, rfl⟩
  | release k => exact ⟨_, _, _, .release k, rfl⟩
  | draw d k =>
    rw [hp] at hs
    obtain ⟨v⟩ := hs.1
    exact ⟨_, _, _, .draw d k v, rfl⟩
  | acquire k =>
    by_cases hfree : 0 < s.free
    · exact ⟨_, _, _, .acquire k true, if_pos hfree⟩
    · exact ⟨_, _, _, .acquire k false, if_pos (Nat.eq_zero_of_not_pos hfree)⟩

/-- A pool can take steps as long as there are any. -/
theorem exists_steps (s : Pool ι V α) : ∃ f : ℕ → Pool ι V α, f 0 = s ∧
    ∀ k, (∃ x, Step (f k) x (f (k + 1))) ∨ ∀ x u, ¬Step (f k) x u := by
  classical
  have hnext : ∀ t : Pool ι V α, ∃ u, (∃ x, Step t x u) ∨ ∀ x u, ¬Step t x u := by
    intro t
    by_cases h : ∃ x u, Step t x u
    · obtain ⟨x, u, hstep⟩ := h
      exact ⟨u, .inl ⟨x, hstep⟩⟩
    · exact ⟨t, .inr fun x u hstep => h ⟨x, u, hstep⟩⟩
  choose next hnext using hnext
  refine ⟨fun k => next^[k] s, rfl, fun k => ?_⟩
  dsimp only
  rw [Function.iterate_succ_apply']
  exact hnext _

/-- What a process becomes in one step. -/
def Child (q p : Proc V (Option α)) : Prop := ∃ e, Proc.Step p e q

theorem wellFounded_child : WellFounded (Child : Proc V (Option α) → Proc V (Option α) → Prop) := by
  refine ⟨fun p => ?_⟩
  induction p with
  | done r =>
    refine ⟨_, ?_⟩
    rintro q ⟨e, hs⟩
    cases hs
  | write bs k ih =>
    refine ⟨_, ?_⟩
    rintro q ⟨e, hs⟩
    cases hs with
    | write _ _ fault => exact ih fault
  | acquire k ih =>
    refine ⟨_, ?_⟩
    rintro q ⟨e, hs⟩
    cases hs with
    | acquire _ ok => exact ih ok
  | release k ih =>
    refine ⟨_, ?_⟩
    rintro q ⟨e, hs⟩
    cases hs
    exact ih
  | draw d k ih =>
    refine ⟨_, ?_⟩
    rintro q ⟨e, hs⟩
    cases hs with
    | draw _ _ v => exact ih v

variable [Fintype ι]

/-- The processes of a pool, without their names. -/
def bag (s : Pool ι V α) : Multiset (Proc V (Option α)) := Finset.univ.val.map s.procs

/-- A step puts a process in the place of the one that it comes from. -/
theorem Step.cutExpand (h : Step s (i, e) t) : Relation.CutExpand Child t.bag s.bag := by
  cases h with
  | @mk _ _ q free hs _ =>
    have hsplit : ∀ f : ι → Proc V (Option α), Finset.univ.val.map f =
        ((Finset.univ.erase i).val.map f) + {f i} := by
      intro f
      have huniv : (Finset.univ : Finset ι).val = i ::ₘ (Finset.univ.erase i).val := by
        rw [← Finset.insert_val_of_notMem (Finset.notMem_erase i _),
          Finset.insert_erase (Finset.mem_univ i)]
      rw [huniv, Multiset.map_cons, ← Multiset.singleton_add, add_comm]
    have hrest : (Finset.univ.erase i).val.map (Function.update s.procs i q) =
        (Finset.univ.erase i).val.map s.procs := by
      refine Multiset.map_congr rfl fun j hj => ?_
      exact Function.update_of_ne (Finset.ne_of_mem_erase hj) _ _
    unfold bag
    dsimp only
    rw [hsplit, hsplit s.procs, hrest, Function.update_self]
    exact Relation.cutExpand_add_single _ ⟨e, hs⟩

theorem wellFounded_step : WellFounded fun t s : Pool ι V α => ∃ x, Step s x t :=
  Subrelation.wf (fun ⟨⟨_, _⟩, h⟩ => h.cutExpand) (InvImage.wf bag wellFounded_child.cutExpand)

/-- **No order of steps goes on for ever.** -/
theorem no_infinite_run (f : ℕ → Pool ι V α) : ¬∀ n, ∃ x, Step (f n) x (f (n + 1)) := by
  intro h
  have : IsWellFounded (Pool ι V α) fun t s => ∃ x, Step s x t := ⟨wellFounded_step⟩
  obtain ⟨n, hn⟩ := WellFounded.not_rel_apply_succ (r := fun t s : Pool ι V α => ∃ x, Step s x t) f
  exact hn (h n)

/-- **A pool comes to a halt**, when it takes a step as long as there is one. -/
theorem exists_halt {f : ℕ → Pool ι V α}
    (h : ∀ k, (∃ x, Step (f k) x (f (k + 1))) ∨ ∀ x u, ¬Step (f k) x u) :
    ∃ k tr, Run (f 0) tr (f k) ∧ ∀ x u, ¬Step (f k) x u := by
  have hhalt : ∃ k, ∀ x u, ¬Step (f k) x u := by
    by_contra hno
    push Not at hno
    refine no_infinite_run f fun k => (h k).resolve_right fun hstuck => ?_
    obtain ⟨x, u, hstep⟩ := hno k
    exact hstuck x u hstep
  classical
  -- before the first halt there are steps alone
  have hrun : ∀ k ≤ Nat.find hhalt, ∃ tr, Run (f 0) tr (f k) := by
    intro k
    induction k with
    | zero => exact fun _ => ⟨[], .nil _⟩
    | succ k ih =>
      intro hk
      obtain ⟨tr, htr⟩ := ih (by omega)
      obtain ⟨x, hstep⟩ := (h k).resolve_right (Nat.find_min hhalt (by omega))
      exact ⟨_, Run.append_iff.2 ⟨_, htr, .cons hstep (.nil _)⟩⟩
  obtain ⟨tr, htr⟩ := hrun _ le_rfl
  exact ⟨_, tr, htr, Nat.find_spec hhalt⟩

end Pool

end EtherealDb
