import EtherealDb.Text.Utf8

/-!
# Processes on sockets

A process writes bytes to its socket, tries to take a slot of a pool, gives it back, and
draws values that it does not decide. Other processes run between these steps.

* `wp`: what holds of the bytes and the result of every run whose writes all succeed.
  `wp_iff_path` is its soundness and its completeness.
* `Orderly`: a slot is taken when none is held and given back, and a write that fails is the
  last thing that is sent.
* `Orderly.total`: when no run without failures gets stuck, no run does.
* `Orderly.sends`: at every moment of every run, failed writes or not, an orderly process has
  sent a beginning of what a run without failures sends.
-/

namespace EtherealDb

/-- A process. `V d` is the type of the values that a draw `d` gives. -/
inductive Proc {D : Type} (V : D → Type) (α : Type) where
  | done (a : α)
  /-- Write bytes: `some n` when the write fails after `n` of them. -/
  | write (bs : Bytes) (k : Option ℕ → Proc V α)
  /-- Try to take a slot, without waiting for one. -/
  | acquire (k : Bool → Proc V α)
  | release (k : Proc V α)
  | draw (d : D) (k : V d → Proc V α)

/-- What a process does in one step, with the answer it gets. -/
inductive Event {D : Type} (V : D → Type) where
  | wrote (bs : Bytes) (fault : Option ℕ)
  | acquired (ok : Bool)
  | released
  | drew (d : D) (v : V d)

variable {D : Type} {V : D → Type} {α β : Type}

namespace Event

/-- Whether a step is a write that fails. -/
def fails : Event V → Bool
  | .wrote _ fault => fault.isSome
  | _ => false

/-- The bytes that a step gets out. -/
def sent : Event V → Bytes
  | .wrote bs none => bs
  | .wrote bs (some n) => bs.take n
  | _ => []

/-- Whether a process has a slot after a step, given whether it had one before. -/
def holds (h : Bool) : Event V → Bool
  | .acquired ok => h || ok
  | .released => false
  | _ => h

end Event

/-- The bytes that steps get out. -/
def sentAll (es : List (Event V)) : Bytes := es.flatMap Event.sent

/-- No write fails. -/
def Faultless (es : List (Event V)) : Prop := ∀ e ∈ es, e.fails = false

theorem sentAll_cons (e : Event V) (es : List (Event V)) : sentAll (e :: es) = e.sent ++ sentAll es :=
  List.flatMap_cons

theorem faultless_cons {e : Event V} {es : List (Event V)} :
    Faultless (e :: es) ↔ e.fails = false ∧ Faultless es := List.forall_mem_cons

namespace Proc

/-- One step of a process. -/
inductive Step : Proc V α → Event V → Proc V α → Prop where
  | write (bs : Bytes) (k : Option ℕ → Proc V α) (fault : Option ℕ) :
    Step (.write bs k) (.wrote bs fault) (k fault)
  | acquire (k : Bool → Proc V α) (ok : Bool) : Step (.acquire k) (.acquired ok) (k ok)
  | release (k : Proc V α) : Step (.release k) .released k
  | draw (d : D) (k : V d → Proc V α) (v : V d) : Step (.draw d k) (.drew d v) (k v)

/-- A run of a process, from a moment to a moment. -/
inductive Path : Proc V α → List (Event V) → Proc V α → Prop where
  | nil (p : Proc V α) : Path p [] p
  | cons {p q r : Proc V α} {e : Event V} {es : List (Event V)} (h : Step p e q) (hs : Path q es r) :
    Path p (e :: es) r

variable {p q : Proc V α} {es : List (Event V)} {e : Event V} {Q R : Bytes → α → Prop}

/-! ## Runs without failures -/

/-- **The weakest precondition** of a process: no run whose writes all succeed gets stuck, and each
ends with bytes and a result in `Q`. -/
def wp : Proc V α → (Bytes → α → Prop) → Prop
  | .done a, Q => Q [] a
  | .write bs k, Q => (k none).wp fun out => Q (bs ++ out)
  | .acquire k, Q => ∀ ok, (k ok).wp Q
  | .release k, Q => k.wp Q
  | .draw d k, Q => Nonempty (V d) ∧ ∀ v, (k v).wp Q

theorem wp_mono (h : p.wp Q) (hQ : ∀ out a, Q out a → R out a) : p.wp R := by
  induction p generalizing Q R with
  | done a => exact hQ _ _ h
  | write bs k ih => exact ih none h fun out => hQ (bs ++ out)
  | acquire k ih => exact fun ok => ih ok (h ok) hQ
  | release k ih => exact ih h hQ
  | draw d k ih => exact ⟨h.1, fun v => ih v (h.2 v) hQ⟩

/-- A process that is done with a result in `Q`, or can go on. -/
def Sound (Q : α → Prop) (p : Proc V α) : Prop :=
  (∃ a, p = .done a ∧ Q a) ∨ ∃ e q, Step p e q ∧ e.fails = false

theorem sound_of_wp (h : p.wp Q) : p.Sound (Q []) := by
  cases p with
  | done a => exact .inl ⟨a, rfl, h⟩
  | write bs k => exact .inr ⟨_, _, .write bs k none, rfl⟩
  | acquire k => exact .inr ⟨_, _, .acquire k true, rfl⟩
  | release k => exact .inr ⟨_, _, .release k, rfl⟩
  | draw d k =>
    obtain ⟨v⟩ := h.1
    exact .inr ⟨_, _, .draw d k v, rfl⟩

/-- **Step lemma.** -/
theorem wp_step (h : p.wp Q) (hs : Step p e q) (he : e.fails = false) :
    q.wp fun out => Q (e.sent ++ out) := by
  cases hs with
  | write bs k fault =>
    cases fault with
    | none => exact h
    | some n => cases he
  | acquire k ok => exact h ok
  | release k => exact h
  | draw d k v => exact h.2 v

/-- **Run lemma.** -/
theorem wp_path (h : p.wp Q) (hpath : Path p es q) (hfault : Faultless es) :
    q.wp fun out => Q (sentAll es ++ out) := by
  induction hpath generalizing Q with
  | nil => exact h
  | @cons p q r e es hs _ ih =>
    obtain ⟨he, hrest⟩ := faultless_cons.1 hfault
    have hr := ih (wp_step h hs he) hrest
    rw [sentAll_cons]
    simpa only [List.append_assoc] using hr

/-- What holds of every run of a process holds after its first step. -/
theorem sound_next (h : ∀ es r, Path p es r → Faultless es → r.Sound (Q (sentAll es)))
    (hs : Step p e q) (he : e.fails = false) (es : List (Event V)) (r : Proc V α)
    (hpath : Path q es r) (hfault : Faultless es) : r.Sound (Q (e.sent ++ sentAll es)) := by
  have hr := h _ r (.cons hs hpath) (faultless_cons.2 ⟨he, hfault⟩)
  rwa [sentAll_cons] at hr

/-- **What a weakest precondition says of runs**: at each moment a process is done, as it should
be, or can go on. -/
theorem wp_iff_path : p.wp Q ↔ ∀ es q, Path p es q → Faultless es → q.Sound (Q (sentAll es)) := by
  constructor
  · intro h es q hpath hfault
    have hsound := sound_of_wp (wp_path h hpath hfault)
    rwa [List.append_nil] at hsound
  · intro h
    induction p generalizing Q with
    | done a =>
      rcases h [] _ (.nil _) (by simp [Faultless]) with ⟨b, hb, hQ⟩ | ⟨e, q, hs, -⟩
      · cases hb
        exact hQ
      · cases hs
    | write bs k ih => exact ih none (sound_next h (.write bs k none) rfl)
    | acquire k ih => exact fun ok => ih ok (sound_next h (.acquire k ok) rfl)
    | release k ih => exact ih (sound_next h (.release k) rfl)
    | draw d k ih =>
      refine ⟨?_, fun v => ih v (sound_next h (.draw d k v) rfl)⟩
      rcases h [] _ (.nil _) (by simp [Faultless]) with ⟨a, ha, -⟩ | ⟨e, q, hs, -⟩
      · cases ha
      · cases hs with
        | draw _ _ v => exact ⟨v⟩

/-- A run without failures can be had. -/
theorem exists_path (h : p.wp Q) : ∃ es a, Path p es (.done a) ∧ Faultless es := by
  induction p generalizing Q with
  | done a => exact ⟨[], a, .nil _, by simp [Faultless]⟩
  | write bs k ih =>
    obtain ⟨es, a, hpath, hfault⟩ := ih none h
    exact ⟨_, a, .cons (.write bs k none) hpath, faultless_cons.2 ⟨rfl, hfault⟩⟩
  | acquire k ih =>
    obtain ⟨es, a, hpath, hfault⟩ := ih true (h true)
    exact ⟨_, a, .cons (.acquire k true) hpath, faultless_cons.2 ⟨rfl, hfault⟩⟩
  | release k ih =>
    obtain ⟨es, a, hpath, hfault⟩ := ih h
    exact ⟨_, a, .cons (.release k) hpath, faultless_cons.2 ⟨rfl, hfault⟩⟩
  | draw d k ih =>
    obtain ⟨v⟩ := h.1
    obtain ⟨es, a, hpath, hfault⟩ := ih v (h.2 v)
    exact ⟨_, a, .cons (.draw d k v) hpath, faultless_cons.2 ⟨rfl, hfault⟩⟩

/-- What holds of a run that is done. -/
theorem wp_done {a : α} (h : p.wp Q) (hpath : Path p es (.done a)) (hfault : Faultless es) :
    Q (sentAll es) a := by
  rcases wp_iff_path.1 h _ _ hpath hfault with ⟨b, hb, hQ⟩ | ⟨e, q, hs, -⟩
  · cases hb
    exact hQ
  · cases hs

theorem wp_exists (h : p.wp Q) : ∃ out a, Q out a := by
  obtain ⟨es, a, hpath, hfault⟩ := exists_path h
  exact ⟨_, a, wp_done h hpath hfault⟩

/-- One process after another. -/
def bind : Proc V α → (α → Proc V β) → Proc V β
  | .done a, f => f a
  | .write bs k, f => .write bs fun fault => (k fault).bind f
  | .acquire k, f => .acquire fun ok => (k ok).bind f
  | .release k, f => .release (k.bind f)
  | .draw d k, f => .draw d fun v => (k v).bind f

/-- **The rule of sequence.** -/
theorem wp_bind {f : α → Proc V β} {Q : Bytes → β → Prop} :
    (p.bind f).wp Q ↔ p.wp fun out a => (f a).wp fun out' => Q (out ++ out') := by
  induction p generalizing Q with
  | done a => simp [bind, wp]
  | write bs k ih => simp [bind, wp, ih]
  | acquire k ih => simp [bind, wp, ih]
  | release k ih => simp [bind, wp, ih]
  | draw d k ih => simp [bind, wp, ih]

end Proc

/-! ## Attempts -/

/-- A process that may end early, with no result. -/
abbrev Attempt {D : Type} (V : D → Type) (α : Type) := Proc V (Option α)

namespace Attempt

/-- End early. -/
def stop : Attempt V α := .done none

/-- What comes after an attempt: nothing, when it ended early. -/
def next (f : α → Attempt V β) : Option α → Attempt V β
  | some a => f a
  | none => stop

instance : Monad (Attempt V) where
  pure a := .done (some a)
  bind p f := p.bind (next f)

/-- Write, and end early when the write fails. -/
def write (bs : Bytes) : Attempt V Unit := Proc.write bs fun fault =>
  .done (if fault.isSome then none else some ())

def draw (d : D) : Attempt V (V d) := Proc.draw d fun v => .done (some v)

/-- Run `p` with a slot, which goes back however `p` ends, or `q` when there is none. -/
def withSlot (p q : Attempt V α) : Attempt V α := .acquire fun ok =>
  if ok then p.bind fun r => .release (.done r) else q

variable {p q : Attempt V α} {Q R : Bytes → Option α → Prop}

@[simp] theorem wp_stop : (stop : Attempt V α).wp Q ↔ Q [] none := Iff.rfl

@[simp] theorem wp_pure (a : α) : (pure a : Attempt V α).wp Q ↔ Q [] (some a) := Iff.rfl

@[simp] theorem wp_write {Q : Bytes → Option Unit → Prop} (bs : Bytes) :
    (write bs : Attempt V Unit).wp Q ↔ Q bs (some ()) := by
  simp [write, Proc.wp]

theorem wp_draw (d : D) {Q : Bytes → Option (V d) → Prop} :
    (draw d : Attempt V (V d)).wp Q ↔ Nonempty (V d) ∧ ∀ v, Q [] (some v) := Iff.rfl

/-- What an attempt needs for what comes after it. -/
def after (f : α → Attempt V β) (Q : Bytes → Option β → Prop) (out : Bytes) : Option α → Prop
  | some a => (f a).wp fun out' => Q (out ++ out')
  | none => Q out none

@[simp] theorem after_some (f : α → Attempt V β) (Q : Bytes → Option β → Prop) (out : Bytes) (a : α) :
    after f Q out (some a) ↔ (f a).wp fun out' => Q (out ++ out') := Iff.rfl

@[simp] theorem after_none (f : α → Attempt V β) (Q : Bytes → Option β → Prop) (out : Bytes) :
    after f Q out none ↔ Q out none := Iff.rfl

/-- **The rule of sequence**: an early end is the end. -/
@[simp] theorem wp_bind {f : α → Attempt V β} {Q : Bytes → Option β → Prop} :
    (p >>= f).wp Q ↔ p.wp (after f Q) := by
  have hnext : (fun out a => (next f a).wp fun out' => Q (out ++ out')) = after f Q := by
    funext out a
    cases a with
    | none => simp [next]
    | some a => rfl
  rw [← hnext]
  exact Proc.wp_bind

@[simp] theorem wp_withSlot : (withSlot p q).wp Q ↔ p.wp Q ∧ q.wp Q := by
  simp [withSlot, Proc.wp, Proc.wp_bind, and_comm]

end Attempt

/-! ## Order -/

/-- A process that gives its slot back, when it has one, and ends early. -/
def Dead (last : Bool) : Bool → Proc V (Option α) → Prop
  | h, .done r => h = last ∧ r = none
  | h, .release k => h = true ∧ Dead last false k
  | _, _ => False

/-- **A process in order**, given whether it has a slot and whether it has one at its end: it
takes one only when it has none, and gives back only what it has; after a write that fails it
sends nothing more. -/
def Orderly (last : Bool) : Bool → Proc V (Option α) → Prop
  | h, .done _ => h = last
  | h, .write _ k => Orderly last h (k none) ∧ ∀ n, Dead last h (k (some n))
  | h, .acquire k => h = false ∧ Orderly last true (k true) ∧ Orderly last false (k false)
  | h, .release k => h = true ∧ Orderly last false k
  | h, .draw _ k => ∀ v, Orderly last h (k v)

variable {last h : Bool} {p q : Proc V (Option α)} {es : List (Event V)} {e : Event V}

theorem Dead.step (hp : Dead last h p) (hs : Proc.Step p e q) :
    e = .released ∧ h = true ∧ Dead last false q := by
  cases hs with
  | release k => exact ⟨rfl, hp.1, hp.2⟩
  | write bs k fault => exact hp.elim
  | acquire k ok => exact hp.elim
  | draw d k v => exact hp.elim

/-- It sends nothing. -/
theorem Dead.sent (hp : Dead last h p) (hpath : Proc.Path p es q) : sentAll es = [] := by
  induction hpath generalizing h with
  | nil => rfl
  | cons hs _ ih =>
    obtain ⟨rfl, -, hq⟩ := hp.step hs
    rw [sentAll_cons, ih hq]
    rfl

namespace Orderly

theorem stop : Orderly last last (Attempt.stop : Attempt V α) := rfl

theorem pure (a : α) : Orderly last last (Pure.pure a : Attempt V α) := rfl

theorem write (bs : Bytes) : Orderly last last (Attempt.write bs : Attempt V Unit) :=
  ⟨rfl, fun _ => ⟨rfl, rfl⟩⟩

theorem draw (d : D) : Orderly last last (Attempt.draw d : Attempt V (V d)) := fun _ => rfl

end Orderly

theorem Dead.bind {f : α → Attempt V β} (hp : Dead last h p) : Dead last h (p.bind (Attempt.next f)) := by
  induction p generalizing h with
  | done r =>
    obtain ⟨rfl, rfl⟩ := hp
    exact ⟨rfl, rfl⟩
  | release k ih => exact ⟨hp.1, ih hp.2⟩
  | write bs k => exact hp.elim
  | acquire k => exact hp.elim
  | draw d k => exact hp.elim

/-- One attempt in order after another. -/
theorem Orderly.bind {f : α → Attempt V β} (hp : Orderly last h p) (hf : ∀ a, Orderly last last (f a)) :
    Orderly last h (p >>= f : Attempt V β) := by
  change Orderly last h (p.bind (Attempt.next f))
  induction p generalizing h with
  | done r =>
    obtain rfl := hp
    cases r with
    | none => exact Orderly.stop
    | some a => exact hf a
  | write bs k ih => exact ⟨ih none hp.1, fun n => (hp.2 n).bind⟩
  | acquire k ih => exact ⟨hp.1, ih true hp.2.1, ih false hp.2.2⟩
  | release k ih => exact ⟨hp.1, ih hp.2⟩
  | draw d k ih => exact fun v => ih v (hp v)

/-- A dead process that has a slot at its end gives it back. -/
theorem Dead.giveBack (hp : Dead true h p) : Dead false h (p.bind fun r => .release (.done r)) := by
  induction p generalizing h with
  | done r =>
    obtain ⟨rfl, rfl⟩ := hp
    exact ⟨rfl, rfl, rfl⟩
  | release k ih => exact ⟨hp.1, ih hp.2⟩
  | write bs k => exact hp.elim
  | acquire k => exact hp.elim
  | draw d k => exact hp.elim

theorem Orderly.giveBack (hp : Orderly true h p) :
    Orderly false h (p.bind fun r => .release (.done r)) := by
  induction p generalizing h with
  | done r =>
    obtain rfl := hp
    exact ⟨rfl, rfl⟩
  | write bs k ih => exact ⟨ih none hp.1, fun n => (hp.2 n).giveBack⟩
  | acquire k ih => exact ⟨hp.1, ih true hp.2.1, ih false hp.2.2⟩
  | release k ih => exact ⟨hp.1, ih hp.2⟩
  | draw d k ih => exact fun v => ih v (hp v)

/-- **A slot is given back**, however what it was for has ended. -/
theorem Orderly.withSlot {p q : Attempt V α} (hp : Orderly true true p) (hq : Orderly false false q) :
    Orderly false false (Attempt.withSlot p q) := ⟨rfl, hp.giveBack, hq⟩

/-! ## Runs that get stuck nowhere -/

/-- A process that is never stuck: whatever it draws has a value. -/
def Total : Proc V α → Prop
  | .done _ => True
  | .write _ k => ∀ fault, Total (k fault)
  | .acquire k => ∀ ok, Total (k ok)
  | .release k => Total k
  | .draw d k => Nonempty (V d) ∧ ∀ v, Total (k v)

/-- **Step lemma.** -/
theorem Total.step {p q : Proc V α} (hp : Total p) (hs : Proc.Step p e q) : Total q := by
  cases hs with
  | write bs k fault => exact hp fault
  | acquire k ok => exact hp ok
  | release k => exact hp
  | draw d k v => exact hp.2 v

theorem Dead.total (hp : Dead last h p) : Total p := by
  induction p generalizing h with
  | done r => exact trivial
  | release k ih => exact ih hp.2
  | write bs k => exact hp.elim
  | acquire k => exact hp.elim
  | draw d k => exact hp.elim

/-- **A process in order is never stuck**, when none of its runs without failures is. -/
theorem Orderly.total {Q : Bytes → Option α → Prop} (hp : Orderly last h p) (hwp : p.wp Q) :
    Total p := by
  induction p generalizing h Q with
  | done r => exact trivial
  | write bs k ih =>
    intro fault
    cases fault with
    | none => exact ih none hp.1 hwp
    | some n => exact (hp.2 n).total
  | acquire k ih =>
    intro ok
    cases ok with
    | true => exact ih true hp.2.1 (hwp true)
    | false => exact ih false hp.2.2 (hwp false)
  | release k ih => exact ih hp.2 hwp
  | draw d k ih => exact ⟨hwp.1, fun v => ih v (hp v) (hwp.2 v)⟩

/-! ## Runs of a process in order -/

/-- A process in order, or one that is past a failed write. -/
def Tame (last h : Bool) (p : Proc V (Option α)) : Prop := Orderly last h p ∨ Dead last h p

/-- **Step lemma.** A slot is taken when none is held, and given back when one is. -/
theorem Tame.step (hp : Tame last h p) (hs : Proc.Step p e q) :
    Tame last (e.holds h) q ∧ (∀ ok, e = .acquired ok → h = false) ∧ (e = .released → h = true) := by
  rcases hp with hp | hp
  · cases hs with
    | write bs k fault =>
      cases fault with
      | none => exact ⟨.inl hp.1, by simp, by simp⟩
      | some n => exact ⟨.inr (hp.2 n), by simp, by simp⟩
    | acquire k ok =>
      obtain ⟨rfl, htrue, hfalse⟩ := hp
      cases ok with
      | true => exact ⟨.inl htrue, fun _ _ => rfl, by simp⟩
      | false => exact ⟨.inl hfalse, fun _ _ => rfl, by simp⟩
    | release k => exact ⟨.inl hp.2, by simp, fun _ => hp.1⟩
    | draw d k v => exact ⟨.inl (hp v), by simp, by simp⟩
  · obtain ⟨rfl, hh, hq⟩ := hp.step hs
    exact ⟨.inr hq, by simp, fun _ => hh⟩

/-- **A process in order sends a beginning of what it should.** Whatever holds of the bytes of
every run without failures holds of bytes that begin with those that are out now; when the
process is done and no write has failed, these are all of them. -/
theorem Orderly.sends {Q : Bytes → Option α → Prop} (hp : Orderly last h p)
    (hwp : p.wp Q) (hpath : Proc.Path p es q) :
    ∃ out r, Q out r ∧ sentAll es <+: out ∧
      ∀ r', q = .done r' → Faultless es → r' = r ∧ sentAll es = out := by
  induction hpath generalizing h Q with
  | nil p =>
    cases p with
    | done r => exact ⟨[], r, hwp, List.nil_prefix, fun r' hr _ => by cases hr; exact ⟨rfl, rfl⟩⟩
    | write | acquire | release | draw =>
      obtain ⟨out, r, hQ⟩ := Proc.wp_exists hwp
      exact ⟨out, r, hQ, List.nil_prefix, by simp⟩
  | @cons p q t e es hs hpath ih =>
    -- the bytes of a step that is no write are none
    have hsilent : ∀ {h' : Bool}, e.sent = [] → Orderly last h' q → q.wp Q →
        ∃ out r, Q out r ∧ sentAll (e :: es) <+: out ∧
          ∀ r', t = .done r' → Faultless (e :: es) → r' = r ∧ sentAll (e :: es) = out := by
      intro h' hsent hq hwp
      obtain ⟨out, r, hQ, hpre, hend⟩ := ih hq hwp
      rw [sentAll_cons, hsent, List.nil_append]
      exact ⟨out, r, hQ, hpre, fun r' hr hfault => hend r' hr (faultless_cons.1 hfault).2⟩
    cases hs with
    | write bs k fault =>
      cases fault with
      | none =>
        obtain ⟨out, r, hQ, hpre, hend⟩ := ih hp.1 hwp
        refine ⟨bs ++ out, r, hQ, ?_, ?_⟩
        · rw [sentAll_cons]
          exact (List.prefix_append_right_inj bs).2 hpre
        · intro r' hr hfault
          obtain ⟨rfl, hout⟩ := hend r' hr (faultless_cons.1 hfault).2
          exact ⟨rfl, by rw [sentAll_cons, hout]; rfl⟩
      | some n =>
        -- what gets out of the failed write is the last that is sent
        have hnone : (k none).wp fun out => Q (bs ++ out) := hwp
        obtain ⟨out, r, hQ⟩ := Proc.wp_exists hnone
        refine ⟨bs ++ out, r, hQ, ?_, ?_⟩
        · rw [sentAll_cons, (hp.2 n).sent hpath, List.append_nil]
          exact (List.take_prefix n bs).trans (List.prefix_append bs out)
        · intro r' _ hfault
          cases (faultless_cons.1 hfault).1
    | acquire k ok =>
      cases ok with
      | true => exact hsilent rfl hp.2.1 (hwp true)
      | false => exact hsilent rfl hp.2.2 (hwp false)
    | release k => exact hsilent rfl hp.2 hwp
    | draw d k v => exact hsilent rfl (hp v) (hwp.2 v)

end EtherealDb
