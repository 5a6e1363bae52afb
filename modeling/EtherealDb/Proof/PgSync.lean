import EtherealDb.Proof.PgAnswer

/-!
# Errors and Sync

A ghost's error leaves ReadyForQuery to the client's Sync, but nothing makes the server
discard what comes before that Sync.

* `step_eq_nil_iff`: the messages that get no answer.
* `recovers_iff`: **between an Execute answered with an error and the next Sync the server
  is silent exactly when the client sends nothing that it answers.**
-/

namespace EtherealDb.Pg

open Serve (Next serve watch Along)

variable {C : Crates}

/-- An ErrorResponse. -/
def Backend.isError : Backend → Bool
  | .error _ _ => true
  | _ => false

/-- Whether an Execute has been answered with an error and no Sync has come since. -/
def noteError (waiting : Bool) (om : Outcome C × Frontend) (ms : List Backend) : Bool :=
  if om.2.kind = .sync then false
  else waiting || (om.2.kind == .execute && ms.any Backend.isError)

/-- A session with its waiting flag. -/
def watched (cfg : Config) : Session × Bool → Outcome C × Frontend →
    List Backend × Next (Session × Bool) Stop :=
  watch (step cfg) noteError

/-- A message that the server does not answer: one that it ignores, a Terminate, one on
which a ghost drops the connection, or one that it panics at. -/
def Unanswered (cfg : Config) (s : Session) (om : Outcome C × Frontend) : Prop :=
  om.2.kind = .flush ∨ om.2.kind = .other ∨ om.2.kind = .terminate ∨
    (om.2.haunted cfg ∧ om.1.dropped cfg) ∨ ¬Safe cfg s om

/-- **The messages that get no answer.** -/
theorem step_eq_nil_iff (cfg : Config) (s : Session) (om : Outcome C × Frontend) :
    (step cfg s om).1 = [] ↔ Unanswered cfg s om := by
  by_cases hdrop : om.2.haunted cfg ∧ om.1.dropped cfg
  · refine ⟨fun _ => Or.inr (Or.inr (Or.inr (Or.inl hdrop))), fun _ => ?_⟩
    unfold step
    simp only [if_pos hdrop]
    split_ifs <;> rfl
  by_cases hterm : om.2.kind = .terminate
  · refine ⟨fun _ => Or.inr (Or.inr (Or.inl hterm)), fun _ => ?_⟩
    have hh : ¬om.2.haunted cfg := not_haunted (by simp [hterm]) (by simp [hterm]) cfg
    unfold step
    simp only [hh, hterm]
    simp
  rcases step_spec cfg s om ⟨hdrop, hterm⟩ with ⟨hlive, -, hans⟩ | ⟨hpanic, heq⟩
  · rw [hans.eq_nil_iff]
    simp only [Unanswered, hlive, hdrop, hterm, not_true_eq_false, or_false]
  · rw [heq]
    exact ⟨fun _ => Or.inr (Or.inr (Or.inr (Or.inr hpanic))), fun _ => rfl⟩

/-- Sync is answered with ReadyForQuery, whatever came before. -/
theorem step_sync (cfg : Config) (s : Session) {om : Outcome C × Frontend}
    (hk : om.2.kind = .sync) : (step cfg s om).1 = [.readyForQuery] := by
  have hh : ¬om.2.haunted cfg := not_haunted (by simp [hk]) (by simp [hk]) cfg
  rw [step_dispatch hh (by simp [hk]) (dispatch_sync hk)]
  simp

/-- **Error recovery.** In a session, from an Execute that was answered with an error to the
next Sync, nothing is sent and then exactly one ReadyForQuery, if and only if every message
the client sends in between is one that the server does not answer. -/
theorem recovers_iff (cfg : Config) (l : List (Outcome C × Frontend)) :
    (serve (watched cfg) (.new, false) l).1 = (session cfg l).1 ∧
    (Along (watched cfg) (fun w om => w.2 → (watched cfg w om).1 =
        if om.2.kind = .sync then [.readyForQuery] else []) (.new, false) l ↔
      Along (watched cfg) (fun w om => w.2 → om.2.kind = .sync ∨ Unanswered cfg w.1 om)
        (.new, false) l) := by
  refine ⟨?_, Serve.along_congr ?_ l _⟩
  · unfold watched session
    rw [Serve.serve_watch]
  intro w om
  by_cases hk : om.2.kind = .sync
  · simp only [hk, if_true, true_or, iff_true, implies_true]
    intro _
    exact step_sync cfg w.1 hk
  · simp only [hk, if_false, false_or]
    rw [← step_eq_nil_iff]
    rfl

/-- Ghosts that answer every query with an error. -/
def hauntedConfig : Config := { Config.default with ghosts := ⟨0, ⟨0, 0⟩, 1, 0, 0⟩ }

/-- An Execute, and a Parse before its Sync. -/
def pipelined : List (Outcome .least × Frontend) := [(.quiet, ⟨69, []⟩), (.quiet, ⟨80, [0, 0]⟩)]

/-- The Parse is answered. -/
theorem not_recovers_pipelined :
    ¬Along (watched hauntedConfig) (fun w om => w.2 → (watched hauntedConfig w om).1 =
      if om.2.kind = .sync then [.readyForQuery] else []) (.new, false) pipelined := by
  rintro ⟨-, hnext⟩
  have hstep : step hauntedConfig .new ((.quiet, ⟨69, []⟩) : Outcome .least × Frontend) =
      ([ghostError], .go .new) := by
    unfold step
    simp only
    rw [if_neg (by decide), if_neg (by decide), if_pos (by decide), if_neg (by decide)]
  have hgo : (watched hauntedConfig (.new, false)
      ((.quiet, ⟨69, []⟩) : Outcome .least × Frontend)).2 = .go (.new, true) := by
    unfold watched watch
    simp only [hstep]
    rfl
  have hsilent := (hnext _ hgo).1 rfl
  have hanswer : (watched hauntedConfig (.new, true)
      ((.quiet, ⟨80, [0, 0]⟩) : Outcome .least × Frontend)).1 = [.parseComplete] := by
    decide +kernel
  rw [hanswer] at hsilent
  exact absurd hsilent (by decide)

end EtherealDb.Pg
