import EtherealDb.Spec.Config
import EtherealDb.Text.Proc

/-!
# Connections in their world

A connection is a process (`Act`): it writes to its socket, tries to take a crush slot, and
draws what other crates decide. What the client sends is a list of bytes, as for Redis: all
that it will ever send, so that reading past them is the end of the stream. A delay injected
by a ghost is a time for other connections to run, and needs no step of its own.

A loop takes fuel. One that runs out of it would not come to an end: it is stuck in a draw that
has no values (`Act.diverge`).
-/

namespace EtherealDb

/-- What a connection draws: `from_os_rng`, and `rand::random` at `f64`, `u64`, `i32` and
`[u8; 20]`. A loop without end draws `never`. -/
inductive Ask where
  | os | unit | word | i32 | scramble | never
  deriving DecidableEq, Repr

/-- What is drawn. -/
def Ask.Val (C : Crates) : Ask → Type
  | .os => C.Rng
  | .unit => ℚ
  | .word => UInt64
  | .i32 => Int32
  | .scramble => { b : Bytes // b.length = 20 }
  | .never => Empty

/-- Everything can be drawn but what is drawn without end. -/
theorem Ask.nonempty (C : Crates) {d : Ask} (h : d ≠ .never) : Nonempty (d.Val C) :=
  match d, h with
  | .os, _ => ⟨C.seedFromU64 0⟩
  | .unit, _ => ⟨(0 : ℚ)⟩
  | .word, _ => ⟨(0 : UInt64)⟩
  | .i32, _ => ⟨(0 : Int32)⟩
  | .scramble, _ => ⟨⟨List.replicate 20 0, rfl⟩⟩

/-- What a connection does. An early end is a return of its function, or a panic. -/
abbrev Act (C : Crates) := Attempt (Ask.Val C)

variable {C : Crates}

namespace Act

open Attempt (stop draw)

/-- A computation that may panic. -/
def ofOption {α : Type} : Option α → Act C α
  | some a => pure a
  | none => stop

/-- A loop without end. -/
def diverge {α : Type} : Act C α := Proc.draw (V := Ask.Val C) .never fun v => nomatch (v : Empty)

/-- `ChaCha8Rng::from_os_rng`. -/
def fromOsRng : Act C C.Rng := draw (V := Ask.Val C) .os

/-- `rand::random::<f64>`. -/
def randomF64 : Act C ℚ := draw (V := Ask.Val C) .unit

/-- `rand::random::<u64>`. -/
def randomU64 : Act C UInt64 := draw (V := Ask.Val C) .word

/-- `rand::random::<i32>`. -/
def randomI32 : Act C Int32 := draw (V := Ask.Val C) .i32

/-- `rand::random::<[u8; 20]>`. -/
def randomScramble : Act C { b : Bytes // b.length = 20 } := draw (V := Ask.Val C) .scramble

/-- `seed_rng`. -/
def seedRng (cfg : Config) (key : Bytes) : Act C C.Rng :=
  match cfg.seed with
  | some seed => pure (C.seedFromU64 (seed ^^^ fnv64 key))
  | none => fromOsRng

/-- `hits`: without a chance no draw is made. -/
def hits (p : ℚ) : Act C Bool := do
  if 0 < p then return decide ((← randomF64) < p) else return false

/-- `maybe_latency`: a word is drawn where there is more than one delay. -/
def maybeLatency (cfg : Config) : Act C Unit := do
  if ← hits cfg.ghosts.latencyProb then
    if cfg.ghosts.latencyMs.1 < cfg.ghosts.latencyMs.2 then
      let r ← randomU64
      let _ ← ofOption (delayMs cfg.ghosts.latencyMs r)
      return ()
    else return ()
  else return ()

/-- `maybe_drop`. -/
def maybeDrop (cfg : Config) : Act C Bool := hits cfg.ghosts.dropProb

/-- `maybe_error`. -/
def maybeError (cfg : Config) : Act C Bool := hits cfg.ghosts.errorProb

/-- `write_all`, when there is anything to write. -/
def flush (out : Bytes) : Act C Unit := if out = [] then pure () else Attempt.write out

@[simp] theorem wp_ofOption {α : Type} (a : Option α) {Q : Bytes → Option α → Prop} :
    (ofOption a : Act C α).wp Q ↔ Q [] a := by
  cases a <;> rfl

/-- Whatever is drawn. -/
theorem wp_ask {d : Ask} (h : d ≠ .never) {Q : Bytes → Option (d.Val C) → Prop} :
    (draw d : Attempt (Ask.Val C) (d.Val C)).wp Q ↔ ∀ v, Q [] (some v) := by
  rw [Attempt.wp_draw]
  exact and_iff_right (Ask.nonempty C h)

@[simp] theorem wp_fromOsRng {Q : Bytes → Option C.Rng → Prop} :
    (fromOsRng : Act C C.Rng).wp Q ↔ ∀ os, Q [] (some os) := wp_ask (d := .os) (by decide)

theorem wp_randomF64 {Q : Bytes → Option ℚ → Prop} :
    (randomF64 : Act C ℚ).wp Q ↔ ∀ u, Q [] (some u) := wp_ask (d := .unit) (by decide)

@[simp] theorem wp_randomU64 {Q : Bytes → Option UInt64 → Prop} :
    (randomU64 : Act C UInt64).wp Q ↔ ∀ r, Q [] (some r) := wp_ask (d := .word) (by decide)

@[simp] theorem wp_randomI32 {Q : Bytes → Option Int32 → Prop} :
    (randomI32 : Act C Int32).wp Q ↔ ∀ n, Q [] (some n) := wp_ask (d := .i32) (by decide)

@[simp] theorem wp_randomScramble {Q : Bytes → Option { b : Bytes // b.length = 20 } → Prop} :
    (randomScramble : Act C { b : Bytes // b.length = 20 }).wp Q ↔ ∀ b, Q [] (some b) :=
  wp_ask (d := .scramble) (by decide)

@[simp] theorem wp_seedRng (cfg : Config) (key : Bytes) {Q : Bytes → Option C.Rng → Prop} :
    (seedRng cfg key : Act C C.Rng).wp Q ↔ ∀ os, Q [] (some (EtherealDb.seedRng cfg key os)) := by
  unfold seedRng EtherealDb.seedRng
  cases cfg.seed with
  | none => exact wp_fromOsRng
  | some seed => exact ⟨fun h _ => h, fun h => h (C.seedFromU64 0)⟩

@[simp] theorem wp_hits (p : ℚ) {Q : Bytes → Option Bool → Prop} :
    (hits p : Act C Bool).wp Q ↔ ∀ u, Q [] (some (EtherealDb.hits p u)) := by
  unfold hits EtherealDb.hits
  by_cases hp : 0 < p
  · simp [hp, wp_randomF64]
  · rw [if_neg hp]
    simp [hp]

/-- **The delay of a ghost**: nothing is sent, and some draws panic. -/
@[simp] theorem wp_maybeLatency (cfg : Config) {Q : Bytes → Option Unit → Prop} :
    (maybeLatency cfg : Act C Unit).wp Q ↔
      ∀ u r, Q [] (if cfg.ghosts.crashes u r then none else some ()) := by
  unfold maybeLatency GhostConfig.crashes
  simp only [Attempt.wp_bind, wp_hits, Attempt.after_some, List.nil_append]
  refine forall_congr' fun u => ?_
  cases hhit : EtherealDb.hits cfg.ghosts.latencyProb u with
  | false => simp
  | true =>
    simp only [if_true, Bool.true_and]
    by_cases hlt : cfg.ghosts.latencyMs.1 < cfg.ghosts.latencyMs.2
    · simp only [if_pos hlt, Attempt.wp_bind, wp_randomU64, wp_ofOption, Attempt.after_some,
        List.nil_append]
      refine forall_congr' fun r => ?_
      cases delayMs cfg.ghosts.latencyMs r with
      | none => simp
      | some ms => simp
    · have hsome : ∀ r, (delayMs cfg.ghosts.latencyMs r).isNone = false := fun r => by
        simp only [delayMs, if_neg hlt, Option.isNone_some]
      simp [if_neg hlt, hsome]

/-- **The ghosts of a request**: it may panic, be dropped, be answered with an error, or be left
alone. -/
theorem wp_ghosts {cfg : Config} {α : Type} {err rest : Act C α} {Q : Bytes → Option α → Prop} :
    (do
      maybeLatency cfg
      if ← maybeDrop cfg then stop
      else if ← maybeError cfg then err
      else rest : Act C α).wp Q ↔
    ∀ o : Outcome C, if o.crashed cfg ∨ o.dropped cfg then Q [] none
      else if o.errored cfg then err.wp Q else rest.wp Q := by
  unfold maybeDrop maybeError Outcome.crashed Outcome.dropped Outcome.errored
  simp only [Attempt.wp_bind, wp_maybeLatency]
  have hdraws : ∀ u r, Attempt.after (fun _ : Unit => (do
      if ← hits cfg.ghosts.dropProb then stop
      else if ← hits cfg.ghosts.errorProb then err
      else rest : Act C α)) Q [] (if cfg.ghosts.crashes u r then none else some ()) ↔
      ∀ d e, if cfg.ghosts.crashes u r = true ∨ EtherealDb.hits cfg.ghosts.dropProb d = true then Q [] none
        else if EtherealDb.hits cfg.ghosts.errorProb e then err.wp Q else rest.wp Q := by
    intro u r
    cases cfg.ghosts.crashes u r with
    | true => simp
    | false =>
      simp only [Bool.false_eq_true, if_false, Attempt.after_some, List.nil_append, Attempt.wp_bind,
        wp_hits, false_or]
      refine forall_congr' fun d => ?_
      cases EtherealDb.hits cfg.ghosts.dropProb d with
      | true => simp
      | false =>
        simp only [Bool.false_eq_true, if_false, Attempt.wp_bind, wp_hits, Attempt.after_some,
          List.nil_append]
        refine forall_congr' fun e => ?_
        split_ifs <;> rfl
  constructor
  · exact fun h o => (hdraws _ _).1 (h _ _) o.drop o.error
  · intro h u r
    refine (hdraws u r).2 fun d e => ?_
    exact h { (default : Outcome C) with latency := u, delay := r, drop := d, error := e }

@[simp] theorem wp_flush (out : Bytes) {Q : Bytes → Option Unit → Prop} :
    (flush out : Act C Unit).wp Q ↔ Q out (some ()) := by
  unfold flush
  split_ifs with h
  · rw [Attempt.wp_pure, h]
  · exact Attempt.wp_write out

end Act

variable {last : Bool}

theorem Orderly.ofOption {α : Type} (a : Option α) : Orderly last last (Act.ofOption a : Act C α) := by
  cases a with
  | none => exact .stop
  | some a => exact .pure a

theorem Orderly.diverge {α : Type} : Orderly last last (Act.diverge : Act C α) :=
  fun v => nomatch (v : Empty)

theorem Orderly.seedRng (cfg : Config) (key : Bytes) :
    Orderly last last (Act.seedRng cfg key : Act C C.Rng) := by
  unfold Act.seedRng
  cases cfg.seed with
  | none => exact .draw Ask.os
  | some seed => exact .pure _

theorem Orderly.hits (p : ℚ) : Orderly last last (Act.hits p : Act C Bool) := by
  unfold Act.hits
  split_ifs
  · exact (Orderly.draw Ask.unit).bind fun _ => .pure _
  · exact .pure _

theorem Orderly.maybeLatency (cfg : Config) :
    Orderly last last (Act.maybeLatency cfg : Act C Unit) := by
  refine (Orderly.hits _).bind fun hit => ?_
  split_ifs
  · exact (Orderly.draw Ask.word).bind fun r => (Orderly.ofOption _).bind fun _ => .pure _
  · exact .pure _
  · exact .pure _

theorem Orderly.ghosts (cfg : Config) {α : Type} {err rest : Act C α} (herr : Orderly last last err)
    (hrest : Orderly last last rest) : Orderly last last (do
      Act.maybeLatency cfg
      if ← Act.maybeDrop cfg then Attempt.stop
      else if ← Act.maybeError cfg then err
      else rest : Act C α) := by
  refine (Orderly.maybeLatency cfg).bind fun _ => (Orderly.hits _).bind fun dropped => ?_
  by_cases hdrop : dropped
  · rw [if_pos hdrop]
    exact .stop
  · rw [if_neg hdrop]
    refine (Orderly.hits _).bind fun errored => ?_
    by_cases herror : errored
    · rw [if_pos herror]
      exact herr
    · rw [if_neg herror]
      exact hrest

theorem Orderly.flush (out : Bytes) : Orderly last last (Act.flush out : Act C Unit) := by
  unfold Act.flush
  split_ifs
  · exact .pure _
  · exact .write out

end EtherealDb
