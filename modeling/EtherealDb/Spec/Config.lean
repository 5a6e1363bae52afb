import EtherealDb.Spec.Generate
import EtherealDb.Spec.Shape

/-!
# Configuration

What the frontends read of the configuration, the ghost draws and the seeding of the
generators. The thread generator, the operating system's entropy and the crush slots
are not the program's: each answer carries them as its `Outcome`.
-/

namespace EtherealDb

/-- `CrushConfig`, less the number of slots. -/
structure CrushConfig where
  enabled : Bool
  maxRows : ℕ
  warnOnly : Bool
  threshold : CrushThreshold

/-- `GhostConfig`. A probability is only compared with zero and with draws from `[0, 1)`, so a
NaN acts as 0 and an infinity as 1. -/
structure GhostConfig where
  latencyProb : ℚ
  latencyMs : UInt64 × UInt64
  errorProb : ℚ
  dropProb : ℚ
  fuzz : ℚ

/-- `Config`. -/
structure Config where
  seed : Option UInt64
  rowsMin : ℕ
  rowsMax : ℕ
  crush : CrushConfig
  theme : ThemeData
  rules : Rules
  ghosts : GhostConfig

/-- `CrushConfig::default`. -/
def CrushConfig.default : CrushConfig := ⟨false, 5000000, false, .all3⟩

/-- `Config::default`. -/
def Config.default : Config where
  seed := none
  rowsMin := 5
  rowsMax := 20
  crush := .default
  theme := genericTheme
  rules := ⟨[]⟩
  ghosts := ⟨0, ⟨0, 0⟩, 0, 0, 0⟩

/-- `gen_ctx`. -/
def Config.genCtx (cfg : Config) : Gen := ⟨cfg.theme, cfg.ghosts.fuzz⟩

/-- `haunting`. -/
def GhostConfig.haunting (g : GhostConfig) : Bool :=
  0 < g.latencyProb || 0 < g.errorProb || 0 < g.dropProb

/-- `hits`, with the uniform draw it makes. -/
def hits (p u : ℚ) : Bool := 0 < p && u < p

/-- The delay of `maybe_latency` in milliseconds, from the word that it draws; `none` is a
panic. -/
def delayMs (latencyMs : UInt64 × UInt64) (r : UInt64) : Option UInt64 :=
  let (lo, hi) := latencyMs
  if lo < hi then
    let width := hi - lo + 1
    -- the width of the whole range wraps, and there is no remainder by zero
    if width = 0 then none else some (lo + r % width)
  else some lo

/-- Whether `maybe_latency` panics on its draws, a uniform one and a word. The delay itself
changes no answer. -/
def GhostConfig.crashes (g : GhostConfig) (u : ℚ) (r : UInt64) : Bool :=
  hits g.latencyProb u && (delayMs g.latencyMs r).isNone

/-- The crush class of a statement: safe unless crush mode is on. -/
def Config.crushClass (cfg : Config) (shape : ResultShape) : CrushClass :=
  if cfg.crush.enabled then shape.crushClass cfg.crush.threshold else .safe

/-- `fnv64`: FNV-1a. -/
def fnv64 (bs : Bytes) : UInt64 :=
  bs.foldl (fun h b => (h ^^^ b.toUInt64) * 0x100000001b3) 0xcbf29ce484222325

/-- `seed_rng`, given a generator seeded by the operating system. -/
def seedRng {C : Crates} (cfg : Config) (key : Bytes) (os : C.Rng) : C.Rng :=
  match cfg.seed with
  -- one statement, one answer: the generator starts again at each
  | some seed => C.seedFromU64 (seed ^^^ fnv64 key)
  | none => os

/-- What the world decides about one message: the draws of `maybe_latency`, the uniform draws of
`maybe_drop` and `maybe_error`, whether a crush slot is free at the `i`-th attempt, and the
`i`-th generator that the operating system seeds. -/
structure Outcome (C : Crates) where
  latency : ℚ
  delay : UInt64
  drop : ℚ
  error : ℚ
  slot : ℕ → Bool
  os : ℕ → C.Rng

/-- A world without ghosts or slots. -/
def Outcome.quiet : Outcome .least := ⟨0, 0, 0, 0, fun _ => false, fun _ => ()⟩

instance {C : Crates} : Inhabited (Outcome C) :=
  ⟨0, 0, 0, 0, fun _ => false, fun _ => C.seedFromU64 0⟩

/-- A panic of `maybe_latency`. -/
def Outcome.crashed {C : Crates} (o : Outcome C) (cfg : Config) : Bool :=
  cfg.ghosts.crashes o.latency o.delay

/-- `maybe_drop`. -/
def Outcome.dropped {C : Crates} (o : Outcome C) (cfg : Config) : Bool :=
  hits cfg.ghosts.dropProb o.drop

/-- `maybe_error`. -/
def Outcome.errored {C : Crates} (o : Outcome C) (cfg : Config) : Bool :=
  hits cfg.ghosts.errorProb o.error

/-! ## Crush streams -/

/-- `CRUSH_CHUNK`. -/
def crushChunk : ℕ := 1000

/-- `WIDE_CRUSH_COLUMNS`. -/
def wideCrushColumns : List Str :=
  ["id", "uuid", "name", "email", "phone", "status", "created_at", "updated_at", "price",
   "is_active", "description", "metadata"]

/-- The loop that streams rows, with `sent` rows behind it: the rows, and `sent` at its
end. -/
def streamLoop {C : Crates} {α : Type} (row : Draw C α) (max : ℕ) : ℕ → ℕ → Draw C (List α × ℕ)
  | 0, sent => pure ([], sent)
  | fuel + 1, sent => do
    if sent < max then
      let this := min crushChunk (max - sent)
      let chunk ← row.times this
      let rest ← streamLoop row max fuel (sent + this)
      return (chunk ++ rest.1, rest.2)
    else return ([], sent)

/-- A chunk, and what is left behind it. -/
theorem chunk_add (max sent : ℕ) :
    min crushChunk (max - sent) + (max - (sent + min crushChunk (max - sent))) = max - sent := by
  omega

/-- A chunk of something is something. -/
theorem chunk_pos {max sent : ℕ} (h : sent < max) : 0 < min crushChunk (max - sent) := by
  unfold crushChunk
  omega

/-- The band of every word. -/
def fullBand : UInt64 × UInt64 := (0, 0xffffffffffffffff)

/-- The width of a band wraps to zero for that one alone. -/
theorem width_wraps_iff {lo hi : UInt64} : lo < hi ∧ hi - lo + 1 = 0 ↔ (lo, hi) = fullBand := by
  rw [fullBand, Prod.mk.injEq, ← UInt64.toNat_inj, ← UInt64.toNat_inj, ← UInt64.toNat_inj,
    UInt64.lt_iff_toNat_lt, UInt64.toNat_add, UInt64.toNat_sub]
  have hlo := lo.toNat_lt
  have hhi := hi.toNat_lt
  have hzero : (0 : UInt64).toNat = 0 := rfl
  have hone : (1 : UInt64).toNat = 1 := rfl
  have hmost : (0xffffffffffffffff : UInt64).toNat = 2 ^ 64 - 1 := rfl
  rw [hzero, hone, hmost]
  omega

/-- **When a delay panics**: only when its band is every word, and then whatever is drawn. -/
theorem delayMs_eq_none_iff {band : UInt64 × UInt64} {r : UInt64} :
    delayMs band r = none ↔ band = fullBand := by
  obtain ⟨lo, hi⟩ := band
  rw [← width_wraps_iff, delayMs]
  dsimp only
  split_ifs with hlt hwidth
  · exact iff_of_true rfl ⟨hlt, hwidth⟩
  · exact iff_of_false (by simp) fun h => hwidth h.2
  · exact iff_of_false (by simp) fun h => hlt h.1

/-- **The delay of a word** is above the least one what the word leaves over. -/
theorem delayMs_val {lo hi : UInt64} (hle : lo ≤ hi) (hfull : (lo, hi) ≠ fullBand) (r : UInt64) :
    ∃ ms, delayMs (lo, hi) r = some ms ∧
      ms.toNat = lo.toNat + r.toNat % (hi.toNat - lo.toNat + 1) := by
  have hhi := hi.toNat_lt
  have hle' : lo.toNat ≤ hi.toNat := UInt64.le_iff_toNat_le.1 hle
  by_cases hlt : lo < hi
  · have hwidth : ¬hi - lo + 1 = 0 := fun h => hfull (width_wraps_iff.1 ⟨hlt, h⟩)
    have hsmall : (hi - lo + 1).toNat = hi.toNat - lo.toNat + 1 := by
      rw [← UInt64.toNat_inj, UInt64.toNat_add, UInt64.toNat_sub_of_le _ _ hle] at hwidth
      rw [UInt64.toNat_add, UInt64.toNat_sub_of_le _ _ hle]
      have hone : (1 : UInt64).toNat = 1 := rfl
      have hzero : (0 : UInt64).toNat = 0 := rfl
      rw [hone] at hwidth ⊢
      omega
    have hmod : r.toNat % (hi.toNat - lo.toNat + 1) < hi.toNat - lo.toNat + 1 :=
      Nat.mod_lt _ (Nat.succ_pos _)
    refine ⟨lo + r % (hi - lo + 1), ?_, ?_⟩
    · rw [delayMs]
      dsimp only
      rw [if_pos hlt, if_neg hwidth]
    · rw [UInt64.toNat_add, UInt64.toNat_mod, hsmall]
      exact Nat.mod_eq_of_lt (by omega)
  · have heq : hi.toNat - lo.toNat = 0 := by
      rw [UInt64.lt_iff_toNat_lt] at hlt
      omega
    refine ⟨lo, ?_, ?_⟩
    · rw [delayMs]
      dsimp only
      rw [if_neg hlt]
    · rw [heq, Nat.zero_add, Nat.mod_one, Nat.add_zero]

/-- **When a ghost's delay panics**: when it is drawn at all, from the band of every word. -/
theorem crashes_iff {g : GhostConfig} {u : ℚ} {r : UInt64} :
    g.crashes u r ↔ hits g.latencyProb u ∧ g.latencyMs = fullBand := by
  rw [GhostConfig.crashes, Bool.and_eq_true, Option.isNone_iff_eq_none, delayMs_eq_none_iff]

/-- With a seed the operating system plays no part. -/
theorem seedRng_seeded {C : Crates} {cfg : Config} (h : cfg.seed.isSome) (key : Bytes)
    (a b : C.Rng) : seedRng cfg key a = seedRng cfg key b := by
  obtain ⟨s, hs⟩ := Option.isSome_iff_exists.1 h
  simp [seedRng, hs]

end EtherealDb
