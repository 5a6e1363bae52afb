import EtherealDb.Proof.PgRows
import EtherealDb.Proof.RespReply
import EtherealDb.Spec.MySql

/-!
# Fuzzed values

`gen_value` hands a fuzzed value to its frontend like any other. Postgres writes it as it is;
MySQL and Redis write a boolean as `1` or `0`, whatever its text.

* `fuzzValue_bool`: no fuzzed boolean is `1` or `0`.
* `inPgRow`, `inMySqlRow_iff`, `inRedisGet_iff`: what each frontend makes of a fuzzed value.
* `fuzz_reaches_iff`: **a fuzzed value reaches the clients of all three frontends exactly when it
  is not a boolean.**
-/

namespace EtherealDb

open Str

variable {C : Crates}

/-! ## The values -/

/-- `gen_value` draws its value from `fuzz_value`. -/
def Gen.Fuzzes (g : Gen) (rng : C.Rng) : Prop :=
  0 < g.fuzz ∧ (C.randomBool (max 0 (min g.fuzz 1)) rng).1 = true

/-- The value that it draws there. -/
def Gen.fuzzed (g : Gen) (wt : WireType) (rng : C.Rng) : Str :=
  (fuzzValue wt (C.randomBool (max 0 (min g.fuzz 1)) rng).2).1

variable {g : Gen} {rng : C.Rng}

theorem genValue_fuzzes (h : g.Fuzzes rng) (st : SemanticType) (wt : WireType) :
    (genValue st wt g rng).1 = g.fuzzed wt rng := by
  obtain ⟨hpos, hhit⟩ := h
  unfold genValue
  rw [if_pos hpos, Draw.bind_apply, if_pos hhit]
  rfl

/-- What is picked from a pool is one of its texts, or nothing. -/
theorem pick_mem (pool : List String) (rng : C.Rng) :
    (pick pool rng).1 = [] ∨ ∃ s ∈ pool, (pick pool rng).1 = s.toList := by
  have hpick : (pick pool rng).1 = (pool[(C.chooseIndex pool.length rng).1]?.getD "").toList := rfl
  rw [hpick]
  cases hget : pool[(C.chooseIndex pool.length rng).1]? with
  | none => exact .inl rfl
  | some s => exact .inr ⟨s, List.mem_of_getElem? hget, rfl⟩

/-- What is picked from a pool that is not empty is one of its texts. -/
theorem pick_text {pool : List String} (h : pool ≠ []) (rng : C.Rng) :
    ∃ w ∈ pool, (pick pool rng).1 = w.toList := by
  have hlt := C.choose_lt pool.length rng (List.length_pos_iff.2 h)
  refine ⟨_, List.getElem_mem hlt, ?_⟩
  change (pool[(C.chooseIndex pool.length rng).1]?.getD "").toList = _
  rw [List.getElem?_eq_getElem hlt, Option.getD_some]

/-- **No fuzzed boolean is a canonical one** of MySQL or Redis. -/
theorem fuzzValue_bool (rng : C.Rng) :
    (fuzzValue .bool rng).1 ≠ ("1" : Str) ∧ (fuzzValue .bool rng).1 ≠ ("0" : Str) := by
  unfold fuzzValue
  rw [Draw.bind_apply]
  split
  · -- a long text
    have hlong := (C.range_mem .usize 4096 16384 (C.randomBool (15 / 100) rng).2 (by decide)).1
    have hlen : ((do
        return List.replicate (← C.randomRange .usize 4096 16384).toNat 'A' : Draw C Str)
          (C.randomBool (15 / 100) rng).2).1.length =
        (C.randomRange .usize 4096 16384 (C.randomBool (15 / 100) rng).2).1.toNat :=
      List.length_replicate
    constructor <;> intro h <;> rw [h] at hlen <;> simp at hlen <;> omega
  · have hpool : ∀ s ∈ ["2", "-1", "maybe", "", "TRUE", "t\x00"],
        s.toList ≠ ("1" : Str) ∧ s.toList ≠ ("0" : Str) := by decide
    rcases pick_mem ["2", "-1", "maybe", "", "TRUE", "t\x00"] (C.randomBool (15 / 100) rng).2 with
      h | ⟨s, hs, h⟩
    · rw [h]
      decide
    · rw [h]
      exact hpool s hs

/-! ## The frontends -/

/-- **The cell of a column in a text row of Postgres** that is drawn at a state. -/
def InPgRow (c : Resolved) (g : Gen) (rng : C.Rng) (v : Str) : Prop :=
  ∀ (formats : List ℤ) (pre post : List Resolved) (start : C.Rng),
    Pg.formatFor formats pre.length ≠ 1 → (Pg.putCells formats g 0 pre start).2 = rng →
    ∃ cells, (Pg.putDataRowFmt (pre ++ c :: post) formats g start).1 = .dataRow cells ∧
      cells[pre.length]? = some (.text v)

/-- **The cell of a column in a text row of MySQL** that is drawn at a state. -/
def InMySqlRow (c : Resolved) (g : Gen) (rng : C.Rng) (v : Str) : Prop :=
  ∀ (pre post : List Resolved) (start : C.Rng), (MySql.rowCells g pre start).2 = rng →
    ∃ cells, (MySql.textRow (pre ++ c :: post) g start).1 = .row cells ∧
      cells[pre.length]? = some v

/-- **The reply to a `GET`** of a key of a type, drawn at a state. -/
def InRedisGet (wt : WireType) (g : Gen) (rng : C.Rng) (v : Str) : Prop :=
  ∀ (cfg : Config) (os : ℕ → C.Rng) (cmd key : Bytes) (args : List Bytes), cfg.genCtx = g →
    (Resolved.fromName (rsplitNext ':' (Utf8.fromUtf8Lossy key)) cfg.rules).wt = wt →
    seedRng cfg key (os 0) = rng →
    Resp.run cfg os (cmd :: key :: args) .get = Resp.bulk (Utf8.encode v)

/-- **A fuzzed value reaches the client** of every frontend as it was drawn. -/
structure Reaches (c : Resolved) (g : Gen) (rng : C.Rng) : Prop where
  pg : InPgRow c g rng (g.fuzzed c.wt rng)
  mysql : InMySqlRow c g rng (g.fuzzed c.wt rng)
  redis : InRedisGet c.wt g rng (g.fuzzed c.wt rng)

variable (name : Str) (st : SemanticType) {wt : WireType}

theorem putCells_fuzzed (h : g.Fuzzes rng) {formats : List ℤ} (pre post : List Resolved) (i : ℕ)
    (start : C.Rng) (hformat : Pg.formatFor formats (i + pre.length) ≠ 1)
    (hstart : (Pg.putCells formats g i pre start).2 = rng) :
    (Pg.putCells formats g i (pre ++ ⟨name, st, wt, none⟩ :: post) start).1[pre.length]? =
      some (.text (g.fuzzed wt rng)) := by
  have hstep : ∀ (i : ℕ) (c : Resolved) (cols : List Resolved) (start : C.Rng),
      Pg.putCells formats g i (c :: cols) start =
        (Pg.putCell formats i c (Pg.cellText c g start).1 ::
          (Pg.putCells formats g (i + 1) cols (Pg.cellText c g start).2).1,
          (Pg.putCells formats g (i + 1) cols (Pg.cellText c g start).2).2) := fun _ _ _ _ => rfl
  induction pre generalizing i start with
  | nil =>
    obtain rfl : start = rng := hstart
    rw [List.length_nil, Nat.add_zero] at hformat
    rw [List.nil_append, hstep, List.length_nil, List.getElem?_cons_zero, Pg.putCell,
      if_neg hformat]
    exact congrArg (fun v => some (Pg.Cell.text v)) (genValue_fuzzes h st wt)
  | cons c pre ih =>
    rw [hstep] at hstart
    rw [List.length_cons, Nat.add_comm pre.length, ← Nat.add_assoc] at hformat
    rw [List.cons_append, hstep, List.length_cons, List.getElem?_cons_succ]
    exact ih (i + 1) _ hformat hstart

/-- **Postgres writes a fuzzed value as it is.** -/
theorem inPgRow (h : g.Fuzzes rng) : InPgRow ⟨name, st, wt, none⟩ g rng (g.fuzzed wt rng) := by
  intro formats pre post start hformat hstart
  refine ⟨_, rfl, putCells_fuzzed name st h pre post 0 start ?_ hstart⟩
  rwa [Nat.zero_add]

/-- The value that MySQL and Redis write for a drawn text. -/
def oneZero (wt : WireType) (v : Str) : Str :=
  if wt = .bool then (if v = ("t" : Str) then "1" else "0") else v

/-- **Only booleans are rewritten**, and no fuzzed one is what it is rewritten to. -/
theorem oneZero_fuzzed_iff : oneZero wt (g.fuzzed wt rng) = g.fuzzed wt rng ↔ wt ≠ .bool := by
  unfold oneZero
  split
  · rename_i hwt
    subst hwt
    obtain ⟨hone, hzero⟩ := fuzzValue_bool (C.randomBool (max 0 (min g.fuzz 1)) rng).2
    refine iff_of_false ?_ (fun hne => hne rfl)
    split
    · exact hone.symm
    · exact hzero.symm
  · rename_i hwt
    exact iff_of_true rfl hwt

theorem mysqlValue_fuzzes (h : g.Fuzzes rng) :
    (MySql.mysqlValue ⟨name, st, wt, none⟩ g rng).1 = oneZero wt (g.fuzzed wt rng) := by
  rw [← genValue_fuzzes h st wt]
  rfl

theorem rowCells_fuzzed (h : g.Fuzzes rng) (pre post : List Resolved) (start : C.Rng)
    (hstart : (MySql.rowCells g pre start).2 = rng) :
    (MySql.rowCells g (pre ++ ⟨name, st, wt, none⟩ :: post) start).1[pre.length]? =
      some (oneZero wt (g.fuzzed wt rng)) := by
  have hstep : ∀ (c : Resolved) (cols : List Resolved) (start : C.Rng),
      MySql.rowCells g (c :: cols) start =
        ((MySql.mysqlValue c g start).1 :: (MySql.rowCells g cols (MySql.mysqlValue c g start).2).1,
          (MySql.rowCells g cols (MySql.mysqlValue c g start).2).2) := fun _ _ _ => rfl
  induction pre generalizing start with
  | nil =>
    obtain rfl : start = rng := hstart
    rw [List.nil_append, hstep, List.length_nil, List.getElem?_cons_zero,
      mysqlValue_fuzzes name st h]
  | cons c pre ih =>
    rw [hstep] at hstart
    rw [List.cons_append, hstep, List.length_cons, List.getElem?_cons_succ]
    exact ih _ hstart

/-- **MySQL rewrites a fuzzed boolean.** -/
theorem inMySqlRow_iff (h : g.Fuzzes rng) :
    InMySqlRow ⟨name, st, wt, none⟩ g rng (g.fuzzed wt rng) ↔ wt ≠ .bool := by
  have hiff : oneZero wt (g.fuzzed wt rng) = g.fuzzed wt rng ↔ wt ≠ .bool := oneZero_fuzzed_iff
  rw [← hiff]
  constructor
  · intro hrow
    obtain ⟨cells, hcells, hget⟩ := hrow [] [] rng rfl
    have hdrawn : (MySql.rowCells g [⟨name, st, wt, none⟩] rng).1[0]? =
        some (oneZero wt (g.fuzzed wt rng)) := rowCells_fuzzed name st h [] [] rng rfl
    obtain rfl := MySql.Packet.row.inj hcells
    exact Option.some.inj (hdrawn.symm.trans hget)
  · intro hvalue pre post start hstart
    refine ⟨_, rfl, ?_⟩
    rw [rowCells_fuzzed name st h pre post start hstart, hvalue]

theorem run_get_fuzzed (h : g.Fuzzes rng) {cfg : Config} {os : ℕ → C.Rng} {key : Bytes}
    (cmd : Bytes) (args : List Bytes) (hg : cfg.genCtx = g)
    (hwt : (Resolved.fromName (rsplitNext ':' (Utf8.fromUtf8Lossy key)) cfg.rules).wt = wt)
    (hrng : seedRng cfg key (os 0) = rng) :
    Resp.run cfg os (cmd :: key :: args) .get =
      Resp.bulk (Utf8.encode (oneZero wt (g.fuzzed wt rng))) := by
  subst hg hwt hrng
  rw [← genValue_fuzzes h (Resolved.fromName (rsplitNext ':' (Utf8.fromUtf8Lossy key)) cfg.rules).st]
  rfl

/-- **So does Redis.** -/
theorem inRedisGet_iff (h : g.Fuzzes rng) : InRedisGet wt g rng (g.fuzzed wt rng) ↔ wt ≠ .bool := by
  have hiff : oneZero wt (g.fuzzed wt rng) = g.fuzzed wt rng ↔ wt ≠ .bool := oneZero_fuzzed_iff
  rw [← hiff]
  constructor
  · intro hget
    by_cases hwt : wt = .bool
    · -- a key that names a boolean, under a configuration that fuzzes like this one
      let cfg : Config := { Config.default with
        theme := g.theme
        ghosts := { Config.default.ghosts with fuzz := g.fuzz } }
      have hkey : (Resolved.fromName (rsplitNext ':' (Utf8.fromUtf8Lossy (Utf8.encode "active")))
          cfg.rules).wt = wt := by
        have hname : (Resolved.fromName (rsplitNext ':' "active") ⟨[]⟩).wt = .bool := by decide
        rw [Utf8.fromUtf8Lossy_encode, hwt]
        exact hname
      have hsent : Resp.run cfg (fun _ => rng) [[], Utf8.encode "active"] .get =
          Resp.bulk (Utf8.encode (oneZero wt (g.fuzzed wt rng))) :=
        run_get_fuzzed h [] [] rfl hkey rfl
      have hvalue := hget cfg (fun _ => rng) [] (Utf8.encode "active") [] rfl hkey rfl
      exact Utf8.encode_injective (Resp.bulk_injective (hsent.symm.trans hvalue))
    · exact oneZero_fuzzed_iff.2 hwt
  · intro hvalue cfg os cmd key args hg hwt hrng
    rw [run_get_fuzzed h cmd args hg hwt hrng, hvalue]

/-- **A fuzzed value reaches the clients of all three frontends exactly when it is not a
boolean**; those of Postgres it always reaches. -/
theorem fuzz_reaches_iff (name : Str) (st : SemanticType) (wt : WireType) (g : Gen) (rng : C.Rng)
    (h : g.Fuzzes rng) :
    (Reaches ⟨name, st, wt, none⟩ g rng ↔ wt ≠ .bool) ∧
      InPgRow ⟨name, st, wt, none⟩ g rng (g.fuzzed wt rng) := by
  refine ⟨⟨?_, ?_⟩, inPgRow name st h⟩
  · intro hreach
    exact (inMySqlRow_iff name st h).1 hreach.mysql
  · intro hwt
    exact ⟨inPgRow name st h, (inMySqlRow_iff name st h).2 hwt, (inRedisGet_iff h).2 hwt⟩

/-- The crates with a generator that says yes to a certainty alone, and draws the least value. -/
def Crates.certain : Crates := { Crates.least with randomBool := fun p rng => (decide (1 ≤ p), rng) }

/-- A context in which every value is fuzzed. -/
def Gen.always : Gen := ⟨genericTheme, 1⟩

theorem fuzz_reaches_int : Gen.always.Fuzzes (C := .certain) () ∧
    Reaches (C := .certain) ⟨"id", .idInt, .int8, none⟩ .always () := by
  have h : Gen.always.Fuzzes (C := .certain) () := ⟨by decide, by decide⟩
  exact ⟨h, (fuzz_reaches_iff (C := .certain) "id" .idInt .int8 .always () h).1.2 (by decide)⟩

/-- **A fuzzed boolean never reaches a client of MySQL**: `2` is drawn, and `0` is sent. -/
theorem fuzz_bool_lost : Gen.always.Fuzzes (C := .certain) () ∧
    Gen.always.fuzzed (C := .certain) .bool () = "2" ∧
    (MySql.textRow (C := .certain) [⟨"active", .bool, .bool, none⟩] .always ()).1 = .row ["0"] ∧
    ¬Reaches (C := .certain) ⟨"active", .bool, .bool, none⟩ .always () := by
  have hdrawn : Gen.always.fuzzed (C := .certain) .bool () = "2" := by decide +kernel
  have hrow : (MySql.textRow (C := .certain) [⟨"active", .bool, .bool, none⟩] .always ()).1 =
      .row ["0"] := by decide +kernel
  refine ⟨⟨by decide, by decide⟩, hdrawn, hrow, ?_⟩
  intro h
  obtain ⟨cells, hcells, hget⟩ := h.mysql [] [] () rfl
  rw [List.nil_append, hrow] at hcells
  obtain rfl := MySql.Packet.row.inj hcells
  rw [hdrawn] at hget
  exact absurd hget (by decide)

end EtherealDb
