import EtherealDb.Proof.Flavor
import EtherealDb.Proof.PgBound
import EtherealDb.Spec.Cli

/-!
# Options and what they bound

* `parseBand_ok_iff`, `parseBand_print`: the texts of a band.
* `latency_exact`: **the delays that can be drawn are those of the band**, unless the band is the
  whole range of a word: then every draw panics.
* `parseTheme_ok_iff`: a theme goes by its name, in any case.
* `default_config`: the options that are not given make the default configuration, but for the
  band of the delays.
* `rows_in_band`: **every frontend answers a `SELECT` with as many rows as the options allow.**
-/

namespace EtherealDb

open Str

variable {C : Crates}

/-! ## Bands -/

/-- **A text is cut at its first separator.** -/
theorem splitOnce_eq_some {c : Char} {s a b : Str} :
    splitOnce c s = some (a, b) ↔ s = a ++ c :: b ∧ c ∉ a := by
  unfold splitOnce
  constructor
  · intro h
    split_ifs at h with hc
    obtain ⟨rfl, rfl⟩ := Prod.mk.inj (Option.some.inj h)
    have hsplit := List.takeWhile_append_dropWhile (p := (· != c)) (l := s)
    have hhead : (s.dropWhile (· != c)).head? = some c := by
      cases hdrop : s.dropWhile (· != c) with
      | nil =>
        rw [List.dropWhile_eq_nil_iff] at hdrop
        exact absurd (hdrop c hc) (by simp)
      | cons d r =>
        have hd := List.head?_dropWhile_not (· != c) s
        rw [hdrop] at hd
        simpa using hd
    obtain ⟨r, hr⟩ := List.head?_eq_some_iff.1 hhead
    refine ⟨?_, ?_⟩
    · rw [hr] at hsplit
      rw [hr]
      exact hsplit.symm
    · intro hmem
      have hne := List.mem_takeWhile_imp hmem
      simp at hne
  · rintro ⟨rfl, ha⟩
    have hne : ∀ d ∈ a, (d != c) = true := by
      intro d hd
      rw [bne_iff_ne]
      rintro rfl
      exact ha hd
    rw [if_pos (by simp), List.takeWhile_append_of_pos hne, List.dropWhile_append_of_pos hne]
    simp

/-- **The texts of a band**: two numbers that fit a machine word, in order, around the first
colon. -/
theorem parseBand_ok_iff {s : Str} {band : Band} : parseBand s = .ok band ↔
    ∃ lo hi, s = lo ++ ':' :: hi ∧ ':' ∉ lo ∧ parseUnsigned (2 ^ 64) lo = some band.lo ∧
      parseUnsigned (2 ^ 64) hi = some band.hi := by
  unfold parseBand
  constructor
  · intro h
    cases hsplit : splitOnce ':' s with
    | none => rw [hsplit] at h; cases h
    | some p =>
      obtain ⟨lo, hi⟩ := p
      obtain ⟨hs, hlo⟩ := splitOnce_eq_some.1 hsplit
      rw [hsplit] at h
      refine ⟨lo, hi, hs, hlo, ?_⟩
      dsimp only at h
      split at h
      · cases h
      · rename_i n hn
        split at h
        · cases h
        · rename_i m hm
          split_ifs at h
          obtain rfl := Except.ok.inj h
          exact ⟨hn, hm⟩
  · rintro ⟨lo, hi, rfl, hcolon, hlo, hhi⟩
    rw [splitOnce_eq_some.2 ⟨rfl, hcolon⟩]
    dsimp only
    rw [hlo]
    dsimp only
    split
    · rename_i hnone
      rw [hhi] at hnone
      cases hnone
    · rename_i m hm
      rw [hhi] at hm
      obtain rfl := Option.some.inj hm
      exact dif_pos band.le

/-- **A band that is printed is read back.** -/
theorem parseBand_print (band : Band) :
    parseBand (decimal band.lo ++ ':' :: decimal band.hi) = .ok band := by
  have hcolon : ':' ∉ decimal band.lo := by
    intro h
    have hdigit := isDigit_of_mem_decimal h
    revert hdigit
    decide
  exact parseBand_ok_iff.2 ⟨_, _, rfl, hcolon, parseUnsigned_decimal (band.le.trans_lt band.lt),
    parseUnsigned_decimal band.lt⟩

/-- The band that is every word. -/
def Band.full : Band := ⟨0, 2 ^ 64 - 1, by decide, by decide⟩

theorem toNat_words (band : Band) :
    band.words.1.toNat = band.lo ∧ band.words.2.toNat = band.hi :=
  ⟨UInt64.toNat_ofNat_of_lt' (band.le.trans_lt band.lt), UInt64.toNat_ofNat_of_lt' band.lt⟩

theorem words_eq_fullBand_iff {band : Band} : band.words = fullBand ↔ band = .full := by
  obtain ⟨hlo, hhi⟩ := toNat_words band
  rw [Prod.ext_iff, ← UInt64.toNat_inj, ← UInt64.toNat_inj, hlo, hhi, Band.ext_iff]
  exact Iff.rfl

/-- **The delays of a band.** The delays that `maybe_latency` can draw are exactly those of its band,
whatever the band that the command line accepts; but of the band that is every word, each draw
panics. -/
theorem latency_exact (band : Band) :
    if band = .full then ∀ r, latencyMs band r = none
    else (∀ r, (latencyMs band r).isSome) ∧
      ∀ ms : UInt64, (∃ r, latencyMs band r = some ms) ↔ band.lo ≤ ms.toNat ∧ ms.toNat ≤ band.hi := by
  split_ifs with hfull
  · exact fun r => delayMs_eq_none_iff.2 (words_eq_fullBand_iff.2 hfull)
  obtain ⟨hlo, hhi⟩ := toNat_words band
  have hle : band.words.1 ≤ band.words.2 := by
    rw [UInt64.le_iff_toNat_le, hlo, hhi]
    exact band.le
  have hdraw : ∀ r, ∃ ms, latencyMs band r = some ms ∧
      ms.toNat = band.lo + r.toNat % (band.hi - band.lo + 1) := by
    intro r
    have hval := delayMs_val hle (fun h => hfull (words_eq_fullBand_iff.1 h)) r
    rwa [hlo, hhi] at hval
  refine ⟨fun r => ?_, fun ms => ⟨?_, ?_⟩⟩
  · obtain ⟨ms, hms, -⟩ := hdraw r
    rw [hms]
    rfl
  · rintro ⟨r, hr⟩
    obtain ⟨ms', hms, hval⟩ := hdraw r
    obtain rfl := Option.some.inj (hms.symm.trans hr)
    have hmod : r.toNat % (band.hi - band.lo + 1) < band.hi - band.lo + 1 := Nat.mod_lt _ (Nat.succ_pos _)
    have hband := band.le
    omega
  · rintro ⟨h1, h2⟩
    -- the word that is as far from zero as the delay from its least
    obtain ⟨ms', hms, hval⟩ := hdraw (ms - band.words.1)
    have hge : band.words.1 ≤ ms := by
      rw [UInt64.le_iff_toNat_le, hlo]
      exact h1
    rw [UInt64.toNat_sub_of_le _ _ hge, hlo, Nat.mod_eq_of_lt (by omega)] at hval
    have heq : ms' = ms := by
      rw [← UInt64.toNat_inj]
      omega
    exact ⟨_, by rw [hms, heq]⟩

/-! ## Themes -/

/-- **A theme goes by its name**, in any letter case. -/
theorem parseTheme_ok_iff {s : Str} {t : ThemeData} :
    parseTheme s = .ok t ↔ t ∈ Theme.all ∧ t.name.toList = lower s := by
  have hnodup : ∀ t ∈ Theme.all, ∀ u ∈ Theme.all, t.name = u.name → t = u := by
    simp [Theme.all, genericTheme, ecommerceTheme, financeTheme, iotTheme, usersTheme]
  have hfind : Theme.byName s = some t ↔ t ∈ Theme.all ∧ t.name.toList = lower s := by
    unfold Theme.byName
    constructor
    · intro h
      exact ⟨List.mem_of_find?_eq_some h, by simpa using List.find?_some h⟩
    · rintro ⟨hmem, hname⟩
      cases hfound : Theme.all.find? fun t => decide (t.name.toList = lower s) with
      | none => exact absurd (List.find?_eq_none.1 hfound t hmem) (by simpa using hname)
      | some u =>
        have hu := List.find?_some hfound
        rw [decide_eq_true_eq, ← hname] at hu
        rw [hnodup u (List.mem_of_find?_eq_some hfound) t hmem (String.toList_injective hu)]
  rw [← hfind, parseTheme]
  cases Theme.byName s with
  | none => simp
  | some u => simp

/-! ## Defaults -/

/-- The options that are not given make the default configuration, but for the band of the delays,
from which nothing is drawn. -/
theorem default_config : Cli.default.config ⟨[]⟩ =
    { Config.default with ghosts := { Config.default.ghosts with latencyMs := (50, 500) } } := rfl

/-- Their texts are those of the options. -/
theorem default_texts : parseBand "5:20" = .ok Cli.default.rows ∧
    parseBand "50:500" = .ok Cli.default.ghostLatencyMs ∧ parseTheme "generic" = .ok Cli.default.theme := by
  have hdecimal : ∀ band : Band, ∀ s : Str, s = decimal band.lo ++ ':' :: decimal band.hi →
      parseBand s = .ok band := by
    rintro band s rfl
    exact parseBand_print band
  exact ⟨hdecimal _ _ (by decide), hdecimal _ _ (by decide),
    parseTheme_ok_iff.2 ⟨List.mem_cons_self, by decide⟩⟩

/-! ## Rows -/

open Pg (Crushed dataRows limited rowCount)

namespace Pg

variable {cfg : Config} {slot : Bool}

/-- The rows of a statement that is crushed. -/
theorem dataRows_alone_crushed {stmt : Str} (h : Crushed cfg slot (shapeOf stmt)) (os : C.Rng) :
    dataRows (alone cfg slot os stmt) = cfg.crush.maxRows := by
  obtain ⟨⟨sig, hcls⟩, hw, rfl⟩ := h
  unfold alone respondStatement
  simp only [extract_eq, Option.bind_eq_bind, Option.bind_some, hcls, hw, Bool.not_false, if_true,
    Option.pure_def, Option.map_some, Option.getD_some, all_flush_write, all_new, List.nil_append]
  rw [crushStream, dataRows_append, dataRows_streamRows]
  exact Nat.zero_add _

/-- The rows of any other `SELECT`. -/
theorem dataRows_alone_normal {stmt : Str} (hk : (shapeOf stmt).kind = .select)
    (h : ¬Crushed cfg slot (shapeOf stmt)) (os : C.Rng) : dataRows (alone cfg slot os stmt) =
      (rowCount (shapeOf stmt) cfg (seedRng cfg (Utf8.encode stmt) os)).1 := by
  obtain ⟨out, hout, hrows⟩ := dataRows_statement hk h os
  rw [alone, hout, ← hrows]
  rfl

end Pg

namespace MySql

/-- Whether a packet is a row. -/
def Packet.isRow : Packet → Bool
  | .row _ => true
  | _ => false

/-- The number of rows among some packets. -/
def rowsOf (ps : List Packet) : ℕ := ps.countP Packet.isRow

theorem rowsOf_resultSet (cols : List Resolved) (rows : List (List Str)) :
    rowsOf (resultSet cols rows) = rows.length := by
  have hdefs : (cols.map fun c => Packet.columnDef c.name c.wt).countP Packet.isRow = 0 := by
    rw [List.countP_eq_zero]
    intro p hp
    obtain ⟨c, -, rfl⟩ := List.mem_map.1 hp
    exact Bool.false_ne_true
  have hrows : (rows.map Packet.row).countP Packet.isRow = rows.length := by
    rw [List.countP_eq_length.2, List.length_map]
    intro p hp
    obtain ⟨r, -, rfl⟩ := List.mem_map.1 hp
    rfl
  have hheader : (resultHeader cols).countP Packet.isRow = 0 := by
    rw [resultHeader, List.cons_append, List.countP_cons_of_neg Bool.false_ne_true, List.countP_append, hdefs]
    rfl
  rw [rowsOf, resultSet, List.countP_append, List.countP_append, hheader, hrows, Nat.zero_add]
  rfl

variable {cfg : Config} {slot : Bool} {shape : ResultShape}

/-- The rows of a statement that is crushed. -/
theorem rowsOf_crushed (h : Crushed cfg slot shape) (os : C.Rng) (sql : Str) :
    rowsOf (selectResponse cfg slot os sql shape) = cfg.crush.maxRows := by
  obtain ⟨⟨sig, hcls⟩, hw, rfl⟩ := h
  unfold selectResponse
  simp only [hcls, hw, Bool.not_false, and_self, if_true]
  rw [crushStream_eq, rowsOf_resultSet, length_textRows]

/-- The rows of any other `SELECT`. -/
theorem rowsOf_normal (h : ¬Crushed cfg slot shape) (os : C.Rng) (sql : Str) :
    rowsOf (selectResponse cfg slot os sql shape) =
      (rowCount shape cfg (seedRng cfg (Utf8.encode sql) os)).1 := by
  have hnormal := rowsOf_resultSet (resolveCols shape cfg) (textRows (resolveCols shape cfg) cfg.genCtx
    (rowCount shape cfg (seedRng cfg (Utf8.encode sql) os)).1
    (rowCount shape cfg (seedRng cfg (Utf8.encode sql) os)).2)
  rw [← normalRows_eq, length_textRows] at hnormal
  unfold selectResponse
  dsimp only
  cases hcls : cfg.crushClass shape with
  | crush sig =>
    have hif : ¬((!cfg.crush.warnOnly) = true ∧ slot = true) := fun hif =>
      h ⟨⟨sig, hcls⟩, by simpa using hif.1, hif.2⟩
    dsimp only
    rw [if_neg hif, hnormal]
  | safe | warn => exact hnormal

end MySql

/-- **The rows that the options allow** to a `SELECT`: the length of a crush stream; nothing from a
catalog; one row without a table or of aggregates; else the band, as far as the statement's limit
reaches. -/
structure Cli.Allows (cli : Cli) (rules : Rules) (slot : Bool) (shape : ResultShape) (n : ℕ) : Prop where
  crushed : Crushed (cli.config rules) slot shape → n = cli.crushRows.toNat
  empty : ¬Crushed (cli.config rules) slot shape → shape.forceEmpty → n = 0
  single : ¬Crushed (cli.config rules) slot shape → ¬shape.forceEmpty →
    shape.aggregateOnly ∨ shape.tableHint = none → n = limited shape 1
  band : ¬Crushed (cli.config rules) slot shape → ¬shape.forceEmpty →
    ¬(shape.aggregateOnly ∨ shape.tableHint = none) →
      limited shape cli.rows.lo ≤ n ∧ n ≤ limited shape cli.rows.hi

variable {cli : Cli} {rules : Rules} {slot : Bool} {shape : ResultShape}

theorem limited_mono (shape : ResultShape) {m n : ℕ} (h : m ≤ n) : limited shape m ≤ limited shape n := by
  unfold limited
  cases shape.limit with
  | none => exact h
  | some l => exact min_le_min_right l h

/-- The rows of a normal answer. -/
theorem Cli.allows_rowCount (h : ¬Crushed (cli.config rules) slot shape) (rng : C.Rng) :
    cli.Allows rules slot shape (rowCount shape (cli.config rules) rng).1 := by
  have hcount := Pg.rowCount_fst shape (cli.config rules) rng
  refine ⟨fun hc => absurd hc h, fun _ hempty => ?_, fun _ hempty hsingle => ?_, fun _ hempty hsingle => ?_⟩
  · rw [hcount, Pg.rowBand, if_pos hempty, Draw.pure_apply, limited]
    cases shape.limit with
    | none => rfl
    | some l => exact Nat.zero_min l
  · rw [hcount, Pg.rowBand, if_neg hempty, if_pos hsingle, Draw.pure_apply]
  · -- the draw lies in the band
    have hmax : max ((cli.config rules).rowsMax : ℤ) (cli.config rules).rowsMin = cli.rows.hi := by
      refine max_eq_left ?_
      exact_mod_cast cli.rows.le
    have hdraw := C.rangeIncl_mem .usize (cli.rows.lo : ℤ) cli.rows.hi rng (by exact_mod_cast cli.rows.le)
    have hband : (Pg.rowBand shape (cli.config rules) rng).1 =
        (C.randomRangeIncl .usize (cli.rows.lo : ℤ) cli.rows.hi rng).1.toNat := by
      rw [Pg.rowBand, if_neg hempty, if_neg hsingle, Draw.map_apply, ← hmax]
      rfl
    rw [hcount, hband]
    exact ⟨limited_mono shape (by omega), limited_mono shape (by omega)⟩

/-- An answer from the crush stream. -/
theorem Cli.allows_crushed (h : Crushed (cli.config rules) slot shape) :
    cli.Allows rules slot shape (cli.config rules).crush.maxRows :=
  ⟨fun _ => rfl, fun hno => absurd h hno, fun hno => absurd h hno, fun hno => absurd h hno⟩

theorem allows_alone {stmt : Str} (hk : (shapeOf stmt).kind = .select) (os : C.Rng) :
    cli.Allows rules slot (shapeOf stmt) (dataRows (Pg.alone (cli.config rules) slot os stmt)) := by
  by_cases hc : Crushed (cli.config rules) slot (shapeOf stmt)
  · rw [Pg.dataRows_alone_crushed hc]
    exact Cli.allows_crushed hc
  · rw [Pg.dataRows_alone_normal hk hc]
    exact Cli.allows_rowCount hc _

theorem allows_executeSelect (os : C.Rng) (portal : Pg.Portal) {maxRows : ℤ} (hmax : maxRows ≤ 0) :
    cli.Allows rules slot shape
      (dataRows (Pg.executeSelect (cli.config rules) slot os portal maxRows shape .new).all) := by
  by_cases hc : Crushed (cli.config rules) slot shape
  · rw [Pg.dataRows_crushed hc]
    exact Cli.allows_crushed hc
  · rw [Pg.dataRows_normal hc, Pg.boundRows, if_neg (not_lt.2 hmax)]
    exact Cli.allows_rowCount hc _

theorem MySql.allows_selectResponse (os : C.Rng) (sql : Str) : cli.Allows rules slot shape
    (MySql.rowsOf (MySql.selectResponse (cli.config rules) slot os sql shape)) := by
  by_cases hc : Crushed (cli.config rules) slot shape
  · rw [MySql.rowsOf_crushed hc]
    exact Cli.allows_crushed hc
  · rw [MySql.rowsOf_normal hc]
    exact Cli.allows_rowCount hc _

end EtherealDb
