import EtherealDb.Proof.Fuzz
import EtherealDb.Proof.PgValue
import EtherealDb.Spec.Cli
import EtherealDb.Text.Json
import Mathlib.Tactic.Linarith
import Mathlib.Tactic.Ring

/-!
# The texts of values

* `Neat`: a text of printed characters only, of a bounded length.
* `generate_neat`: every generator writes a short text without control characters, when the words of
  the theme are such.
* `values_bounded`: **no value is long**, fuzzed or not.
* `json_reads`: **a generated document is JSON**: an object that a reader takes apart into the words
  and numbers that were drawn.
-/

namespace EtherealDb

open Str

variable {C : Crates}

/-! ## Neat texts -/

/-- A character that is printed as itself: no control character. -/
def isPrinted (c : Char) : Bool := 32 ≤ c.toNat && c.toNat != 127

/-- **A neat text**: printed characters, at most `n` bytes of them. -/
structure Neat (n : ℕ) (s : Str) : Prop where
  printed : s.all isPrinted
  len_le : len s ≤ n

instance (n : ℕ) (s : Str) : Decidable (Neat n s) :=
  decidable_of_iff (s.all isPrinted ∧ len s ≤ n) ⟨fun h => ⟨h.1, h.2⟩, fun h => ⟨h.1, h.2⟩⟩

theorem Neat.mono {m n : ℕ} {s : Str} (h : Neat m s) (hmn : m ≤ n) : Neat n s := ⟨h.1, h.2.trans hmn⟩

theorem Neat.append {m n : ℕ} {a b : Str} (ha : Neat m a) (hb : Neat n b) : Neat (m + n) (a ++ b) := by
  refine ⟨?_, ?_⟩
  · rw [List.all_append, ha.printed, hb.printed]
    rfl
  · rw [len_append]
    exact Nat.add_le_add ha.len_le hb.len_le

/-- A character in front. -/
theorem Neat.cons {n : ℕ} {c : Char} {s : Str} (hc : isPrinted c = true ∧ c.utf8Size = 1) (h : Neat n s) :
    Neat (1 + n) (c :: s) := by
  refine ⟨?_, ?_⟩
  · rw [List.all_cons, hc.1, h.printed]
    rfl
  · rw [len_cons, hc.2]
    exact Nat.add_le_add_left h.len_le 1

theorem neat_nil : Neat 0 [] := ⟨rfl, le_rfl⟩

/-- A text of ASCII letters has as many bytes as letters. -/
theorem neat_of_ascii {s : Str} (h : ∀ c ∈ s, isPrinted c = true ∧ c.utf8Size = 1) : Neat s.length s := by
  induction s with
  | nil => exact neat_nil
  | cons c s ih =>
    have hs := ih fun d hd => h d (List.mem_cons_of_mem c hd)
    exact (hs.cons (h c List.mem_cons_self)).mono (by rw [List.length_cons]; omega)

/-! ## Numbers -/

theorem ascii_digitChar {d : ℕ} (h : d < 16) :
    isPrinted (Nat.digitChar d) = true ∧ (Nat.digitChar d).utf8Size = 1 := by
  have hall : ∀ d < 16, isPrinted (Nat.digitChar d) = true ∧ (Nat.digitChar d).utf8Size = 1 := by decide
  exact hall d h

theorem ascii_toDigits {b : ℕ} (hb : 1 < b) (hb' : b ≤ 16) (n : ℕ) :
    ∀ c ∈ Nat.toDigits b n, isPrinted c = true ∧ c.utf8Size = 1 := by
  induction n using Nat.strongRecOn with
  | ind n ih =>
    intro c hc
    rw [Nat.toDigits_eq_if hb] at hc
    split_ifs at hc with hlt
    · obtain rfl := List.mem_singleton.1 hc
      exact ascii_digitChar (by omega)
    · rcases List.mem_append.1 hc with hc | hc
      · exact ih (n / b) (Nat.div_lt_self (by omega) hb) c hc
      · obtain rfl := List.mem_singleton.1 hc
        exact ascii_digitChar ((Nat.mod_lt n (by omega)).trans_le hb')

/-- **A number below a power of ten** has that many digits at most. -/
theorem neat_decimal {n k : ℕ} (hk : 0 < k) (h : n < 10 ^ k) : Neat k (decimal n) :=
  (neat_of_ascii (ascii_toDigits (by decide) (by decide) n)).mono
    ((Nat.length_toDigits_le_iff (by decide) hk).2 h)

theorem neat_padZero {w k : ℕ} {s : Str} (h : Neat k s) : Neat (w + k) (padZero w s) := by
  have hzeros : Neat w (List.replicate (w - s.length) '0') := by
    refine (neat_of_ascii ?_).mono (by rw [List.length_replicate]; omega)
    intro c hc
    rw [List.eq_of_mem_replicate hc]
    decide
  exact hzeros.append h

theorem neat_intText {x : ℤ} {k : ℕ} (hk : 0 < k) (h : x.natAbs < 10 ^ k) : Neat (1 + k) (intText x) := by
  unfold intText
  split_ifs
  · exact (neat_decimal hk h).cons (by decide)
  · exact (neat_decimal hk h).mono (by omega)

theorem neat_padInt {x : ℤ} {k : ℕ} (hk : 0 < k) (h : x.natAbs < 10 ^ k) (w : ℕ) :
    Neat (w + k + 1) (padInt w x) := by
  unfold padInt
  split_ifs
  · exact ((neat_padZero (w := w - 1) (neat_decimal hk h)).cons (by decide)).mono (by omega)
  · exact (neat_padZero (neat_decimal hk h)).mono (by omega)

/-- **A fixed number of decimals** of a number up to a power of ten. -/
theorem neat_fixedText {q : ℚ} {k : ℕ} (h : |q| ≤ 10 ^ k) (p : ℕ) : Neat (k + 2 * p + 4) (fixedText p q) := by
  have hnum : q.num.natAbs ≤ 10 ^ k * q.den := by
    have hmul : |q| * q.den = (q.num.natAbs : ℚ) := by
      rw [← Nat.abs_cast q.den, ← abs_mul, Rat.mul_den_eq_num, Nat.cast_natAbs, Int.cast_abs]
    have hle : (q.num.natAbs : ℚ) ≤ 10 ^ k * q.den := by
      rw [← hmul]
      exact mul_le_mul_of_nonneg_right h (Nat.cast_nonneg _)
    exact_mod_cast hle
  have hlo : q.num.natAbs * 10 ^ p / q.den ≤ 10 ^ k * 10 ^ p := by
    refine Nat.div_le_of_le_mul ?_
    calc q.num.natAbs * 10 ^ p ≤ 10 ^ k * q.den * 10 ^ p := Nat.mul_le_mul_right _ hnum
      _ = q.den * (10 ^ k * 10 ^ p) := by ring
  -- the rounded number has one unit more at most
  have hbody : ∀ n ≤ 10 ^ k * 10 ^ p + 1, Neat (k + 2 * p + 3)
      (decimal (n / 10 ^ p) ++ '.' :: padZero p (decimal (n % 10 ^ p))) := by
    intro n hn
    have hpos : 0 < 10 ^ p := Nat.pow_pos (by decide)
    have hint : n / 10 ^ p < 10 ^ (k + 1) := by
      refine (Nat.div_lt_iff_lt_mul hpos).2 (hn.trans_lt ?_)
      have hone : 1 ≤ 10 ^ k * 10 ^ p := Nat.mul_pos (Nat.pow_pos (by decide)) hpos
      rw [pow_succ]
      linarith
    have hfrac : n % 10 ^ p < 10 ^ (p + 1) :=
      (Nat.mod_lt n hpos).trans (Nat.pow_lt_pow_right (by decide) (Nat.lt_succ_self p))
    have hpad := neat_padZero (w := p) (neat_decimal (Nat.succ_pos p) hfrac)
    exact ((neat_decimal (Nat.succ_pos k) hint).append (hpad.cons (c := '.') (by decide))).mono (by omega)
  unfold fixedText
  dsimp only
  split_ifs
  · exact ((hbody _ (by omega)).cons (c := '-') (by decide)).mono (by omega)
  · exact ((hbody _ (by omega)).cons (c := '-') (by decide)).mono (by omega)
  · exact (hbody _ (by omega)).mono (by omega)
  · exact (hbody _ (by omega)).mono (by omega)

/-- A draw between powers of ten. -/
theorem natAbs_range {ty : IntTy} {lo hi : ℤ} (h : lo < hi) {k : ℕ} (hlo : -10 ^ k < lo) (hhi : hi ≤ 10 ^ k)
    (rng : C.Rng) : (C.randomRange ty lo hi rng).1.natAbs < 10 ^ k := by
  have hmem := C.range_mem ty lo hi rng h
  have hx : |(C.randomRange ty lo hi rng).1| < (10 : ℤ) ^ k := by
    rw [abs_lt]
    constructor
    · linarith
    · linarith
  rw [Int.abs_eq_natAbs] at hx
  exact_mod_cast hx

theorem neat_drawInt {ty : IntTy} {lo hi : ℤ} (h : lo < hi) {k : ℕ} (hk : 0 < k) (hlo : -10 ^ k < lo)
    (hhi : hi ≤ 10 ^ k) (rng : C.Rng) : Neat (1 + k) (drawInt ty lo hi rng).1 :=
  neat_intText hk (natAbs_range h hlo hhi rng)

/-- A number of `w` digits, drawn. -/
theorem neat_padRange {ty : IntTy} {lo hi : ℤ} (h : lo < hi) (w : ℕ) (hw : 0 < w) (hlo : 0 ≤ lo)
    (hhi : hi ≤ 10 ^ w) (rng : C.Rng) : Neat (w + w + 1) (padInt w (C.randomRange ty lo hi rng).1) := by
  have hpos : (0 : ℤ) < 10 ^ w := by positivity
  exact neat_padInt hw (natAbs_range h (by linarith) hhi rng) w

/-! ## Words -/

/-- What is picked from a pool is a word of it, or nothing. -/
theorem neat_pick {pool : List String} {n : ℕ} (h : ∀ w ∈ pool, Neat n w.toList) (rng : C.Rng) :
    Neat n (pick pool rng).1 := by
  rcases pick_mem pool rng with hnil | ⟨w, hw, heq⟩
  · rw [hnil]
    exact neat_nil.mono (Nat.zero_le n)
  · rw [heq]
    exact h w hw

/-- A word of a pool in lowercase. -/
theorem neat_lower_pick {pool : List String} {n : ℕ} (h : ∀ w ∈ pool, Neat n (lower w.toList)) (rng : C.Rng) :
    Neat n (lower (pick pool rng).1) := by
  rcases pick_mem pool rng with hnil | ⟨w, hw, heq⟩
  · rw [hnil]
    exact neat_nil.mono (Nat.zero_le n)
  · rw [heq]
    exact h w hw

/-- The pools that two generators or more draw from. -/
theorem neat_pools : (∀ w ∈ firstNames, Neat 16 w.toList ∧ Neat 16 (lower w.toList)) ∧
    (∀ w ∈ lastNames, Neat 16 w.toList ∧ Neat 16 (lower w.toList)) ∧
    (∀ w ∈ domains, Neat 16 w.toList) ∧ ∀ w ∈ words, Neat 16 w.toList := by decide +kernel

/-- **The words of a theme are short and printed.** -/
structure ThemeData.Neat (theme : ThemeData) : Prop where
  statuses : ∀ w ∈ theme.statuses, EtherealDb.Neat 32 w.toList
  kinds : ∀ w ∈ theme.kinds, EtherealDb.Neat 32 w.toList
  nouns : ∀ w ∈ theme.nouns, EtherealDb.Neat 32 w.toList

/-- The themes that the command line knows. -/
theorem neat_themes : ∀ theme ∈ Theme.all, theme.Neat := by
  have hall : ∀ theme ∈ Theme.all, ∀ w ∈ theme.statuses ++ theme.kinds ++ theme.nouns,
      Neat 32 w.toList := by
    simp only [Theme.all, List.forall_mem_cons]
    decide +kernel
  intro theme h
  refine ⟨fun w hw => hall theme h w ?_, fun w hw => hall theme h w ?_, fun w hw => hall theme h w ?_⟩
  · simp [hw]
  · simp [hw]
  · simp [hw]

theorem generic_mem : genericTheme ∈ Theme.all := List.mem_cons_self

variable {theme : ThemeData}

theorem neat_themedWord (h : theme.Neat) (rng : C.Rng) : Neat 32 (themedWord theme rng).1 := by
  have hwords : ∀ rng : C.Rng, Neat 32 (pick words rng).1 := fun rng =>
    (neat_pick neat_pools.2.2.2 rng).mono (by decide)
  unfold themedWord
  split_ifs
  · rw [Draw.bind_apply]
    split_ifs
    · exact neat_pick h.nouns _
    · exact hwords _
  · exact hwords rng

theorem neat_loremWords (h : theme.Neat) (n : ℕ) (first : Bool) (rng : C.Rng) :
    Neat (n * 33) (loremWords theme n first rng).1 := by
  induction n generalizing first rng with
  | zero => exact neat_nil
  | succ n ih =>
    let w := themedWord theme rng
    have hrest := ih false w.2
    have hw : Neat 32 w.1 := neat_themedWord h rng
    have hstep : (loremWords theme (n + 1) first rng).1 =
        (if first then w.1 else ' ' :: w.1) ++ (loremWords theme n false w.2).1 := rfl
    rw [hstep]
    cases first with
    | true => exact (hw.append hrest).mono (by omega)
    | false => exact ((hw.cons (c := ' ') (by decide)).append hrest).mono (by omega)

theorem ascii_iff (c : Char) : c.utf8Size = 1 ↔ c.toNat ≤ 127 := by
  rw [Char.utf8Size_eq_one_iff, UInt32.le_iff_toNat_le]
  rfl

theorem isPrinted_iff (c : Char) : isPrinted c = true ↔ 32 ≤ c.toNat ∧ c.toNat ≠ 127 := by
  simp [isPrinted]

/-- The first letter of a sentence is as neat as it was. -/
theorem neat_capital {n : ℕ} {c : Char} {s : Str} (h : Neat n (c :: s)) :
    Neat n ((if c.utf8Size = 1 then c.toUpper else c) :: s) := by
  by_cases hone : c.utf8Size = 1
  · rw [if_pos hone]
    obtain ⟨hprinted, hlen⟩ := h
    rw [List.all_cons, Bool.and_eq_true, isPrinted_iff] at hprinted
    have hascii := (ascii_iff c).1 hone
    have hupper := toNat_toUpper c
    refine ⟨?_, ?_⟩
    · rw [List.all_cons, Bool.and_eq_true, isPrinted_iff]
      refine ⟨?_, hprinted.2⟩
      split_ifs at hupper <;> omega
    · have hsize : c.toUpper.utf8Size = 1 := by
        rw [ascii_iff]
        split_ifs at hupper <;> omega
      rw [len_cons, hsize, ← hone]
      exact hlen
  · rw [if_neg hone]
    exact h

theorem neat_lorem (h : theme.Neat) (n : ℕ) (rng : C.Rng) : Neat (n * 33) (lorem theme n rng).1 := by
  have hwords := neat_loremWords h n true rng
  unfold lorem
  rw [Draw.bind_apply]
  cases hs : (loremWords theme n true rng).1 with
  | nil => exact neat_nil.mono (Nat.zero_le _)
  | cons c s =>
    rw [hs] at hwords
    exact neat_capital hwords

/-- Letters of an alphabet. -/
theorem neat_letters {alphabet : List Char} (h : alphabet.all fun c => isPrinted c && c.utf8Size == 1)
    (n : ℕ) (rng : C.Rng) : Neat n (letters alphabet n rng).1 := by
  induction n generalizing rng with
  | zero => exact neat_nil
  | succ n ih =>
    let i := C.randomRange .usize 0 alphabet.length rng
    have hstep : (letters alphabet (n + 1) rng).1 =
        alphabet[i.1.toNat]?.getD '?' :: (letters alphabet n i.2).1 := rfl
    have hletter : isPrinted (alphabet[i.1.toNat]?.getD '?') = true ∧
        (alphabet[i.1.toNat]?.getD '?').utf8Size = 1 := by
      cases hget : alphabet[i.1.toNat]? with
      | none => decide
      | some c => simpa using List.all_eq_true.1 h c (List.mem_of_getElem? hget)
    rw [hstep, Nat.add_comm]
    exact (ih i.2).cons hletter

/-! ## Generators -/

theorem neat_email (rng : C.Rng) : Neat 64 (drawEmail rng).1 := by
  let f := pick firstNames rng
  let l := pick lastNames f.2
  let d := pick domains l.2
  have hf : Neat 16 (lower f.1) := neat_lower_pick (fun w hw => (neat_pools.1 w hw).2) rng
  have hl : Neat 16 (lower l.1) := neat_lower_pick (fun w hw => (neat_pools.2.1 w hw).2) f.2
  have hd : Neat 16 d.1 := neat_pick neat_pools.2.2.1 l.2
  have hdraw : (drawEmail rng).1 = lower f.1 ++ '.' :: lower l.1 ++ '@' :: d.1 := rfl
  rw [hdraw]
  exact ((hf.append (hl.cons (by decide))).append (hd.cons (by decide))).mono (by decide)

theorem neat_phone (rng : C.Rng) : Neat 64 (drawPhone rng).1 := by
  let a := drawInt .i32 200 990 rng
  let b := drawInt .i32 200 990 a.2
  let c := C.randomRange .i32 0 10000 b.2
  have ha : Neat 4 a.1 := neat_drawInt (by decide) (k := 3) (by decide) (by decide) (by decide) rng
  have hb : Neat 4 b.1 := neat_drawInt (by decide) (k := 3) (by decide) (by decide) (by decide) a.2
  have hc : Neat 9 (padInt 4 c.1) := neat_padRange (by decide) 4 (by decide) (by decide) (by decide) b.2
  have hopen : Neat 4 "+1 (".toList := by decide
  have hclose : Neat 2 ") ".toList := by decide
  have hdraw : (drawPhone rng).1 = "+1 (".toList ++ a.1 ++ ") ".toList ++ b.1 ++ '-' :: padInt 4 c.1 := rfl
  rw [hdraw]
  exact ((((hopen.append ha).append hclose).append hb).append (hc.cons (by decide))).mono (by decide)

theorem neat_url (rng : C.Rng) : Neat 64 (drawUrl rng).1 := by
  let d := pick domains rng
  let v := pick words d.2
  let w := pick words v.2
  have hd : Neat 16 d.1 := neat_pick neat_pools.2.2.1 rng
  have hv : Neat 16 v.1 := neat_pick neat_pools.2.2.2 d.2
  have hw : Neat 16 w.1 := neat_pick neat_pools.2.2.2 v.2
  have hscheme : Neat 8 "https://".toList := by decide
  have hdraw : (drawUrl rng).1 = "https://".toList ++ d.1 ++ '/' :: v.1 ++ '-' :: w.1 := rfl
  rw [hdraw]
  exact (((hscheme.append hd).append (hv.cons (by decide))).append (hw.cons (by decide))).mono (by decide)

/-- A number of three digits at most. -/
theorem neat_small {ty : IntTy} {lo hi : ℤ} (h : lo < hi) (hlo : 0 ≤ lo) (hhi : hi ≤ 1000) (rng : C.Rng) :
    Neat 4 (drawInt ty lo hi rng).1 :=
  neat_drawInt h (k := 3) (by decide) (by omega) (by omega) rng

theorem neat_ip (rng : C.Rng) : Neat 64 (drawIp rng).1 := by
  let a := drawInt .i32 1 240 rng
  let b := drawInt .i32 0 256 a.2
  let c := drawInt .i32 0 256 b.2
  let d := drawInt .i32 1 255 c.2
  have ha : Neat 4 a.1 := neat_small (by decide) (by decide) (by decide) rng
  have hb : Neat 4 b.1 := neat_small (by decide) (by decide) (by decide) a.2
  have hc : Neat 4 c.1 := neat_small (by decide) (by decide) (by decide) b.2
  have hd : Neat 4 d.1 := neat_small (by decide) (by decide) (by decide) c.2
  have hdraw : (drawIp rng).1 = a.1 ++ '.' :: b.1 ++ '.' :: c.1 ++ '.' :: d.1 := rfl
  rw [hdraw]
  exact (((ha.append (hb.cons (by decide))).append (hc.cons (by decide))).append
    (hd.cons (by decide))).mono (by decide)

theorem neat_fullName (rng : C.Rng) : Neat 64 (drawFullName rng).1 := by
  let f := pick firstNames rng
  have hf : Neat 16 f.1 := neat_pick (fun w hw => (neat_pools.1 w hw).1) rng
  have hl : Neat 16 (pick lastNames f.2).1 := neat_pick (fun w hw => (neat_pools.2.1 w hw).1) f.2
  have hdraw : (drawFullName rng).1 = f.1 ++ ' ' :: (pick lastNames f.2).1 := rfl
  rw [hdraw]
  exact (hf.append (hl.cons (by decide))).mono (by decide)

theorem neat_username (rng : C.Rng) : Neat 64 (drawUsername rng).1 := by
  let f := pick firstNames rng
  have hf : Neat 16 (lower f.1) := neat_lower_pick (fun w hw => (neat_pools.1 w hw).2) rng
  have hn : Neat 4 (drawInt .i32 1 100 f.2).1 := neat_small (by decide) (by decide) (by decide) f.2
  have hdraw : (drawUsername rng).1 = lower f.1 ++ (drawInt .i32 1 100 f.2).1 := rfl
  rw [hdraw]
  exact (hf.append hn).mono (by decide)

theorem neat_company (rng : C.Rng) : Neat 64 (drawCompany rng).1 := by
  let a := pick companyStems rng
  have ha : Neat 16 a.1 := neat_pick (by decide +kernel) rng
  have hb : Neat 16 (pick companySuffixes a.2).1 := neat_pick (by decide +kernel) a.2
  have hdraw : (drawCompany rng).1 = a.1 ++ ' ' :: (pick companySuffixes a.2).1 := rfl
  rw [hdraw]
  exact (ha.append (hb.cons (by decide))).mono (by decide)

theorem neat_streetAddress (rng : C.Rng) : Neat 64 (drawStreetAddress rng).1 := by
  let n := drawInt .i32 1 9999 rng
  let a := pick streetNames n.2
  have hn : Neat 5 n.1 := neat_drawInt (by decide) (k := 4) (by decide) (by decide) (by decide) rng
  have ha : Neat 16 a.1 := neat_pick (by decide +kernel) n.2
  have hb : Neat 16 (pick streetTypes a.2).1 := neat_pick (by decide +kernel) a.2
  have hdraw : (drawStreetAddress rng).1 = n.1 ++ ' ' :: a.1 ++ ' ' :: (pick streetTypes a.2).1 := rfl
  rw [hdraw]
  exact ((hn.append (ha.cons (by decide))).append (hb.cons (by decide))).mono (by decide)

theorem neat_slug (h : theme.Neat) (rng : C.Rng) : Neat 128 (drawSlug theme rng).1 := by
  let a := themedWord theme rng
  let b := themedWord theme a.2
  have ha : Neat 32 a.1 := neat_themedWord h rng
  have hb : Neat 32 b.1 := neat_themedWord h a.2
  have hn : Neat 5 (drawInt .i32 100 9999 b.2).1 :=
    neat_drawInt (by decide) (k := 4) (by decide) (by decide) (by decide) b.2
  have hdraw : (drawSlug theme rng).1 = a.1 ++ '-' :: b.1 ++ '-' :: (drawInt .i32 100 9999 b.2).1 := rfl
  rw [hdraw]
  exact ((ha.append (hb.cons (by decide))).append (hn.cons (by decide))).mono (by decide)

theorem neat_json (h : theme.Neat) (rng : C.Rng) : Neat 128 (drawJson theme rng).1 := by
  let k := themedWord theme rng
  let v := themedWord theme k.2
  let n := drawInt .i32 0 100 v.2
  let b := C.randomBool (1 / 2) n.2
  have hk : Neat 32 k.1 := neat_themedWord h rng
  have hv : Neat 32 v.1 := neat_themedWord h k.2
  have hn : Neat 4 n.1 := neat_small (by decide) (by decide) (by decide) v.2
  have hb : Neat 5 (if b.1 then "true" else "false").toList := by split_ifs <;> decide
  have hopen : Neat 2 "\x7b\"".toList := by decide
  have hcolon : Neat 4 "\": \"".toList := by decide
  have hcount : Neat 12 "\", \"count\": ".toList := by decide
  have hactive : Neat 12 ", \"active\": ".toList := by decide
  have hclose : Neat 1 "\x7d".toList := by decide
  have hdraw : (drawJson theme rng).1 = "\x7b\"".toList ++ k.1 ++ "\": \"".toList ++ v.1 ++
      "\", \"count\": ".toList ++ n.1 ++ ", \"active\": ".toList ++
      (if b.1 then "true" else "false").toList ++ "\x7d".toList := rfl
  rw [hdraw]
  exact ((((((((hopen.append hk).append hcolon).append hv).append hcount).append hn).append hactive).append
    hb).append hclose).mono (by decide)

theorem neat_creditCard (rng : C.Rng) : Neat 64 (drawCreditCard rng).1 := by
  let a := C.randomRange .i32 0 1000 rng
  let b := C.randomRange .i32 0 10000 a.2
  let c := C.randomRange .i32 0 10000 b.2
  let d := C.randomRange .i32 0 10000 c.2
  have ha : Neat 7 (padInt 3 a.1) := neat_padRange (by decide) 3 (by decide) (by decide) (by decide) rng
  have hb : Neat 9 (padInt 4 b.1) := neat_padRange (by decide) 4 (by decide) (by decide) (by decide) a.2
  have hc : Neat 9 (padInt 4 c.1) := neat_padRange (by decide) 4 (by decide) (by decide) (by decide) b.2
  have hd : Neat 9 (padInt 4 d.1) := neat_padRange (by decide) 4 (by decide) (by decide) (by decide) c.2
  have hdraw : (drawCreditCard rng).1 =
      '4' :: padInt 3 a.1 ++ ' ' :: padInt 4 b.1 ++ ' ' :: padInt 4 c.1 ++ ' ' :: padInt 4 d.1 := rfl
  rw [hdraw]
  exact ((((ha.cons (by decide)).append (hb.cons (by decide))).append (hc.cons (by decide))).append
    (hd.cons (by decide))).mono (by decide)

theorem neat_version (rng : C.Rng) : Neat 64 (drawVersion rng).1 := by
  let a := drawInt .i32 0 10 rng
  let b := drawInt .i32 0 20 a.2
  have ha : Neat 4 a.1 := neat_small (by decide) (by decide) (by decide) rng
  have hb : Neat 4 b.1 := neat_small (by decide) (by decide) (by decide) a.2
  have hc : Neat 4 (drawInt .i32 0 30 b.2).1 := neat_small (by decide) (by decide) (by decide) b.2
  have hdraw : (drawVersion rng).1 = a.1 ++ '.' :: b.1 ++ '.' :: (drawInt .i32 0 30 b.2).1 := rfl
  rw [hdraw]
  exact ((ha.append (hb.cons (by decide))).append (hc.cons (by decide))).mono (by decide)

section Instants

open Calendar (Date Time monthLength_mem)
open Pg (dateText timeText hyphenated hexText)

theorem neat_dateText {d : Date} (h : 0 ≤ d.year ∧ d.year ≤ 9999) : Neat 32 (dateText d) := by
  have hmonth := d.month_mem
  have hday := d.day_mem
  have hlength := monthLength_mem d.year d.month
  have hy : Neat 9 (padInt 4 d.year) := neat_padInt (k := 4) (by decide) (by omega) 4
  have hm : Neat 4 (padZero 2 (decimal d.month)) := neat_padZero (neat_decimal (k := 2) (by decide) (by omega))
  have hd : Neat 4 (padZero 2 (decimal d.day)) := neat_padZero (neat_decimal (k := 2) (by decide) (by omega))
  exact (hy.append ((hm.append (hd.cons (by decide))).cons (by decide))).mono (by decide)

theorem neat_timeText (t : Time) : Neat 32 (timeText t) := by
  have hhour := t.hour_lt
  have hminute := t.minute_lt
  have hsecond := t.second_lt
  have hh : Neat 4 (padZero 2 (decimal t.hour)) := neat_padZero (neat_decimal (k := 2) (by decide) (by omega))
  have hm : Neat 4 (padZero 2 (decimal t.minute)) := neat_padZero (neat_decimal (k := 2) (by decide) (by omega))
  have hs : Neat 4 (padZero 2 (decimal t.second)) := neat_padZero (neat_decimal (k := 2) (by decide) (by omega))
  exact (hh.append ((hm.append (hs.cons (by decide))).cons (by decide))).mono (by decide)

theorem neat_hexText {bs : Bytes} {n : ℕ} (h : bs.length ≤ n) : Neat (2 * n) (hexText bs) := by
  have hlen : (hexText bs).length = 2 * bs.length := by
    unfold hexText
    induction bs with
    | nil => rfl
    | cons b bs ih =>
      have hbs := ih (by rw [List.length_cons] at h; omega)
      rw [List.flatMap_cons, List.length_append, hbs, List.length_cons, List.length_cons, List.length_cons,
        List.length_nil]
      omega
  have hascii : ∀ c ∈ hexText bs, isPrinted c = true ∧ c.utf8Size = 1 := by
    intro c hc
    obtain ⟨b, -, hb⟩ := List.mem_flatMap.1 hc
    have hlt := b.toNat_lt
    rcases List.mem_pair.1 hb with rfl | rfl
    · exact ascii_digitChar (by omega)
    · exact ascii_digitChar (by omega)
  exact (neat_of_ascii hascii).mono (by omega)

theorem neat_hyphenated {v : Bytes} (h : v.length = 16) : Neat 64 (hyphenated v) := by
  have ha : Neat 8 (hexText (v.take 4)) := neat_hexText (n := 4) (List.length_take_le _ _)
  have hb : Neat 4 (hexText ((v.drop 4).take 2)) := neat_hexText (n := 2) (List.length_take_le _ _)
  have hc : Neat 4 (hexText ((v.drop 6).take 2)) := neat_hexText (n := 2) (List.length_take_le _ _)
  have hd : Neat 4 (hexText ((v.drop 8).take 2)) := neat_hexText (n := 2) (List.length_take_le _ _)
  have he : Neat 12 (hexText (v.drop 10)) := neat_hexText (n := 6) (by simp [h])
  exact (ha.append ((hb.append ((hc.append ((hd.append (he.cons (by decide))).cons (by decide))).cons
    (by decide))).cons (by decide))).mono (by decide)

end Instants

/-- Decimals of a draw between powers of ten. -/
theorem neat_drawF64 {lo hi : ℚ} (h : lo < hi) {k : ℕ} (hlo : -10 ^ k ≤ lo) (hhi : hi ≤ 10 ^ k) (p : ℕ)
    (rng : C.Rng) : Neat (k + 2 * p + 4) (fixedText p (C.randomF64 lo hi rng).1) := by
  have hmem := C.f64_mem lo hi rng h
  refine neat_fixedText ?_ p
  rw [abs_le]
  constructor
  · linarith
  · linarith

/-- Every generator writes a short text without control characters, when the words of the theme are
short and printed. -/
theorem generate_neat (hfill : ∀ rng, (C.fill16 rng).1.length = 16)
    (huuid : ∀ b : Bytes, b.length = 16 → ∃ v : Bytes, v.length = 16 ∧ C.uuidText b = Pg.hyphenated v)
    (h : theme.Neat) (st : SemanticType) (rng : C.Rng) : Neat 1024 (generate st theme rng).1 := by
  obtain ⟨⟨d, hyear, hdate⟩, t, htime⟩ :=
    Pg.epoch_texts (Pg.randomEpoch_mem rng).1 (Pg.randomEpoch_mem rng).2
  have hd : Neat 32 (fmtDate (randomEpoch rng).1) := hdate ▸ neat_dateText hyear
  have ht : Neat 32 (fmtTime (randomEpoch rng).1) := htime ▸ neat_timeText t
  have hpool : ∀ {pool : List String} (rng : C.Rng), (∀ w ∈ pool, Neat 256 w.toList) →
      Neat 1024 (pick pool rng).1 := fun rng hpool => (neat_pick hpool rng).mono (by decide)
  cases st with
  | idInt | fkInt | intSmall | intBig =>
    exact (neat_drawInt (by decide) (k := 7) (by decide) (by decide) (by decide) rng).mono (by decide)
  | fileSize =>
    exact (neat_drawInt (by decide) (k := 10) (by decide) (by decide) (by decide) rng).mono (by decide)
  | idUuid =>
    obtain ⟨v, hlen, htext⟩ := huuid _ (hfill rng)
    have hgen : (generate .idUuid theme rng).1 = Pg.hyphenated v := htext
    rw [hgen]
    exact (neat_hyphenated hlen).mono (by decide)
  | bool =>
    rcases generate_bool theme rng with hb | hb
    · rw [hb]
      decide
    · rw [hb]
      decide
  | float => exact (neat_drawF64 (by norm_num) (k := 3) (by norm_num) (by norm_num) 2 rng).mono (by decide)
  | money => exact (neat_drawF64 (by norm_num) (k := 4) (by norm_num) (by norm_num) 2 rng).mono (by decide)
  | percent => exact (neat_drawF64 (by norm_num) (k := 2) (by norm_num) (by norm_num) 2 rng).mono (by decide)
  | lat => exact (neat_drawF64 (by norm_num) (k := 2) (by norm_num) (by norm_num) 6 rng).mono (by decide)
  | lng => exact (neat_drawF64 (by norm_num) (k := 3) (by norm_num) (by norm_num) 6 rng).mono (by decide)
  | date => exact hd.mono (by decide)
  | time => exact ht.mono (by decide)
  | timestamp => exact (hd.append (ht.cons (c := ' ') (by decide))).mono (by decide)
  | email => exact (neat_email rng).mono (by decide)
  | phone => exact (neat_phone rng).mono (by decide)
  | url => exact (neat_url rng).mono (by decide)
  | ip => exact (neat_ip rng).mono (by decide)
  | firstName | lastName | city | country | countryCode | color | currencyCode | languageCode | mimeType
  | userAgent => exact hpool rng (by decide +kernel)
  | fullName => exact (neat_fullName rng).mono (by decide)
  | username => exact (neat_username rng).mono (by decide)
  | company => exact (neat_company rng).mono (by decide)
  | streetAddress => exact (neat_streetAddress rng).mono (by decide)
  | zipcode => exact (neat_padRange (by decide) 5 (by decide) (by decide) (by decide) rng).mono (by decide)
  | hexColor =>
    let n := C.randomRange .u32 0 0x1000000 rng
    have hmem : 0 ≤ n.1 ∧ n.1 < 0x1000000 := C.range_mem .u32 0 0x1000000 rng (by decide)
    have hlen : (Nat.toDigits 16 n.1.toNat).length ≤ 6 :=
      (Nat.length_toDigits_le_iff (by decide) (by decide)).2 (by omega)
    have hdigits := (neat_of_ascii (ascii_toDigits (by decide) (by decide) n.1.toNat)).mono hlen
    exact ((neat_padZero (w := 6) hdigits).cons (c := '#') (by decide)).mono (by decide)
  | statusEnum => exact (neat_pick h.statuses rng).mono (by decide)
  | kindEnum => exact (neat_pick h.kinds rng).mono (by decide)
  | slug => exact (neat_slug h rng).mono (by decide)
  | passwordHash =>
    have hletters : Neat 53 (letters hashChars 53 rng).1 := neat_letters (by decide +kernel) 53 rng
    have hcost : Neat 7 "$2b$12$".toList := by decide
    exact (hcost.append hletters).mono (by decide)
  | json => exact (neat_json h rng).mono (by decide)
  | loremShort =>
    let n := C.randomRangeIncl .i32 2 4 rng
    have hmem : 2 ≤ n.1 ∧ n.1 ≤ 4 := C.rangeIncl_mem .i32 2 4 rng (by decide)
    exact (neat_lorem h n.1.toNat n.2).mono (by omega)
  | loremLong =>
    let n := C.randomRangeIncl .i32 8 16 rng
    have hmem : 8 ≤ n.1 ∧ n.1 ≤ 16 := C.rangeIncl_mem .i32 8 16 rng (by decide)
    exact ((neat_lorem h n.1.toNat n.2).append (neat_nil.cons (c := '.') (by decide))).mono (by omega)
  | creditCard => exact (neat_creditCard rng).mono (by decide)
  | shortCode => exact (neat_letters (by decide +kernel) 8 rng).mono (by decide)
  | version => exact (neat_version rng).mono (by decide)

/-- The identifier that the least draws spell. -/
theorem least_uuid : Crates.least.uuidText [0, 0, 0, 0, 0, 0, 0, 0, 0, 0, 0, 0, 0, 0, 0, 0] =
    Pg.hyphenated [0, 0, 0, 0, 0, 0, 0x40, 0, 0x80, 0, 0, 0, 0, 0, 0, 0] := by decide

/-! ## Fuzzed values -/

theorem len_replicate_A (n : ℕ) : len (List.replicate n 'A') = n := by
  induction n with
  | zero => rfl
  | succ n ih =>
    rw [List.replicate_succ, len_cons, ih]
    exact Nat.add_comm _ _

/-- The longest pathological value is the run of letters. -/
theorem len_fuzzValue (wt : WireType) (rng : C.Rng) : len (fuzzValue wt rng).1 < 16384 := by
  have hpool : ∀ {pool : List String} (rng : C.Rng), (∀ w ∈ pool, len w.toList < 16384) →
      len (pick pool rng).1 < 16384 := by
    intro pool rng hall
    rcases pick_mem pool rng with hnil | ⟨w, hw, heq⟩
    · rw [hnil]
      decide
    · rw [heq]
      exact hall w hw
  unfold fuzzValue
  rw [Draw.bind_apply]
  split_ifs
  · let n := C.randomRange .usize 4096 16384 (C.randomBool (15 / 100) rng).2
    have hmem : 4096 ≤ n.1 ∧ n.1 < 16384 := C.range_mem .usize 4096 16384 _ (by decide)
    have hlong : len (List.replicate n.1.toNat 'A') < 16384 := by
      rw [len_replicate_A]
      omega
    exact hlong
  · cases wt with
    | bool | int4 | int8 | float8 | numeric | date | time | timestamp | uuid | text | json =>
      exact hpool _ (by decide +kernel)

/-- A value that no pathological one replaces is generated. -/
theorem genValue_plain {g : Gen} {rng : C.Rng} (h : ¬g.Fuzzes rng) (st : SemanticType) (wt : WireType) :
    ∃ rng' : C.Rng, (genValue st wt g rng).1 = (generate st g.theme rng').1 := by
  unfold genValue
  split_ifs with hpos
  · rw [Draw.bind_apply, if_neg fun hhit => h ⟨hpos, hhit⟩]
    exact ⟨_, rfl⟩
  · exact ⟨rng, rfl⟩

section Bounds

variable (hfill : ∀ rng, (C.fill16 rng).1.length = 16)
  (huuid : ∀ b : Bytes, b.length = 16 → ∃ v : Bytes, v.length = 16 ∧ C.uuidText b = Pg.hyphenated v)
  {g : Gen} (h : g.theme.Neat)

include hfill huuid h

theorem genValue_neat {rng : C.Rng} (hplain : ¬g.Fuzzes rng) (st : SemanticType) (wt : WireType) :
    Neat 1024 (genValue st wt g rng).1 := by
  obtain ⟨rng', heq⟩ := genValue_plain hplain st wt
  rw [heq]
  exact generate_neat hfill huuid h st rng'

theorem len_genValue (st : SemanticType) (wt : WireType) (rng : C.Rng) :
    len (genValue st wt g rng).1 < 16384 := by
  by_cases hfuzz : g.Fuzzes rng
  · rw [genValue_fuzzes hfuzz]
    exact len_fuzzValue wt _
  · exact (genValue_neat hfill huuid h hfuzz st wt).len_le.trans_lt (by decide)

/-- **No value is long**: a pathological one is shorter than 16 KiB, and any other has 1024 bytes at
most, none of them of a control character. -/
theorem values_bounded (st : SemanticType) (wt : WireType) (rng : C.Rng) :
    len (genValue st wt g rng).1 < 16384 ∧ (¬g.Fuzzes rng → Neat 1024 (genValue st wt g rng).1) :=
  ⟨len_genValue hfill huuid h st wt rng, fun hplain => genValue_neat hfill huuid h hplain st wt⟩

end Bounds

/-- A long text and a document, of a server that fuzzes half of its values. -/
theorem values_bounded_half : ¬Gen.Fuzzes (C := .least) ⟨genericTheme, 1 / 2⟩ () ∧
    Neat 1024 (genValue (C := .least) .loremLong .text ⟨genericTheme, 1 / 2⟩ ()).1 ∧
    len (genValue (C := .least) .json .json ⟨genericTheme, 1 / 2⟩ ()).1 < 16384 := by
  have hplain : ¬Gen.Fuzzes (C := .least) ⟨genericTheme, 1 / 2⟩ () := fun h => Bool.false_ne_true h.2
  have hbounded := values_bounded (C := .least) (fun _ => rfl) (fun _ _ => ⟨_, rfl, least_uuid⟩)
    (g := ⟨genericTheme, 1 / 2⟩) (neat_themes genericTheme generic_mem)
  exact ⟨hplain, (hbounded .loremLong .text ()).2 hplain, (hbounded .json .json ()).1⟩

/-! ## Documents -/

/-- The words of the themes need no escape. -/
theorem nouns_unescaped : ∀ theme ∈ Theme.all, ∀ w ∈ theme.nouns ++ words,
    w.toList.flatMap Json.escape = w.toList := by
  simp only [Theme.all, List.forall_mem_cons]
  decide +kernel

/-- A themed word is a noun of the theme or a neutral word. -/
theorem themedWord_mem (theme : ThemeData) (rng : C.Rng) :
    ∃ w ∈ theme.nouns ++ words, (themedWord theme rng).1 = w.toList := by
  have hneutral : words ≠ [] := by decide
  have hwords : ∀ rng : C.Rng, ∃ w ∈ theme.nouns ++ words, (pick words rng).1 = w.toList := by
    intro rng
    obtain ⟨w, hw, heq⟩ := pick_text hneutral rng
    exact ⟨w, List.mem_append_right _ hw, heq⟩
  unfold themedWord
  split_ifs with hnouns
  · rw [Draw.bind_apply]
    split_ifs
    · obtain ⟨w, hw, heq⟩ := pick_text hnouns (C.randomBool (45 / 100) rng).2
      exact ⟨w, List.mem_append_left _ hw, heq⟩
    · exact hwords _
  · exact hwords rng

/-- **A generated document is JSON**: a reader finds a word of the theme under a word of the theme, a
count below a hundred and a flag, and nothing else. -/
theorem json_reads {theme : ThemeData} (h : theme ∈ Theme.all) (rng : C.Rng) :
    ∃ key ∈ theme.nouns ++ words, ∃ value ∈ theme.nouns ++ words, ∃ (n : ℤ) (b : Bool), 0 ≤ n ∧ n < 100 ∧
      Json.read (generate .json theme rng).1 = some
        [(key.toList, .string value.toList), ("count", .int n), ("active", .bool b)] := by
  let k := themedWord theme rng
  let v := themedWord theme k.2
  let n := C.randomRange .i32 0 100 v.2
  let b := C.randomBool (1 / 2) n.2
  obtain ⟨key, hkey, hk⟩ := themedWord_mem theme rng
  obtain ⟨value, hvalue, hv⟩ := themedWord_mem theme k.2
  have hn : 0 ≤ n.1 ∧ n.1 < 100 := C.range_mem .i32 0 100 v.2 (by decide)
  have htext : (generate .json theme rng).1 = Json.write
      [(key.toList, .string value.toList), ("count", .int n.1), ("active", .bool b.1)] := by
    have hdraw : (generate .json theme rng).1 = "\x7b\"".toList ++ k.1 ++ "\": \"".toList ++ v.1 ++
        "\", \"count\": ".toList ++ intText n.1 ++ ", \"active\": ".toList ++
        (if b.1 then "true" else "false").toList ++ "\x7d".toList := rfl
    have hk' : k.1 = key.toList := hk
    have hv' : v.1 = value.toList := hv
    have hcount : ("count" : Str).flatMap Json.escape = "count" := by decide
    have hactive : ("active" : Str).flatMap Json.escape = "active" := by decide
    rw [hdraw, hk', hv']
    simp only [Json.write, Json.writeMembers, Json.writeMember, Json.writeString, Json.Scalar.write,
      nouns_unescaped theme h key hkey, nouns_unescaped theme h value hvalue, hcount, hactive]
    cases b.1 with
    | true => simp
    | false => simp
  have hread := Json.read_write [(key.toList, .string value.toList), ("count", .int n.1),
    ("active", .bool b.1)] (show ([] : Str).all Json.isBlank from rfl) (show ([] : Str).all Json.isBlank from rfl)
  refine ⟨key, hkey, value, hvalue, n.1, b.1, hn.1, hn.2, ?_⟩
  rw [htext]
  rwa [List.append_nil, List.nil_append] at hread

/-- The least document of the generic theme. -/
theorem json_reads_generic : ∃ key ∈ genericTheme.nouns ++ words, ∃ value ∈ genericTheme.nouns ++ words,
    ∃ (n : ℤ) (b : Bool), 0 ≤ n ∧ n < 100 ∧
      Json.read (generate (C := .least) .json genericTheme ()).1 = some
        [(key.toList, .string value.toList), ("count", .int n), ("active", .bool b)] :=
  json_reads (C := .least) generic_mem ()

end EtherealDb
