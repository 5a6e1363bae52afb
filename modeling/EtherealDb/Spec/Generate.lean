import EtherealDb.Spec.Infer
import EtherealDb.Spec.Vocabulary
import EtherealDb.Text.Num
import EtherealDb.Text.Wire

/-!
# Value generators: semantic type and random draws to text

The random generator and the UUID printer come from crates outside the program, and its
memory from the host; they are a parameter (`Crates`) that says what the program relies on:
a draw lies in its range, and a generator is a function of its seed. A generator of values
is then a state-passing function (`Draw`).
-/

namespace EtherealDb

open Str

/-- The integer types the program draws at; each has its own sampler. -/
inductive IntTy where
  | i32 | i64 | u32 | u64 | usize
  deriving DecidableEq, Repr

/-- **What the allocator grants.** A request that it refuses ends the process, and counts as
a panic here. Told are the requests whose size is a number in a client's text; those that a
protocol bounds (by 64 MiB), or that are no larger than what was sent or what the
configuration asks for, are taken to be granted. -/
structure Memory where
  /-- The largest vector, in bytes. -/
  vector : ℕ
  /-- The most parameters that a ParameterDescription has room for: its buffer grows as they
  are put in. -/
  description : ℕ
  vector_le : vector ≤ isizeMax
  /-- Four bytes a parameter. -/
  description_le : 4 * description ≤ vector
  /-- A few hundred kilobytes are always granted. -/
  le_description : 65535 ≤ description

/-- As much memory as there can be. The buffer doubles from 8192 bytes on. -/
def Memory.most : Memory := ⟨isizeMax, 2 ^ 60 - 2, le_rfl, by decide, by decide⟩

/-- **What the program uses of `rand`, `rand_chacha` and `uuid`**, and of its host. `Rng` is
the state of a `ChaCha8Rng`; each operation returns the value drawn and the next state. -/
structure Crates where
  memory : Memory
  Rng : Type
  /-- `SeedableRng::seed_from_u64` -/
  seedFromU64 : UInt64 → Rng
  /-- `random_bool(p)` -/
  randomBool : ℚ → Rng → Bool × Rng
  /-- `random_range(lo..hi)` -/
  randomRange : IntTy → ℤ → ℤ → Rng → ℤ × Rng
  /-- `random_range(lo..=hi)` -/
  randomRangeIncl : IntTy → ℤ → ℤ → Rng → ℤ × Rng
  /-- `random_range(lo..hi)` at `f64` -/
  randomF64 : ℚ → ℚ → Rng → ℚ × Rng
  /-- The index that `choose` draws in a slice of the given length. -/
  chooseIndex : ℕ → Rng → ℕ × Rng
  /-- `fill` of a 16-byte array -/
  fill16 : Rng → Bytes × Rng
  /-- `Builder::from_random_bytes(b).into_uuid().to_string()` -/
  uuidText : Bytes → Str
  range_mem : ∀ t lo hi s, lo < hi → lo ≤ (randomRange t lo hi s).1 ∧ (randomRange t lo hi s).1 < hi
  rangeIncl_mem : ∀ t lo hi s, lo ≤ hi →
    lo ≤ (randomRangeIncl t lo hi s).1 ∧ (randomRangeIncl t lo hi s).1 ≤ hi
  f64_mem : ∀ lo hi s, lo < hi → lo ≤ (randomF64 lo hi s).1 ∧ (randomF64 lo hi s).1 < hi
  choose_lt : ∀ n s, 0 < n → (chooseIndex n s).1 < n

/-- The crates with a generator that always draws the least value, and all the memory there can
be. -/
def Crates.least : Crates where
  memory := .most
  Rng := Unit
  seedFromU64 _ := ()
  randomBool _ s := (false, s)
  randomRange _ lo _ s := (lo, s)
  randomRangeIncl _ lo _ s := (lo, s)
  randomF64 lo _ s := (lo, s)
  chooseIndex _ s := (0, s)
  fill16 s := (List.replicate 16 0, s)
  uuidText _ := "00000000-0000-4000-8000-000000000000"
  range_mem _ _ _ _ h := ⟨le_rfl, h⟩
  rangeIncl_mem _ _ _ _ h := ⟨le_rfl, h⟩
  f64_mem _ _ _ h := ⟨le_rfl, h⟩
  choose_lt _ _ h := h

/-- A computation that draws from the generator. -/
abbrev Draw (C : Crates) (α : Type) := C.Rng → α × C.Rng

variable {C : Crates}

instance : Monad (Draw C) where
  pure a s := (a, s)
  bind f g s := g (f s).1 (f s).2

theorem Draw.pure_apply {α : Type} (a : α) (s : C.Rng) : (pure a : Draw C α) s = (a, s) := rfl

theorem Draw.bind_apply {α β : Type} (f : Draw C α) (g : α → Draw C β) (s : C.Rng) :
    (f >>= g) s = g (f s).1 (f s).2 := rfl

theorem Draw.map_apply {α β : Type} (f : α → β) (d : Draw C α) (s : C.Rng) :
    (f <$> d) s = (f (d s).1, (d s).2) := rfl

/-- A loop that draws `n` times. -/
def Draw.times {α : Type} (d : Draw C α) : ℕ → Draw C (List α)
  | 0 => pure []
  | n + 1 => do
    let a ← d
    return a :: (← Draw.times d n)

theorem Draw.length_times {α : Type} (d : Draw C α) (n : ℕ) (s : C.Rng) :
    (d.times n s).1.length = n := by
  induction n generalizing s with
  | zero => rfl
  | succ n ih => exact congrArg (· + 1) (ih _)

/-- What a loop draws, its body draws. -/
theorem Draw.mem_times {α : Type} {d : Draw C α} {n : ℕ} {s : C.Rng} {a : α}
    (h : a ∈ (d.times n s).1) : ∃ s', a = (d s').1 := by
  induction n generalizing s with
  | zero => simp [Draw.times, Draw.pure_apply] at h
  | succ n ih =>
    rcases List.mem_cons.1 h with rfl | h
    · exact ⟨s, rfl⟩
    · exact ih h

/-- **Two loops in a row are one.** -/
theorem Draw.times_add {α : Type} (d : Draw C α) (m n : ℕ) (s : C.Rng) :
    d.times (m + n) s =
      ((d.times m s).1 ++ (d.times n (d.times m s).2).1, (d.times n (d.times m s).2).2) := by
  induction m generalizing s with
  | zero => rw [Nat.zero_add]; rfl
  | succ m ih =>
    have hstep : ∀ k, d.times (k + 1) s =
        ((d s).1 :: (d.times k (d s).2).1, (d.times k (d s).2).2) := fun _ => rfl
    rw [Nat.add_right_comm, hstep, hstep, ih]
    rfl

/-- `random_range(lo..hi)`, printed. -/
def drawInt (t : IntTy) (lo hi : ℤ) : Draw C Str := do return intText (← C.randomRange t lo hi)

/-- `choose(rng)` on a non-empty pool: `pick` and `word`. -/
def pick (pool : List String) : Draw C Str := do
  return (pool[← C.chooseIndex pool.length]?.getD "").toList

/-- `themed_word`. -/
def themedWord (theme : ThemeData) : Draw C Str := do
  if theme.nouns ≠ [] then
    if ← C.randomBool (45 / 100) then pick theme.nouns else pick words
  else pick words

/-- The loop of `lorem`: `n` more words, each after a space unless it is the first. -/
def loremWords (theme : ThemeData) : ℕ → Bool → Draw C Str
  | 0, _ => pure []
  | n + 1, first => do
    let w ← themedWord theme
    let rest ← loremWords theme n false
    return (if first then w else ' ' :: w) ++ rest

/-- `lorem`: `n` themed words; the first byte is uppercased when it is a character. -/
def lorem (theme : ThemeData) (n : ℕ) : Draw C Str := do
  match ← loremWords theme n true with
  -- `get_mut(0..1)` gives nothing inside a longer character
  | c :: s => return (if c.utf8Size = 1 then c.toUpper else c) :: s
  | [] => return []

/-- `civil_from_days`: days since 1970-01-01 to year, month, day. -/
def civilFromDays (z : ℤ) : ℤ × ℕ × ℕ :=
  let z := z + 719468
  -- a division that rounds to zero, of a number shifted so that it rounds down
  let era := (if 0 ≤ z then z else z - 146096).tdiv 146097
  let doe := (z - era * 146097).toNat
  let yoe := (doe - doe / 1460 + doe / 36524 - doe / 146096) / 365
  let y := (yoe : ℤ) + era * 400
  let doy := doe - (365 * yoe + yoe / 4 - yoe / 100)
  let mp := (5 * doy + 2) / 153
  let d := doy - (153 * mp + 2) / 5 + 1
  let m := if mp < 10 then mp + 3 else mp - 9
  (y + (if m ≤ 2 then 1 else 0), m, d)

/-- `civil_from_days`, in the machine integers of the source (release profile: they wrap). -/
def civilFromDays64 (z : Int64) : Int64 × UInt32 × UInt32 :=
  let z := z + 719468
  let era := (if 0 ≤ z then z else z - 146096) / 146097
  let doe := (z - era * 146097).toUInt64
  let yoe := (doe - doe / 1460 + doe / 36524 - doe / 146096) / 365
  let y := yoe.toInt64 + era * 400
  let doy := doe - (365 * yoe + yoe / 4 - yoe / 100)
  let mp := (5 * doy + 2) / 153
  let d := (doy - (153 * mp + 2) / 5 + 1).toUInt32
  let m := (if mp < 10 then mp + 3 else mp - 9).toUInt32
  (y + (if m ≤ 2 then 1 else 0), m, d)

/-- `days_from_civil`, in the machine integers of the source (release profile: they wrap). -/
def daysFromCivil (y : Int64) (m d : UInt32) : Int64 :=
  let y := if m ≤ 2 then y - 1 else y
  let era := (if 0 ≤ y then y else y - 399) / 400
  let yoe := y - era * 400
  let m : Int64 := m.toUInt64.toInt64
  let d : Int64 := d.toUInt64.toInt64
  let doy := (153 * (if 2 < m then m - 3 else m + 9) + 2) / 5 + d - 1
  let doe := yoe * 365 + yoe / 4 - yoe / 100 + doy
  era * 146097 + doe - 719468

/-- `random_epoch`: within two years before mid-2026. -/
def randomEpoch : Draw C ℤ := do
  return 1781049600 - (← C.randomRange .i64 0 63113904)

/-- `fmt_date`. -/
def fmtDate (epoch : ℤ) : Str :=
  let (y, m, d) := civilFromDays (epoch / 86400)
  padInt 4 y ++ '-' :: padZero 2 (decimal m) ++ '-' :: padZero 2 (decimal d)

/-- `fmt_time`. -/
def fmtTime (epoch : ℤ) : Str :=
  let s := (epoch % 86400).toNat
  padZero 2 (decimal (s / 3600)) ++ ':' :: padZero 2 (decimal (s % 3600 / 60)) ++
    ':' :: padZero 2 (decimal (s % 60))

/-- `fmt_timestamp`. -/
def fmtTimestamp (epoch : ℤ) : Str := fmtDate epoch ++ ' ' :: fmtTime epoch

/-- `n` letters of an alphabet. -/
def letters (alphabet : List Char) : ℕ → Draw C Str
  | 0 => pure []
  | n + 1 => do
    let i ← C.randomRange .usize 0 alphabet.length
    let rest ← letters alphabet n
    return alphabet[i.toNat]?.getD '?' :: rest

/-- The `Email` arm of `generate`. -/
def drawEmail : Draw C Str := do
  let f ← pick firstNames
  let l ← pick lastNames
  return lower f ++ '.' :: lower l ++ '@' :: (← pick domains)

/-- The `Phone` arm of `generate`. -/
def drawPhone : Draw C Str := do
  let a ← drawInt .i32 200 990
  let b ← drawInt .i32 200 990
  let c ← C.randomRange .i32 0 10000
  return "+1 (".toList ++ a ++ ") ".toList ++ b ++ '-' :: padInt 4 c

/-- The `Url` arm of `generate`. -/
def drawUrl : Draw C Str := do
  let d ← pick domains
  let v ← pick words
  return "https://".toList ++ d ++ '/' :: v ++ '-' :: (← pick words)

/-- The `Ip` arm of `generate`. -/
def drawIp : Draw C Str := do
  let a ← drawInt .i32 1 240
  let b ← drawInt .i32 0 256
  let c ← drawInt .i32 0 256
  return a ++ '.' :: b ++ '.' :: c ++ '.' :: (← drawInt .i32 1 255)

/-- The `FullName` arm of `generate`. -/
def drawFullName : Draw C Str := do
  let f ← pick firstNames
  return f ++ ' ' :: (← pick lastNames)

/-- The `Username` arm of `generate`. -/
def drawUsername : Draw C Str := do
  let f ← pick firstNames
  return lower f ++ (← drawInt .i32 1 100)

/-- The `Company` arm of `generate`. -/
def drawCompany : Draw C Str := do
  let a ← pick companyStems
  return a ++ ' ' :: (← pick companySuffixes)

/-- The `StreetAddress` arm of `generate`. -/
def drawStreetAddress : Draw C Str := do
  let n ← drawInt .i32 1 9999
  let a ← pick streetNames
  return n ++ ' ' :: a ++ ' ' :: (← pick streetTypes)

/-- The `Slug` arm of `generate`. -/
def drawSlug (theme : ThemeData) : Draw C Str := do
  let a ← themedWord theme
  let b ← themedWord theme
  return a ++ '-' :: b ++ '-' :: (← drawInt .i32 100 9999)

/-- The `Json` arm of `generate`. -/
def drawJson (theme : ThemeData) : Draw C Str := do
  let k ← themedWord theme
  let v ← themedWord theme
  let n ← drawInt .i32 0 100
  let b ← C.randomBool (1 / 2)
  return "\x7b\"".toList ++ k ++ "\": \"".toList ++ v ++ "\", \"count\": ".toList ++ n ++
    ", \"active\": ".toList ++ (if b then "true" else "false").toList ++ "\x7d".toList

/-- The `CreditCard` arm of `generate`. -/
def drawCreditCard : Draw C Str := do
  let a ← C.randomRange .i32 0 1000
  let b ← C.randomRange .i32 0 10000
  let c ← C.randomRange .i32 0 10000
  let d ← C.randomRange .i32 0 10000
  return '4' :: padInt 3 a ++ ' ' :: padInt 4 b ++ ' ' :: padInt 4 c ++ ' ' :: padInt 4 d

/-- The `Version` arm of `generate`. -/
def drawVersion : Draw C Str := do
  let a ← drawInt .i32 0 10
  let b ← drawInt .i32 0 20
  return a ++ '.' :: b ++ '.' :: (← drawInt .i32 0 30)

/-- `generate`: a plausible value of a semantic type. -/
def generate (st : SemanticType) (theme : ThemeData) : Draw C Str :=
  match st with
  | .idInt => drawInt .i64 1 1000000
  | .fkInt => drawInt .i64 1 5000
  | .idUuid => do return C.uuidText (← C.fill16)
  | .bool => do return if ← C.randomBool (1 / 2) then "t" else "f"
  | .intSmall => drawInt .i64 0 100
  | .intBig => drawInt .i64 0 1000000
  | .float => do return fixedText 2 (← C.randomF64 0 1000)
  | .money => do return fixedText 2 (← C.randomF64 (99 / 100) (999999 / 100))
  | .percent => do return fixedText 2 (← C.randomF64 0 100)
  | .timestamp => do return fmtTimestamp (← randomEpoch)
  | .date => do return fmtDate (← randomEpoch)
  | .time => do return fmtTime (← randomEpoch)
  | .email => drawEmail
  | .phone => drawPhone
  | .url => drawUrl
  | .ip => drawIp
  | .firstName => pick firstNames
  | .lastName => pick lastNames
  | .fullName => drawFullName
  | .username => drawUsername
  | .company => drawCompany
  | .city => pick cities
  | .country => pick countries
  | .countryCode => pick countryCodes
  | .streetAddress => drawStreetAddress
  | .zipcode => do return padInt 5 (← C.randomRange .i32 501 99950)
  | .color => pick colors
  | .hexColor => do
    return '#' :: padZero 6 (Nat.toDigits 16 (← C.randomRange .u32 0 0x1000000).toNat)
  | .lat => do return fixedText 6 (← C.randomF64 (-90) 90)
  | .lng => do return fixedText 6 (← C.randomF64 (-180) 180)
  | .statusEnum => pick theme.statuses
  | .kindEnum => pick theme.kinds
  | .slug => drawSlug theme
  | .passwordHash => do return "$2b$12$".toList ++ (← letters hashChars 53)
  | .json => drawJson theme
  | .loremShort => do lorem theme (← C.randomRangeIncl .i32 2 4).toNat
  | .loremLong => do
    let s ← lorem theme (← C.randomRangeIncl .i32 8 16).toNat
    return s ++ ['.']
  | .currencyCode => pick currencyCodes
  | .languageCode => pick languageCodes
  | .mimeType => pick mimeTypes
  | .userAgent => pick userAgents
  | .creditCard => drawCreditCard
  | .fileSize => drawInt .i64 128 10000000000
  | .shortCode => letters codeChars 8
  | .version => drawVersion

/-- `fuzz_value`: a pathological value, chosen to antagonise the type's decoder. -/
def fuzzValue (wt : WireType) : Draw C Str := do
  -- a huge value, of any type
  if ← C.randomBool (15 / 100) then
    return List.replicate (← C.randomRange .usize 4096 16384).toNat 'A'
  else
    match wt with
    | .bool => pick ["2", "-1", "maybe", "", "TRUE", "t\x00"]
    | .int4 | .int8 | .float8 | .numeric =>
      pick ["NaN", "Infinity", "-Infinity", "1e999", "0x7fffffff", "99999999999999999999999999",
        "-9223372036854775809", "", "  12 34 "]
    | .date | .time | .timestamp =>
      pick ["0000-00-00", "2026-13-45", "not-a-date", "9999-99-99 99:99:99", ""]
    | .uuid => pick ["not-a-uuid", "", "zzzzzzzz-zzzz-zzzz-zzzz-zzzzzzzzzzzz"]
    | .text | .json => pick nasty

/-- `Gen`: the theme, and the chance of a pathological value. -/
structure Gen where
  theme : ThemeData
  fuzz : ℚ

/-- `gen_value`. -/
def genValue (st : SemanticType) (wt : WireType) (g : Gen) : Draw C Str :=
  -- without fuzz no draw is made
  if 0 < g.fuzz then do
    if ← C.randomBool (max 0 (min g.fuzz 1)) then fuzzValue wt else generate st g.theme
  else generate st g.theme

/-- Without fuzz the wire type plays no part. -/
theorem genValue_no_fuzz {g : Gen} (hg : g.fuzz = 0) (st : SemanticType) (wt : WireType) :
    (genValue st wt g : Draw C Str) = generate st g.theme := by
  simp [genValue, hg]

/-- A generated boolean is `t` or `f`. -/
theorem generate_bool (theme : ThemeData) (s : C.Rng) :
    (generate .bool theme s).1 = ("t" : Str) ∨ (generate .bool theme s).1 = ("f" : Str) := by
  have h : (generate .bool theme s).1 =
      (if (C.randomBool (1 / 2) s).1 then ("t" : Str) else ("f" : Str)) := rfl
  rw [h]
  split
  · exact Or.inl rfl
  · exact Or.inr rfl

end EtherealDb
