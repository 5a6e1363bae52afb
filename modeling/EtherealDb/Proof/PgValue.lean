import EtherealDb.Proof.Civil
import EtherealDb.Spec.PgValue

/-!
# Text and binary results denote the same value

* `decodes_reads`: **the binary form of a text decodes to the value that the text denotes**,
  type by type.
* `decodes_unique`: bytes have one value.
* `reads_generate`: every generator writes a text of its type.
* `text_binary_agree`: **so both forms of a generated cell denote one value.**
-/

namespace EtherealDb.Pg

open Str Calendar

variable {C : Crates}

/-! ## Digits -/

/-- A hexadecimal digit is one byte, and has its value. -/
theorem digitChar_hex {n : ℕ} (h : n < 16) : (Nat.digitChar n).toNat < 128 ∧
    hexValue (UInt8.ofNat (Nat.digitChar n).toNat) = some (UInt8.ofNat n) := by
  have hcases : n = 0 ∨ n = 1 ∨ n = 2 ∨ n = 3 ∨ n = 4 ∨ n = 5 ∨ n = 6 ∨ n = 7 ∨ n = 8 ∨ n = 9 ∨
      n = 10 ∨ n = 11 ∨ n = 12 ∨ n = 13 ∨ n = 14 ∨ n = 15 := by omega
  rcases hcases with rfl | rfl | rfl | rfl | rfl | rfl | rfl | rfl | rfl | rfl | rfl | rfl | rfl |
    rfl | rfl | rfl <;> decide

/-- The hexadecimal digits of a text. -/
def hexDigits (s : Str) : Bytes := (Utf8.encode s).filterMap hexValue

theorem hexDigits_append (a b : Str) : hexDigits (a ++ b) = hexDigits a ++ hexDigits b := by
  simp [hexDigits]

/-- The two halves of each byte. -/
def nibbles (bs : Bytes) : Bytes :=
  bs.flatMap fun b => [UInt8.ofNat (b.toNat / 16), UInt8.ofNat (b.toNat % 16)]

theorem hexDigits_hexText (bs : Bytes) : hexDigits (hexText bs) = nibbles bs := by
  induction bs with
  | nil => rfl
  | cons b bs ih =>
    have hb := b.toNat_lt
    obtain ⟨hhi, hhi'⟩ := digitChar_hex (n := b.toNat / 16) (by omega)
    obtain ⟨hlo, hlo'⟩ := digitChar_hex (n := b.toNat % 16) (by omega)
    have hcons : hexText (b :: bs) =
        Nat.digitChar (b.toNat / 16) :: Nat.digitChar (b.toNat % 16) :: hexText bs := rfl
    have henc : Utf8.encode (hexText (b :: bs)) =
        UInt8.ofNat (Nat.digitChar (b.toNat / 16)).toNat ::
          UInt8.ofNat (Nat.digitChar (b.toNat % 16)).toNat :: Utf8.encode (hexText bs) := by
      rw [hcons, Utf8.encode_cons, Utf8.encode_cons, Utf8.encode_ascii hhi,
        Utf8.encode_ascii hlo]
      rfl
    unfold hexDigits at ih ⊢
    rw [henc, List.filterMap_cons_some hhi', List.filterMap_cons_some hlo', ih]
    rfl

/-- Pairs of halves are the bytes again. -/
theorem hexPairs_nibbles (bs : Bytes) : hexPairs (nibbles bs) = bs := by
  induction bs with
  | nil => rfl
  | cons b bs ih =>
    have hcons : nibbles (b :: bs) =
        UInt8.ofNat (b.toNat / 16) :: UInt8.ofNat (b.toNat % 16) :: nibbles bs := rfl
    have hbyte : UInt8.ofNat (b.toNat / 16) * 16 + UInt8.ofNat (b.toNat % 16) = b := by
      apply UInt8.toNat_inj.1
      have hb := b.toNat_lt
      have h16 : (16 : UInt8).toNat = 16 := rfl
      rw [UInt8.toNat_add, UInt8.toNat_mul, UInt8.toNat_ofNat', UInt8.toNat_ofNat', h16]
      omega
    rw [hcons, hexPairs, ih, hbyte]

/-- **The digits of a UUID are those of its bytes**: hyphens are none. -/
theorem hexDigits_hyphenated (v : Bytes) : hexDigits (hyphenated v) = nibbles v := by
  have hhyphen : ∀ s, hexDigits ('-' :: s) = hexDigits s := by
    intro s
    have henc : Utf8.encode ('-' :: s) = 45 :: Utf8.encode s := by
      rw [Utf8.encode_cons, Utf8.encode_ascii (by decide)]
      rfl
    unfold hexDigits
    rw [henc, List.filterMap_cons_none (by decide)]
  have hnib : ∀ a b : Bytes, nibbles a ++ nibbles b = nibbles (a ++ b) := by simp [nibbles]
  have hparts : v = v.take 4 ++ ((v.drop 4).take 2 ++ ((v.drop 6).take 2 ++ ((v.drop 8).take 2 ++
      v.drop 10))) := by
    have hdrop : ∀ i j, (v.drop i).take j ++ v.drop (i + j) = v.drop i := by
      intro i j
      rw [← List.drop_drop, List.take_append_drop]
    rw [hdrop 8 2, hdrop 6 2, hdrop 4 2, List.take_append_drop]
  conv_rhs => rw [hparts]
  unfold hyphenated
  simp only [hexDigits_append, hhyphen, hexDigits_hexText, hnib]

theorem length_nibbles (v : Bytes) : (nibbles v).length = 2 * v.length := by
  simp [nibbles, Nat.mul_comm]

/-! ## Dates and times -/

/-- Fields between separators. -/
theorem splitOn_sep {c : Char} {a : Str} (h : c ∉ a) (b : Str) :
    splitOn c (a ++ c :: b) = a :: splitOn c b := by
  unfold splitOn
  refine List.splitOnP_append_cons_of_forall_mem ?_ c (by simp) b
  intro x hx
  simp only [beq_eq_false_iff_ne]
  rintro rfl
  exact h hx

theorem splitOn_self {c : Char} {a : Str} (h : c ∉ a) : splitOn c a = [a] := by
  refine List.splitOnP_eq_singleton ?_
  intro x hx
  simp only [beq_eq_false_iff_ne]
  rintro rfl
  exact h hx

/-- A padded number holds digits only. -/
theorem not_mem_padZero {c : Char} (hc : c.isDigit = false) (w n : ℕ) : c ∉ padZero w (decimal n) := by
  intro h
  rw [isDigit_of_mem_padZero h] at hc
  cases hc

theorem padInt_of_nonneg {x : ℤ} (h : 0 ≤ x) (w : ℕ) : padInt w x = padZero w (decimal x.natAbs) := by
  rw [padInt, if_neg (by omega)]

/-- A field of a date or a time is read back. -/
theorem parseI64_padZero {n : ℕ} (w : ℕ) (h : n < 2 ^ 63) :
    parseI64 (padZero w (decimal n)) = some (Int64.ofInt n) := by
  rw [parseI64, parseSigned_of_digits (parseDigits_padZero w n) h]
  rfl

theorem parseU32_padZero {n : ℕ} (w : ℕ) (h : n < 2 ^ 32) :
    parseU32 (padZero w (decimal n)) = some (UInt32.ofNat n) := by
  rw [parseU32, parseUnsigned_of_digits (parseDigits_padZero w n) h]
  rfl

/-- **A date is read back from its text.** -/
theorem parseYmd_dateText {d : Date} (hlo : 0 ≤ d.year) (hhi : d.year < 2 ^ 63) :
    parseYmd (dateText d) =
      some (Int64.ofInt d.year, UInt32.ofNat d.month, UInt32.ofNat d.day) := by
  have hmonth := d.month_mem
  have hday := d.day_mem
  have hlen := monthLength_mem d.year d.month
  have hdash : ∀ w n, '-' ∉ padZero w (decimal n) := not_mem_padZero (by decide)
  have hyear : Int64.ofInt ((d.year.natAbs : ℕ) : ℤ) = Int64.ofInt d.year := by
    rw [Int.natAbs_of_nonneg hlo]
  unfold parseYmd dateText
  rw [padInt_of_nonneg hlo, splitOn_sep (hdash _ _), splitOn_sep (hdash _ _), splitOn_self (hdash _ _)]
  dsimp only
  rw [parseI64_padZero 4 (by omega), parseU32_padZero 2 (by omega), parseU32_padZero 2 (by omega),
    hyear]
  rfl

/-- **A time is read back from its text.** -/
theorem parseHms_timeText (t : Time) :
    parseHms (timeText t) =
      some (Int64.ofInt t.hour, Int64.ofInt t.minute, Int64.ofInt t.second) := by
  have hh := t.hour_lt
  have hm := t.minute_lt
  have hs := t.second_lt
  have hcolon : ∀ w n, ':' ∉ padZero w (decimal n) := not_mem_padZero (by decide)
  unfold parseHms timeText
  rw [splitOn_sep (hcolon _ _), splitOn_sep (hcolon _ _), splitOn_self (hcolon _ _)]
  dsimp only
  rw [parseI64_padZero 2 (by omega), parseI64_padZero 2 (by omega), parseI64_padZero 2 (by omega)]
  rfl

/-- The date of a timestamp has no blank in it. -/
theorem blank_not_mem_dateText {d : Date} (hlo : 0 ≤ d.year) : ' ' ∉ dateText d := by
  have hblank : ∀ w n, ' ' ∉ padZero w (decimal n) := not_mem_padZero (by decide)
  unfold dateText
  rw [padInt_of_nonneg hlo]
  simp [hblank]

/-- The day number of a date, in machine integers. -/
theorem days_toInt {d : Date} (hfits : Unwrapped (d.number - unixDay)) :
    (daysFromCivil (Int64.ofInt d.year) (UInt32.ofNat d.month) (UInt32.ofNat d.day)).toInt =
      d.number - unixDay := by
  have hmonth := d.month_mem
  have hday := d.day_mem
  have hlen := monthLength_mem d.year d.month
  have hyears := year_bounds hfits
  have hyear : (Int64.ofInt d.year).toInt = d.year :=
    Int64.toInt_ofInt_of_le (by omega) (by omega)
  have hm : (UInt32.ofNat d.month).toNat = d.month := by
    rw [UInt32.toNat_ofNat', Nat.mod_eq_of_lt (by omega)]
  have hd : (UInt32.ofNat d.day).toNat = d.day := by
    rw [UInt32.toNat_ofNat', Nat.mod_eq_of_lt (by omega)]
  exact daysFromCivil_number d hyear hm hd hfits

/-- The numbers of the days of these years. -/
theorem number_bounds {d : Date} (hlo : 0 ≤ d.year) (hhi : d.year ≤ 9999) :
    -366 ≤ d.number ∧ d.number < 3652059 := by
  have hyear := number_mem_year d
  have hfirst : yearStart 0 ≤ yearStart d.year := yearStart_mono hlo
  have hlast : yearStart (d.year + 1) ≤ yearStart 10000 := yearStart_mono (by omega)
  have hzero : yearStart 0 = -366 := rfl
  have hend : yearStart 10000 = 3652059 := rfl
  omega

theorem unwrapped_days {d : Date} (hlo : 0 ≤ d.year) (hhi : d.year ≤ 9999) :
    Unwrapped (d.number - unixDay) := by
  have hnum := number_bounds hlo hhi
  have hunix : unixDay = 719162 := rfl
  constructor <;> omega

/-! ## From text to binary -/

/-- Days since the millennium, in machine integers. -/
theorem millennium_days {a : Int64} {x : ℤ} (ha : a.toInt = x) (hlo : -2 ^ 63 ≤ x - 10957)
    (hhi : x < 2 ^ 63) : (a - pgEpochOffsetDays).toInt = x - 10957 := by
  have hoff : pgEpochOffsetDays.toInt = 10957 := rfl
  rw [Int64.toInt_sub, ha, hoff, bmod_self hlo (by omega)]

/-- Seconds since midnight, in machine integers. -/
theorem time_toInt {h m s : Int64} {t : Time} (hh : h.toInt = t.hour) (hm : m.toInt = t.minute)
    (hs : s.toInt = t.second) : ((h * 3600 + m * 60 + s) * 1000000).toInt = t.seconds * 1000000 := by
  have hhour := t.hour_lt
  have hminute := t.minute_lt
  have hsecond := t.second_lt
  have h60 : Int64.toInt 60 = 60 := rfl
  have h3600 : Int64.toInt 3600 = 3600 := rfl
  have hmicro : Int64.toInt 1000000 = 1000000 := rfl
  unfold Time.seconds
  simp (disch := omega) only [Int64.toInt_add, Int64.toInt_mul, hh, hm, hs, h60, h3600, hmicro,
    bmod_self]
  push_cast
  rfl

/-- Days and seconds since the millennium, in machine integers. -/
theorem micros_toInt {a h m s : Int64} {x : ℤ} {t : Time} (ha : a.toInt = x)
    (hlo : -2 ^ 63 ≤ (x * 86400 + t.seconds - 946684800) * 1000000)
    (hhi : (x * 86400 + t.seconds - 946684800) * 1000000 < 2 ^ 63) (hh : h.toInt = t.hour)
    (hm : m.toInt = t.minute) (hs : s.toInt = t.second) :
    ((a * 86400 + h * 3600 + m * 60 + s - pgEpochOffsetSecs) * 1000000).toInt =
      (x * 86400 + t.seconds - 946684800) * 1000000 := by
  have hhour := t.hour_lt
  have hminute := t.minute_lt
  have hsecond := t.second_lt
  have h60 : Int64.toInt 60 = 60 := rfl
  have h3600 : Int64.toInt 3600 = 3600 := rfl
  have hday : Int64.toInt 86400 = 86400 := rfl
  have hmicro : Int64.toInt 1000000 = 1000000 := rfl
  have hoff : pgEpochOffsetSecs.toInt = 946684800 := rfl
  unfold Time.seconds at hlo hhi ⊢
  push_cast at hlo hhi ⊢
  simp (disch := omega) only [Int64.toInt_add, Int64.toInt_sub, Int64.toInt_mul, ha, hh, hm, hs,
    h60, h3600, hday, hmicro, hoff, bmod_self]
  omega

/-- The fields of a time of day fit their machine integers. -/
theorem toInt_time (t : Time) : (Int64.ofInt t.hour).toInt = t.hour ∧
    (Int64.ofInt t.minute).toInt = t.minute ∧ (Int64.ofInt t.second).toInt = t.second := by
  have hfield : ∀ n : ℕ, n < 60 → (Int64.ofInt n).toInt = n :=
    fun n h => Int64.toInt_ofInt_of_le (by omega) (by omega)
  have hhour := t.hour_lt
  exact ⟨hfield _ (by omega), hfield _ t.minute_lt, hfield _ t.second_lt⟩

/-- A timestamp is cut at its blank. -/
theorem parseTimestamp_text {d : Date} (t : Time) (hlo : 0 ≤ d.year) (hhi : d.year < 2 ^ 63) :
    parseTimestamp (dateText d ++ ' ' :: timeText t) = some ((daysFromCivil
      (Int64.ofInt d.year) (UInt32.ofNat d.month) (UInt32.ofNat d.day) * 86400 +
      Int64.ofInt t.hour * 3600 + Int64.ofInt t.minute * 60 + Int64.ofInt t.second -
      pgEpochOffsetSecs) * 1000000) := by
  have hymd := parseYmd_dateText hlo hhi
  have hhms := parseHms_timeText t
  have hblank : ∀ c ∈ dateText d, c ≠ ' ' := by
    rintro c hc rfl
    exact blank_not_mem_dateText hlo hc
  have hdrop : (dateText d ++ ' ' :: timeText t).dropWhile (· ≠ ' ') = ' ' :: timeText t := by
    rw [List.dropWhile_append_of_pos (by simpa using hblank)]
    rfl
  have htake : (dateText d ++ ' ' :: timeText t).takeWhile (· ≠ ' ') = dateText d := by
    rw [List.takeWhile_append_of_pos (by simpa using hblank)]
    simp
  unfold parseTimestamp
  simp only [hdrop, htake, hymd, hhms]
  rfl

theorem year_lt {d : Date} (hfits : Unwrapped (d.number - unixDay)) : d.year < 2 ^ 63 := by
  have hyears := year_bounds hfits
  omega

theorem millennium_number : millennium.number = unixDay + 10957 := rfl

/-- **The binary form of a date.** -/
theorem date_binary {d : Date} (hlo : 0 ≤ d.year) (hfits : Unwrapped (d.number - unixDay))
    (hdays : -2 ^ 63 ≤ d.number - unixDay - 10957) :
    textToBinary .date (dateText d) = beInt 4 (d.number - millennium.number) ∧
      Parses .date (dateText d) := by
  have hparse := parseYmd_dateText hlo (year_lt hfits)
  have hvalue := millennium_days (days_toInt hfits) hdays (by have := hfits.2; omega)
  have hmill := millennium_number
  refine ⟨?_, by simp [Parses, hparse]⟩
  rw [textToBinary, hparse]
  simp only [Option.map_some, Option.getD_some, hvalue]
  rw [hmill, Int.sub_sub]

/-- **The binary form of a time.** -/
theorem time_binary (t : Time) : textToBinary .time (timeText t) = beInt 8 (t.seconds * 1000000) ∧
    Parses .time (timeText t) := by
  have hparse := parseHms_timeText t
  obtain ⟨hh, hm, hs⟩ := toInt_time t
  have hmicros := time_toInt hh hm hs
  refine ⟨?_, by simp [Parses, hparse]⟩
  rw [textToBinary, hparse]
  simp only [Option.map_some, Option.getD_some, hmicros]

/-- **The instant of a timestamp.** -/
theorem parseTimestamp_micros {d : Date} (t : Time) (hyear : 0 ≤ d.year)
    (hfits : Unwrapped (d.number - unixDay))
    (hlo : -2 ^ 63 ≤ ((d.number - millennium.number) * 86400 + t.seconds) * 1000000)
    (hhi : ((d.number - millennium.number) * 86400 + t.seconds) * 1000000 < 2 ^ 63) :
    (parseTimestamp (dateText d ++ ' ' :: timeText t)).map Int64.toInt =
      some (((d.number - millennium.number) * 86400 + t.seconds) * 1000000) := by
  have hmill := millennium_number
  have hoff : (d.number - millennium.number) * 86400 + (t.seconds : ℤ) =
      (d.number - unixDay) * 86400 + t.seconds - 946684800 := by
    rw [hmill]
    omega
  obtain ⟨hh, hm, hs⟩ := toInt_time t
  rw [hoff] at hlo hhi ⊢
  rw [parseTimestamp_text t hyear (year_lt hfits), Option.map_some,
    micros_toInt (days_toInt hfits) hlo hhi hh hm hs]

theorem decodes_date {d : Date} (hyear : 0 ≤ d.year ∧ d.year ≤ 9999) :
    Decodes .date (textToBinary .date (dateText d)) (.date d) ∧ Parses .date (dateText d) := by
  have hnum := number_bounds hyear.1 hyear.2
  have hmill : millennium.number = 730119 := rfl
  have hunix : unixDay = 719162 := rfl
  obtain ⟨hbinary, hparses⟩ := date_binary hyear.1 (unwrapped_days hyear.1 hyear.2) (by omega)
  refine ⟨?_, hparses⟩
  rw [hbinary]
  exact .date (length_beInt 4 _) (ofBeInt_beInt (by decide) (by omega) (by omega))

theorem decodes_time (t : Time) :
    Decodes .time (textToBinary .time (timeText t)) (.time t) ∧ Parses .time (timeText t) := by
  have hlt := seconds_lt t
  refine ⟨?_, (time_binary t).2⟩
  rw [(time_binary t).1]
  exact .time (length_beInt 8 _) (ofBeInt_beInt (by decide) (by omega) (by omega))

theorem decodes_timestamp {d : Date} (t : Time) (hyear : 0 ≤ d.year ∧ d.year ≤ 9999) :
    Decodes .timestamp (textToBinary .timestamp (dateText d ++ ' ' :: timeText t))
      (.timestamp d t) ∧ Parses .timestamp (dateText d ++ ' ' :: timeText t) := by
  have hnum := number_bounds hyear.1 hyear.2
  have hmill : millennium.number = 730119 := rfl
  have hlt := seconds_lt t
  have hmicros := parseTimestamp_micros t hyear.1 (unwrapped_days hyear.1 hyear.2) (by omega)
    (by omega)
  refine ⟨?_, ?_⟩
  · rw [textToBinary, hmicros, Option.getD_some]
    exact .timestamp (length_beInt 8 _) (ofBeInt_beInt (by decide) (by omega) (by omega))
  · rw [Parses, ← Option.isSome_map, hmicros]
    rfl

/-- **The binary form of a text decodes to the value that the text denotes**, and no
fallback is taken. -/
theorem decodes_reads {wt : WireType} {t : Str} {v : Value} (h : Reads wt t v) :
    Decodes wt (textToBinary wt t) v ∧ Parses wt t := by
  cases h with
  | yes => exact ⟨.yes, by simp [Parses]⟩
  | no => exact ⟨.no, by simp [Parses]⟩
  | int4 hx =>
    rename_i x
    have hread : parseSigned (2 ^ 31) (intText x) = some x := parseSigned_intText hx.1 hx.2
    refine ⟨?_, by unfold Parses; rw [hread]; rfl⟩
    have hdec : Decodes .int4 (beInt 4 x) (.int (ofBeInt (beInt 4 x))) := .int4 (length_beInt 4 x)
    rw [ofBeInt_beInt (by decide) hx.1 hx.2] at hdec
    rw [textToBinary, hread]
    exact hdec
  | int8 hx =>
    rename_i x
    have hread : parseSigned (2 ^ 63) (intText x) = some x := parseSigned_intText hx.1 hx.2
    refine ⟨?_, by unfold Parses; rw [hread]; rfl⟩
    have hdec : Decodes .int8 (beInt 8 x) (.int (ofBeInt (beInt 8 x))) := .int8 (length_beInt 8 x)
    rw [ofBeInt_beInt (by decide) hx.1 hx.2] at hdec
    rw [textToBinary, hread]
    exact hdec
  | uuid hlen =>
    rename_i v
    have hdigits : (Utf8.encode (hyphenated v)).filterMap hexValue = nibbles v :=
      hexDigits_hyphenated v
    refine ⟨?_, by rw [Parses, hdigits, length_nibbles, hlen]⟩
    have htake : v.take 16 = v := List.take_of_length_le hlen.le
    rw [textToBinary, hdigits, hexPairs_nibbles, htake, hlen]
    simpa using Decodes.uuid hlen
  | date hyear => exact decodes_date hyear
  | time t => exact decodes_time t
  | timestamp t hyear => exact decodes_timestamp t hyear
  | text s => exact ⟨.text _, trivial⟩
  | json s => exact ⟨.json _, trivial⟩

/-- **Bytes have one value**: days, seconds and characters are determined by their codes. -/
theorem decodes_unique {wt : WireType} {bs : Bytes} {v w : Value} (hv : Decodes wt bs v)
    (hw : Decodes wt bs w) : w = v := by
  cases hv with
  | yes => cases hw; rfl
  | no => cases hw; rfl
  | int4 h => cases hw; rfl
  | int8 h => cases hw; rfl
  | uuid h => cases hw; rfl
  | date h hd =>
    rename_i d
    cases hw with
    | date h' hd' =>
      rename_i d'
      have hday : d'.number = d.number := by omega
      rw [number_injective hday]
  | time h ht =>
    rename_i t
    cases hw with
    | time h' ht' =>
      rename_i t'
      have hsec : t'.seconds = t.seconds := by omega
      rw [seconds_injective hsec]
  | timestamp h hdt =>
    rename_i d t
    cases hw with
    | timestamp h' hdt' =>
      rename_i d' t'
      have ht := seconds_lt t
      have ht' := seconds_lt t'
      have hday : d'.number = d.number := by omega
      have hsec : t'.seconds = t.seconds := by omega
      rw [number_injective hday, seconds_injective hsec]
  | text s =>
    generalize hbs : Utf8.encode s = bs at hw
    cases hw with
    | text s' => rw [Utf8.encode_injective hbs]
  | json s =>
    generalize hbs : Utf8.encode s = bs at hw
    cases hw with
    | json s' => rw [Utf8.encode_injective hbs]

/-! ## Numerals -/

/-- **A float is printed as a numeral.** -/
theorem isNumeral_fixedText (p : ℕ) (q : ℚ) : IsNumeral (fixedText p q) := by
  unfold fixedText
  split_ifs
  · exact ⟨true, _, _, decimal_ne_nil _, padZero_ne_nil p _, decimal_digits _, padZero_digits p _, rfl⟩
  · exact ⟨false, _, _, decimal_ne_nil _, padZero_ne_nil p _, decimal_digits _, padZero_digits p _, rfl⟩

/-- **A numeral is read.** -/
theorem parseF64_numeral {s : Str} (h : IsNumeral s) : (parseF64 s).isSome := by
  obtain ⟨neg, whole, fraction, hw, hf, hwd, hfd, rfl⟩ := h
  have habs : (parseF64Abs (whole ++ '.' :: fraction)).isSome := by
    have hdot : Char.isDigit '.' = false := rfl
    have htake : (whole ++ '.' :: fraction).takeWhile Char.isDigit = whole := by
      rw [List.takeWhile_append_of_pos (List.all_eq_true.1 hwd), List.takeWhile_cons, hdot]
      simp
    have hdrop : (whole ++ '.' :: fraction).dropWhile Char.isDigit = '.' :: fraction := by
      rw [List.dropWhile_append_of_pos (List.all_eq_true.1 hwd), List.dropWhile_cons, hdot]
      simp
    have hend : fraction.dropWhile Char.isDigit = [] :=
      List.dropWhile_eq_nil_iff.2 (List.all_eq_true.1 hfd)
    unfold parseF64Abs
    split_ifs
    · rfl
    · rfl
    · simp only [htake, hdrop, hend]
      rw [if_neg (by simp [hw])]
      rfl
  cases neg with
  | true =>
    have hneg : parseF64 ('-' :: (whole ++ '.' :: fraction)) =
        (parseF64Abs (whole ++ '.' :: fraction)).map (· + 2 ^ 63) := rfl
    simpa [hneg] using habs
  | false =>
    obtain ⟨c, r, rfl⟩ := List.exists_cons_of_ne_nil hw
    have hc : c.isDigit := List.all_eq_true.1 hwd c (by simp)
    have hpos : parseF64 (c :: (r ++ '.' :: fraction)) =
        parseF64Abs (c :: (r ++ '.' :: fraction)) := by
      unfold parseF64
      split
      · rename_i heq
        cases heq
        cases hc
      · rename_i heq
        cases heq
        cases hc
      · rfl
    simpa [hpos] using habs

/-! ## Generators -/

/-- Without a literal, the generator of a column fills its type: a cast that contradicts the
name replaces the generator. -/
theorem wt_fromSpec {spec : ColumnSpec} (h : spec.literal = none) (rules : Rules) :
    (Resolved.fromSpec spec rules).wt = wireType (Resolved.fromSpec spec rules).st := by
  unfold Resolved.fromSpec
  rw [h]
  dsimp only
  cases spec.cast with
  | none => rfl
  | some cast =>
    dsimp only
    split_ifs with hc
    · exact (wireType_genericFor cast).symm
    · exact (not_not.1 hc).symm

theorem reads_int4 {ty : IntTy} {lo hi : ℤ} (h : lo < hi) (hlo : -2 ^ 31 ≤ lo) (hhi : hi ≤ 2 ^ 31)
    (rng : C.Rng) : ∃ v, Reads .int4 (drawInt ty lo hi rng).1 v := by
  have hmem := C.range_mem ty lo hi rng h
  exact ⟨_, .int4 ⟨by omega, by omega⟩⟩

theorem reads_int8 {ty : IntTy} {lo hi : ℤ} (h : lo < hi) (hlo : -2 ^ 63 ≤ lo) (hhi : hi ≤ 2 ^ 63)
    (rng : C.Rng) : ∃ v, Reads .int8 (drawInt ty lo hi rng).1 v := by
  have hmem := C.range_mem ty lo hi rng h
  exact ⟨_, .int8 ⟨by omega, by omega⟩⟩

/-- The seconds of an instant are a date and a time. -/
theorem fmtDate_eq (e : ℤ) : ∃ d : Date, fmtDate e = dateText d ∧
    d.number = e / 86400 + unixDay ∧ d.year = (civilFromDays (e / 86400)).1 := by
  obtain ⟨d, hdate, hnumber⟩ := civilFromDays_date (e / 86400)
  refine ⟨d, ?_, hnumber, by rw [hdate]⟩
  unfold fmtDate dateText
  rw [hdate]
  simp

theorem fmtTime_eq (e : ℤ) : ∃ t : Time, fmtTime e = timeText t ∧ (t.seconds : ℤ) = e % 86400 := by
  have hlt : (e % 86400).toNat < 86400 := by omega
  refine ⟨.ofSeconds (e % 86400).toNat hlt, ?_, ?_⟩
  · unfold fmtTime timeText Time.ofSeconds
    simp
  · rw [seconds_ofSeconds]
    omega

/-- The texts of an instant whose year has four digits. -/
theorem epoch_texts {e : ℤ} (hlo : 0 ≤ e) (hhi : e < 2 ^ 37) :
    (∃ d : Date, (0 ≤ d.year ∧ d.year ≤ 9999) ∧ fmtDate e = dateText d) ∧
      ∃ t : Time, fmtTime e = timeText t := by
  obtain ⟨d, hdate, hnumber, -⟩ := fmtDate_eq e
  obtain ⟨t, htime, -⟩ := fmtTime_eq e
  have hunix : unixDay = 719162 := rfl
  have hyear := number_mem_year d
  have hzero : yearStart 0 = -366 := rfl
  have hend : yearStart 10000 = 3652059 := rfl
  refine ⟨⟨d, ⟨?_, ?_⟩, hdate⟩, t, htime⟩
  · by_contra hneg
    have hle : yearStart (d.year + 1) ≤ yearStart 0 := yearStart_mono (by omega)
    omega
  · by_contra hbig
    have hle : yearStart 10000 ≤ yearStart d.year := yearStart_mono (by omega)
    omega

/-- A drawn instant has its year in four digits. -/
theorem randomEpoch_mem (rng : C.Rng) : 0 ≤ (randomEpoch rng).1 ∧ (randomEpoch rng).1 < 2 ^ 37 := by
  have hmem := C.range_mem .i64 0 63113904 rng (by decide)
  have hval : (randomEpoch rng).1 = 1781049600 - (C.randomRange .i64 0 63113904 rng).1 := rfl
  omega

/-- **Every generator writes a text of its type.** -/
theorem reads_generate (hfill : ∀ rng, (C.fill16 rng).1.length = 16)
    (huuid : ∀ b : Bytes, b.length = 16 → ∃ v : Bytes, v.length = 16 ∧ C.uuidText b = hyphenated v)
    (st : SemanticType) (theme : ThemeData) (rng : C.Rng) :
    (wireType st = .float8 ∨ wireType st = .numeric) ∧ IsNumeral (generate st theme rng).1 ∨
      ∃ v, Reads (wireType st) (generate st theme rng).1 v := by
  obtain ⟨⟨d, hyear, hdate⟩, t, htime⟩ := epoch_texts (randomEpoch_mem rng).1 (randomEpoch_mem rng).2
  cases st with
  | idInt | fkInt | intBig | fileSize =>
    exact .inr (reads_int8 (by decide) (by decide) (by decide) rng)
  | intSmall => exact .inr (reads_int4 (by decide) (by decide) (by decide) rng)
  | idUuid =>
    obtain ⟨v, hlen, htext⟩ := huuid _ (hfill rng)
    have hgen : (generate .idUuid theme rng).1 = hyphenated v := htext
    rw [hgen]
    exact .inr ⟨_, .uuid hlen⟩
  | bool =>
    rcases generate_bool theme rng with h | h
    · rw [h]
      exact .inr ⟨_, .yes⟩
    · rw [h]
      exact .inr ⟨_, .no⟩
  | float | lat | lng => exact .inl ⟨.inl rfl, isNumeral_fixedText _ _⟩
  | money | percent => exact .inl ⟨.inr rfl, isNumeral_fixedText _ _⟩
  | date =>
    have hgen : (generate .date theme rng).1 = dateText d := hdate
    rw [hgen]
    exact .inr ⟨_, .date hyear⟩
  | time =>
    have hgen : (generate .time theme rng).1 = timeText t := htime
    rw [hgen]
    exact .inr ⟨_, .time t⟩
  | timestamp =>
    have hgen : (generate .timestamp theme rng).1 = dateText d ++ ' ' :: timeText t := by
      rw [← hdate, ← htime]
      rfl
    rw [hgen]
    exact .inr ⟨_, .timestamp t hyear⟩
  | json => exact .inr ⟨_, .json _⟩
  | email | phone | url | ip | firstName | lastName | fullName | username | company | city
  | country | countryCode | streetAddress | zipcode | color | hexColor | statusEnum | kindEnum
  | slug | passwordHash | loremShort | loremLong | currencyCode | languageCode | mimeType
  | userAgent | creditCard | shortCode | version => exact .inr ⟨_, .text _⟩

/-- **Text and binary results denote the same value.** -/
theorem text_binary_agree (hfill : ∀ rng, (C.fill16 rng).1.length = 16)
    (huuid : ∀ b : Bytes, b.length = 16 → ∃ v : Bytes, v.length = 16 ∧ C.uuidText b = hyphenated v)
    {spec : ColumnSpec} (hspec : spec.literal = none) {rules : Rules} {r : Resolved}
    (hr : binarize [Resolved.fromSpec spec rules] = [r]) (theme : ThemeData) (rng : C.Rng) {t : Str}
    (ht : (genValue r.st r.wt ⟨theme, 0⟩ rng).1 = t) :
    Parses r.wt t ∧ (r.wt = .float8 ∧ IsNumeral t ∨
      ∃ v, (∀ w, Reads r.wt t w ↔ w = v) ∧ ∀ w, Decodes r.wt (textToBinary r.wt t) w ↔ w = v) := by
  rw [genValue_no_fuzz rfl] at ht
  have hwt := wt_fromSpec hspec rules
  obtain ⟨hst, hbin⟩ : r.st = (Resolved.fromSpec spec rules).st ∧
      r.wt = if wireType r.st = .numeric then .float8 else wireType r.st := by
    unfold binarize at hr
    rw [List.map_singleton, List.singleton_inj, hwt] at hr
    split_ifs at hr with hnum
    · subst hr
      exact ⟨rfl, by rw [if_pos hnum]⟩
    · subst hr
      exact ⟨rfl, by rw [if_neg hnum, hwt]⟩
  rcases reads_generate hfill huuid r.st theme rng with ⟨hfloat, hnum⟩ | ⟨v, hreads⟩
  · have hf : r.wt = .float8 := by
      rw [hbin]
      rcases hfloat with h | h <;> rw [h] <;> rfl
    rw [ht] at hnum
    refine ⟨?_, .inl ⟨hf, hnum⟩⟩
    rw [hf]
    exact parseF64_numeral hnum
  · have hsame : wireType r.st = r.wt := by
      rw [hbin]
      split_ifs with h
      · rw [h] at hreads
        cases hreads
      · rfl
    rw [ht, hsame] at hreads
    obtain ⟨hdec, hparses⟩ := decodes_reads hreads
    refine ⟨hparses, .inr ⟨v, fun w => ⟨?_, ?_⟩, fun w => ⟨?_, ?_⟩⟩⟩
    · intro hw
      exact decodes_unique hdec (decodes_reads hw).1
    · rintro rfl
      exact hreads
    · exact decodes_unique hdec
    · rintro rfl
      exact hdec

/-- A cast that contradicts the name of its column. -/
theorem text_binary_agree_cast :
    Parses .uuid "00000000-0000-4000-8000-000000000000" ∧
      (WireType.uuid = .float8 ∧ IsNumeral "00000000-0000-4000-8000-000000000000" ∨
        ∃ v, (∀ w, Reads .uuid "00000000-0000-4000-8000-000000000000" w ↔ w = v) ∧
          ∀ w, Decodes .uuid (textToBinary .uuid "00000000-0000-4000-8000-000000000000") w ↔
            w = v) := by
  have hleast : ("00000000-0000-4000-8000-000000000000" : Str) =
      hyphenated [0, 0, 0, 0, 0, 0, 0x40, 0, 0x80, 0, 0, 0, 0, 0, 0, 0] := by decide
  have hcast : binarize [Resolved.fromSpec ⟨"total", some .uuid, none, false⟩ ⟨[]⟩] =
      [⟨"total", .idUuid, .uuid, none⟩] := by decide
  exact text_binary_agree (C := Crates.least) (fun _ => rfl) (fun _ _ => ⟨_, rfl, hleast⟩) rfl hcast
    genericTheme () (by rw [genValue_no_fuzz rfl]; rfl)

end EtherealDb.Pg
