import EtherealDb.Proof.PgValue

/-!
# Formatted instants encode again

The generators write an instant as a text, and the binary path reads that text back.

* `instants_encode`: **both forms of a timestamp, a date or a time name one instant**, where
  the results fit their integer types.
-/

namespace EtherealDb.Pg

open Calendar

variable {e : ℤ}

/-- A timestamp is the text of its date and its time. -/
theorem fmtTimestamp_eq (e : ℤ) : ∃ (d : Date) (t : Time),
    fmtTimestamp e = dateText d ++ ' ' :: timeText t ∧
      (d.number - millennium.number) * 86400 + t.seconds = e - 946684800 ∧
      d.number - unixDay = e / 86400 ∧ d.year = (civilFromDays (e / 86400)).1 := by
  obtain ⟨d, hdate, hnumber, hyear⟩ := fmtDate_eq e
  obtain ⟨t, htime, hseconds⟩ := fmtTime_eq e
  have hmill := millennium_number
  refine ⟨d, t, ?_, ?_, by omega, hyear⟩
  · rw [fmtTimestamp, hdate, htime]
  · -- the seconds of the day are what the division leaves
    omega

theorem reencode_timestamp (hyear : 0 ≤ (civilFromDays (e / 86400)).1)
    (hlo : -2 ^ 63 ≤ (e - 946684800) * 1000000) (hhi : (e - 946684800) * 1000000 < 2 ^ 63) :
    (parseTimestamp (fmtTimestamp e)).map Int64.toInt = some ((e - 946684800) * 1000000) := by
  obtain ⟨d, t, htext, hmicros, hdays, hd⟩ := fmtTimestamp_eq e
  have hfits : Unwrapped (d.number - unixDay) := by
    constructor <;> omega
  rw [← hmicros] at hlo hhi ⊢
  rw [htext, parseTimestamp_micros t (by rwa [hd]) hfits hlo hhi]

theorem reencode_date (hyear : 0 ≤ (civilFromDays (e / 86400)).1)
    (hlo : -2 ^ 31 ≤ e / 86400 - 10957) (hhi : e / 86400 - 10957 < 2 ^ 31) :
    textToBinary .date (fmtDate e) = beInt 4 (e / 86400 - 10957) := by
  obtain ⟨d, htext, hnumber, hd⟩ := fmtDate_eq e
  have hmill := millennium_number
  have hfits : Unwrapped (d.number - unixDay) := by
    constructor <;> omega
  have hdays : d.number - millennium.number = e / 86400 - 10957 := by omega
  rw [htext, (date_binary (by rwa [hd]) hfits (by omega)).1, hdays]

theorem reencode_time (e : ℤ) :
    textToBinary .time (fmtTime e) = beInt 8 (e % 86400 * 1000000) := by
  obtain ⟨t, htext, hseconds⟩ := fmtTime_eq e
  rw [htext, (time_binary t).1, hseconds]

/-- **Formatted instants encode again.** The text and the binary form of a timestamp, of a
date and of a time name the same instant. -/
theorem instants_encode (hyear : 0 ≤ (civilFromDays (e / 86400)).1) :
    (-2 ^ 63 ≤ (e - 946684800) * 10 ^ 6 ∧ (e - 946684800) * 10 ^ 6 < 2 ^ 63 →
      (parseTimestamp (fmtTimestamp e)).map Int64.toInt = some ((e - 946684800) * 10 ^ 6) ∧
        textToBinary .timestamp (fmtTimestamp e) = beInt 8 ((e - 946684800) * 10 ^ 6)) ∧
      (-2 ^ 31 ≤ e / 86400 - 10957 ∧ e / 86400 - 10957 < 2 ^ 31 →
        textToBinary .date (fmtDate e) = beInt 4 (e / 86400 - 10957)) ∧
      textToBinary .time (fmtTime e) = beInt 8 (e % 86400 * 10 ^ 6) := by
  have hmicro : (10 : ℤ) ^ 6 = 1000000 := by decide
  rw [hmicro]
  refine ⟨?_, fun h => reencode_date hyear h.1 h.2, reencode_time e⟩
  rintro ⟨hlo, hhi⟩
  have hparse := reencode_timestamp hyear hlo hhi
  refine ⟨hparse, ?_⟩
  rw [textToBinary, hparse, Option.getD_some]

/-- The second before 1970. -/
theorem instants_encode_before :
    (parseTimestamp (fmtTimestamp (-1))).map Int64.toInt = some (-946684801 * 10 ^ 6) :=
  ((instants_encode (e := -1) (by decide)).1 (by decide)).1

end EtherealDb.Pg
