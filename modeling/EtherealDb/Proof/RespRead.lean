import EtherealDb.Spec.Resp
import EtherealDb.Text.Resp2

/-!
# Reading Redis commands

* `readLine_crlf`: a header line ends at its CR LF.
* `readArgs_bulks`: length-prefixed arguments are read back, whatever bytes they hold.
* `readCommand_encode`: one call takes one command off the stream.
* `readCommands_encode`: **a pipeline of commands is read back, one per call.**
* `readCommand_ends_iff`: **a call panics exactly on a declared size that the allocator has no
  room for.**
-/

namespace EtherealDb.Resp

open Str
open Resp2 (natBytes LineText)

variable {memory : Memory}

/-- A decimal is written with the same bytes by the server and by the grammar. -/
theorem encode_decimal (n : ℕ) : Utf8.encode (decimal n) = natBytes n := by
  have hascii : ∀ c ∈ decimal n, c.toNat < 128 := by
    intro c hc
    have := (isDigit_iff c).1 (isDigit_of_mem_decimal hc)
    omega
  unfold natBytes Resp2.ascii
  change Utf8.encode (decimal n) = (decimal n).map _
  generalize decimal n = s at hascii
  induction s with
  | nil => rfl
  | cons c s ih =>
    rw [Utf8.encode_cons, Utf8.encode_ascii (hascii c (by simp)), ih fun d hd =>
      hascii d (by simp [hd])]
    rfl

/-- **A header line ends at its CR LF.** -/
theorem readLine_crlf {t : Bytes} (h : LineText t) (s : Bytes) :
    readLine (t ++ crlf ++ s) = some (t, s) := by
  have hsplit : t ++ crlf ++ s = (t ++ [13]) ++ 10 :: s := by simp [crlf]
  have hlf : ∀ b ∈ t ++ [13], (decide (b ≠ 10)) = true := by
    intro b hb
    rcases List.mem_append.1 hb with hb | hb
    · simpa using (h b hb).2
    · rw [List.mem_singleton.1 hb]; decide
  have htake : ((t ++ [13]) ++ 10 :: s).takeWhile (· ≠ 10) = t ++ [13] := by
    rw [List.takeWhile_append_of_pos hlf]
    simp
  have hdrop : ((t ++ [13]) ++ 10 :: s).dropWhile (· ≠ 10) = 10 :: s := by
    rw [List.dropWhile_append_of_pos hlf]
    simp
  have htrim : (t ++ [13] ++ [10]).rdropWhile (fun b => decide (b = 10 ∨ b = 13)) = t := by
    rw [List.rdropWhile_concat_pos _ _ _ (by decide), List.rdropWhile_concat_pos _ _ _ (by decide),
      List.rdropWhile_eq_self_iff]
    intro hne
    have := h _ (List.getLast_mem hne)
    simp [this.1, this.2]
  unfold readLine
  rw [if_neg (by simp [crlf]), hsplit]
  simp only [htake, hdrop]
  rw [show (10 :: s).take 1 = [10] from rfl, htrim]
  rfl

/-- A length is read back. -/
theorem parseInt_natBytes {n : ℕ} (h : n < 2 ^ 63) : parseInt (natBytes n) = some (n : ℤ) := by
  rw [← encode_decimal, parseInt, Utf8.fromUtf8_encode, Option.bind_some, trim_decimal,
    parseSigned_decimal h]

theorem lineText_cons {b : UInt8} (hb : b ≠ 13 ∧ b ≠ 10) (n : ℕ) : LineText (b :: natBytes n) := by
  intro c hc
  rcases List.mem_cons.1 hc with rfl | hc
  · exact hb
  · exact Resp2.lineText_natBytes n c hc

/-- **Length-prefixed arguments are read back**, whatever bytes they hold. -/
theorem readArgs_bulks {as : List Bytes} (h : ∀ a ∈ as, a.length + 2 ≤ memory.vector)
    (acc : List Bytes) (s : Bytes) :
    readArgs memory as.length acc ((as.map .bulk).flatMap Resp2.encode ++ s) = .command (acc ++ as) s := by
  induction as generalizing acc with
  | nil => simp [readArgs]
  | cons a as ih =>
    have ha := h a (by simp)
    have hlen : a.length < 2 ^ 63 := by
      have hmax := memory.vector_le
      unfold isizeMax at hmax
      omega
    -- the header line, the payload with its line end, and the arguments after it
    set rest := (as.map Resp2.Reply.bulk).flatMap Resp2.encode ++ s with hrest
    have hbytes : ((a :: as).map Resp2.Reply.bulk).flatMap Resp2.encode ++ s =
        (36 :: natBytes a.length) ++ crlf ++ (a ++ (crlf ++ rest)) := by
      simp [Resp2.encode, hrest, Resp2.crlf, crlf]
    have hpay : ¬(a ++ (crlf ++ rest)).length < a.length + 2 := by
      simp [crlf]
    have htake : (a ++ (crlf ++ rest)).take a.length = a := List.take_left
    have hdrop : (a ++ (crlf ++ rest)).drop (a.length + 2) = rest := by
      rw [← List.drop_drop, List.drop_left]; rfl
    rw [hbytes, List.length_cons, readArgs, readLine_crlf (lineText_cons (by decide) _)]
    simp only [List.head?_cons, List.tail_cons, parseInt_natBytes hlen, Option.getD_some,
      Int.toNat_natCast, htake, hdrop]
    rw [if_neg (by simp), if_neg (by omega), if_neg (by omega), if_neg hpay,
      ih fun b hb => h b (by simp [hb])]
    simp

/-- A command that the server holds in memory: an argument takes a slot of 24 bytes, and its
payload with the line end fits one buffer. -/
structure Command (memory : Memory) where
  args : List Bytes
  ne : args ≠ []
  slots : args.length * 24 ≤ memory.vector
  buffers : ∀ a ∈ args, a.length + 2 ≤ memory.vector

/-- The bytes of a command: an array of bulk strings. -/
def Command.encode (c : Command memory) : Bytes := Resp2.encode (.array (c.args.map .bulk))

/-- **One call takes one command off the stream.** -/
theorem readCommand_encode (c : Command memory) (s : Bytes) :
    readCommand memory (c.encode ++ s) = .command c.args s := by
  have hlen : c.args.length < 2 ^ 63 := by
    have hslots := c.slots
    have hmax := memory.vector_le
    unfold isizeMax at hmax
    omega
  have hpos : 0 < c.args.length := List.length_pos_of_ne_nil c.ne
  have hbytes : c.encode ++ s = (42 :: natBytes c.args.length) ++ crlf ++
      ((c.args.map .bulk).flatMap Resp2.encode ++ s) := by
    simp [Command.encode, Resp2.encode, Resp2.crlf, crlf]
  rw [hbytes, readCommand, readCommandFrom, readLine_crlf (lineText_cons (by decide) _)]
  simp only [parseInt_natBytes hlen, Option.getD_some, Int.toNat_natCast, if_true]
  rw [if_neg (by omega), if_neg (by have := c.slots; omega), readArgs_bulks c.buffers]
  rfl

/-- The commands that `n` calls of `read_command` return, and the bytes left; `none` when
a call returns no command. -/
def readCommands (memory : Memory) : ℕ → Bytes → Option (List (List Bytes) × Bytes)
  | 0, s => some ([], s)
  | n + 1, s =>
    match readCommand memory s with
    | .command args rest => (readCommands memory n rest).map fun p => (args :: p.1, p.2)
    | _ => none

/-- **A pipeline of commands is read back**: each call returns the next command and takes
exactly its bytes, and a call at the end of the stream returns none. -/
theorem readCommands_encode (cs : List (Command memory)) (rest : Bytes) :
    readCommands memory cs.length (cs.flatMap Command.encode ++ rest) =
        some (cs.map Command.args, rest) ∧
      readCommand memory [] = .closed := by
  refine ⟨?_, rfl⟩
  induction cs with
  | nil => rfl
  | cons c cs ih =>
    rw [List.length_cons, readCommands, List.flatMap_cons, List.append_assoc, readCommand_encode]
    simp only [ih]
    rfl

/-! ## Declared sizes -/

/-- The buffers that a client has the reader request for `k` arguments, in bytes: a payload
with its line end. The reader comes to one when the payloads before it are there. -/
inductive Buffers : ℕ → Bytes → ℕ → Prop where
  | here {k : ℕ} {s rest hdr : Bytes} (hline : readLine s = some (36 :: hdr, rest))
    (hlen : 0 ≤ (parseInt hdr).getD (-1)) :
    Buffers (k + 1) s (((parseInt hdr).getD (-1)).toNat + 2)
  | null {k n : ℕ} {s rest hdr : Bytes} (hline : readLine s = some (36 :: hdr, rest))
    (hlen : (parseInt hdr).getD (-1) < 0) (h : Buffers k rest n) : Buffers (k + 1) s n
  | next {k n : ℕ} {s rest hdr : Bytes} (hline : readLine s = some (36 :: hdr, rest))
    (hlen : 0 ≤ (parseInt hdr).getD (-1))
    (hpay : ((parseInt hdr).getD (-1)).toNat + 2 ≤ rest.length)
    (h : Buffers k (rest.drop (((parseInt hdr).getD (-1)).toNat + 2)) n) : Buffers (k + 1) s n

/-- **The sizes that a client declares in a command**, in bytes: a slot of 24 bytes for each
argument, and the buffers of the arguments. -/
inductive Declares : Bytes → ℕ → Prop where
  | blank {n : ℕ} {s rest : Bytes} (hline : readLine s = some ([], rest)) (h : Declares rest n) :
    Declares s n
  | slots {s rest line : Bytes} (hline : readLine s = some (42 :: line, rest))
    (hcount : 0 < (parseInt line).getD 0) : Declares s (((parseInt line).getD 0).toNat * 24)
  | buffer {n : ℕ} {s rest line : Bytes} (hline : readLine s = some (42 :: line, rest))
    (hcount : 0 < (parseInt line).getD 0)
    (h : Buffers ((parseInt line).getD 0).toNat rest n) : Declares s n

/-- A line takes a byte at least. -/
theorem length_readLine {s line rest : Bytes} (h : readLine s = some (line, rest)) :
    rest.length < s.length := by
  unfold readLine at h
  split_ifs at h with hne
  obtain ⟨-, rfl⟩ := Prod.mk.inj (Option.some.inj h)
  have hlen := congrArg List.length (List.takeWhile_append_dropWhile (p := (· ≠ 10)) (l := s))
  have hpos := List.length_pos_iff.2 hne
  rw [List.length_append] at hlen
  rw [List.length_drop]
  cases hdrop : s.dropWhile (· ≠ 10) with
  | nil => simpa using hpos
  | cons b r =>
    rw [hdrop, List.length_cons] at hlen
    simp only [List.length_cons]
    omega

/-- Arguments are taken off the stream. -/
theorem length_readArgs {k : ℕ} {acc args : List Bytes} {s rest : Bytes}
    (h : readArgs memory k acc s = .command args rest) : rest.length ≤ s.length := by
  induction k generalizing acc s with
  | zero =>
    obtain ⟨-, rfl⟩ := Read.command.inj h
    exact le_rfl
  | succ k ih =>
    rw [readArgs] at h
    split at h
    · cases h
    · rename_i hdr s' hline
      have hlt := length_readLine hline
      dsimp only at h
      split_ifs at h
      · obtain ⟨-, rfl⟩ := Read.command.inj h
        exact hlt.le
      · exact (ih h).trans hlt.le
      · have hle := ih h
        rw [List.length_drop] at hle
        omega

/-- **A command takes a line off the stream at least.** -/
theorem length_readCommand {args : List Bytes} {s rest : Bytes}
    (h : readCommand memory s = .command args rest) : rest.length < s.length := by
  suffices hfrom : ∀ fuel s, readCommandFrom memory fuel s = .command args rest → rest.length < s.length from
    hfrom _ s h
  intro fuel
  induction fuel with
  | zero => exact fun s h => by cases h
  | succ fuel ih =>
    intro s h
    rw [readCommandFrom] at h
    split at h
    · cases h
    · rename_i s' hline
      exact (ih _ h).trans (length_readLine hline)
    · rename_i b line s' hline
      have hlt := length_readLine hline
      dsimp only at h
      split_ifs at h
      · obtain ⟨-, rfl⟩ := Read.command.inj h
        exact hlt
      · exact (length_readArgs h).trans_lt hlt
      · obtain ⟨-, rfl⟩ := Read.command.inj h
        exact hlt

/-- What the next header declares: nothing when it is negative, else its own buffer, and those
behind its payload when that is there. -/
theorem buffers_iff {k n : ℕ} {s hdr rest : Bytes} (hline : readLine s = some (36 :: hdr, rest)) :
    Buffers (k + 1) s n ↔
      (parseInt hdr).getD (-1) < 0 ∧ Buffers k rest n ∨
      0 ≤ (parseInt hdr).getD (-1) ∧ (n = ((parseInt hdr).getD (-1)).toNat + 2 ∨
        ((parseInt hdr).getD (-1)).toNat + 2 ≤ rest.length ∧
          Buffers k (rest.drop (((parseInt hdr).getD (-1)).toNat + 2)) n) := by
  constructor
  · intro h
    cases h with
    | here h hlen =>
      rw [hline] at h
      cases h
      exact .inr ⟨hlen, .inl rfl⟩
    | null h hlen hn =>
      rw [hline] at h
      cases h
      exact .inl ⟨hlen, hn⟩
    | next h hlen hpay hn =>
      rw [hline] at h
      cases h
      exact .inr ⟨hlen, .inr ⟨hpay, hn⟩⟩
  · rintro (⟨hlen, hn⟩ | ⟨hlen, rfl | ⟨hpay, hn⟩⟩)
    · exact .null hline hlen hn
    · exact .here hline hlen
    · exact .next hline hlen hpay hn

/-- A line that is no header declares nothing. -/
theorem not_buffers {k n : ℕ} {s : Bytes} (h : ∀ hdr rest, readLine s ≠ some (36 :: hdr, rest)) :
    ¬Buffers (k + 1) s n := by
  intro hn
  cases hn with
  | here hline | null hline | next hline => exact h _ _ hline

/-- The loop over the arguments panics on a buffer that is too large. -/
theorem readArgs_panicked_iff (k : ℕ) (args : List Bytes) (s : Bytes) :
    readArgs memory k args s = .panicked ↔ ∃ n, Buffers k s n ∧ memory.vector < n := by
  induction k generalizing args s with
  | zero =>
    refine iff_of_false (by simp [readArgs]) ?_
    rintro ⟨n, hn, -⟩
    cases hn
  | succ k ih =>
    rw [readArgs]
    cases hline : readLine s with
    | none =>
      refine iff_of_false (by simp) ?_
      rintro ⟨n, hn, -⟩
      exact not_buffers (by simp [hline]) hn
    | some p =>
      obtain ⟨line, rest⟩ := p
      dsimp only
      by_cases hhead : line.head? = some 36
      · obtain ⟨hdr, rfl⟩ : ∃ hdr, line = 36 :: hdr := List.head?_eq_some_iff.1 hhead
        rw [if_neg (by simp), List.tail_cons]
        simp only [buffers_iff hline]
        split_ifs with hneg hbig hshort
        · rw [ih]
          simp only [hneg, not_le.2 hneg, true_and, false_and, or_false]
        · exact iff_of_true rfl ⟨_, .inr ⟨not_lt.1 hneg, .inl rfl⟩, hbig⟩
        · refine iff_of_false (by simp) ?_
          rintro ⟨n, ⟨hlen, -⟩ | ⟨-, rfl | ⟨hpay, -⟩⟩, hlt⟩
          · exact hneg hlen
          · exact hbig hlt
          · exact absurd hpay (not_le.2 hshort)
        · rw [ih]
          constructor
          · rintro ⟨n, hn, hlt⟩
            exact ⟨n, .inr ⟨not_lt.1 hneg, .inr ⟨not_lt.1 hshort, hn⟩⟩, hlt⟩
          · rintro ⟨n, ⟨hlen, -⟩ | ⟨-, rfl | ⟨-, hn⟩⟩, hlt⟩
            · exact absurd hlen hneg
            · exact absurd hlt hbig
            · exact ⟨n, hn, hlt⟩
      · rw [if_pos hhead]
        refine iff_of_false (by simp) ?_
        rintro ⟨n, hn, -⟩
        refine not_buffers ?_ hn
        rintro hdr rest' h
        rw [hline] at h
        obtain ⟨rfl, -⟩ := Prod.mk.inj (Option.some.inj h)
        exact hhead rfl

/-- A blank line declares nothing itself. -/
theorem declares_blank {n : ℕ} {s rest : Bytes} (hline : readLine s = some ([], rest)) :
    Declares s n ↔ Declares rest n := by
  constructor
  · intro h
    cases h with
    | blank h hn =>
      rw [hline] at h
      cases h
      exact hn
    | slots h | buffer h =>
      rw [hline] at h
      cases h
  · exact .blank hline

/-- What another line declares: the slots and the buffers of an array that is not empty. -/
theorem declares_line {n : ℕ} {s line rest : Bytes} {b : UInt8}
    (hline : readLine s = some (b :: line, rest)) :
    Declares s n ↔ b = 42 ∧ 0 < (parseInt line).getD 0 ∧
      (n = ((parseInt line).getD 0).toNat * 24 ∨ Buffers ((parseInt line).getD 0).toNat rest n) := by
  constructor
  · intro h
    cases h with
    | blank h =>
      rw [hline] at h
      cases h
    | slots h hcount =>
      rw [hline] at h
      cases h
      exact ⟨rfl, hcount, .inl rfl⟩
    | buffer h hcount hn =>
      rw [hline] at h
      cases h
      exact ⟨rfl, hcount, .inr hn⟩
  · rintro ⟨rfl, hcount, rfl | hn⟩
    · exact .slots hline hcount
    · exact .buffer hline hcount hn

/-- The loop of `read_command`, with a round for each byte. -/
theorem readCommandFrom_panicked_iff (fuel : ℕ) (s : Bytes) (hfuel : s.length < fuel) :
    readCommandFrom memory fuel s = .panicked ↔ ∃ n, Declares s n ∧ memory.vector < n := by
  induction fuel generalizing s with
  | zero => omega
  | succ fuel ih =>
    unfold readCommandFrom
    cases hline : readLine s with
    | none =>
      refine iff_of_false (by simp) ?_
      rintro ⟨n, hn, -⟩
      cases hn with
      | blank h | slots h | buffer h => rw [hline] at h; cases h
    | some p =>
      obtain ⟨line, rest⟩ := p
      have hlt := length_readLine hline
      cases line with
      | nil =>
        -- a blank line is skipped
        dsimp only
        rw [ih rest (by omega)]
        simp only [declares_blank hline]
      | cons b line =>
        dsimp only
        simp only [declares_line hline]
        split_ifs with hstar hcount hslots
        · refine iff_of_false (by simp) ?_
          rintro ⟨n, ⟨-, hpos, -⟩, -⟩
          omega
        · exact iff_of_true rfl ⟨_, ⟨hstar, not_le.1 hcount, .inl rfl⟩, hslots⟩
        · rw [readArgs_panicked_iff]
          constructor
          · rintro ⟨n, hn, hbig⟩
            exact ⟨n, ⟨hstar, not_le.1 hcount, .inr hn⟩, hbig⟩
          · rintro ⟨n, ⟨-, -, rfl | hn⟩, hbig⟩
            · exact absurd hbig hslots
            · exact ⟨n, hn, hbig⟩
        · refine iff_of_false (by simp) ?_
          rintro ⟨n, ⟨hb, -⟩, -⟩
          exact hstar hb

/-- **A call ends with a command or an error exactly when every size that the client declares
to it fits the allocator.** -/
theorem readCommand_ends_iff (memory : Memory) (s : Bytes) :
    readCommand memory s ≠ .panicked ↔ ∀ n, Declares s n → n ≤ memory.vector := by
  rw [readCommand, ne_eq, readCommandFrom_panicked_iff _ s (Nat.lt_succ_self _)]
  push Not
  exact Iff.rfl

/-- **One header line is enough**: an array of too many arguments, or an argument that is too
long. -/
theorem readCommand_panics :
    readCommand .most (Utf8.encode "*9223372036854775807\r\n") = .panicked ∧
      readCommand .most (Utf8.encode "*1\r\n$9223372036854775807\r\n") = .panicked := by
  constructor
  · decide +kernel
  · decide +kernel

end EtherealDb.Resp
