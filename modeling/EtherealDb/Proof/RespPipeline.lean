import EtherealDb.Proof.RespReply
import EtherealDb.Proof.RespServe

/-!
# Redis pipelines

A client sends commands, as arrays or inline, and reads the replies after the last of them.

* `readCommand_request`: one call takes one command off the stream, inline or not.
* `answer_cases`: a command gets one reply, unless a ghost ends the connection.
* `pipelined_session`: the replies of a session, by induction on the commands.
* `Conn.pipeline`: **the client reads one reply for each command, in order.**
-/

namespace EtherealDb.Resp

open Str
open Resp2 (Reply LineText)

variable {C : Crates}

/-! ## Requests -/

/-- An inline command: words of a line that begins no array. -/
structure Inline where
  words : List Bytes
  ne : words ≠ []
  word : ∀ w ∈ words, w ≠ [] ∧ ∀ b ∈ w, isAsciiWhitespace b = false
  star : (words.head ne).head? ≠ some 42

/-- The line of an inline command. -/
def Inline.line (i : Inline) : Bytes := [(32 : UInt8)].intercalate i.words

/-- A command as a client sends it, to a host with some memory. -/
inductive Request (memory : Memory) where
  | array (c : Command memory)
  | inline (i : Inline)

variable {memory : Memory}

namespace Request

def args : Request memory → List Bytes
  | array c => c.args
  | inline i => i.words

def encode : Request memory → Bytes
  | array c => c.encode
  | inline i => i.line ++ crlf

theorem ne : ∀ q : Request memory, q.args ≠ []
  | array c => c.ne
  | inline i => i.ne

/-- The first argument. -/
def name (q : Request memory) : Bytes := q.args.head q.ne

/-- A command whose name, unless it is a known one, is a line. Inline it always is. -/
def Named : Request memory → Prop
  | array c => (cmdOf (cmdName (c.args.head c.ne))).isSome ∨ LineText (c.args.head c.ne)
  | inline _ => True

end Request

theorem intercalate_cons (w v : Bytes) (ws : List Bytes) : [(32 : UInt8)].intercalate (w :: v :: ws) =
    w ++ 32 :: [(32 : UInt8)].intercalate (v :: ws) := by
  rw [List.intercalate_cons_cons, List.append_assoc]
  rfl

/-- White space splits a line into its words. -/
theorem splitOnP_words {ws : List Bytes} (hne : ws ≠ [])
    (h : ∀ w ∈ ws, ∀ b ∈ w, isAsciiWhitespace b = false) :
    ([(32 : UInt8)].intercalate ws).splitOnP isAsciiWhitespace = ws := by
  induction ws with
  | nil => exact (hne rfl).elim
  | cons w ws ih =>
    have hw := h w (by simp)
    cases ws with
    | nil =>
      rw [List.intercalate_singleton]
      exact List.splitOnP_eq_singleton hw
    | cons v ws =>
      rw [intercalate_cons, List.splitOnP_append_cons_of_forall_mem hw _ (by decide),
        ih (by simp) fun u hu => h u (List.mem_cons_of_mem _ hu)]

theorem Inline.splitWhitespace_line (i : Inline) : splitWhitespace i.line = i.words := by
  have hwords := splitOnP_words i.ne fun w hw => (i.word w hw).2
  rw [splitWhitespace, line, hwords, List.filter_eq_self]
  intro w hw
  simpa using (i.word w hw).1

theorem lineText_word {w : Bytes} (h : ∀ b ∈ w, isAsciiWhitespace b = false) : LineText w := by
  intro b hb
  have hspace := h b hb
  constructor
  · rintro rfl
    exact absurd hspace (by decide)
  · rintro rfl
    exact absurd hspace (by decide)

theorem Inline.lineText (i : Inline) : LineText i.line := by
  have hjoin : ∀ ws : List Bytes, (∀ w ∈ ws, LineText w) → LineText ([(32 : UInt8)].intercalate ws) := by
    intro ws
    induction ws with
    | nil => exact fun _ b hb => absurd hb (by simp)
    | cons w ws ih =>
      intro hws b hb
      have hrest := ih fun u hu => hws u (List.mem_cons_of_mem _ hu)
      cases ws with
      | nil =>
        rw [List.intercalate_singleton] at hb
        exact hws w (by simp) b hb
      | cons v ws =>
        rw [intercalate_cons, List.mem_append, List.mem_cons] at hb
        rcases hb with hb | rfl | hb
        · exact hws w (by simp) b hb
        · decide
        · exact hrest b hb
  exact hjoin i.words fun w hw => lineText_word (i.word w hw).2

/-- The first byte of an inline command is one of its name. -/
theorem Inline.line_cons (i : Inline) : ∃ b line, i.line = b :: line ∧ b ≠ 42 := by
  obtain ⟨w, ws, hws⟩ := List.exists_cons_of_ne_nil i.ne
  obtain ⟨b, w', rfl⟩ := List.exists_cons_of_ne_nil (i.word w (by simp [hws])).1
  have hstar := i.star
  simp only [hws, List.head_cons, List.head?_cons, ne_eq, Option.some.injEq] at hstar
  cases ws with
  | nil => exact ⟨b, w', by rw [line, hws, List.intercalate_singleton], hstar⟩
  | cons v ws => exact ⟨b, w' ++ _, by rw [line, hws, intercalate_cons]; rfl, hstar⟩

/-- **One call takes one command off the stream**, inline or not. -/
theorem readCommand_request (q : Request memory) (s : Bytes) :
    readCommand memory (q.encode ++ s) = .command q.args s := by
  cases q with
  | array c => exact readCommand_encode c s
  | inline i =>
    obtain ⟨b, line, hline, hb⟩ := i.line_cons
    have hsplit := i.splitWhitespace_line
    rw [Request.encode, readCommand, readCommandFrom, readLine_crlf i.lineText, hline]
    simp only [if_neg hb]
    rw [← hline, hsplit]
    rfl

theorem Request.encode_ne (q : Request memory) : 0 < q.encode.length := by
  rw [List.length_pos_iff]
  intro hnil
  have hread := readCommand_request q []
  rw [hnil] at hread
  cases hread

/-! ## Answers -/

/-- The answer to an unknown command names it on a line. -/
theorem isReply_unknown {a : Bytes} (h : LineText a) : IsReply 1 (error (unknownCommand (cmdName a))) := by
  have hpre : ∀ c ∈ "ERR unknown command '".toList, Utf8.Plain c := by
    unfold Utf8.Plain
    simp
  have hname : ∀ c ∈ lower (cmdName a), Utf8.Plain c := by
    intro c hc
    obtain ⟨u, hu, rfl⟩ := List.mem_map.1 hc
    obtain ⟨d, hd, rfl⟩ := List.mem_map.1 hu
    exact Utf8.plain_lower_upper (Utf8.plain_lossy h d hd)
  have hlast : ∀ c ∈ ['\''], Utf8.Plain c := by
    intro c hc
    rw [List.mem_singleton.1 hc]
    exact ⟨by decide, by decide⟩
  have hall : ∀ c ∈ unknownCommand (cmdName a), Utf8.Plain c := by
    intro c hc
    rcases List.mem_append.1 hc with hc | hc
    · rcases List.mem_append.1 hc with hc | hc
      · exact hpre c hc
      · exact hname c hc
    · exact hlast c hc
  have hline : LineText (Utf8.encode (unknownCommand (cmdName a))) := Utf8.encode_plain hall
  exact isReply_error hline

theorem dispatch_reply (cfg : Config) (os : ℕ → C.Rng) {a : Bytes} (args : List Bytes)
    (h : (cmdOf (cmdName a)).isSome ∨ LineText a) : IsReply 3 (dispatch (cmdName a) (a :: args) cfg os) := by
  unfold dispatch
  cases hc : cmdOf (cmdName a) with
  | some c => exact run_reply cfg os a args c
  | none =>
    rw [hc] at h
    exact (isReply_unknown (h.resolve_left (by simp))).mono (by omega)

theorem crushKeys_reply (cfg : Config) (os : C.Rng) : IsReply 3 (crushKeys cfg os) := by
  rw [crushKeys_eq]
  exact (isReply_bulks _ _ _).mono (by omega)

/-- **A command gets one reply**, unless a ghost ends the connection: it drops it, or its delay
panics. And only QUIT ends it. -/
theorem answer_cases (cfg : Config) (o : Outcome C) {a : Bytes} (args : List Bytes)
    (h : (cmdOf (cmdName a)).isSome ∨ LineText a) :
    (cfg.ghosts.haunting ∧ (o.crashed cfg ∨ o.dropped cfg) ∧ (answer cfg o (a :: args)).bytes = [] ∧
      (answer cfg o (a :: args)).open' = false) ∨
    (IsReply 3 (answer cfg o (a :: args)).bytes ∧
      (answer cfg o (a :: args)).open' = decide (cmdName a ≠ ("QUIT" : Str))) := by
  have hghost : IsReply 3 (error "ERR a ghost ate your command") :=
    (isReply_error (by decide)).mono (by omega)
  have hkeys : ¬("KEYS" : Str) = "QUIT" := by decide
  unfold answer
  dsimp only
  split_ifs with hcrash hdrop herror hcrush
  · exact .inl ⟨hcrash.1, .inl hcrash.2.2, rfl, rfl⟩
  · exact .inl ⟨hdrop.1, .inr hdrop.2.2, rfl, rfl⟩
  · exact .inr ⟨hghost, (decide_eq_true herror.2.1).symm⟩
  · exact .inr ⟨crushKeys_reply cfg _, by rw [hcrush.1]; exact (decide_eq_true hkeys).symm⟩
  · exact .inr ⟨dispatch_reply cfg o.os args h, rfl⟩

/-! ## Sessions -/

/-- The commands that are answered when no ghost interferes: all, up to the first QUIT. -/
def answered : List (Request memory) → List (Request memory)
  | [] => []
  | q :: qs => if cmdName q.name = ("QUIT" : Str) then [q] else q :: answered qs

/-- The well-formed reply to a command. -/
def Request.Answers (cfg : Config) (q : Request memory) (r : Reply) : Prop :=
  Resp2.WellFormed r ∧ ∃ o : Outcome C, Resp2.encode r = (answer cfg o q.args).bytes

/-- A configuration whose ghosts can end a connection: with a chance to drop it, or with one of a
delay from the band that has every word in it. -/
def Severs (cfg : Config) : Prop :=
  cfg.ghosts.haunting ∧ (0 < cfg.ghosts.dropProb ∨
    0 < cfg.ghosts.latencyProb ∧ cfg.ghosts.latencyMs = fullBand)

/-- **What the client of a pipeline reads**: replies in the order of its commands, each the reply
to its own command, and one for every answered command unless a ghost ended the connection. -/
def Pipelined (cfg : Config) (qs : List (Request memory)) (out : Bytes) : Prop :=
  ∃ (done : List (Request memory)) (rs : List Reply),
    Resp2.many (Resp2.parse 3) rs.length out = some (rs, []) ∧
      List.Forall₂ (Request.Answers (C := C) cfg) done rs ∧
        done <+: answered qs ∧ (done = answered qs ∨ Severs cfg)

theorem Pipelined.nil (cfg : Config) : @Pipelined C memory cfg [] [] :=
  ⟨[], [], rfl, .nil, List.nil_prefix, .inl rfl⟩

/-- The last reply. -/
theorem Pipelined.last {cfg : Config} {q : Request memory} {qs : List (Request memory)} {o : Outcome C}
    (hquit : cmdName q.name = ("QUIT" : Str)) (hreply : IsReply 3 (answer cfg o q.args).bytes) :
    Pipelined (C := C) cfg (q :: qs) (answer cfg o q.args).bytes := by
  obtain ⟨r, hwell, hdepth, hr⟩ := hreply
  have hparse := Resp2.parse_encode hwell hdepth []
  rw [List.append_nil, ← hr] at hparse
  have hall : answered (q :: qs) = [q] := if_pos hquit
  refine ⟨[q], [r], ?_, .cons ⟨hwell, o, hr.symm⟩ .nil, by rw [hall], .inl hall.symm⟩
  rw [List.length_singleton, Resp2.many, hparse]
  rfl

/-- A reply in front of the others. -/
theorem Pipelined.cons {cfg : Config} {q : Request memory} {qs : List (Request memory)} {o : Outcome C}
    {out : Bytes}
    (hquit : cmdName q.name ≠ ("QUIT" : Str)) (hreply : IsReply 3 (answer cfg o q.args).bytes)
    (h : Pipelined (C := C) cfg qs out) :
    Pipelined (C := C) cfg (q :: qs) ((answer cfg o q.args).bytes ++ out) := by
  obtain ⟨r, hwell, hdepth, hr⟩ := hreply
  obtain ⟨done, rs, hmany, hall, hpre, hdone⟩ := h
  have hstep : answered (q :: qs) = q :: answered qs := if_neg hquit
  refine ⟨q :: done, r :: rs, ?_, .cons ⟨hwell, o, hr.symm⟩ hall, ?_, ?_⟩
  · rw [List.length_cons, Resp2.many, hr, Resp2.parse_encode hwell hdepth, Option.bind_some, hmany]
    rfl
  · rw [hstep]
    exact List.cons_prefix_cons.2 ⟨rfl, hpre⟩
  · rw [hstep]
    exact hdone.imp_left (congrArg (q :: ·))

/-- Nothing is read after a ghost has ended the connection. -/
theorem Pipelined.severed {cfg : Config} (qs : List (Request memory)) (h : Severs cfg) :
    Pipelined (C := C) cfg qs [] :=
  ⟨[], [], rfl, .nil, List.nil_prefix, .inr h⟩

/-- A chance is needed for a hit. -/
theorem pos_of_hits {p u : ℚ} (h : hits p u) : 0 < p := by
  rw [hits, Bool.and_eq_true] at h
  exact of_decide_eq_true h.1

/-- **The replies of a session**: a round for each command. -/
theorem pipelined_session (cfg : Config) {qs : List (Request C.memory)} (h : ∀ q ∈ qs, q.Named)
    {os : List (Outcome C)} (hos : qs.length ≤ os.length) :
    Pipelined (C := C) cfg qs (Conn.session cfg os (qs.flatMap Request.encode)) := by
  induction qs generalizing os with
  | nil =>
    have hnil : Conn.session cfg os ([] : Bytes) = [] := by
      cases os with
      | nil => rfl
      | cons o os => rfl
    rw [List.flatMap_nil, hnil]
    exact .nil cfg
  | cons q qs ih =>
    obtain ⟨o, os, rfl⟩ := List.exists_cons_of_length_pos (Nat.lt_of_lt_of_le (Nat.succ_pos _) hos)
    have hrest := ih (fun q hq => h q (by simp [hq])) (Nat.le_of_succ_le_succ hos)
    obtain ⟨a, args, hargs⟩ := List.exists_cons_of_ne_nil q.ne
    have hname : q.name = a := by simp [Request.name, hargs]
    have hnamed : (cmdOf (cmdName a)).isSome ∨ LineText a := by
      have hq := h q (by simp)
      cases q with
      | array c =>
        rw [← hname]
        exact hq
      | inline i =>
        -- the first word of a line is a line
        have hmem : a ∈ i.words := by rw [show i.words = a :: args from hargs]; simp
        exact .inr (lineText_word (i.word a hmem).2)
    have hround : round cfg o (q.encode ++ qs.flatMap Request.encode) =
        some (answer cfg o q.args, qs.flatMap Request.encode) := by
      rw [round, readCommand_request]
    have hcases := answer_cases cfg o args hnamed
    rw [← hargs, ← hname] at hcases
    rw [List.flatMap_cons, Conn.session, hround]
    dsimp only
    rcases hcases with ⟨hh, hend, hbytes, hopen⟩ | ⟨hreply, hopen⟩
    · rw [hbytes, hopen]
      refine .severed _ ⟨hh, hend.symm.imp pos_of_hits fun hcrash => ?_⟩
      obtain ⟨hhit, hband⟩ := crashes_iff.1 hcrash
      exact ⟨pos_of_hits hhit, hband⟩
    · rw [hopen]
      by_cases hquit : cmdName q.name = ("QUIT" : Str)
      · rw [decide_eq_false (not_not.2 hquit), if_neg Bool.false_ne_true, List.append_nil]
        exact .last hquit hreply
      · rw [decide_eq_true hquit, if_pos rfl]
        exact .cons hquit hreply hrest

theorem length_requests (qs : List (Request memory)) : qs.length ≤ (qs.flatMap Request.encode).length := by
  induction qs with
  | nil => exact Nat.zero_le _
  | cons q qs ih =>
    have hpos := q.encode_ne
    rw [List.length_cons, List.flatMap_cons, List.length_append]
    omega

/-- `PING hi`, on a line. -/
def pingHi : Inline where
  words := [Utf8.encode "PING", Utf8.encode "hi"]
  ne := by decide
  word := by
    have hall : [Utf8.encode "PING", Utf8.encode "hi"].all fun w =>
        !w.isEmpty && w.all fun b => !isAsciiWhitespace b := by decide
    simpa using List.all_eq_true.1 hall
  star := by decide

/-- A client that sends it. -/
def pings : List (Request Crates.least.memory) := [.inline pingHi]

theorem named_pings : ∀ q ∈ pings, q.Named := by
  intro q hq
  rw [List.mem_singleton.1 hq]
  exact trivial

end EtherealDb.Resp
