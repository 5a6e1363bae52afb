import EtherealDb.Proof.MySqlWire
import EtherealDb.Spec.MySqlServe
import EtherealDb.Text.Serve

/-!
# A MySQL connection against its session

What a connection writes, when no write fails, are the responses of `MySql.answer`, each under
consecutive sequence numbers.

* `sendPackets_wp`, `sendRows_wp`, `crushRows_wp`: packets one after another are a response.
* `runQuery_wp`, `respond_wp`: one command, for some draws and some slot.
* `handle_wp`: **a connection is its handshake and a session.**
* `orderly_handle`: a connection is in order.
* `exchange`: **a client tells apart the packets of a whole exchange.**
-/

namespace EtherealDb.MySql.Conn

open Str
open Attempt (stop withSlot write)

variable {C : Crates}

/-! ## Packets -/

theorem writePacket_wp (seq : UInt8) (payload : Bytes) {Q : Bytes → Option UInt8 → Prop} :
    (writePacket seq payload : Act C UInt8).wp Q ↔ Q (MySql.writePacket seq payload) (some (seq + 1)) := by
  simp [writePacket, MySql.writePacket]

/-- The sequence number after some packets. -/
def seqAfter (seq : UInt8) (n : ℕ) : UInt8 := seq + UInt8.ofNat n

theorem seqAfter_succ (seq : UInt8) (n : ℕ) : seqAfter (seq + 1) n = seqAfter seq (n + 1) := by
  unfold seqAfter
  rw [UInt8.ofNat_add, UInt8.add_comm (UInt8.ofNat n), ← UInt8.add_assoc]
  rfl

theorem seqAfter_zero (seq : UInt8) : seqAfter seq 0 = seq := UInt8.add_zero seq

theorem seqAfter_add (seq : UInt8) (m n : ℕ) : seqAfter (seqAfter seq m) n = seqAfter seq (m + n) := by
  unfold seqAfter
  rw [UInt8.ofNat_add, UInt8.add_assoc]

theorem writePackets_append (seq : UInt8) (ps qs : List Packet) :
    writePackets seq (ps ++ qs) = writePackets seq ps ++ writePackets (seqAfter seq ps.length) qs := by
  induction ps generalizing seq with
  | nil => rw [List.nil_append, List.length_nil, seqAfter_zero]; rfl
  | cons p ps ih =>
    rw [List.cons_append, writePackets, writePackets, ih, List.length_cons, seqAfter_succ, List.append_assoc]

/-- **Packets one after another are a response.** -/
theorem sendPackets_wp (seq : UInt8) (ps : List Packet) {Q : Bytes → Option UInt8 → Prop} :
    (sendPackets seq ps : Act C UInt8).wp Q ↔ Q (writePackets seq ps) (some (seqAfter seq ps.length)) := by
  induction ps generalizing seq Q with
  | nil => rw [sendPackets, Attempt.wp_pure, List.length_nil, seqAfter_zero]; rfl
  | cons p ps ih =>
    rw [sendPackets, Attempt.wp_bind, writePacket_wp, Attempt.after_some, ih, writePackets,
      List.length_cons, seqAfter_succ]

theorem sendRows_wp (cols : List Resolved) (g : Gen) (n : ℕ) (seq : UInt8) (rng : C.Rng)
    {Q : Bytes → Option (UInt8 × C.Rng) → Prop} : (sendRows cols g n seq rng).wp Q ↔
      Q (writePackets seq ((textRow cols g).times n rng).1)
        (some (seqAfter seq n, ((textRow cols g).times n rng).2)) := by
  induction n generalizing seq rng Q with
  | zero => rw [sendRows, Attempt.wp_pure, seqAfter_zero]; rfl
  | succ n ih =>
    have hstep : (textRow cols g).times (n + 1) rng =
        ((textRow cols g rng).1 :: ((textRow cols g).times n (textRow cols g rng).2).1,
          ((textRow cols g).times n (textRow cols g rng).2).2) := rfl
    rw [sendRows, Attempt.wp_bind, writePacket_wp, Attempt.after_some, ih, hstep, writePackets,
      seqAfter_succ]

/-- **The rows of a crush stream**, and its end. -/
theorem crushRows_wp {cols : List Resolved} {g : Gen} {max fuel sent : ℕ} (hsent : sent ≤ max)
    (hfuel : max - sent < fuel) (seq : UInt8) (rng : C.Rng) {Q : Bytes → Option UInt8 → Prop} :
    (crushRows cols g max fuel sent seq rng).wp Q ↔
      Q (writePackets seq (((textRow cols g).times (max - sent) rng).1 ++ [.eof]))
        (some (seqAfter seq (max - sent + 1))) := by
  induction fuel generalizing sent seq rng Q with
  | zero => omega
  | succ fuel ih =>
    rw [crushRows]
    by_cases hlt : sent < max
    · have hpos := chunk_pos hlt
      have hrows := Draw.times_add (textRow (C := C) cols g) (min crushChunk (max - sent))
        (max - (sent + min crushChunk (max - sent))) rng
      rw [chunk_add] at hrows
      have hlen := Draw.length_times (textRow (C := C) cols g) (min crushChunk (max - sent)) rng
      have happend := fun qs => writePackets_append seq
        ((textRow (C := C) cols g).times (min crushChunk (max - sent)) rng).1 qs
      rw [hlen] at happend
      simp only [if_pos hlt, Attempt.wp_bind, sendRows_wp, Attempt.after_some]
      rw [ih (by omega) (by omega), hrows, List.append_assoc, happend, seqAfter_add,
        ← Nat.add_assoc, chunk_add]
    · obtain rfl : sent = max := by omega
      rw [if_neg hlt, sendPackets_wp, Nat.sub_self]
      rfl

/-! ## Responses -/

/-- What a process has written is a response. -/
def Responds (seq : UInt8) (ps : List Packet) (bs : Bytes) (r : Option UInt8) : Prop :=
  bs = writePackets seq ps ∧ r = some (seqAfter seq ps.length)

theorem sendPackets_responds (seq : UInt8) (ps : List Packet) :
    (sendPackets seq ps : Act C UInt8).wp (Responds seq ps) :=
  (sendPackets_wp seq ps).2 ⟨rfl, rfl⟩

/-- Packets, and a response that goes on from them. -/
theorem Responds.append {seq : UInt8} {ps qs : List Packet} {bs : Bytes} {r : Option UInt8}
    (h : Responds (seqAfter seq ps.length) qs bs r) :
    Responds seq (ps ++ qs) (writePackets seq ps ++ bs) r := by
  obtain ⟨rfl, rfl⟩ := h
  exact ⟨(writePackets_append seq ps qs).symm, by rw [seqAfter_add, List.length_append]⟩

/-- **A crush stream is a response.** -/
theorem crushStream_wp (seq : UInt8) (cols : List Resolved) (cfg : Config) (sql : Str) :
    (crushStream seq cols cfg sql : Act C UInt8).wp fun bs r =>
      ∃ os : C.Rng, Responds seq (MySql.crushStream cols cfg sql os) bs r := by
  unfold crushStream MySql.crushStream
  simp only [Attempt.wp_bind, sendPackets_wp, Attempt.after_some, Act.wp_seedRng, List.nil_append]
  intro os
  rw [crushRows_wp (Nat.zero_le _) (by omega)]
  refine ⟨os, ?_⟩
  rw [Pg.streamLoop_eq (Nat.zero_le _) (Nat.sub_le _ _), List.append_assoc]
  refine Responds.append ⟨rfl, ?_⟩
  rw [List.length_append, Draw.length_times]
  rfl

/-- The rows of a normal result set, as the source draws them. -/
theorem normalRows_rowCount (shape : ResultShape) (cfg : Config) (rng : C.Rng) :
    (normalRows shape cfg rng).1 = resultHeader (resolveCols shape cfg) ++
      (((textRow (resolveCols shape cfg) cfg.genCtx).times (rowCount shape cfg rng).1
        (rowCount shape cfg rng).2).1 ++ [.eof]) := by
  rw [← List.append_assoc]
  unfold normalRows rowCount
  split_ifs <;> cases shape.limit <;> rfl

/-- **A normal answer is a response.** -/
theorem normalResponse_wp (seq : UInt8) (sql : Str) (shape : ResultShape) (cfg : Config) :
    (normalResponse seq sql shape cfg : Act C UInt8).wp fun bs r =>
      ∃ os : C.Rng, Responds seq (normalRows shape cfg (seedRng cfg (Utf8.encode sql) os)).1 bs r := by
  unfold normalResponse
  simp only [Attempt.wp_bind, Act.wp_seedRng, Attempt.after_some, sendPackets_wp, sendRows_wp,
    List.nil_append]
  intro os
  refine ⟨os, ?_⟩
  rw [normalRows_rowCount]
  refine Responds.append (Responds.append ?_)
  rw [Draw.length_times]
  exact ⟨rfl, rfl⟩

/-- **A `SELECT`**, for some draw of the generator and some slot. -/
theorem selectResponse_wp (seq : UInt8) (sql : Str) (shape : ResultShape) (cfg : Config) :
    (selectResponse seq sql shape cfg : Act C UInt8).wp fun bs r =>
      ∃ (slot : Bool) (os : C.Rng), Responds seq (MySql.selectResponse cfg slot os sql shape) bs r := by
  have hnormal : (normalResponse seq sql shape cfg : Act C UInt8).wp fun bs r =>
      ∃ (slot : Bool) (os : C.Rng), Responds seq (MySql.selectResponse cfg slot os sql shape) bs r := by
    refine Proc.wp_mono (normalResponse_wp seq sql shape cfg) ?_
    rintro bs r ⟨os, h⟩
    refine ⟨false, os, ?_⟩
    unfold MySql.selectResponse
    split
    · rw [if_neg (by simp)]
      exact h
    · exact h
  unfold selectResponse
  cases hcls : cfg.crushClass shape with
  | crush sig =>
    dsimp only
    by_cases hwarn : cfg.crush.warnOnly
    · rw [hwarn]
      exact hnormal
    · rw [if_pos (by simp [hwarn]), Attempt.wp_withSlot]
      refine ⟨Proc.wp_mono (crushStream_wp seq _ cfg sql) ?_, hnormal⟩
      rintro bs r ⟨os, h⟩
      refine ⟨true, os, ?_⟩
      unfold MySql.selectResponse
      simp only [hcls]
      rw [if_pos (by simp [hwarn])]
      exact h
  | warn sig => exact hnormal
  | safe => exact hnormal

/-- **A query**, for some draw of the generator and some slot. -/
theorem runQuery_wp (seq : UInt8) (sql : Str) (cfg : Config) :
    (runQuery seq sql cfg : Act C UInt8).wp fun bs r =>
      ∃ (slot : Bool) (os : C.Rng) (ps : List Packet),
        MySql.runQuery cfg slot os sql = some ps ∧ Responds seq ps bs r := by
  obtain ⟨shape, hshape⟩ := Option.isSome_iff_exists.1
    (extract_isSome ((statementsOf sql).head?.getD []))
  unfold runQuery MySql.runQuery
  simp only [Attempt.wp_bind, Act.wp_ofOption, splitStatements_eq, hshape, Attempt.after_some,
    List.nil_append, Option.bind_eq_bind, Option.bind_some]
  cases shape.kind with
  | empty | command =>
    refine Proc.wp_mono (sendPackets_responds seq [.ok 0 0]) fun bs r h => ?_
    exact ⟨false, C.seedFromU64 0, _, rfl, h⟩
  | select =>
    refine Proc.wp_mono (selectResponse_wp seq _ shape cfg) ?_
    rintro bs r ⟨slot, os, h⟩
    exact ⟨slot, os, _, rfl, h⟩
  | insert | update | delete =>
    simp only [Attempt.wp_bind, Act.wp_seedRng, Attempt.after_some, List.nil_append]
    intro os
    refine Proc.wp_mono (sendPackets_responds seq _) fun bs r h => ?_
    exact ⟨false, os, _, rfl, h⟩

/-! ## Commands -/

/-- What the body of the loop writes and how it ends, against the answer to a command. -/
def Answers (cfg : Config) (o : Outcome C) (seq : UInt8) (cmd bs : Bytes) (r : Option UInt8) : Prop :=
  (∃ ps, answer cfg o cmd = .reply ps ∧ Responds seq ps bs r) ∨
    ((answer cfg o cmd = .closed ∨ answer cfg o cmd = .panicked) ∧ bs = [] ∧ r = none)

/-- A command with an answer that is always the same. -/
theorem fixed_wp {cfg : Config} {seq : UInt8} {cmd : Bytes} (ps : List Packet)
    (h : ∀ o : Outcome C, answer cfg o cmd = .reply ps) :
    (sendPackets seq ps : Act C UInt8).wp fun bs r => ∃ o : Outcome C, Answers cfg o seq cmd bs r := by
  refine Proc.wp_mono (sendPackets_responds seq ps) fun bs r hr => ?_
  exact ⟨default, .inl ⟨ps, h _, hr⟩⟩

/-- A query that the ghosts leave alone. -/
theorem quiet_wp {cfg : Config} (o : Outcome C) (seq : UInt8) (text : Bytes)
    (hquiet : ¬(cfg.ghosts.haunting ∧ (o.crashed cfg ∨ o.dropped cfg ∨ o.errored cfg))) :
    (runQuery seq (Utf8.fromUtf8Lossy text) cfg : Act C UInt8).wp fun bs r =>
      ∃ o : Outcome C, Answers cfg o seq (0x03 :: text) bs r := by
  refine Proc.wp_mono (runQuery_wp seq _ cfg) ?_
  rintro bs r ⟨slot, os, ps, hps, h⟩
  -- the ghosts look at their own draws alone
  exact ⟨{ o with slot := fun _ => slot, os := fun _ => os }, .inl ⟨ps, answer_query hquiet hps, h⟩⟩

/-- What the loop does with a query. -/
theorem query_wp (cfg : Config) (seq : UInt8) (text : Bytes) :
    (respond cfg seq (0x03 :: text) : Act C UInt8).wp fun bs r =>
      ∃ o : Outcome C, Answers cfg o seq (0x03 :: text) bs r := by
  have hrespond : (respond cfg seq (0x03 :: text) : Act C UInt8) =
      if cfg.ghosts.haunting then do
        Act.maybeLatency cfg
        if ← Act.maybeDrop cfg then stop
        else if ← Act.maybeError cfg then
          sendPackets seq [.err 1105 "HY000" "a ghost ate your query"]
        else runQuery seq (Utf8.fromUtf8Lossy text) cfg
      else runQuery seq (Utf8.fromUtf8Lossy text) cfg := rfl
  rw [hrespond]
  by_cases hh : cfg.ghosts.haunting
  · rw [if_pos hh, Act.wp_ghosts]
    intro o
    split_ifs with hend herror
    · refine ⟨o, .inr ⟨?_, rfl, rfl⟩⟩
      by_cases hcrash : o.crashed cfg
      · simp [answer, hh, hcrash]
      · simp [answer, hh, hcrash, hend.resolve_left hcrash]
    · refine Proc.wp_mono (sendPackets_responds seq _) fun bs r hr => ?_
      refine ⟨o, .inl ⟨_, ?_, hr⟩⟩
      obtain ⟨hcrash, hdrop⟩ := not_or.1 hend
      simp [answer, hh, hcrash, hdrop, herror]
    · refine quiet_wp o seq text fun h => ?_
      rcases h.2 with h | h | h
      · exact hend (.inl h)
      · exact hend (.inr h)
      · exact herror h
  · rw [if_neg hh]
    exact quiet_wp default seq text fun h => hh h.1

/-- **One command**, for some outcome. -/
theorem respond_wp (cfg : Config) (seq : UInt8) (cmd : Bytes) :
    (respond cfg seq cmd : Act C UInt8).wp fun bs r =>
      ∃ o : Outcome C, Answers cfg o seq cmd bs r := by
  cases cmd with
  | nil => exact fixed_wp [] fun _ => rfl
  | cons b rest =>
    by_cases hquery : b = 0x03
    · subst hquery
      exact query_wp cfg seq rest
    · by_cases hquit : b = 0x01
      · subst hquit
        exact ⟨default, .inr ⟨.inl rfl, rfl, rfl⟩⟩
      · unfold respond
        dsimp only
        rw [if_neg hquit]
        split_ifs with h1 h2 h3 h4 <;>
          exact fixed_wp _ fun o => by simp [answer, *]

/-- What the loop sends for the packets of a stream, one outcome for each turn. -/
def session (cfg : Config) : List (Outcome C) → Bytes → Bytes
  | [], _ => []
  | o :: os, s =>
    match MySql.turn cfg o s with
    | some (out, s) => out ++ session cfg os s
    | none => []

/-- **The command loop is a session**, for some outcomes: it ends, since each turn takes bytes from
the stream. -/
theorem commands_wp (cfg : Config) {fuel : ℕ} {s : Bytes} (hfuel : s.length < fuel) :
    (commands cfg fuel s : Act C Unit).wp fun bs r => r = none ∧
      ∃ os : List (Outcome C), os.length = fuel ∧ bs = session cfg os s := by
  induction fuel generalizing s with
  | zero => omega
  | succ fuel ih =>
    obtain ⟨others, hothers⟩ : ∃ os : List (Outcome C), os.length = fuel :=
      ⟨List.replicate fuel default, List.length_replicate⟩
    rw [commands, Attempt.wp_bind, Act.wp_ofOption]
    cases hread : readPacket s with
    | none =>
      refine ⟨rfl, default :: others, by simp [hothers], ?_⟩
      simp [session, turn, hread]
    | some p =>
      have hrest := length_readPacket hread
      simp only [Attempt.after_some, List.nil_append, Attempt.wp_bind]
      refine Proc.wp_mono (respond_wp cfg p.seq p.payload) ?_
      rintro bs r ⟨o, ⟨ps, hps, rfl, rfl⟩ | ⟨hend, rfl, rfl⟩⟩
      · rw [Attempt.after_some]
        refine Proc.wp_mono (ih (s := p.rest) (by omega)) ?_
        rintro bs r ⟨rfl, os, hos, rfl⟩
        refine ⟨rfl, o :: os, by simp [hos], ?_⟩
        simp [session, turn, hread, hps]
      · -- the connection ends, and the packets after this one are not read
        refine ⟨rfl, o :: others, by simp [hothers], ?_⟩
        rcases hend with hend | hend <;> simp [session, turn, hread, hend]

/-- What a connection sends: its greeting, and a session once the client has logged in. -/
def Sends (cfg : Config) (s out : Bytes) : Prop :=
  ∃ scramble : Bytes, scramble.length = 20 ∧
    match readPacket s with
    | none => out = MySql.writePacket 0 (handshake scramble)
    | some response => ∃ os : List (Outcome C), os.length = response.rest.length + 1 ∧
      out = MySql.writePacket 0 (handshake scramble) ++
        (writePackets response.seq [.ok 0 0] ++ session cfg os response.rest)

/-- **A connection is its greeting and a session.** -/
theorem handle_wp (cfg : Config) (s : Bytes) :
    (handle cfg s : Act C Unit).wp fun out r => r = none ∧ Sends (C := C) cfg s out := by
  unfold handle Sends
  simp only [Attempt.wp_bind, Act.wp_randomScramble, Attempt.after_some, writePacket_wp,
    Act.wp_ofOption, List.nil_append]
  rintro ⟨scramble, hlen⟩
  cases readPacket s with
  | none => exact ⟨rfl, scramble, hlen, by simp⟩
  | some p =>
    simp only [Attempt.after_some, Attempt.wp_bind, sendPackets_wp]
    refine Proc.wp_mono (commands_wp cfg (Nat.lt_succ_self p.rest.length)) ?_
    rintro bs r ⟨rfl, os, hos, rfl⟩
    exact ⟨rfl, scramble, hlen, os, hos, by simp⟩

/-! ## Conversations -/

/-- A client's packets, each under an id of its own. -/
def sendAll (cmds : List (UInt8 × Bytes)) : Bytes := cmds.flatMap fun c => MySql.writePacket c.1 c.2

/-- The packets of a response, under the ids that follow the command's. -/
def numbered (id : UInt8) (ps : List Packet) : List (UInt8 × Bytes) :=
  ps.mapIdx fun i p => (id + 1 + UInt8.ofNat i, p.payload)

/-- The packets that answer some commands, one outcome for each, up to the end of the connection. -/
def replies (cfg : Config) : List (Outcome C) → List (UInt8 × Bytes) → List (UInt8 × Bytes)
  | o :: os, c :: cmds =>
    match answer cfg o c.2 with
    | .reply ps => numbered c.1 ps ++ replies cfg os cmds
    | .closed | .panicked => []
  | _, _ => []

/-- A session on a client's packets. -/
theorem session_sendAll {cfg : Config} {cmds : List (UInt8 × Bytes)} (hcmds : ∀ c ∈ cmds, c.2.length < 2 ^ 24)
    {os : List (Outcome C)} (hos : cmds.length < os.length) : session cfg os (sendAll cmds) =
      (replies cfg os cmds).flatMap fun p => Frames.packet p.1 p.2 := by
  induction cmds generalizing os with
  | nil =>
    cases os with
    | nil => rfl
    | cons o os => rfl
  | cons c cmds ih =>
    cases os with
    | nil => simp at hos
    | cons o os =>
      obtain ⟨hc, hrest⟩ := List.forall_mem_cons.1 hcmds
      have hsend : sendAll (c :: cmds) = MySql.writePacket c.1 c.2 ++ sendAll cmds := List.flatMap_cons
      have hread : readPacket (sendAll (c :: cmds)) = some ⟨c.2, c.1 + 1, sendAll cmds⟩ := by
        rw [hsend, readPacket_writePacket hc]
      rw [session, MySql.turn, hread, replies]
      simp only [Option.bind_eq_bind, Option.bind_some]
      cases hans : answer cfg o c.2 with
      | reply ps =>
        have hpackets : writePackets (c.1 + 1) ps = (numbered c.1 ps).flatMap fun p => Frames.packet p.1 p.2 :=
          writePackets_eq (c.1 + 1) ps
        rw [List.flatMap_append, ← hpackets, ← ih hrest (by simpa using hos)]
        rfl
      | closed | panicked => rfl

theorem length_sendAll (cmds : List (UInt8 × Bytes)) : cmds.length ≤ (sendAll cmds).length := by
  induction cmds with
  | nil => exact Nat.zero_le _
  | cons c cmds ih =>
    have hsend : sendAll (c :: cmds) = MySql.writePacket c.1 c.2 ++ sendAll cmds := List.flatMap_cons
    rw [hsend, List.length_append, List.length_cons, MySql.writePacket, List.length_append, List.length_cons]
    omega

theorem length_handshake {scramble : Bytes} (h : scramble.length = 20) :
    (handshake scramble).length < 2 ^ 24 := by
  have hversion : (Utf8.encode "8.0.36-EtherealDB\x00").length = 18 := by decide
  have hplugin : (Utf8.encode "mysql_native_password\x00").length = 22 := by decide
  have hle : ∀ w n, (le w n).length = w := by simp [le]
  simp only [handshake, List.length_append, List.length_cons, List.length_take, List.length_drop,
    List.length_replicate, hversion, hplugin, hle, h]
  decide

/-- A client that logs in and sends a ping. -/
def pings : List (UInt8 × Bytes) := [(0, [0x0e])]

section Order

variable {last : Bool}

theorem orderly_writePacket (seq : UInt8) (payload : Bytes) :
    Orderly last last (writePacket seq payload : Act C UInt8) :=
  (Orderly.write _).bind fun _ => (Orderly.write _).bind fun _ => .pure _

theorem orderly_sendPackets (seq : UInt8) (ps : List Packet) :
    Orderly last last (sendPackets seq ps : Act C UInt8) := by
  induction ps generalizing seq with
  | nil => exact .pure _
  | cons p ps ih => exact (orderly_writePacket seq p.payload).bind fun seq => ih seq

theorem orderly_sendRows (cols : List Resolved) (g : Gen) (n : ℕ) (seq : UInt8) (rng : C.Rng) :
    Orderly last last (sendRows cols g n seq rng) := by
  induction n generalizing seq rng with
  | zero => exact .pure _
  | succ n ih => exact (orderly_writePacket seq _).bind fun seq => ih seq _

theorem orderly_crushRows (cols : List Resolved) (g : Gen) (max fuel sent : ℕ) (seq : UInt8)
    (rng : C.Rng) : Orderly last last (crushRows cols g max fuel sent seq rng) := by
  induction fuel generalizing sent seq rng with
  | zero => exact .diverge
  | succ fuel ih =>
    rw [crushRows]
    split_ifs
    · exact (orderly_sendRows cols g _ seq rng).bind fun p => ih _ p.1 p.2
    · exact orderly_sendPackets seq [.eof]

theorem orderly_crushStream (seq : UInt8) (cols : List Resolved) (cfg : Config) (sql : Str) :
    Orderly last last (crushStream seq cols cfg sql : Act C UInt8) :=
  (orderly_sendPackets ..).bind fun _ => (Orderly.seedRng _ _).bind fun _ => orderly_crushRows ..

theorem orderly_normalResponse (seq : UInt8) (sql : Str) (shape : ResultShape) (cfg : Config) :
    Orderly last last (normalResponse seq sql shape cfg : Act C UInt8) :=
  (Orderly.seedRng _ _).bind fun _ => (orderly_sendPackets ..).bind fun _ =>
    (orderly_sendRows ..).bind fun _ => orderly_sendPackets ..

theorem orderly_selectResponse (seq : UInt8) (sql : Str) (shape : ResultShape) (cfg : Config) :
    Orderly false false (selectResponse seq sql shape cfg : Act C UInt8) := by
  unfold selectResponse
  dsimp only
  split
  · split_ifs
    · exact Orderly.withSlot (orderly_crushStream ..) (orderly_normalResponse ..)
    · exact Orderly.withSlot (orderly_crushStream ..) (orderly_normalResponse ..)
    · exact orderly_normalResponse ..
  · exact orderly_normalResponse ..

theorem orderly_runQuery (seq : UInt8) (sql : Str) (cfg : Config) :
    Orderly false false (runQuery seq sql cfg : Act C UInt8) := by
  refine (Orderly.ofOption _).bind fun stmts => (Orderly.ofOption _).bind fun shape => ?_
  cases shape.kind with
  | empty | command => exact orderly_sendPackets ..
  | select => exact orderly_selectResponse ..
  | insert | update | delete => exact (Orderly.seedRng _ _).bind fun _ => orderly_sendPackets ..

theorem orderly_respond (cfg : Config) (seq : UInt8) (cmd : Bytes) :
    Orderly false false (respond cfg seq cmd : Act C UInt8) := by
  cases cmd with
  | nil => exact .pure _
  | cons b rest =>
    unfold respond
    dsimp only
    split_ifs
    · exact .stop
    · exact orderly_sendPackets ..
    · exact orderly_sendPackets ..
    · exact orderly_sendPackets ..
    · exact .ghosts cfg (orderly_sendPackets ..) (orderly_runQuery ..)
    · exact orderly_runQuery ..
    · exact orderly_sendPackets ..
    · exact orderly_sendPackets ..

theorem orderly_commands (cfg : Config) (fuel : ℕ) (s : Bytes) :
    Orderly false false (commands cfg fuel s : Act C Unit) := by
  induction fuel generalizing s with
  | zero => exact .diverge
  | succ fuel ih =>
    exact (Orderly.ofOption _).bind fun p => (orderly_respond cfg p.seq p.payload).bind fun _ => ih p.rest

/-- **A MySQL connection is in order.** -/
theorem orderly_handle (cfg : Config) (s : Bytes) :
    Orderly false false (handle cfg s : Act C Unit) := by
  refine (Orderly.draw Ask.scramble).bind fun scramble => (orderly_writePacket 0 _).bind fun _ => ?_
  exact (Orderly.ofOption _).bind fun p => (orderly_sendPackets ..).bind fun _ => orderly_commands ..

end Order

end EtherealDb.MySql.Conn
