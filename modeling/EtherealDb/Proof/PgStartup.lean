import EtherealDb.Proof.PgServe
import EtherealDb.Proof.PgWire

/-!
# The first bytes of a Postgres connection

* `Opens`: the grammar of what a client sends before its commands.
* `startup_opens`, `startup_closed`: **the startup phase accepts exactly this grammar**, and
  declines to encrypt once for each request.
* `login_params`: the parameters of a startup message are read back.
* `handle_wp`: **a connection is its startup, the greeting, and a session.**
* `frames_append`, `frames_spec`: the messages of a stream are the frames that it begins with.
-/

namespace EtherealDb.Pg.Conn

open Str
open Attempt (stop write)

variable {C : Crates}

/-! ## The startup phase -/

/-- **What a client sends before its commands**: any number of requests to encrypt, of any
declared length, and a startup message. The number of requests, the parameters, and the bytes
after them. -/
inductive Opens : Bytes → ℕ → Bytes → Bytes → Prop where
  | message {params rest : Bytes} (hlen : params.length + 8 ≤ maxMsg) :
    Opens (beInt 4 ((params.length + 8 : ℕ) : ℤ) ++ (beInt 4 protoV3 ++ (params ++ rest))) 0 params rest
  | request {len code : ℤ} {s params rest : Bytes} {n : ℕ} (hlo : 8 ≤ len) (hhi : len ≤ maxMsg)
    (hcode : code = sslRequest ∨ code = gssencRequest) (h : Opens s n params rest) :
    Opens (beInt 4 len ++ (beInt 4 code ++ s)) (n + 1) params rest

/-- The answers to so many requests. -/
def declines (n : ℕ) : Bytes := List.replicate n 78

/-- A length or a code of the startup phase is read back. -/
theorem readInt_four {x : ℤ} (hlo : 0 ≤ x) (hhi : x < 2 ^ 31) (s : Bytes) :
    readInt 4 (beInt 4 x ++ s) = some (x, s) :=
  readInt_beInt (by decide) (by omega) (by simpa using hhi) s

theorem encode_N : Utf8.encode ("N" : Str) = [78] := by decide

/-- One round on a request to encrypt. -/
theorem startup_request {fuel : ℕ} {len code : ℤ} (hlo : 8 ≤ len) (hhi : len ≤ maxMsg)
    (hcode : code = sslRequest ∨ code = gssencRequest) (s : Bytes)
    {Q : Bytes → Option (Login × Bytes) → Prop} :
    (startup (fuel + 1) (beInt 4 len ++ (beInt 4 code ++ s)) : Act C (Login × Bytes)).wp Q ↔
      (startup fuel s : Act C (Login × Bytes)).wp fun out => Q (78 :: out) := by
  have hlen : ¬(len < 8 ∨ (maxMsg : ℤ) < len) := by omega
  have hread : readInt 4 (beInt 4 code ++ s) = some (code, s) := by
    unfold sslRequest gssencRequest at hcode
    exact readInt_four (by omega) (by omega) s
  unfold maxMsg at hhi
  rw [startup, Attempt.wp_bind, Act.wp_ofOption, readInt_four (by omega) (by omega), Attempt.after_some]
  simp only [if_neg hlen, Attempt.wp_bind, Act.wp_ofOption, hread, Attempt.after_some, if_pos hcode,
    Attempt.wp_write, encode_N, List.nil_append, List.singleton_append]

/-- The round on a startup message. -/
theorem startup_message {fuel : ℕ} {params : Bytes} (hlen : params.length + 8 ≤ maxMsg) (rest : Bytes)
    {Q : Bytes → Option (Login × Bytes) → Prop} :
    (startup (fuel + 1) (beInt 4 ((params.length + 8 : ℕ) : ℤ) ++ (beInt 4 protoV3 ++ (params ++ rest))) :
      Act C (Login × Bytes)).wp Q ↔ Q [] (some (login params, rest)) := by
  have hok : ¬(((params.length + 8 : ℕ) : ℤ) < 8 ∨ (maxMsg : ℤ) < ((params.length + 8 : ℕ) : ℤ)) := by
    omega
  have hread : readInt 4 (beInt 4 protoV3 ++ (params ++ rest)) = some (protoV3, params ++ rest) :=
    readInt_four (by decide) (by decide) _
  have hnat : (((params.length + 8 : ℕ) : ℤ) - 8).toNat = params.length := by omega
  unfold maxMsg at hlen
  rw [startup, Attempt.wp_bind, Act.wp_ofOption, readInt_four (by omega) (by omega), Attempt.after_some]
  simp only [if_neg hok, Attempt.wp_bind, Act.wp_ofOption, hread, Attempt.after_some, hnat,
    takeN_append, List.nil_append]
  rw [if_neg (by decide), if_neg (by decide), if_true]
  simp only [Attempt.wp_bind, Act.wp_ofOption, Attempt.after_some, Attempt.wp_pure, List.nil_append]

/-- **A stream of the grammar is accepted.** -/
theorem startup_opens {s params rest : Bytes} {n fuel : ℕ} (h : Opens s n params rest)
    (hfuel : s.length < fuel) {Q : Bytes → Option (Login × Bytes) → Prop} :
    (startup fuel s : Act C (Login × Bytes)).wp Q ↔ Q (declines n) (some (login params, rest)) := by
  induction h generalizing fuel Q with
  | @message params rest hlen =>
    cases fuel with
    | zero => omega
    | succ fuel => exact startup_message hlen rest
  | @request len code s params rest n hlo hhi hcode h ih =>
    cases fuel with
    | zero => omega
    | succ fuel =>
      simp only [List.length_append, length_beInt] at hfuel
      rw [startup_request hlo hhi hcode, ih (by omega)]
      rfl

/-- A stream that begins with a request to encrypt. -/
def Asking (s : Bytes) : Prop := ∃ (len code : ℤ) (t : Bytes), 8 ≤ len ∧ len ≤ maxMsg ∧
  (code = sslRequest ∨ code = gssencRequest) ∧ s = beInt 4 len ++ (beInt 4 code ++ t)

/-- The requests to encrypt that a stream begins with, and the bytes after them. -/
inductive Asks : Bytes → ℕ → Bytes → Prop where
  | nil {s : Bytes} (h : ¬Asking s) : Asks s 0 s
  | cons {len code : ℤ} {s rest : Bytes} {n : ℕ} (hlo : 8 ≤ len) (hhi : len ≤ maxMsg)
    (hcode : code = sslRequest ∨ code = gssencRequest) (h : Asks s n rest) :
    Asks (beInt 4 len ++ (beInt 4 code ++ s)) (n + 1) rest

/-- What a stream that begins with a request reads as. -/
theorem Asking.reads {s : Bytes} (h : Asking s) : ∃ len code t u, readInt 4 s = some (len, t) ∧
    readInt 4 t = some (code, u) ∧ 8 ≤ len ∧ len ≤ maxMsg ∧ (code = sslRequest ∨ code = gssencRequest) := by
  obtain ⟨len, code, t, hlo, hhi, hcode, rfl⟩ := h
  have hread : readInt 4 (beInt 4 code ++ t) = some (code, t) := by
    unfold sslRequest gssencRequest at hcode
    exact readInt_four (by omega) (by omega) t
  have hmax : len ≤ 16777216 := hhi
  exact ⟨len, code, _, t, readInt_four (by omega) (by omega) _, hread, hlo, hhi, hcode⟩

/-- A stream says how many requests it begins with. -/
theorem Asks.unique {s rest rest' : Bytes} {n n' : ℕ} (h : Asks s n rest) (h' : Asks s n' rest') :
    n = n' ∧ rest = rest' := by
  induction h generalizing n' rest' with
  | nil hno =>
    cases h' with
    | nil => exact ⟨rfl, rfl⟩
    | cons hlo hhi hcode _ => exact absurd ⟨_, _, _, hlo, hhi, hcode, rfl⟩ hno
  | @cons len code s rest n hlo hhi hcode h ih =>
    generalize hs : beInt 4 len ++ (beInt 4 code ++ s) = u at h'
    cases h' with
    | nil hno => exact absurd ⟨_, _, _, hlo, hhi, hcode, hs.symm⟩ hno
    | @cons len' code' s' _ n' _ _ _ h'' =>
      have htail := (List.append_inj hs (by simp)).2
      obtain rfl := (List.append_inj htail (by simp)).2
      obtain ⟨rfl, rfl⟩ := ih h''
      exact ⟨rfl, rfl⟩

/-- **Any other stream ends the connection**, after the answers to its first requests. -/
theorem startup_closed {s : Bytes} {fuel : ℕ} (h : ∀ n params rest, ¬Opens s n params rest)
    (hfuel : s.length < fuel) : ∃ n rest, Asks s n rest ∧
      ∀ Q, (startup fuel s : Act C (Login × Bytes)).wp Q ↔ Q (declines n) none := by
  induction fuel generalizing s with
  | zero => omega
  | succ fuel ih =>
    -- without a request at its head the stream ends the connection at once
    have hstop : ¬Asking s → (∀ Q, (startup (fuel + 1) s : Act C (Login × Bytes)).wp Q ↔ Q [] none) →
        ∃ n rest, Asks s n rest ∧
          ∀ Q, (startup (fuel + 1) s : Act C (Login × Bytes)).wp Q ↔ Q (declines n) none :=
      fun hno hwp => ⟨0, s, .nil hno, hwp⟩
    cases hlen : readInt 4 s with
    | none =>
      refine hstop (fun hask => ?_) fun Q => ?_
      · obtain ⟨len, code, t, u, hlen', -⟩ := hask.reads
        simp [hlen] at hlen'
      · rw [startup, Attempt.wp_bind, Act.wp_ofOption, hlen]
        rfl
    | some p =>
      obtain ⟨len, t⟩ := p
      by_cases hrange : len < 8 ∨ (maxMsg : ℤ) < len
      · refine hstop (fun hask => ?_) fun Q => ?_
        · obtain ⟨len', code, t', u, hlen', -, hlo, hhi, -⟩ := hask.reads
          obtain ⟨rfl, -⟩ := Prod.mk.inj (Option.some.inj (hlen.symm.trans hlen'))
          omega
        · rw [startup, Attempt.wp_bind, Act.wp_ofOption, hlen, Attempt.after_some]
          simp only [if_pos hrange]
          rfl
      · cases hcode : readInt 4 t with
        | none =>
          refine hstop (fun hask => ?_) fun Q => ?_
          · obtain ⟨len', code, t', u, hlen', hcode', -⟩ := hask.reads
            obtain ⟨rfl, rfl⟩ := Prod.mk.inj (Option.some.inj (hlen.symm.trans hlen'))
            simp [hcode] at hcode'
          · rw [startup, Attempt.wp_bind, Act.wp_ofOption, hlen, Attempt.after_some]
            simp only [if_neg hrange, Attempt.wp_bind, Act.wp_ofOption, hcode, Attempt.after_none]
            rfl
        | some q =>
          obtain ⟨code, u⟩ := q
          have hs := eq_of_readInt hlen
          have ht := eq_of_readInt hcode
          by_cases hreq : code = sslRequest ∨ code = gssencRequest
          · subst ht hs
            have hrest : ∀ n params rest, ¬Opens u n params rest := fun n params rest hu =>
              h _ _ _ (.request (by omega) (by omega) hreq hu)
            simp only [List.length_append, length_beInt] at hfuel
            obtain ⟨n, rest, hasks, hn⟩ := ih hrest (by omega)
            refine ⟨n + 1, rest, .cons (by omega) (by omega) hreq hasks, fun Q => ?_⟩
            rw [startup_request (by omega) (by omega) hreq, hn]
            rfl
          · refine hstop (fun hask => ?_) fun Q => ?_
            · obtain ⟨len', code', t', u', hlen', hcode', -, -, hreq'⟩ := hask.reads
              obtain ⟨rfl, rfl⟩ := Prod.mk.inj (Option.some.inj (hlen.symm.trans hlen'))
              obtain ⟨rfl, -⟩ := Prod.mk.inj (Option.some.inj (hcode.symm.trans hcode'))
              exact hreq hreq'
            · rw [startup, Attempt.wp_bind, Act.wp_ofOption, hlen, Attempt.after_some]
              simp only [if_neg hrange, Attempt.wp_bind, Act.wp_ofOption, hcode, Attempt.after_some,
                if_neg hreq]
              split_ifs with hcancel hproto
              · rfl
              · subst hproto
                -- the parameters that the length declares are not there
                cases htake : takeN (len - 8).toNat u with
                | none => simp only [Attempt.wp_bind, Act.wp_ofOption, Attempt.after_none]; rfl
                | some v =>
                  obtain ⟨params, rest⟩ := v
                  obtain ⟨rfl, hsize⟩ := takeN_eq_some htake
                  refine absurd ?_ (h 0 params rest)
                  have hlen' : len = ((params.length + 8 : ℕ) : ℤ) := by omega
                  rw [hs, ht, hlen']
                  exact .message (by omega)
              · rfl

/-- **The startup phase accepts exactly its grammar.** In every run of it whose writes succeed, it
declines each of the requests to encrypt that the stream begins with, once; it comes to a login
exactly when a startup message follows them, and then the bytes after that message are left. -/
theorem startup_exact {s : Bytes} {es : List (Event (Ask.Val C))} {r : Option (Login × Bytes)}
    (hpath : Proc.Path (startup (s.length + 1) s) es (.done r)) (hfault : Faultless es) :
    ∃ n, sentAll es = declines n ∧ ((∃ params rest, Opens s n params rest ∧ r = some (login params, rest)) ∨
      (∀ m params rest, ¬Opens s m params rest) ∧ (∃ rest, Asks s n rest) ∧ r = none) := by
  by_cases hopen : ∃ n params rest, Opens s n params rest
  · obtain ⟨n, params, rest, h⟩ := hopen
    have hwp := (startup_opens (C := C) h (Nat.lt_succ_self _)
      (Q := fun out r => out = declines n ∧ r = some (login params, rest))).2 ⟨rfl, rfl⟩
    obtain ⟨hout, hr⟩ := Proc.wp_done hwp hpath hfault
    exact ⟨n, hout, .inl ⟨params, rest, h, hr⟩⟩
  · push Not at hopen
    obtain ⟨n, rest, hasks, hwp⟩ := startup_closed (C := C) hopen (Nat.lt_succ_self _)
    obtain ⟨hout, hr⟩ := Proc.wp_done ((hwp fun out r => out = declines n ∧ r = none).2 ⟨rfl, rfl⟩)
      hpath hfault
    exact ⟨n, hout, .inr ⟨hopen, ⟨rest, hasks⟩, hr⟩⟩

/-- A request to encrypt, and a startup message. -/
def sslThenStartup : Bytes :=
  beInt 4 8 ++ (beInt 4 sslRequest ++ (beInt 4 9 ++ (beInt 4 protoV3 ++ ([0] ++ []))))

theorem startup_exact_ssl : ∃ (es : List (Event (Ask.Val .least))) (r : Option (Login × Bytes)),
    ∃ n, sentAll es = declines n ∧
      ((∃ params rest, Opens sslThenStartup n params rest ∧ r = some (login params, rest)) ∨
        (∀ m params rest, ¬Opens sslThenStartup m params rest) ∧ (∃ rest, Asks sslThenStartup n rest) ∧
          r = none) := by
  have hmessage : Opens (beInt 4 9 ++ (beInt 4 protoV3 ++ ([0] ++ []))) 0 [0] [] :=
    @Opens.message [0] [] (by decide)
  have hopen : Opens sslThenStartup 1 [0] [] :=
    @Opens.request 8 sslRequest _ _ _ _ (by decide) (by decide) (.inl rfl) hmessage
  obtain ⟨es, r, hpath, hfault⟩ := Proc.exists_path
    ((startup_opens (C := .least) hopen (Nat.lt_succ_self _) (Q := fun _ _ => True)).2 trivial)
  exact ⟨es, r, startup_exact hpath hfault⟩

/-- A stream of the grammar says where its commands begin. -/
theorem Opens.unique {s params params' rest rest' : Bytes} {n n' : ℕ} (h : Opens s n params rest)
    (h' : Opens s n' params' rest') : n = n' ∧ rest = rest' := by
  have hrun : ∀ {n params rest}, Opens s n params rest →
      ∀ Q, (startup (s.length + 1) s : Act .least (Login × Bytes)).wp Q ↔
        Q (declines n) (some (login params, rest)) := fun h Q => startup_opens h (Nat.lt_succ_self _)
  have heq := (hrun h' fun out r => out = declines n ∧ r = some (login params, rest)).1
    ((hrun h _).2 ⟨rfl, rfl⟩)
  have hn := congrArg List.length heq.1
  simp only [declines, List.length_replicate] at hn
  exact ⟨hn.symm, (Prod.mk.inj (Option.some.inj heq.2)).2.symm⟩

/-! ## Parameters -/

/-- The value of the last parameter of a name. -/
def lastOf (key dflt : Str) (ps : List (Str × Str)) : Str :=
  ((ps.filter fun p => p.1 = key).getLast?.map Prod.snd).getD dflt

theorem lastOf_cons (key dflt : Str) (p : Str × Str) (ps : List (Str × Str)) :
    lastOf key dflt (p :: ps) = lastOf key (if p.1 = key then p.2 else dflt) ps := by
  unfold lastOf
  by_cases h : p.1 = key
  · rw [List.filter_cons_of_pos (by simpa using h), if_pos h]
    cases ps.filter fun p => p.1 = key with
    | nil => rfl
    | cons q qs => rw [List.getLast?_cons_cons]; simp [List.getLast?_cons]
  · rw [List.filter_cons_of_neg (by simpa using h), if_neg h]

/-- The bytes of a parameter. -/
def paramBytes (p : Str × Str) : Bytes := cstr p.1 ++ cstr p.2

/-- The loop over the parameters, on texts without a NUL. -/
theorem readParams_flatMap {ps : List (Str × Str)} (h : ∀ p ∈ ps, '\x00' ∉ p.1 ∧ '\x00' ∉ p.2) (l : Login) :
    readParams ((ps.flatMap paramBytes ++ [0]).splitOn 0) l =
      ⟨lastOf "user" l.user ps, lastOf "database" l.database ps⟩ := by
  induction ps generalizing l with
  | nil => rfl
  | cons p ps ih =>
    obtain ⟨⟨hk, hv⟩, hps⟩ := List.forall_mem_cons.1 h
    have hk' : (0 : UInt8) ∉ Utf8.encode p.1 := fun h0 => hk (Utf8.zero_mem_encode.1 h0)
    have hv' : (0 : UInt8) ∉ Utf8.encode p.2 := fun h0 => hv (Utf8.zero_mem_encode.1 h0)
    have hbytes : (p :: ps).flatMap paramBytes ++ [0] =
        Utf8.encode p.1 ++ 0 :: (Utf8.encode p.2 ++ 0 :: (ps.flatMap paramBytes ++ [0])) := by
      simp [paramBytes, cstr]
    rw [hbytes, List.splitOn_append_cons_self_of_not_mem hk',
      List.splitOn_append_cons_self_of_not_mem hv', readParams, ih hps, lastOf_cons, lastOf_cons]
    simp only [Utf8.fromUtf8Lossy_encode]
    -- no name is both
    by_cases huser : p.1 = ("user" : Str)
    · have hdb : p.1 ≠ ("database" : Str) := by rw [huser]; decide
      simp only [if_pos huser, if_neg hdb]
    · by_cases hdb : p.1 = ("database" : Str)
      · simp only [if_neg huser, if_pos hdb]
      · simp only [if_neg huser, if_neg hdb]

/-- **The parameters of a startup message are read back**: the last user, and the last database
or else the one of the user's name. -/
theorem login_params {ps : List (Str × Str)} (h : ∀ p ∈ ps, '\x00' ∉ p.1 ∧ '\x00' ∉ p.2) :
    login (ps.flatMap paramBytes ++ [0]) =
      ⟨lastOf "user" "ghost" ps, if lastOf "database" [] ps = [] then lastOf "user" "ghost" ps
        else lastOf "database" [] ps⟩ := by
  unfold login
  rw [readParams_flatMap h]
  dsimp only
  split_ifs with hdb <;> rfl

theorem login_params_two : login ([(("user" : Str), ("ann" : Str)), ("database", "shop")].flatMap paramBytes ++ [0]) =
    ⟨"ann", "shop"⟩ :=
  login_params (by decide)

/-! ## Messages -/

theorem readMessage_frame {m : Frontend} (h : m.payload.length + 4 ≤ maxMsg) (s : Bytes) :
    readMessage (frame m ++ s) = some (m, s) := by
  have hok : ¬(((m.payload.length + 4 : ℕ) : ℤ) < 4 ∨
      (maxMsg : ℤ) < ((m.payload.length + 4 : ℕ) : ℤ)) := by omega
  have hnat : (((m.payload.length + 4 : ℕ) : ℤ) - 4).toNat = m.payload.length := by omega
  unfold maxMsg at h
  rw [frame, List.cons_append, List.append_assoc, readMessage, readInt_four (by omega) (by omega)]
  simp only [Option.bind_eq_bind, Option.bind_some, if_neg hok, hnat, takeN_append]
  rfl

/-- The messages of a stream. -/
def frames (s : Bytes) : List Frontend := framesFrom (s.length + 1) s

theorem framesFrom_eq {fuel fuel' : ℕ} {s : Bytes} (h : s.length < fuel) (h' : s.length < fuel') :
    framesFrom fuel s = framesFrom fuel' s := by
  induction fuel generalizing fuel' s with
  | zero => omega
  | succ fuel ih =>
    cases fuel' with
    | zero => omega
    | succ fuel' =>
      rw [framesFrom, framesFrom]
      cases hread : readMessage s with
      | none => rfl
      | some p =>
        have hlt := length_readMessage hread
        exact congrArg (p.1 :: ·) (ih (by omega) (by omega))

theorem frames_of_read {m : Frontend} {s r : Bytes} (h : readMessage s = some (m, r)) :
    frames s = m :: frames r := by
  have hlt := length_readMessage h
  rw [frames, framesFrom, h]
  exact congrArg (m :: ·) (framesFrom_eq (by omega) (Nat.lt_succ_self _))

/-- **Framed messages are read back**, whatever follows them. -/
theorem frames_append {ms : List Frontend} (h : ∀ m ∈ ms, m.payload.length + 4 ≤ maxMsg) (s : Bytes) :
    frames (ms.flatMap frame ++ s) = ms ++ frames s := by
  induction ms with
  | nil => rfl
  | cons m ms ih =>
    obtain ⟨hm, hms⟩ := List.forall_mem_cons.1 h
    rw [List.flatMap_cons, List.append_assoc, frames_of_read (readMessage_frame hm _), ih hms]
    rfl

/-- **The messages of a stream** are what it begins with, up to bytes that are no message. -/
theorem frames_spec (s : Bytes) : ∃ tail, s = (frames s).flatMap frame ++ tail ∧
    readMessage tail = none ∧ ∀ m ∈ frames s, m.payload.length + 4 ≤ maxMsg := by
  induction hn : s.length using Nat.strongRecOn generalizing s with
  | ind n ih =>
    cases hread : readMessage s with
    | none =>
      have hnil : frames s = [] := by rw [frames, framesFrom, hread]
      exact ⟨s, by rw [hnil]; rfl, hread, by simp [hnil]⟩
    | some p =>
      obtain ⟨m, r⟩ := p
      obtain ⟨hs, hm⟩ := eq_of_readMessage hread
      obtain ⟨tail, hr, htail, hall⟩ := ih r.length (hn ▸ length_readMessage hread) r rfl
      refine ⟨tail, ?_, htail, ?_⟩
      · rw [frames_of_read hread, List.flatMap_cons, List.append_assoc, ← hr, hs]
      · rw [frames_of_read hread]
        exact List.forall_mem_cons.2 ⟨hm, hall⟩

/-! ## Connections -/

/-- **What a connection should send**: an answer to each request to encrypt, and, when a startup
message comes after them, the greeting and a session on the messages behind it. -/
def Sends (cfg : Config) (s out : Bytes) : Prop :=
  (∃ n params rest pid key, Opens s n params rest ∧ ∃ l : List (Outcome C × Frontend),
    l.map Prod.snd = frames rest ∧
      out = declines n ++ putMsgs [] (greeting pid key ++ (session cfg l).1.flatten)) ∨
  (∀ n params rest, ¬Opens s n params rest) ∧ ∃ n rest, Asks s n rest ∧ out = declines n

/-- **A connection without a failed write.** -/
theorem handle_wp (cfg : Config) (s : Bytes) :
    (handle cfg s : Act C Unit).wp fun out r => r = none ∧ Sends (C := C) cfg s out := by
  by_cases hopen : ∃ n params rest, Opens s n params rest
  · obtain ⟨n, params, rest, hs⟩ := hopen
    rw [handle, Attempt.wp_bind, startup_opens hs (Nat.lt_succ_self _)]
    simp only [Attempt.after_some, Attempt.wp_bind, Act.wp_randomI32, Attempt.wp_write,
      List.nil_append]
    intro pid key
    refine Proc.wp_mono (commands_wp cfg .new (Nat.lt_succ_self rest.length)) ?_
    rintro out r ⟨rfl, l, hl, rfl⟩
    refine ⟨rfl, .inl ⟨n, params, rest, pid.abs, key, hs, l, hl, ?_⟩⟩
    rw [putMsgs_all]
    rfl
  · push Not at hopen
    obtain ⟨n, rest, hasks, hn⟩ := startup_closed (C := C) hopen (Nat.lt_succ_self _)
    rw [handle, Attempt.wp_bind, hn]
    exact ⟨rfl, .inr ⟨hopen, n, rest, hasks, rfl⟩⟩

/-- **A whole conversation.** A client sends requests to encrypt, a startup message and any
messages that are no longer than the server reads, all at once. In every run whose writes succeed,
it is sent one byte for each request, and then, for a client that reads messages of less than 2^31
bytes, the greeting and the answers of a session on exactly its messages. -/
theorem conversation {s params : Bytes} {n : ℕ} {ms : List Frontend}
    (hopen : Opens s n params (ms.flatMap frame)) (hms : ∀ m ∈ ms, m.payload.length + 4 ≤ maxMsg)
    (cfg : Config) {es : List (Event (Ask.Val C))} {r : Option Unit}
    (hpath : Proc.Path (handle cfg s) es (.done r)) (hfault : Faultless es) :
    ∃ (l : List (Outcome C × Frontend)) (pid key : Int32) (bytes : Bytes), l.map Prod.snd = ms ∧
      sentAll es = declines n ++ bytes ∧
      ((∀ b ∈ greeting pid key ++ (session cfg l).1.flatten, b.body.length < 2 ^ 31 - 4) →
        Client.messages bytes =
          some ((greeting pid key ++ (session cfg l).1.flatten).map fun b => (b.tagByte, b.body))) := by
  obtain ⟨-, hsends⟩ := Proc.wp_done (handle_wp cfg s) hpath hfault
  rcases hsends with ⟨n', params', rest, pid, key, hs, l, hl, hout⟩ | ⟨hclosed, -⟩
  · obtain ⟨rfl, rfl⟩ := hopen.unique hs
    have hframes : frames (ms.flatMap frame) = ms := by
      have happend := frames_append hms []
      rw [List.append_nil] at happend
      rw [happend]
      exact List.append_nil ms
    refine ⟨l, pid, key, _, hl.trans hframes, hout, fun hsize => ?_⟩
    rw [putMsgs, foldl_write, List.nil_append]
    exact Client.messages_append hsize
  · exact absurd hopen (hclosed _ _ _)

/-- A client that sends a Sync. -/
def syncs : List Frontend := [⟨83, []⟩]

theorem conversation_sync : ∃ (es : List (Event (Ask.Val .least))) (l : List (Outcome .least × Frontend))
    (pid key : Int32) (bytes : Bytes), l.map Prod.snd = syncs ∧ sentAll es = declines 0 ++ bytes ∧
    ((∀ b ∈ greeting pid key ++ (session Config.default l).1.flatten, b.body.length < 2 ^ 31 - 4) →
      Client.messages bytes =
        some ((greeting pid key ++ (session Config.default l).1.flatten).map fun b => (b.tagByte, b.body))) := by
  have hopen : Opens _ 0 [0] (syncs.flatMap frame) := .message (by decide)
  obtain ⟨es, r, hpath, hfault⟩ := Proc.exists_path (handle_wp (C := .least) Config.default _)
  exact ⟨es, conversation hopen (by decide) Config.default hpath hfault⟩

end EtherealDb.Pg.Conn
