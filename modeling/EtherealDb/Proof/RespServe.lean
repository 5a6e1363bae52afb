import EtherealDb.Proof.Crush
import EtherealDb.Proof.RespRead
import EtherealDb.Spec.RespServe

/-!
# A Redis connection against its session

What a connection writes, when no write fails, are the answers of `Resp.answer`, one after
another.

* `crushKeys_wp`: chunks of keys are the keys.
* `respond_wp`: one command, for some draws and some slot.
* `handle_wp`: **a connection is a session.**
* `orderly_handle`: a connection is in order.
-/

namespace EtherealDb.Resp.Conn

open Str
open Attempt (stop withSlot write)

variable {C : Crates}

/-! ## Crush mode -/

theorem crushLoop_wp (cfg : Config) {max fuel sent : ℕ} (hsent : sent ≤ max) (hfuel : max - sent < fuel)
    (rng : C.Rng) {Q : Bytes → Option Unit → Prop} : (crushLoop cfg max fuel sent rng).wp Q ↔
      Q (bulks (max - sent) (fakeKey cfg.theme) rng).1 (some ()) := by
  induction fuel generalizing sent rng Q with
  | zero => omega
  | succ fuel ih =>
    rw [crushLoop]
    by_cases hlt : sent < max
    · have hpos := chunk_pos hlt
      have hkeys := bulks_add (fakeKey (C := C) cfg.theme) (min crushChunk (max - sent))
        (max - (sent + min crushChunk (max - sent))) rng
      rw [chunk_add] at hkeys
      simp only [if_pos hlt, Attempt.wp_bind, Attempt.wp_write, Attempt.after_some]
      rw [ih (by omega) (by omega), hkeys]
    · obtain rfl : sent = max := by omega
      rw [if_neg hlt, Attempt.wp_pure, Nat.sub_self]
      rfl

/-- **Chunks of keys are the keys.** -/
theorem crushKeys_wp (cfg : Config) {Q : Bytes → Option Unit → Prop} :
    (crushKeys cfg : Act C Unit).wp Q ↔ ∀ os : C.Rng, Q (Resp.crushKeys cfg os) (some ()) := by
  have hloop := fun (rng : C.Rng) (Q : Bytes → Option Unit → Prop) =>
    crushLoop_wp cfg (Nat.zero_le cfg.crush.maxRows) (Nat.lt_succ_self _) rng (Q := Q)
  unfold crushKeys
  simp only [Attempt.wp_bind, Attempt.wp_write, Attempt.after_some, Act.wp_seedRng, crushKeys_eq,
    List.nil_append]
  exact forall_congr' fun os => hloop _ _

/-! ## Commands -/

/-- Some generators, drawn without a byte. -/
theorem fromOsRngs_wp (n : ℕ) :
    (fromOsRngs n : Act C (ℕ → C.Rng)).wp fun bs r => bs = [] ∧ ∃ os, r = some os := by
  induction n with
  | zero => exact ⟨rfl, _, rfl⟩
  | succ n ih =>
    rw [fromOsRngs, Attempt.wp_bind, Act.wp_fromOsRng]
    intro rng
    rw [Attempt.after_some, Attempt.wp_bind]
    refine Proc.wp_mono ih ?_
    rintro bs r ⟨rfl, os, rfl⟩
    exact ⟨rfl, _, rfl⟩

theorem osRngs_wp (cfg : Config) (n : ℕ) :
    (osRngs cfg n : Act C (ℕ → C.Rng)).wp fun bs r => bs = [] ∧ ∃ os, r = some os := by
  unfold osRngs
  split_ifs
  · exact ⟨rfl, _, rfl⟩
  · exact fromOsRngs_wp n

/-- An arm of `dispatch` looks at the generators of its own calls alone. -/
theorem run_congr {cfg : Config} {os os' : ℕ → C.Rng} {args : List Bytes} {c : Cmd}
    (h : ∀ i < seedCalls args (some c), os i = os' i) : run cfg os args c = run cfg os' args c := by
  by_cases hm : c = .mget
  · subst hm
    have hkeys : (args.tail.mapIdx fun i k =>
        bulk (Utf8.encode (valueForKey k cfg (seedRng cfg k (os i))).1)) =
      args.tail.mapIdx fun i k =>
        bulk (Utf8.encode (valueForKey k cfg (seedRng cfg k (os' i))).1) := by
      refine List.ext_getElem (by simp) fun i hi _ => ?_
      have hlt : i < args.length - 1 := by simpa using hi
      simp only [List.getElem_mapIdx, h i hlt]
    exact congrArg (arrayHeader (args.length - 1) ++ ·.flatten) hkeys
  · by_cases hone : seedCalls args (some c) = 1
    · have hzero : os 0 = os' 0 := h 0 (by omega)
      cases c <;> first | exact (hm rfl).elim | simp only [run, hzero]
    · -- the other arms draw nothing
      cases c <;> first | exact (hm rfl).elim | exact (hone rfl).elim | rfl

theorem dispatch_wp (cmd : Str) (args : List Bytes) (cfg : Config) :
    (dispatch cmd args cfg : Act C Unit).wp fun bs r =>
      r = some () ∧ ∃ os : ℕ → C.Rng, bs = Resp.dispatch cmd args cfg os := by
  unfold dispatch
  rw [Attempt.wp_bind]
  refine Proc.wp_mono (osRngs_wp cfg _) ?_
  rintro bs r ⟨rfl, os, rfl⟩
  rw [Attempt.after_some, Act.wp_flush]
  exact ⟨rfl, os, rfl⟩

/-- Whether the loop goes on after an answer. -/
def goesOn (a : Answer) : Option Unit := if a.open' then some () else none

/-- What the loop writes for a command and how it goes on, for some outcome. -/
def Answers (cfg : Config) (args : List Bytes) (bs : Bytes) (r : Option Unit) : Prop :=
  ∃ o : Outcome C, bs = (answer cfg o args).bytes ∧ r = goesOn (answer cfg o args)

/-- **A command that the ghosts leave alone.** -/
theorem serve_wp (cfg : Config) (o : Outcome C) (a : Bytes) (args : List Bytes)
    (hghost : ¬(cfg.ghosts.haunting ∧ cmdName a ≠ ("QUIT" : Str) ∧
      (o.crashed cfg ∨ o.dropped cfg ∨ o.errored cfg))) :
    (serve cfg (cmdName a) (a :: args) : Act C Unit).wp (Answers (C := C) cfg (a :: args)) := by
  have hcrash : ¬(cfg.ghosts.haunting ∧ cmdName a ≠ ("QUIT" : Str) ∧ o.crashed cfg) :=
    fun h => hghost ⟨h.1, h.2.1, .inl h.2.2⟩
  have hdrop : ¬(cfg.ghosts.haunting ∧ cmdName a ≠ ("QUIT" : Str) ∧ o.dropped cfg) :=
    fun h => hghost ⟨h.1, h.2.1, .inr (.inl h.2.2)⟩
  have herror : ¬(cfg.ghosts.haunting ∧ cmdName a ≠ ("QUIT" : Str) ∧ o.errored cfg) :=
    fun h => hghost ⟨h.1, h.2.1, .inr (.inr h.2.2)⟩
  have harg : (a :: args)[1]? = args.head? := by simp [List.head?_eq_getElem?]
  have hplain : (plain cfg (cmdName a) (a :: args) : Act C Unit).wp (Answers (C := C) cfg (a :: args)) := by
    rw [plain, Attempt.wp_bind]
    refine Proc.wp_mono (dispatch_wp (cmdName a) (a :: args) cfg) ?_
    rintro bs r ⟨rfl, os, rfl⟩
    have hanswer : answer cfg { o with slot := fun _ => false, os := os } (a :: args) =
        ⟨Resp.dispatch (cmdName a) (a :: args) cfg os, cmdName a ≠ ("QUIT" : Str), false⟩ := by
      refine (if_neg hcrash).trans ((if_neg hdrop).trans ((if_neg herror).trans ?_))
      exact if_neg fun h => Bool.false_ne_true h.2.2.2.2
    rw [Attempt.after_some]
    by_cases hquit : cmdName a = ("QUIT" : Str)
    · rw [if_pos hquit]
      exact ⟨_, by rw [hanswer, List.append_nil], by rw [hanswer]; simp [goesOn, hquit]⟩
    · rw [if_neg hquit]
      refine ⟨_, by rw [hanswer, List.append_nil], ?_⟩
      rw [hanswer, goesOn, if_pos (decide_eq_true hquit)]
  rw [serve, harg]
  by_cases hkeys : cmdName a = ("KEYS" : Str) ∧ cfg.crush.enabled ∧ !cfg.crush.warnOnly ∧
      (args.head?.map Utf8.fromUtf8Lossy).getD [] = ("*" : Str)
  · rw [if_pos hkeys, Attempt.wp_withSlot]
    refine ⟨(crushKeys_wp cfg).2 fun os => ?_, hplain⟩
    have hanswer : answer cfg { o with slot := fun _ => true, os := fun _ => os } (a :: args) =
        .reply (Resp.crushKeys cfg os) := by
      obtain ⟨hname, hcrush, hwarn, hstar⟩ := hkeys
      refine (if_neg hcrash).trans ((if_neg hdrop).trans ((if_neg herror).trans ?_))
      exact if_pos ⟨hname, hcrush, hwarn, hstar, rfl⟩
    exact ⟨_, by rw [hanswer]; rfl, by rw [hanswer]; rfl⟩
  · rw [if_neg hkeys]
    exact hplain

/-- **A command under the ghosts**, for some outcome. -/
theorem haunted_wp (cfg : Config) (a : Bytes) (args : List Bytes)
    (hh : cfg.ghosts.haunting ∧ cmdName a ≠ ("QUIT" : Str)) :
    (respond cfg (a :: args) : Act C Unit).wp (Answers (C := C) cfg (a :: args)) := by
  rw [respond, haunt, if_pos hh, Attempt.wp_bind, Act.wp_ghosts]
  intro o
  split_ifs with hend herror
  · have hanswer : answer cfg o (a :: args) = ⟨[], false, true⟩ := by
      by_cases hcrash : o.crashed cfg
      · exact if_pos ⟨hh.1, hh.2, hcrash⟩
      · exact (if_neg fun h => hcrash h.2.2).trans (if_pos ⟨hh.1, hh.2, hend.resolve_left hcrash⟩)
    exact ⟨o, by rw [hanswer], by rw [hanswer]; rfl⟩
  · have hanswer : answer cfg o (a :: args) = .reply (Resp.error "ERR a ghost ate your command") := by
      obtain ⟨hcrash, hdrop⟩ := not_or.1 hend
      refine (if_neg fun h => hcrash h.2.2).trans ((if_neg fun h => hdrop h.2.2).trans ?_)
      exact if_pos ⟨hh.1, hh.2, herror⟩
    simp only [Attempt.after_some, if_true, Attempt.wp_bind, Attempt.wp_write, Attempt.wp_pure]
    exact ⟨o, by rw [hanswer]; simp [Answer.reply], by rw [hanswer]; rfl⟩
  · have hserve := serve_wp cfg o a args fun h => by
      rcases h.2.2 with h | h | h
      · exact hend (.inl h)
      · exact hend (.inr h)
      · exact herror h
    simpa only [Attempt.wp_pure, Attempt.after_some, Bool.false_eq_true, if_false,
      List.nil_append] using hserve

/-- **One command**, for some outcome. -/
theorem respond_wp (cfg : Config) (args : List Bytes) :
    (respond cfg args : Act C Unit).wp (Answers (C := C) cfg args) := by
  cases args with
  | nil => exact ⟨default, rfl, rfl⟩
  | cons a args =>
    by_cases hh : cfg.ghosts.haunting ∧ cmdName a ≠ ("QUIT" : Str)
    · exact haunted_wp cfg a args hh
    · have hserve := serve_wp (C := C) cfg default a args fun h => hh ⟨h.1, h.2.1⟩
      rw [respond, haunt, if_neg hh]
      exact hserve

/-! ## The command loop -/

/-- What the loop sends for the commands of a stream, one outcome for each round. -/
def session (cfg : Config) : List (Outcome C) → Bytes → Bytes
  | [], _ => []
  | o :: os, s =>
    match Resp.round cfg o s with
    | some (a, s) => a.bytes ++ if a.open' then session cfg os s else []
    | none => []

/-- **The command loop is a session**, for some outcomes: it ends, since each round takes bytes from
the stream. -/
theorem commands_wp (cfg : Config) {fuel : ℕ} {s : Bytes} (hfuel : s.length < fuel) :
    (commands cfg fuel s : Act C Unit).wp fun bs r => r = none ∧
      ∃ os : List (Outcome C), os.length = fuel ∧ bs = session cfg os s := by
  induction fuel generalizing s with
  | zero => omega
  | succ fuel ih =>
    obtain ⟨others, hothers⟩ : ∃ os : List (Outcome C), os.length = fuel :=
      ⟨List.replicate fuel default, List.length_replicate⟩
    have hstop : (∀ args rest, readCommand C.memory s ≠ .command args rest) →
        ∃ os : List (Outcome C), os.length = fuel + 1 ∧ [] = session cfg os s := by
      intro hread
      refine ⟨default :: others, by rw [List.length_cons, hothers], ?_⟩
      cases h : readCommand C.memory s with
      | command args rest => exact absurd h (hread args rest)
      | closed | failed | panicked => rw [session, Resp.round, h]
    rw [commands, Attempt.wp_bind]
    unfold readNext
    cases hread : readCommand C.memory s with
    | closed | failed | panicked => exact ⟨rfl, hstop (by simp [hread])⟩
    | command args rest =>
      have hrest := length_readCommand hread
      simp only [Attempt.wp_pure, Attempt.after_some, List.nil_append, Attempt.wp_bind]
      refine Proc.wp_mono (respond_wp cfg args) ?_
      rintro bs r ⟨o, rfl, rfl⟩
      have hround : Resp.round cfg o s = some (answer cfg o args, rest) := by rw [Resp.round, hread]
      cases hopen : (answer cfg o args).open' with
      | false =>
        simp only [goesOn, hopen, Bool.false_eq_true, if_false, Attempt.after_none, true_and]
        refine ⟨o :: others, by rw [List.length_cons, hothers], ?_⟩
        simp [session, hround, hopen]
      | true =>
        simp only [goesOn, hopen, if_true, Attempt.after_some]
        refine Proc.wp_mono (ih (s := rest) (by omega)) ?_
        rintro bs r ⟨rfl, os, hos, rfl⟩
        refine ⟨rfl, o :: os, by rw [List.length_cons, hos], ?_⟩
        simp [session, hround, hopen]

/-- What a connection sends: a session. -/
def Sends (cfg : Config) (s out : Bytes) : Prop :=
  ∃ os : List (Outcome C), os.length = s.length + 1 ∧ out = session cfg os s

/-- **A connection is a session.** -/
theorem handle_wp (cfg : Config) (s : Bytes) :
    (handle cfg s : Act C Unit).wp fun out r => r = none ∧ Sends (C := C) cfg s out :=
  commands_wp cfg (Nat.lt_succ_self s.length)

/-! ## Order -/

section Order

variable {last : Bool}

theorem orderly_crushLoop (cfg : Config) (max fuel sent : ℕ) (rng : C.Rng) :
    Orderly last last (crushLoop cfg max fuel sent rng) := by
  induction fuel generalizing sent rng with
  | zero => exact .diverge
  | succ fuel ih =>
    rw [crushLoop]
    split_ifs
    · exact (Orderly.write _).bind fun _ => ih _ _
    · exact .pure _

theorem orderly_crushKeys (cfg : Config) : Orderly last last (crushKeys cfg : Act C Unit) :=
  (Orderly.write _).bind fun _ => (Orderly.seedRng _ _).bind fun _ => orderly_crushLoop ..

theorem orderly_osRngs (cfg : Config) (n : ℕ) : Orderly last last (osRngs cfg n : Act C (ℕ → C.Rng)) := by
  have hfresh : Orderly last last (fromOsRngs n : Act C (ℕ → C.Rng)) := by
    induction n with
    | zero => exact .pure _
    | succ n ih => exact (Orderly.draw Ask.os).bind fun _ => ih.bind fun _ => .pure _
  unfold osRngs
  split_ifs
  · exact .pure _
  · exact hfresh

theorem orderly_haunt (cfg : Config) (cmd : Str) : Orderly last last (haunt cfg cmd : Act C Bool) := by
  unfold haunt
  split_ifs
  · exact .ghosts cfg ((Orderly.write _).bind fun _ => .pure _) (.pure _)
  · exact .pure _

theorem orderly_plain (cfg : Config) (cmd : Str) (args : List Bytes) :
    Orderly last last (plain cfg cmd args : Act C Unit) := by
  have hdispatch : Orderly last last (dispatch cmd args cfg : Act C Unit) :=
    (orderly_osRngs ..).bind fun _ => Orderly.flush _
  refine hdispatch.bind fun _ => ?_
  split_ifs
  · exact .stop
  · exact .pure _

theorem orderly_serve (cfg : Config) (cmd : Str) (args : List Bytes) :
    Orderly false false (serve cfg cmd args : Act C Unit) := by
  unfold serve
  split_ifs
  · exact Orderly.withSlot (orderly_crushKeys cfg) (orderly_plain ..)
  · exact orderly_plain ..

theorem orderly_respond (cfg : Config) (args : List Bytes) :
    Orderly false false (respond cfg args : Act C Unit) := by
  cases args with
  | nil => exact .pure _
  | cons a args =>
    refine (orderly_haunt cfg (cmdName a)).bind fun b => ?_
    split_ifs
    · exact .pure _
    · exact orderly_serve ..

theorem orderly_commands (cfg : Config) (fuel : ℕ) (s : Bytes) :
    Orderly false false (commands cfg fuel s : Act C Unit) := by
  induction fuel generalizing s with
  | zero => exact .diverge
  | succ fuel ih =>
    have hread : Orderly false false (readNext s : Act C (List Bytes × Bytes)) := by
      unfold readNext
      split
      · exact .pure _
      · exact .stop
      · exact .stop
      · exact .stop
    exact hread.bind fun p => (orderly_respond cfg p.1).bind fun _ => ih p.2

/-- **A Redis connection is in order.** -/
theorem orderly_handle (cfg : Config) (s : Bytes) :
    Orderly false false (handle cfg s : Act C Unit) := orderly_commands ..

end Order

end EtherealDb.Resp.Conn
