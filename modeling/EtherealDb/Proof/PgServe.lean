import EtherealDb.Proof.Crush
import EtherealDb.Spec.PgServe

/-!
# A Postgres connection against its session

What a connection writes, when no write fails, are the messages of a session of `Spec.Pg` on
the messages that the client has framed.

* `streamRows_wp`: the chunks of a crush stream.
* `respondStatement_wp`, `executePortal_wp`: one statement, for some draw and some slot.
* `turn_wp`: one round of the command loop is one step of a session.
* `commands_wp`: **the command loop is a session.**
-/

namespace EtherealDb.Pg.Conn

open Str Streaming
open Attempt (stop withSlot write)

variable {C : Crates}

/-! ## Buffers -/

theorem putMsgs_append (out : Bytes) (ms ns : List Backend) :
    putMsgs out (ms ++ ns) = putMsgs (putMsgs out ms) ns := List.foldl_append

theorem putMsgs_concat (ms : List Backend) (m : Backend) :
    putMsgs [] (ms ++ [m]) = Backend.write (putMsgs [] ms) m := putMsgs_append _ _ _

/-- Messages go to the end of a buffer. -/
theorem putMsgs_eq (out : Bytes) (ms : List Backend) : putMsgs out ms = out ++ putMsgs [] ms := by
  unfold putMsgs
  rw [foldl_write, foldl_write [], List.nil_append]

theorem putMsgs_flatMap (ms : List Backend) : putMsgs [] ms = ms.flatMap (Backend.write []) := by
  unfold putMsgs
  rw [foldl_write, List.nil_append]
  exact List.flatMap_congr fun m _ => (write_eq [] m).symm

theorem putMsgs_all (ms ns : List Backend) : putMsgs [] (ms ++ ns) = putMsgs [] ms ++ putMsgs [] ns := by
  rw [putMsgs_append, putMsgs_eq]

/-! ## Streams -/

/-- **A crush stream** writes the rows that are left, and the tag of all of them. -/
theorem streamRows_wp {cols : List Resolved} {formats : List ℤ} {max : ℕ} {g : Gen} {fuel sent : ℕ}
    (hsent : sent ≤ max) (hfuel : max - sent < fuel) (rng : C.Rng) {Q : Bytes → Option Unit → Prop} :
    (streamRows cols formats max g fuel sent rng).wp Q ↔
      Q (rowBytes cols formats g (max - sent) rng ++ commandTail max) (some ()) := by
  induction fuel generalizing sent rng Q with
  | zero => omega
  | succ fuel ih =>
    rw [streamRows]
    by_cases hlt : sent < max
    · have hpos := chunk_pos hlt
      have hrows := items_add (rowItem (C := C) cols formats g) (min crushChunk (max - sent))
        (max - (sent + min crushChunk (max - sent))) rng
      rw [chunk_add] at hrows
      simp only [items_rowItem] at hrows
      obtain ⟨hrows, -⟩ := Prod.mk.inj hrows
      simp only [if_pos hlt, fill_eq appends_putRow, Attempt.wp_bind, Attempt.wp_write,
        Attempt.after_some, items_rowItem, List.nil_append]
      rw [ih (by omega) (by omega), hrows, List.append_assoc]
    · obtain rfl : sent = max := by omega
      rw [if_neg hlt, Attempt.wp_write, Nat.sub_self]
      rfl

/-- The rows of a crush stream as messages. -/
theorem putMsgs_streamRows (cols : List Resolved) (formats : List ℤ) (max : ℕ) (g : Gen) (rng : C.Rng) :
    putMsgs [] (Pg.streamRows cols formats max g rng).1 =
      rowBytes cols formats g max rng ++ commandTail max := by
  rw [streamRows_eq, putMsgs_concat, putMsgs_flatMap, write_eq, commandTail, write_eq []]
  rfl

theorem streamRows_wp_zero {cols : List Resolved} {formats : List ℤ} {max : ℕ} {g : Gen} (rng : C.Rng)
    {Q : Bytes → Option Unit → Prop} :
    (streamRows cols formats max g (max + 1) 0 rng).wp Q ↔
      Q (putMsgs [] (Pg.streamRows cols formats max g rng).1) (some ()) := by
  rw [streamRows_wp (Nat.zero_le _) (by omega), putMsgs_streamRows]
  rfl

theorem crushStream_wp (shape : ResultShape) (cfg : Config) (stmt : Str)
    {Q : Bytes → Option Unit → Prop} : (crushStream shape cfg stmt : Act C Unit).wp Q ↔
      ∀ os : C.Rng, Q (putMsgs [] (Pg.crushStream shape cfg stmt os)) (some ()) := by
  unfold crushStream Pg.crushStream
  simp only [Attempt.wp_bind, Attempt.wp_write, Attempt.after_some, Act.wp_seedRng,
    streamRows_wp_zero, List.nil_append, putMsgs_all]

/-! ## Statements -/

theorem normalResponse_wp (out : Bytes) (shape : ResultShape) (cfg : Config) (stmt : Str)
    {Q : Bytes → Option Bytes → Prop} : (normalResponse out shape cfg stmt : Act C Bytes).wp Q ↔
      ∀ os : C.Rng, Q [] (some (putMsgs out (Pg.normalResponse shape cfg stmt os))) := by
  unfold normalResponse
  simp only [Attempt.wp_bind, Act.wp_seedRng, Attempt.after_some, Attempt.wp_pure, List.append_nil]
  exact Iff.rfl

/-- What a process writes and leaves in its buffer, against an output of the session. -/
def Writes (o : Out) (o' : Option Out) (bs : Bytes) (r : Option Bytes) : Prop :=
  ∃ out, o' = some out ∧ r = some (putMsgs [] out.buf) ∧ putMsgs [] out.sent = putMsgs [] o.sent ++ bs

/-- Messages put into the buffer. -/
theorem writes_putAll (o : Out) (ms : List Backend) :
    Writes o (some (o.putAll ms)) [] (some (putMsgs (putMsgs [] o.buf) ms)) :=
  ⟨_, rfl, by rw [Out.putAll, putMsgs_append], by rw [List.append_nil]; rfl⟩

/-- A message and others put into the buffer. -/
theorem writes_put_putAll (o : Out) (m : Backend) (ms : List Backend) :
    Writes o (some ((o.put m).putAll ms)) [] (some (putMsgs (Backend.write (putMsgs [] o.buf) m) ms)) := by
  rw [← putMsgs_concat]
  exact writes_putAll (o.put m) ms

/-- **One statement**, for some draw of the generator and some slot. -/
theorem respondStatement_wp (cfg : Config) (o : Out) (stmt : Str) :
    (respondStatement cfg (putMsgs [] o.buf) stmt : Act C Bytes).wp fun bs r =>
      ∃ (slot : Bool) (os : C.Rng), Writes o (Pg.respondStatement cfg slot os o stmt) bs r := by
  obtain ⟨shape, hshape⟩ := Option.isSome_iff_exists.1 (extract_isSome stmt)
  unfold respondStatement
  simp only [Attempt.wp_bind, Act.wp_ofOption, hshape, Attempt.after_some, List.nil_append]
  unfold Pg.respondStatement
  simp only [hshape, Option.bind_eq_bind, Option.bind_some]
  cases hcls : cfg.crushClass shape with
  | safe =>
    refine (normalResponse_wp ..).2 fun os => ⟨false, os, ?_⟩
    exact writes_putAll o _
  | warn sig =>
    refine (normalResponse_wp ..).2 fun os => ⟨false, os, ?_⟩
    exact writes_put_putAll o _ _
  | crush sig =>
    dsimp only
    split_ifs with hwarn
    · rw [Attempt.wp_withSlot]
      constructor
      · -- what is in the buffer goes first
        simp only [Attempt.wp_bind, Act.wp_flush, Attempt.after_some, crushStream_wp, Attempt.wp_pure]
        intro os
        refine ⟨true, os, _, rfl, rfl, ?_⟩
        simp [Out.flush, Out.write, putMsgs_all]
      · refine (normalResponse_wp ..).2 fun os => ⟨false, os, ?_⟩
        exact writes_put_putAll o _ _
    · refine (normalResponse_wp ..).2 fun os => ⟨false, os, ?_⟩
      exact writes_put_putAll o _ _

/-- The loop over statements looks at the draws from its own on. -/
theorem respondAll_congr {cfg : Config} {w w' : Outcome C} {i : ℕ}
    (h : ∀ j, i ≤ j → w.slot j = w'.slot j ∧ w.os j = w'.os j) (stmts : List Str) (o : Out) :
    Pg.respondAll cfg w i stmts o = Pg.respondAll cfg w' i stmts o := by
  induction stmts generalizing i o with
  | nil => rfl
  | cons stmt stmts ih =>
    obtain ⟨hslot, hos⟩ := h i le_rfl
    simp only [Pg.respondAll, hslot, hos]
    exact Option.bind_congr fun out _ => ih (fun j hj => h j (by omega)) out

/-- **The statements of a simple query**, for some draws and some slots. -/
theorem respondAll_wp (cfg : Config) (w : Outcome C) (stmts : List Str) (i : ℕ) (o : Out) :
    (respondAll cfg stmts (putMsgs [] o.buf) : Act C Bytes).wp fun bs r =>
      ∃ (slot : ℕ → Bool) (os : ℕ → C.Rng),
        Writes o (Pg.respondAll cfg { w with slot := slot, os := os } i stmts o) bs r := by
  induction stmts generalizing i o with
  | nil =>
    rw [respondAll, Attempt.wp_pure]
    exact ⟨w.slot, w.os, o, rfl, rfl, by rw [List.append_nil]⟩
  | cons stmt stmts ih =>
    rw [respondAll, Attempt.wp_bind]
    refine Proc.wp_mono (respondStatement_wp cfg o stmt) ?_
    rintro bs r ⟨slot, os, out, hout, rfl, hsent⟩
    rw [Attempt.after_some]
    refine Proc.wp_mono (ih (i + 1) out) ?_
    rintro bs' r' ⟨slots, rngs, out', hout', rfl, hsent'⟩
    -- the first statement has the draw and the slot of its own number
    refine ⟨Function.update slots i slot, Function.update rngs i os, out', ?_, rfl, ?_⟩
    · rw [Pg.respondAll]
      simp only [Function.update_self, hout, Option.bind_eq_bind, Option.bind_some]
      rw [← hout']
      refine respondAll_congr (fun j hj => ?_) stmts out
      have hne : j ≠ i := by omega
      exact ⟨Function.update_of_ne hne _ _, Function.update_of_ne hne _ _⟩
    · rw [hsent', hsent, List.append_assoc]

/-- **A simple query.** -/
theorem query_wp (cfg : Config) (w : Outcome C) (sql : Str) :
    (query cfg sql : Act C Bytes).wp fun bs r =>
      ∃ (slot : ℕ → Bool) (os : ℕ → C.Rng),
        Writes .new (Pg.query cfg { w with slot := slot, os := os } sql) bs r := by
  unfold query Pg.query
  simp only [Attempt.wp_bind, Act.wp_ofOption, splitStatements_eq, Attempt.after_some,
    List.nil_append, Option.bind_eq_bind, Option.bind_some]
  split_ifs with hnil
  · simp only [Attempt.wp_bind, Attempt.wp_pure, Attempt.after_some, List.nil_append]
    exact ⟨w.slot, w.os, _, rfl, rfl, rfl⟩
  · rw [Attempt.wp_bind]
    refine Proc.wp_mono (respondAll_wp cfg w _ 0 .new) ?_
    rintro bs r ⟨slot, os, out, hout, rfl, hsent⟩
    rw [Attempt.after_some, Attempt.wp_pure, List.append_nil]
    refine ⟨slot, os, out.put .readyForQuery, ?_, by rw [Out.put, putMsgs_concat], hsent⟩
    rw [hout]
    rfl

/-- The rows of an Execute. -/
theorem executeNormal_wp (cfg : Config) (portal : Portal) (maxRows : ℤ) (shape : ResultShape)
    (out : Bytes) {Q : Bytes → Option Bytes → Prop} :
    (executeNormal cfg portal maxRows shape out : Act C Bytes).wp Q ↔
      ∀ os : C.Rng, Q [] (some (putMsgs out (portalRows shape cfg portal.resultFormats maxRows
        (seedRng cfg (Utf8.encode portal.sql) os)).1)) := by
  unfold executeNormal
  simp only [Attempt.wp_bind, Act.wp_seedRng, Attempt.after_some, Attempt.wp_pure, List.append_nil]

theorem executeSelect_wp (cfg : Config) (portal : Portal) (maxRows : ℤ) (shape : ResultShape)
    (o : Out) : (executeSelect cfg portal maxRows shape (putMsgs [] o.buf) : Act C Bytes).wp fun bs r =>
      ∃ (slot : Bool) (os : C.Rng),
        Writes o (some (Pg.executeSelect cfg slot os portal maxRows shape o)) bs r := by
  unfold executeSelect Pg.executeSelect
  cases cfg.crushClass shape with
  | safe =>
    refine (executeNormal_wp ..).2 fun os => ⟨false, os, ?_⟩
    exact writes_putAll o _
  | warn sig =>
    refine (executeNormal_wp ..).2 fun os => ⟨false, os, ?_⟩
    exact writes_put_putAll o _ _
  | crush sig =>
    dsimp only
    split_ifs with hwarn
    · rw [Attempt.wp_withSlot]
      constructor
      · simp only [Attempt.wp_bind, Act.wp_flush, Attempt.after_some, Attempt.wp_write,
          Act.wp_seedRng, streamRows_wp_zero, Attempt.wp_pure]
        intro os
        refine ⟨true, os, _, rfl, rfl, ?_⟩
        simp only [if_true, Out.flush, Out.write, putMsgs_all, List.append_assoc, List.append_nil]
        rfl
      · refine (executeNormal_wp ..).2 fun os => ⟨false, os, ?_⟩
        exact writes_put_putAll o _ _
    · refine (executeNormal_wp ..).2 fun os => ⟨false, os, ?_⟩
      exact writes_put_putAll o _ _

/-- **An Execute**, for some draw of the generator and some slot. -/
theorem executePortal_wp (cfg : Config) (portal : Portal) (maxRows : ℤ) :
    (executePortal cfg portal maxRows [] : Act C Bytes).wp fun bs r =>
      ∃ (slot : Bool) (os : C.Rng), Writes .new (Pg.executePortal cfg slot os portal maxRows .new) bs r := by
  obtain ⟨shape, hshape⟩ := Option.isSome_iff_exists.1 (extract_isSome portal.sql)
  unfold executePortal
  simp only [Attempt.wp_bind, Act.wp_ofOption, hshape, Attempt.after_some, List.nil_append]
  unfold Pg.executePortal
  simp only [hshape, Option.bind_eq_bind, Option.bind_some]
  cases hk : shape.kind with
  | select =>
    rw [if_pos rfl]
    exact executeSelect_wp cfg portal maxRows shape .new
  | _ =>
    rw [if_neg (by simp)]
    simp only [Attempt.wp_bind, Act.wp_seedRng, Attempt.after_some, Attempt.wp_pure, List.append_nil]
    exact fun os => ⟨false, os, _, rfl, rfl, rfl⟩

/-! ## Rounds -/

/-- What `dispatch` writes and leaves in its buffer, against the arm of a session. -/
def Dispatches (cfg : Config) (w : Outcome C) (st : Session) (m : Frontend) (bs : Bytes) :
    Option (Bytes × Session) → Prop
  | some p => m.kind ≠ .terminate ∧ ∃ o, Pg.dispatch cfg w st m = some (o, p.2) ∧
      bs ++ p.1 = putMsgs [] o.all
  | none => bs = [] ∧ (m.kind = .terminate ∨
      m.kind ≠ .terminate ∧ Pg.dispatch cfg w st m = none)

/-- A message whose answer waits in the buffer. -/
theorem dispatches_put {cfg : Config} {w : Outcome C} {st st' : Session} {m : Frontend} {b : Backend}
    (hk : m.kind ≠ .terminate) (h : Pg.dispatch cfg w st m = some (Out.new.put b, st')) :
    Dispatches cfg w st m [] (some (Backend.write [] b, st')) := ⟨hk, _, h, rfl⟩

/-- **Each arm of the loop**, for some draws and some slots. -/
theorem dispatch_wp (cfg : Config) (st : Session) (m : Frontend) (w : Outcome C) :
    (dispatch cfg st m : Act C (Bytes × Session)).wp fun bs r =>
      ∃ (slot : ℕ → Bool) (os : ℕ → C.Rng), Dispatches cfg { w with slot := slot, os := os } st m bs r := by
  unfold dispatch
  cases hk : m.kind with
  | query =>
    rw [Attempt.wp_bind]
    refine Proc.wp_mono (query_wp cfg w (queryText m.payload)) ?_
    rintro bs r ⟨slot, os, out, hout, rfl, hsent⟩
    rw [Attempt.after_some, Attempt.wp_pure, List.append_nil]
    refine ⟨slot, os, by simp [hk], out, by rw [dispatch_query hk, hout]; rfl, ?_⟩
    rw [Out.all, putMsgs_all, hsent]
    rfl
  | execute =>
    rw [Attempt.wp_bind]
    refine Proc.wp_mono (executePortal_wp cfg _ _) ?_
    rintro bs r ⟨slot, os, out, hout, rfl, hsent⟩
    rw [Attempt.after_some, Attempt.wp_pure, List.append_nil]
    refine ⟨fun _ => slot, fun _ => os, by simp [hk], out, ?_, ?_⟩
    · rw [dispatch_execute hk]
      exact congrArg (Option.map _) hout
    · rw [Out.all, putMsgs_all, hsent]
      rfl
  | describe =>
    rw [Attempt.wp_bind, Act.wp_ofOption]
    rcases describe_spec C.memory cfg hk (s := st) with ⟨-, out, hout, hsent, -⟩ | ⟨-, hnone⟩
    · rw [hout, Attempt.after_some, Attempt.wp_pure]
      refine ⟨w.slot, w.os, by simp [hk], out, by rw [dispatch_describe hk, hout]; rfl, ?_⟩
      -- the answer waits in the buffer
      simp [Out.all, hsent]
    · rw [hnone, Attempt.after_none]
      exact ⟨w.slot, w.os, rfl, .inr ⟨by simp [hk], by rw [dispatch_describe hk, hnone]; rfl⟩⟩
  | parse =>
    rw [Attempt.wp_pure]
    exact ⟨w.slot, w.os, dispatches_put (by simp [hk]) (dispatch_parse hk)⟩
  | bind =>
    rw [Attempt.wp_pure]
    exact ⟨w.slot, w.os, dispatches_put (by simp [hk]) (dispatch_bind hk)⟩
  | close =>
    rw [Attempt.wp_pure]
    exact ⟨w.slot, w.os, dispatches_put (by simp [hk]) (dispatch_close hk)⟩
  | sync =>
    rw [Attempt.wp_pure]
    exact ⟨w.slot, w.os, dispatches_put (by simp [hk]) (dispatch_sync hk)⟩
  | terminate => exact ⟨w.slot, w.os, rfl, .inl hk⟩
  | flush =>
    rw [Attempt.wp_pure]
    exact ⟨w.slot, w.os, by simp [hk], _, dispatch_ignored (.inr (.inl hk)), rfl⟩
  | other =>
    rw [Attempt.wp_pure]
    exact ⟨w.slot, w.os, by simp [hk], _, dispatch_ignored (.inr (.inr hk)), rfl⟩

/-- What a round writes and where it ends, against a step of a session. -/
def Turns (cfg : Config) (st : Session) (m : Frontend) (bs : Bytes) (r : Option Session) : Prop :=
  ∃ w : Outcome C, bs = putMsgs [] (step cfg st (w, m)).1 ∧ match r with
    | some st' => (step cfg st (w, m)).2 = .go st'
    | none => ∃ e, (step cfg st (w, m)).2 = .stop e

/-- A message that the ghosts leave alone. -/
theorem turns_of_dispatches {cfg : Config} {w : Outcome C} {st : Session} {m : Frontend} {bs : Bytes}
    {r : Option (Bytes × Session)}
    (hghost : ¬(m.haunted cfg ∧ (w.crashed cfg ∨ w.dropped cfg ∨ w.errored cfg)))
    (h : Dispatches cfg w st m bs r) :
    Turns (C := C) cfg st m (bs ++ (r.map Prod.fst).getD []) (r.map Prod.snd) := by
  have hcrash : ¬(m.haunted cfg ∧ w.crashed cfg) := fun h => hghost ⟨h.1, .inl h.2⟩
  have hdrop : ¬(m.haunted cfg ∧ w.dropped cfg) := fun h => hghost ⟨h.1, .inr (.inl h.2)⟩
  have herror : ¬(m.haunted cfg ∧ w.errored cfg) := fun h => hghost ⟨h.1, .inr (.inr h.2)⟩
  refine ⟨w, ?_⟩
  unfold step
  simp only [if_neg hcrash, if_neg hdrop, if_neg herror]
  cases r with
  | some p =>
    obtain ⟨hk, o, hd, hbs⟩ := h
    simp only [if_neg hk, hd]
    exact ⟨hbs, rfl⟩
  | none =>
    obtain ⟨rfl, hk | ⟨hk, hd⟩⟩ := h
    · rw [if_pos hk]
      exact ⟨rfl, _, rfl⟩
    · simp only [if_neg hk, hd]
      exact ⟨rfl, _, rfl⟩

/-- What `turn` does with a message once the ghosts have left it alone. -/
theorem rest_wp (cfg : Config) (st : Session) (m : Frontend) (w : Outcome C)
    (hghost : ¬(m.haunted cfg ∧ (w.crashed cfg ∨ w.dropped cfg ∨ w.errored cfg))) :
    (do
      let (out, st) ← dispatch cfg st m
      Act.flush out
      return st : Act C Session).wp (Turns (C := C) cfg st m) := by
  rw [Attempt.wp_bind]
  refine Proc.wp_mono (dispatch_wp cfg st m w) ?_
  rintro bs r ⟨slot, os, hd⟩
  have h := turns_of_dispatches (w := { w with slot := slot, os := os }) hghost hd
  cases r with
  | none => simpa using h
  | some p => simpa using h

/-- **One round is one step of a session.** -/
theorem turn_wp (cfg : Config) (st : Session) (m : Frontend) :
    (turn cfg st m : Act C Session).wp (Turns (C := C) cfg st m) := by
  unfold turn haunt
  by_cases hh : m.haunted cfg
  · rw [if_pos hh, Attempt.wp_bind, Act.wp_ghosts]
    intro w
    by_cases hend : w.crashed cfg ∨ w.dropped cfg
    · -- a ghost ends the connection
      have hstep : ∃ why, step cfg st (w, m) = ([], .stop why) := by
        unfold step
        by_cases hcrash : w.crashed cfg
        · exact ⟨_, if_pos ⟨hh, hcrash⟩⟩
        · exact ⟨_, (if_neg fun h => hcrash h.2).trans (if_pos ⟨hh, hend.resolve_left hcrash⟩)⟩
      obtain ⟨why, hstep⟩ := hstep
      rw [if_pos hend]
      exact ⟨w, by rw [hstep]; rfl, by rw [hstep]; exact ⟨_, rfl⟩⟩
    rw [if_neg hend]
    by_cases herror : w.errored cfg
    · obtain ⟨hcrash, hdrop⟩ := not_or.1 hend
      have hstep : step cfg st (w, m) =
          (if m.kind = .query then [ghostError, .readyForQuery] else [ghostError], .go st) := by
        unfold step
        simp only [if_neg fun h => hcrash (And.right h), if_neg fun h => hdrop (And.right h),
          if_pos (And.intro hh herror)]
      simp only [if_pos herror, if_true, Attempt.wp_bind, Attempt.wp_write, Attempt.after_some,
        Attempt.wp_pure, List.append_nil]
      exact ⟨w, by rw [hstep], by rw [hstep]⟩
    · rw [if_neg herror]
      have hrest := rest_wp cfg st m w fun h => by
        rcases h.2 with h | h | h
        · exact hend (.inl h)
        · exact hend (.inr h)
        · exact herror h
      simpa using hrest
  · have hrest := rest_wp (C := C) cfg st m default fun h => hh h.1
    simpa [hh] using hrest

/-! ## The command loop -/

/-- The messages of a stream, up to one that is not read. -/
def framesFrom : ℕ → Bytes → List Frontend
  | 0, _ => []
  | fuel + 1, s =>
    match readMessage s with
    | some (m, s) => m :: framesFrom fuel s
    | none => []

/-- A message as a client frames it. -/
def frame (m : Frontend) : Bytes := m.tag :: (beInt 4 ((m.payload.length + 4 : ℕ) : ℤ) ++ m.payload)

/-- What a message is read from is its frame. -/
theorem eq_of_readMessage {m : Frontend} {s r : Bytes} (h : readMessage s = some (m, r)) :
    s = frame m ++ r ∧ m.payload.length + 4 ≤ maxMsg := by
  cases s with
  | nil => cases h
  | cons tag s =>
    obtain ⟨⟨len, t⟩, hlen, h⟩ := Option.bind_eq_some_iff.1 h
    dsimp only at h
    by_cases hrange : len < 4 ∨ (maxMsg : ℤ) < len
    · rw [if_pos hrange] at h
      cases h
    rw [if_neg hrange] at h
    obtain ⟨⟨payload, u⟩, htake, he⟩ := Option.bind_eq_some_iff.1 h
    obtain ⟨rfl, rfl⟩ := Prod.mk.inj (Option.some.inj he)
    obtain rfl := eq_of_readInt hlen
    obtain ⟨rfl, hsize⟩ := takeN_eq_some htake
    have hlen' : len = ((payload.length + 4 : ℕ) : ℤ) := by omega
    refine ⟨?_, by dsimp only; omega⟩
    rw [frame, hlen', List.cons_append, List.append_assoc]

/-- A frame takes five bytes at least. -/
theorem length_readMessage {m : Frontend} {s r : Bytes} (h : readMessage s = some (m, r)) :
    r.length < s.length := by
  rw [(eq_of_readMessage h).1, List.length_append, frame, List.length_cons]
  omega

/-- **The command loop is a session** on the messages of the stream, for some outcomes: it ends,
since each round takes bytes from the stream. -/
theorem commands_wp (cfg : Config) {fuel : ℕ} (st : Session) {s : Bytes} (hfuel : s.length < fuel) :
    (commands cfg fuel st s : Act C Unit).wp fun bs r => r = none ∧
      ∃ l : List (Outcome C × Frontend), l.map Prod.snd = framesFrom fuel s ∧
        bs = putMsgs [] (Serve.serve (step cfg) st l).1.flatten := by
  induction fuel generalizing st s with
  | zero => omega
  | succ fuel ih =>
    rw [commands, framesFrom, Attempt.wp_bind, Act.wp_ofOption]
    cases hread : readMessage s with
    | none => exact ⟨rfl, [], rfl, rfl⟩
    | some p =>
      obtain ⟨m, rest⟩ := p
      have hrest := length_readMessage hread
      simp only [Attempt.after_some, List.nil_append, Attempt.wp_bind]
      refine Proc.wp_mono (turn_wp cfg st m) ?_
      rintro bs r ⟨w, rfl, hr⟩
      cases r with
      | none =>
        -- the connection ends, and the messages after this one are not read
        obtain ⟨e, he⟩ := hr
        refine ⟨rfl, (w, m) :: (framesFrom fuel rest).map fun m => (w, m), ?_, ?_⟩
        · rw [List.map_cons, List.map_map]
          exact congrArg _ (List.map_id _)
        · rw [Serve.serve_stop he, List.flatten_singleton]
      | some st' =>
        rw [Attempt.after_some]
        refine Proc.wp_mono (ih st' (s := rest) (by omega)) ?_
        rintro bs r ⟨rfl, l, hl, rfl⟩
        refine ⟨rfl, (w, m) :: l, by rw [List.map_cons, hl], ?_⟩
        rw [Serve.serve_go hr, List.flatten_cons, putMsgs_all]

/-! ## Order -/

section Order

variable {last : Bool}

theorem orderly_streamRows (cols : List Resolved) (formats : List ℤ) (max : ℕ) (g : Gen)
    (fuel sent : ℕ) (rng : C.Rng) :
    Orderly last last (streamRows cols formats max g fuel sent rng) := by
  induction fuel generalizing sent rng with
  | zero => exact .diverge
  | succ fuel ih =>
    rw [streamRows]
    split_ifs
    · exact (Orderly.write _).bind fun _ => ih _ _
    · exact .write _

theorem orderly_crushStream (shape : ResultShape) (cfg : Config) (stmt : Str) :
    Orderly last last (crushStream shape cfg stmt : Act C Unit) :=
  (Orderly.write _).bind fun _ => (Orderly.seedRng _ _).bind fun _ => orderly_streamRows ..

theorem orderly_normalResponse (out : Bytes) (shape : ResultShape) (cfg : Config) (stmt : Str) :
    Orderly last last (normalResponse out shape cfg stmt : Act C Bytes) :=
  (Orderly.seedRng _ _).bind fun _ => .pure _

theorem orderly_respondStatement (cfg : Config) (out : Bytes) (stmt : Str) :
    Orderly false false (respondStatement cfg out stmt : Act C Bytes) := by
  refine (Orderly.ofOption _).bind fun shape => ?_
  dsimp only
  split
  · split_ifs
    · -- the slot is for the stream alone
      refine Orderly.withSlot ?_ (orderly_normalResponse ..)
      exact (Orderly.flush _).bind fun _ => (orderly_crushStream ..).bind fun _ => .pure _
    · exact orderly_normalResponse ..
  · exact orderly_normalResponse ..
  · exact orderly_normalResponse ..

theorem orderly_respondAll (cfg : Config) (stmts : List Str) (out : Bytes) :
    Orderly false false (respondAll cfg stmts out : Act C Bytes) := by
  induction stmts generalizing out with
  | nil => exact .pure _
  | cons stmt stmts ih => exact (orderly_respondStatement ..).bind fun out => ih out

theorem orderly_query (cfg : Config) (sql : Str) : Orderly false false (query cfg sql : Act C Bytes) := by
  refine (Orderly.ofOption _).bind fun stmts => ?_
  split_ifs
  · exact (Orderly.pure _).bind fun _ => .pure _
  · exact (orderly_respondAll ..).bind fun _ => .pure _

theorem orderly_executeNormal (cfg : Config) (portal : Portal) (maxRows : ℤ) (shape : ResultShape)
    (out : Bytes) : Orderly last last (executeNormal cfg portal maxRows shape out : Act C Bytes) :=
  (Orderly.seedRng _ _).bind fun _ => .pure _

theorem orderly_executePortal (cfg : Config) (portal : Portal) (maxRows : ℤ) (out : Bytes) :
    Orderly false false (executePortal cfg portal maxRows out : Act C Bytes) := by
  refine (Orderly.ofOption _).bind fun shape => ?_
  split_ifs
  · unfold executeSelect
    dsimp only
    split
    · split_ifs
      · refine Orderly.withSlot ?_ (orderly_executeNormal ..)
        exact (Orderly.flush _).bind fun _ => (Orderly.write _).bind fun _ =>
          (Orderly.seedRng _ _).bind fun _ => (orderly_streamRows ..).bind fun _ => .pure _
      · exact orderly_executeNormal ..
    · exact orderly_executeNormal ..
    · exact orderly_executeNormal ..
  · exact (Orderly.seedRng _ _).bind fun _ => .pure _

theorem orderly_haunt (cfg : Config) (m : Frontend) : Orderly last last (haunt cfg m : Act C Bool) := by
  unfold haunt
  by_cases hh : m.haunted cfg
  · rw [if_pos hh]
    exact .ghosts cfg ((Orderly.write _).bind fun _ => .pure _) (.pure _)
  · rw [if_neg hh]
    exact .pure _

theorem orderly_dispatch (cfg : Config) (st : Session) (m : Frontend) :
    Orderly false false (dispatch cfg st m : Act C (Bytes × Session)) := by
  unfold dispatch
  split
  · exact (orderly_query ..).bind fun _ => .pure _
  · exact .pure _
  · exact .pure _
  · -- the answer is not to be computed here
    generalize describe C.memory cfg st m.payload = described
    exact (Orderly.ofOption described).bind fun _ => .pure _
  · exact (orderly_executePortal ..).bind fun _ => .pure _
  · exact .pure _
  · exact .stop
  · exact .pure _
  · exact .pure _
  · exact .pure _

theorem orderly_turn (cfg : Config) (st : Session) (m : Frontend) :
    Orderly false false (turn cfg st m : Act C Session) := by
  refine (orderly_haunt cfg m).bind fun b => ?_
  split_ifs
  · exact .pure _
  · exact (orderly_dispatch cfg st m).bind fun _ => (Orderly.flush _).bind fun _ => .pure _

theorem orderly_commands (cfg : Config) (fuel : ℕ) (st : Session) (s : Bytes) :
    Orderly false false (commands cfg fuel st s : Act C Unit) := by
  induction fuel generalizing st s with
  | zero => exact .diverge
  | succ fuel ih =>
    exact (Orderly.ofOption _).bind fun p => (orderly_turn cfg st p.1).bind fun st => ih st p.2

theorem orderly_startup (fuel : ℕ) (s : Bytes) :
    Orderly last last (startup fuel s : Act C (Login × Bytes)) := by
  induction fuel generalizing s with
  | zero => exact .diverge
  | succ fuel ih =>
    refine (Orderly.ofOption _).bind fun p => ?_
    dsimp only
    split_ifs
    · exact .stop
    · refine (Orderly.ofOption _).bind fun q => ?_
      split_ifs
      · exact (Orderly.write _).bind fun _ => ih q.2
      · exact .stop
      · exact (Orderly.ofOption _).bind fun _ => .pure _
      · exact .stop

/-- **A Postgres connection is in order.** -/
theorem orderly_handle (cfg : Config) (s : Bytes) :
    Orderly false false (handle cfg s : Act C Unit) := by
  refine (orderly_startup _ s).bind fun p => ?_
  exact (Orderly.draw Ask.i32).bind fun _ => (Orderly.draw Ask.i32).bind fun _ =>
    (Orderly.write _).bind fun _ => orderly_commands ..

end Order

end EtherealDb.Pg.Conn
