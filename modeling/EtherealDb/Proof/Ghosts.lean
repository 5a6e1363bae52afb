import EtherealDb.Spec.MySql
import EtherealDb.Spec.Pg
import EtherealDb.Spec.Resp
import EtherealDb.Text.Serve

/-!
# Ghosts and chance

* `Pg.ghosts_transparent`: **a ghost that does not end the session changes nothing but the answer it
  spoils.** The other answers are those of a server without ghosts that never saw the spoilt
  messages.
* `Calm`: a seed, no ghosts, and no crush streams. `Pg.session_calm`, `MySql.turn_calm` and
  `Resp.round_calm`: nothing that the world decides is in the answers then.
-/

namespace EtherealDb

variable {C : Crates}

/-- A configuration without its ghosts. Fuzz stays, since it is drawn with the values. -/
def Config.unhaunted (cfg : Config) : Config :=
  { cfg with ghosts := { cfg.ghosts with latencyProb := 0, errorProb := 0, dropProb := 0 } }

namespace Pg

theorem respondAll_unhaunted (cfg : Config) (o : Outcome C) (i : ℕ) (stmts : List Str) (out : Out) :
    respondAll cfg.unhaunted o i stmts out = respondAll cfg o i stmts out := by
  induction stmts generalizing i out with
  | nil => rfl
  | cons stmt stmts ih =>
    have hstmt : respondStatement cfg.unhaunted (o.slot i) (o.os i) out stmt =
        respondStatement cfg (o.slot i) (o.os i) out stmt := rfl
    rw [respondAll, respondAll, hstmt]
    exact congrArg _ (funext fun out => ih (i + 1) out)

/-- No arm of the loop looks at the ghosts. -/
theorem dispatch_unhaunted (cfg : Config) (o : Outcome C) (s : Session) (m : Frontend) :
    dispatch cfg.unhaunted o s m = dispatch cfg o s m := by
  have hquery : ∀ sql, query cfg.unhaunted o sql = query cfg o sql := by
    intro sql
    unfold query
    simp only [respondAll_unhaunted]
  unfold dispatch
  cases m.kind with
  | query => rw [hquery]
  | _ => rfl

/-- How a ghost ends the connection at a message, if it does: its delay panics, or it drops the
connection. -/
def ends (cfg : Config) (x : Outcome C × Frontend) : Option Stop :=
  if x.2.haunted cfg ∧ x.1.crashed cfg then some .panicked
  else if x.2.haunted cfg ∧ x.1.dropped cfg then some .dropped
  else none

/-- Whether a ghost answers a message. -/
def spoils (cfg : Config) (x : Outcome C × Frontend) : Bool := x.2.haunted cfg && x.1.errored cfg

/-- The answer to a message that a ghost spoils. -/
def spoilt (m : Frontend) : List Backend :=
  if m.kind = .query then [ghostError, .readyForQuery] else [ghostError]

theorem not_haunted_unhaunted (cfg : Config) (m : Frontend) : m.haunted cfg.unhaunted = false := rfl

/-! What ghosts do to one step: they end the session, or they answer in its place, or nothing. -/

theorem step_ends {cfg : Config} {x : Outcome C × Frontend} {e : Stop} (h : ends cfg x = some e)
    (s : Session) : step cfg s x = ([], .stop e) := by
  unfold ends at h
  unfold step
  split_ifs at h with hcrash hdrop
  · obtain rfl := Option.some.inj h
    exact if_pos hcrash
  · obtain rfl := Option.some.inj h
    simp only [if_neg hcrash, if_pos hdrop]

theorem step_stays {cfg : Config} {x : Outcome C × Frontend} (h : ends cfg x = none) (s : Session) :
    step cfg s x = if spoils cfg x then (spoilt x.2, .go s) else step cfg.unhaunted s x := by
  unfold ends at h
  split_ifs at h with hcrash hdrop
  unfold step spoils spoilt
  simp only [if_neg hcrash, if_neg hdrop, Bool.and_eq_true, not_haunted_unhaunted, Bool.false_eq_true,
    false_and, if_false, dispatch_unhaunted]

/-- **A ghost that does not end the session changes nothing but the answer it spoils.** A session
ends without an answer at the first message at which a ghost drops the connection or its delay
panics. Before it, a spoilt message is answered with an error; the other answers, and the end of the
session, are those of a server without ghosts that is sent the other messages alone. -/
theorem ghosts_transparent (cfg : Config) (l : List (Outcome C × Frontend)) :
    let kept := l.takeWhile fun x => (ends cfg x).isNone
    let clear := kept.filter fun x => !spoils cfg x
    (session cfg l).1.flatten = (session cfg kept).1.flatten ∧
      ((session cfg l).2 = (session cfg kept).2 ∨
        ∃ x rest e, l = kept ++ x :: rest ∧ ends cfg x = some e ∧ (session cfg l).2 = .stop e) ∧
      (∀ p ∈ kept.zip (session cfg kept).1, spoils cfg p.1 → p.2 = spoilt p.1.2) ∧
      ((kept.zip (session cfg kept).1).filter fun p => !spoils cfg p.1).map Prod.snd =
        (session cfg.unhaunted clear).1 ∧
      (session cfg kept).2 = (session cfg.unhaunted clear).2 := by
  intro kept clear
  have hkept : ∀ x ∈ kept, ends cfg x = none := by
    intro x hx
    simpa using List.mem_takeWhile_imp hx
  have hsteps : ∀ (s : Session) (x : Outcome C × Frontend) (e : Stop), ends cfg x = some e →
      step cfg s x = ([], .stop e) := fun s x e h => step_ends h s
  -- it is the session of a server that takes the messages before the end for all there are
  obtain ⟨hout, hend⟩ := Serve.serve_takeWhile hsteps (s := .new) (l := l)
  refine ⟨hout, hend, ?_, ?_⟩
  · intro p hp hspoils
    obtain ⟨s, hs⟩ := Serve.mem_zip_serve hp
    rw [hs, step_stays (hkept _ (List.of_mem_zip hp).1), if_pos hspoils]
  · have hskip : ∀ (s : Session), ∀ x ∈ kept, (!spoils cfg x) = false → (step cfg s x).2 = .go s := by
      intro s x hx hspoils
      rw [step_stays (hkept x hx), if_pos (by simpa using hspoils)]
    have hsame : ∀ (s : Session), ∀ x ∈ kept, (!spoils cfg x) = true →
        step cfg s x = step cfg.unhaunted s x := by
      intro s x hx hspoils
      rw [step_stays (hkept x hx), if_neg (by simpa using hspoils)]
    have hfilter := Serve.serve_filter (s := Session.new) hskip hsame
    exact ⟨hfilter.2, hfilter.1⟩

end Pg

/-! ## Calm configurations -/

/-- **A configuration that leaves nothing to chance**: the generators start from a seed, no ghost
is let loose, and no query waits on a crush slot. -/
structure Calm (cfg : Config) : Prop where
  seed : cfg.seed.isSome
  ghosts : cfg.ghosts.haunting = false
  crush : cfg.crush.enabled → cfg.crush.warnOnly

theorem warnOnly_of_crush {cfg : Config} (h : Calm cfg) {shape : ResultShape} {sig : Signals}
    (hcls : cfg.crushClass shape = .crush sig) : cfg.crush.warnOnly = true := by
  refine h.crush ?_
  unfold Config.crushClass at hcls
  split_ifs at hcls with henabled
  exact henabled

namespace Pg

variable {cfg : Config}

theorem respondStatement_calm (h : Calm cfg) (slot slot' : Bool) (os os' : C.Rng) (out : Out) (stmt : Str) :
    respondStatement cfg slot os out stmt = respondStatement cfg slot' os' out stmt := by
  have hnormal : ∀ shape, normalResponse shape cfg stmt os = normalResponse shape cfg stmt os' := by
    intro shape
    unfold normalResponse
    rw [seedRng_seeded h.seed _ os os']
  unfold respondStatement
  refine Option.bind_congr fun shape _ => ?_
  dsimp only
  rw [hnormal]
  cases hcls : cfg.crushClass shape with
  | crush sig => simp only [warnOnly_of_crush h hcls, Bool.not_true, Bool.false_eq_true, if_false]
  | _ => rfl

theorem respondAll_calm (h : Calm cfg) (o o' : Outcome C) (i : ℕ) (stmts : List Str) (out : Out) :
    respondAll cfg o i stmts out = respondAll cfg o' i stmts out := by
  induction stmts generalizing i out with
  | nil => rfl
  | cons stmt stmts ih =>
    rw [respondAll, respondAll, respondStatement_calm h (o.slot i) (o'.slot i) (o.os i) (o'.os i)]
    exact congrArg _ (funext fun out => ih (i + 1) out)

theorem executePortal_calm (h : Calm cfg) (slot slot' : Bool) (os os' : C.Rng) (portal : Portal)
    (maxRows : ℤ) (out : Out) :
    executePortal cfg slot os portal maxRows out = executePortal cfg slot' os' portal maxRows out := by
  have hselect : ∀ shape, executeSelect cfg slot os portal maxRows shape out =
      executeSelect cfg slot' os' portal maxRows shape out := by
    intro shape
    unfold executeSelect
    dsimp only
    rw [seedRng_seeded h.seed _ os os']
    cases hcls : cfg.crushClass shape with
    | crush sig => simp only [warnOnly_of_crush h hcls, Bool.not_true, Bool.false_eq_true, if_false]
    | _ => rfl
  unfold executePortal
  refine Option.bind_congr fun shape _ => ?_
  rw [hselect, seedRng_seeded h.seed _ os os']

/-- **The world decides nothing** in one step. -/
theorem step_calm (h : Calm cfg) (s : Session) (o o' : Outcome C) (m : Frontend) :
    step cfg s (o, m) = step cfg s (o', m) := by
  have hhaunted : m.haunted cfg = false := by simp [Frontend.haunted, h.ghosts]
  have hdispatch : dispatch cfg o s m = dispatch cfg o' s m := by
    unfold dispatch query
    simp only [respondAll_calm h o o', executePortal_calm h (o.slot 0) (o'.slot 0) (o.os 0) (o'.os 0)]
  unfold step
  simp only [hhaunted, Bool.false_eq_true, false_and, if_false, hdispatch]

/-- **The world decides nothing** in a session: its answers are made from the messages alone. -/
theorem session_calm (h : Calm cfg) {l l' : List (Outcome C × Frontend)}
    (hl : l.map Prod.snd = l'.map Prod.snd) : session cfg l = session cfg l' := by
  refine Serve.serve_map (fun s x y hxy => ?_) hl
  have hx := step_calm h s x.1 y.1 x.2
  rw [show x = (x.1, x.2) from rfl, hx, hxy]

end Pg

namespace MySql

variable {cfg : Config}

theorem runQuery_calm (h : Calm cfg) (slot slot' : Bool) (os os' : C.Rng) (sql : Str) :
    runQuery cfg slot os sql = runQuery cfg slot' os' sql := by
  have hselect : ∀ stmt shape, selectResponse cfg slot os stmt shape =
      selectResponse cfg slot' os' stmt shape := by
    intro stmt shape
    unfold selectResponse
    dsimp only
    rw [seedRng_seeded h.seed _ os os']
    cases hcls : cfg.crushClass shape with
    | crush sig => simp only [warnOnly_of_crush h hcls, Bool.not_true, Bool.false_eq_true, false_and, if_false]
    | _ => rfl
  have hid : ∀ stmt, randId cfg stmt os = randId cfg stmt os' := by
    intro stmt
    unfold randId
    rw [seedRng_seeded h.seed _ os os']
  unfold runQuery
  refine Option.bind_congr fun stmts _ => Option.bind_congr fun shape _ => ?_
  simp only [hselect, hid, seedRng_seeded h.seed _ os os']

/-- **The world decides nothing** in one turn. -/
theorem turn_calm (h : Calm cfg) (o o' : Outcome C) (s : Bytes) : turn cfg o s = turn cfg o' s := by
  have hanswer : ∀ cmd, answer cfg o cmd = answer cfg o' cmd := by
    intro cmd
    unfold answer
    simp only [h.ghosts, Bool.false_eq_true, false_and, if_false,
      runQuery_calm h (o.slot 0) (o'.slot 0) (o.os 0) (o'.os 0)]
  unfold turn
  simp only [hanswer]

end MySql

namespace Resp

variable {cfg : Config}

/-- With a seed the generators of the operating system play no part. -/
theorem dispatch_seeded (h : cfg.seed.isSome) (cmd : Str) (args : List Bytes) (os os' : ℕ → C.Rng) :
    dispatch cmd args cfg os = dispatch cmd args cfg os' := by
  have hseed : ∀ key i, seedRng cfg key (os i) = seedRng cfg key (os' i) := fun key i =>
    seedRng_seeded h key _ _
  have hrun : ∀ c, run cfg os args c = run cfg os' args c := by
    intro c
    unfold run
    simp only [hseed]
  unfold dispatch
  simp only [hrun]

/-- **The world decides nothing** in one round. -/
theorem round_calm (h : Calm cfg) (o o' : Outcome C) (s : Bytes) : round cfg o s = round cfg o' s := by
  have hanswer : ∀ args, answer cfg o args = answer cfg o' args := by
    intro args
    cases args with
    | nil => rfl
    | cons a args =>
      have hcrush : ¬(cfg.crush.enabled = true ∧ (!cfg.crush.warnOnly) = true) := by
        rintro ⟨henabled, hwarn⟩
        rw [h.crush henabled] at hwarn
        cases hwarn
      unfold answer
      simp only [h.ghosts, Bool.false_eq_true, false_and, if_false, dispatch_seeded h.seed _ _ o.os o'.os]
      rw [if_neg fun hk => hcrush ⟨hk.2.1, hk.2.2.1⟩, if_neg fun hk => hcrush ⟨hk.2.1, hk.2.2.1⟩]
  unfold round
  simp only [hanswer]

end Resp

end EtherealDb
