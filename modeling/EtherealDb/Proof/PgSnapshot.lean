import EtherealDb.Proof.PgPortal

/-!
# A portal is a snapshot

What a portal holds, as its history has it: the text that its statement had at the latest
Bind (`HasText`), with that Bind's formats (`IsSnapshot`).

* `hasText_statements`, `isSnapshot_portal`: the maps of a session hold what the history says.
* `portal_snapshot`: **Describe and Execute answer for the snapshot**, in every run.
-/

namespace EtherealDb.Pg

open Str
open Serve (Next serve)

variable {C : Crates}

/-! ## Histories -/

/-- Neither a Parse nor a Close of the statement `q`. -/
def KeepsStmt (q : Str) (m : Frontend) : Prop :=
  (m.kind = .parse → (Read.parseMessage.of m.payload).name ≠ q) ∧
    (m.kind = .close → Read.targetMessage.of m.payload ≠ ⟨true, q⟩)

/-- The text of the statement `q` after a history: that of the latest Parse of it. It is
empty when there was none, or when `q` was closed since. -/
inductive HasText (q : Str) : List Frontend → Str → Prop where
  | parsed {before after : List Frontend} {m : Frontend} (hm : m.kind = .parse)
    (hq : (Read.parseMessage.of m.payload).name = q) (hafter : ∀ x ∈ after, KeepsStmt q x) :
    HasText q (before ++ m :: after) (Read.parseMessage.of m.payload).sql
  | closed {before after : List Frontend} {m : Frontend} (hm : m.kind = .close)
    (hq : Read.targetMessage.of m.payload = ⟨true, q⟩) (hafter : ∀ x ∈ after, KeepsStmt q x) :
    HasText q (before ++ m :: after) []
  | never {hist : List Frontend} (h : ∀ x ∈ hist, KeepsStmt q x) : HasText q hist []

/-- The portal `p` after a history: the text that the statement of the latest Bind had then,
and the formats of that Bind. It is the empty query when there was none, or when `p` was
closed since. -/
inductive IsSnapshot (p : Str) : List Frontend → Portal → Prop where
  | bound {before after : List Frontend} {m : Frontend} {sql : Str} (hm : m.kind = .bind)
    (hp : (Read.bindMessage.of m.payload).portal = p) (hafter : ∀ x ∈ after, Keeps p x)
    (hsql : HasText (Read.bindMessage.of m.payload).stmtName before sql) :
    IsSnapshot p (before ++ m :: after) ⟨sql, (Read.bindMessage.of m.payload).resultFormats⟩
  | closed {before after : List Frontend} {m : Frontend} (hm : m.kind = .close)
    (hp : Read.targetMessage.of m.payload = ⟨false, p⟩) (hafter : ∀ x ∈ after, Keeps p x) :
    IsSnapshot p (before ++ m :: after) .default
  | never {hist : List Frontend} (h : ∀ x ∈ hist, Keeps p x) : IsSnapshot p hist .default

/-- Every statement has a text. -/
theorem exists_hasText (q : Str) (hist : List Frontend) : ∃ sql, HasText q hist sql := by
  rcases Serve.exists_last (KeepsStmt q) hist with hall | ⟨before, m, after, rfl, hm, hafter⟩
  · exact ⟨_, .never hall⟩
  · by_cases hparse : m.kind = .parse ∧ (Read.parseMessage.of m.payload).name = q
    · exact ⟨_, .parsed hparse.1 hparse.2 hafter⟩
    · have hclose : m.kind = .close ∧ Read.targetMessage.of m.payload = ⟨true, q⟩ := by
        by_contra hclose
        exact hm ⟨fun hk hq => hparse ⟨hk, hq⟩, fun hk hq => hclose ⟨hk, hq⟩⟩
      exact ⟨_, .closed hclose.1 hclose.2 hafter⟩

/-- Every portal has a snapshot. -/
theorem exists_isSnapshot (p : Str) (hist : List Frontend) : ∃ portal, IsSnapshot p hist portal := by
  rcases Serve.exists_last (Keeps p) hist with hall | ⟨before, m, after, rfl, hm, hafter⟩
  · exact ⟨_, .never hall⟩
  · by_cases hbind : m.kind = .bind ∧ (Read.bindMessage.of m.payload).portal = p
    · obtain ⟨sql, hsql⟩ := exists_hasText (Read.bindMessage.of m.payload).stmtName before
      exact ⟨_, .bound hbind.1 hbind.2 hafter hsql⟩
    · have hclose : m.kind = .close ∧ Read.targetMessage.of m.payload = ⟨false, p⟩ := by
        by_contra hclose
        exact hm ⟨fun hk hp => hbind ⟨hk, hp⟩, fun hk hp => hclose ⟨hk, hp⟩⟩
      exact ⟨_, .closed hclose.1 hclose.2 hafter⟩

/-! ## Sessions hold what their history says -/

theorem parse_statements {s : Session} {a : ParseMessage} {q : Str} (h : a.name ≠ q) :
    (s.parse a).statements q = s.statements q :=
  Function.update_of_ne h.symm _ _

theorem close_statements {s : Session} {t : TargetMessage} {q : Str} (h : t ≠ ⟨true, q⟩) :
    (s.close t).statements q = s.statements q := by
  obtain ⟨isStmt, name⟩ := t
  cases isStmt with
  | false => rfl
  | true =>
    have hne : q ≠ name := fun heq => h (by rw [heq])
    exact Function.update_of_ne hne _ _

/-- A message keeps the statements that it does not parse or close. -/
theorem step_statements {cfg : Config} {s s' : Session} {om : Outcome C × Frontend} {q : Str}
    (hk : KeepsStmt q om.2) (h : (step cfg s om).2 = .go s') :
    s'.statements q = s.statements q := by
  rw [step_after h]
  unfold Session.after
  cases hkind : om.2.kind with
  | parse => exact parse_statements (hk.1 hkind)
  | close => exact close_statements (hk.2 hkind)
  | bind | query | describe | execute | sync | terminate | flush | other => rfl

/-- A history that splits is the history of a run that splits. -/
theorem split_history {l : List (Outcome C × Frontend)} {before after : List Frontend}
    {m : Frontend} (h : l.map Prod.snd = before ++ m :: after) :
    ∃ l₁ o l₂, l = l₁ ++ (o, m) :: l₂ ∧ l₁.map Prod.snd = before ∧ l₂.map Prod.snd = after := by
  obtain ⟨l₁, l', rfl, rfl, h'⟩ := List.map_eq_append_iff.1 h
  obtain ⟨⟨o, x⟩, l₂, rfl, rfl, rfl⟩ := List.map_eq_cons_iff.1 h'
  exact ⟨l₁, o, l₂, rfl, rfl, rfl⟩

/-- **The statements of a session are those of its history.** -/
theorem hasText_statements {cfg : Config} {q sql : Str} {hist : List Frontend}
    (h : HasText q hist sql) {l : List (Outcome C × Frontend)} {s : Session}
    (hl : l.map Prod.snd = hist) (hgo : (session cfg l).2 = .go s) :
    (s.statements q).getD [] = sql := by
  have hkeep : ∀ t t' : Session, ∀ om : Outcome C × Frontend, KeepsStmt q om.2 →
      (step cfg t om).2 = .go t' → t'.statements q = t.statements q :=
    fun _ _ _ hk hstep => step_statements hk hstep
  unfold session at hgo
  cases h with
  | parsed hm hq hafter =>
    obtain ⟨l₁, o, l₂, rfl, -, rfl⟩ := split_history hl
    obtain ⟨t, u, -, hu, hs⟩ := Serve.serve_last (r := fun u => u.statements q) hkeep
      (fun om hom => hafter _ (List.mem_map_of_mem hom)) hgo
    have hu' := step_after hu
    simp only [Session.after, hm] at hu'
    rw [hs, hu', ← hq]
    simp [Session.parse]
  | closed hm hq hafter =>
    obtain ⟨l₁, o, l₂, rfl, -, rfl⟩ := split_history hl
    obtain ⟨t, u, -, hu, hs⟩ := Serve.serve_last (r := fun u => u.statements q) hkeep
      (fun om hom => hafter _ (List.mem_map_of_mem hom)) hgo
    have hu' := step_after hu
    simp only [Session.after, hm] at hu'
    rw [hs, hu', hq]
    simp [Session.close]
  | never hall =>
    subst hl
    have hs := Serve.serve_keeps (r := fun u => u.statements q) hkeep
      (fun om hom => hall _ (List.mem_map_of_mem hom)) hgo
    rw [hs]
    rfl

/-- **The portals of a session are those of its history.** -/
theorem isSnapshot_portal {cfg : Config} {p : Str} {portal : Portal} {hist : List Frontend}
    (h : IsSnapshot p hist portal) {l : List (Outcome C × Frontend)} {s : Session}
    (hl : l.map Prod.snd = hist) (hgo : (session cfg l).2 = .go s) : s.portal p = portal := by
  have hkeep : ∀ t t' : Session, ∀ om : Outcome C × Frontend, Keeps p om.2 →
      (step cfg t om).2 = .go t' → t'.portals p = t.portals p :=
    fun _ _ _ hk hstep => step_portals hk hstep
  unfold session at hgo
  unfold Session.portal
  cases h with
  | bound hm hp hafter hsql =>
    obtain ⟨l₁, o, l₂, rfl, hl₁, rfl⟩ := split_history hl
    obtain ⟨t, u, ht, hu, hs⟩ := Serve.serve_last (r := fun u => u.portals p) hkeep
      (fun om hom => hafter _ (List.mem_map_of_mem hom)) hgo
    have hu' := step_after hu
    simp only [Session.after, hm] at hu'
    have htext := hasText_statements hsql hl₁ ht
    rw [hs, hu', ← hp]
    simp [Session.bind, htext]
  | closed hm hp hafter =>
    obtain ⟨l₁, o, l₂, rfl, -, rfl⟩ := split_history hl
    obtain ⟨t, u, -, hu, hs⟩ := Serve.serve_last (r := fun u => u.portals p) hkeep
      (fun om hom => hafter _ (List.mem_map_of_mem hom)) hgo
    have hu' := step_after hu
    simp only [Session.after, hm] at hu'
    rw [hs, hu', hp]
    simp [Session.close]
  | never hall =>
    subst hl
    have hs := Serve.serve_keeps (r := fun u => u.portals p) hkeep
      (fun om hom => hall _ (List.mem_map_of_mem hom)) hgo
    rw [hs]
    rfl

/-! ## Answers -/

/-- The answer to a Describe or an Execute message about a portal. A Describe announces every
column as text, whatever formats were bound; an Execute sends the rows in these formats. -/
def portalAnswer (cfg : Config) (o : Outcome C) (m : Frontend) (portal : Portal) : List Backend :=
  if m.kind = .describe then [description cfg portal.sql]
  else if m.haunted cfg ∧ (o.crashed cfg ∨ o.dropped cfg) then []
  else if m.haunted cfg ∧ o.errored cfg then [ghostError]
  else
    let maxRows := (Read.executeMessage.of m.payload).maxRows
    ((executePortal cfg (o.slot 0) (o.os 0) portal maxRows .new).map Out.all).getD []

/-- A round that describes or executes a portal answers for it. -/
theorem step_portalAnswer (cfg : Config) (s : Session) (o : Outcome C) {p : Str} {m : Frontend}
    (hm : Executes p m ∨ Describes p m) :
    (step cfg s (o, m)).1 = portalAnswer cfg o m (s.portal p) := by
  unfold portalAnswer
  rcases hm with ⟨hk, hp⟩ | hd
  · rw [if_neg (by simp [hk])]
    have hdis : dispatch cfg o s m = _ := dispatch_execute hk
    rw [hp] at hdis
    have hend : m.haunted cfg ∧ (o.crashed cfg ∨ o.dropped cfg) ↔
        m.haunted cfg ∧ o.crashed cfg ∨ m.haunted cfg ∧ o.dropped cfg := and_or_left
    unfold step
    simp only [hend]
    by_cases hcrash : m.haunted cfg ∧ o.crashed cfg
    · simp only [if_pos hcrash, if_pos (Or.inl hcrash)]
    by_cases hdrop : m.haunted cfg ∧ o.dropped cfg
    · simp only [if_neg hcrash, if_pos hdrop, if_pos (Or.inr hdrop)]
    · simp only [hcrash, hdrop, or_self]
      by_cases herr : m.haunted cfg ∧ o.errored cfg
      · simp only [if_pos herr, hk, reduceCtorEq, if_false]
      · simp only [if_neg herr, hk, reduceCtorEq, if_false, hdis]
        cases executePortal cfg (o.slot 0) (o.os 0) (s.portal p)
          (Read.executeMessage.of m.payload).maxRows .new with
        | none => rfl
        | some out => simp [Out.flush, Out.all]
  · rw [if_pos hd.1, step_describe cfg s o hd]

/-- **A portal is a snapshot.** A Describe or an Execute of the portal `p`, anywhere in a run,
answers for what the history says of `p`: later messages about its statement, or about other
names, change nothing. -/
theorem portal_snapshot (cfg : Config) (l rest : List (Outcome C × Frontend)) (o : Outcome C)
    {p : Str} {m : Frontend} (hm : Executes p m ∨ Describes p m) :
    (∃ portal, IsSnapshot p (l.map Prod.snd) portal) ∧
      ∀ portal, IsSnapshot p (l.map Prod.snd) portal →
        ∀ ms, (session cfg (l ++ (o, m) :: rest)).1[l.length]? = some ms →
          ms = portalAnswer cfg o m portal := by
  refine ⟨exists_isSnapshot p _, ?_⟩
  intro portal hsnap ms hms
  cases hgo : (session cfg l).2 with
  | stop e =>
    -- the run ends before the message
    have hle : (session cfg l).1.length ≤ l.length := Serve.length_serve_le l _
    unfold session at hgo hle hms
    rw [Serve.serve_append_stop hgo, List.getElem?_eq_none hle] at hms
    cases hms
  | go s =>
    have hportal := isSnapshot_portal hsnap rfl hgo
    unfold session at hgo hms
    have hlen := Serve.length_serve hgo
    rw [Serve.serve_append hgo, List.getElem?_append_right (by omega), hlen, Nat.sub_self] at hms
    have hhead : (serve (step cfg) s ((o, m) :: rest)).1[0]? = some (step cfg s (o, m)).1 := by
      cases hnext : (step cfg s (o, m)).2 with
      | go t => rw [Serve.serve_go hnext]; rfl
      | stop e => rw [Serve.serve_stop hnext]; rfl
    rw [hhead, step_portalAnswer cfg s o hm, hportal] at hms
    exact (Option.some.inj hms).symm

/-- A Parse of the statement `s`. -/
def prepared (sql : Str) : Frontend := ⟨80, cstr "s" ++ cstr sql⟩

/-- A Bind of the unnamed portal to `s`. -/
def boundTo : Frontend := ⟨66, cstr [] ++ cstr "s"⟩

/-- A statement is bound, and then prepared anew. -/
theorem portal_snapshot_reprepared :
    [.dataRow [.text "1"], .commandComplete "SELECT 1"] =
      portalAnswer (C := .least) .default .quiet ⟨69, [0]⟩ ⟨"select 1", []⟩ := by
  let l : List (Outcome .least × Frontend) :=
    [(.quiet, prepared "select 1"), (.quiet, boundTo), (.quiet, prepared "select 2")]
  have htext : HasText "s" ([] ++ [prepared "select 1"]) "select 1" :=
    .parsed (by decide) (by decide) (by simp)
  have hkeep : Keeps [] (prepared "select 2") := by unfold Keeps; decide
  have hsnap : IsSnapshot [] ([prepared "select 1"] ++ boundTo :: [prepared "select 2"])
      ⟨"select 1", []⟩ := .bound (by decide) (by decide) (by simpa using hkeep) htext
  have hrun : (session .default (l ++ (.quiet, ⟨69, [0]⟩) :: [])).1[l.length]? =
      some [.dataRow [.text "1"], .commandComplete "SELECT 1"] := by decide +kernel
  have hexec : Executes [] ⟨69, [0]⟩ := ⟨rfl, by decide⟩
  exact (portal_snapshot .default l [] .quiet (.inl hexec)).2 _ hsnap _ hrun

end EtherealDb.Pg
