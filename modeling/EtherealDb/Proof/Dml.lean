import EtherealDb.Proof.Faint
import EtherealDb.Proof.MySqlWire
import EtherealDb.Proof.PgColumns
import EtherealDb.Proof.PgSnapshot
import EtherealDb.Spec.Dml

/-!
# Statements that write are acknowledged

* `acknowledged_iff`: a statement is acknowledged by every frontend exactly when the extractor
  reports its verb.
* `kind_first`, `kind_with`: what the extractor reports depends on the first word.
* `dml_acknowledged_iff`: **a statement that writes is acknowledged exactly when no `WITH`
  list stands in front of its verb.**
-/

namespace EtherealDb

open Str Reading

variable {C : Crates}

/-! ## Acknowledgements -/

/-- A message that belongs to no result set. -/
def Pg.NoResult (m : Pg.Backend) : Prop :=
  (∀ fields, m ≠ .rowDescription fields) ∧ ∀ cells, m ≠ .dataRow cells

/-- The messages that describe or execute a text. -/
def Pg.About (s : Pg.Session) (stmt : Str) (m : Pg.Frontend) : Prop :=
  m.kind = .describe ∧ s.described m.payload = stmt ∨
    m.kind = .execute ∧ (s.portal (Pg.Read.executeMessage.of m.payload).portal).sql = stmt

/-- **A statement of a kind is acknowledged**: it is reported as such, it is safe at every
threshold, and no frontend answers it with a result set. -/
structure Acknowledged (C : Crates) (stmt : Str) (kind : StmtKind) : Prop where
  reported : ∃ shape, extract stmt = some shape ∧ shape.kind = kind ∧
    ∀ threshold, shape.crushClass threshold = .safe
  simple : ∀ (cfg : Config) (slot : Bool) (os : C.Rng) (out : Pg.Out),
    Pg.respondStatement cfg slot os .new stmt = some out → ∀ m ∈ out.all, Pg.NoResult m
  extended : ∀ (cfg : Config) (s : Pg.Session) (o : Outcome C) (m : Pg.Frontend),
    Pg.About s stmt m → ∀ b ∈ (Pg.step cfg s (o, m)).1, Pg.NoResult b
  mysql : ∀ (cfg : Config) (slot : Bool) (os : C.Rng) (sql : Str) (ps : List MySql.Packet),
    (statementsOf sql).head? = some stmt → MySql.runQuery cfg slot os sql = some ps →
      ∃ affected id, ps = [.ok affected id]

/-- Execute of anything but a `SELECT` sends no row. -/
theorem Pg.executePortal_other {portal : Pg.Portal} (hk : (shapeOf portal.sql).kind ≠ .select)
    {cfg : Config} {slot : Bool} {os : C.Rng} {maxRows : ℤ} {out : Pg.Out}
    (h : Pg.executePortal cfg slot os portal maxRows .new = some out) :
    ∀ m ∈ out.all, Pg.NoResult m := by
  unfold Pg.executePortal at h
  rw [extract_eq] at h
  simp only [Option.bind_eq_bind, Option.bind_some] at h
  intro m hm
  cases hkind : (shapeOf portal.sql).kind with
  | select => exact absurd hkind hk
  | empty | insert | update | delete | command tag =>
    rw [hkind] at h
    cases h
    obtain rfl := List.mem_singleton.1 hm
    exact ⟨fun _ => Pg.Backend.noConfusion, fun _ => Pg.Backend.noConfusion⟩

/-- The description of a statement that is no `SELECT` says that there are no rows. -/
theorem Pg.describe_other {stmt : Str} (hk : (shapeOf stmt).kind ≠ .select) {memory : Memory}
    {cfg : Config} {s : Pg.Session} {payload : Bytes} (hsql : s.described payload = stmt) {out : Pg.Out}
    (h : Pg.describe memory cfg s payload = some out) : ∀ b ∈ out.all, Pg.NoResult b := by
  intro b hb
  rw [Pg.describe_eq, hsql, Pg.description, if_neg hk] at h
  obtain ⟨out, hout, rfl⟩ := Option.map_eq_some_iff.1 h
  have hcases : (∃ oids, b = .parameterDescription oids) ∨ b = .noData := by
    split_ifs at hout with hstmt
    · rcases Pg.parameters_cases memory cfg stmt with ⟨oids, heq, -⟩ | ⟨heq, -⟩
      · rw [heq] at hout
        obtain rfl := Option.some.inj hout
        exact (show b = .parameterDescription oids ∨ b = .noData by
          simpa [Pg.Out.all, Pg.Out.put, Pg.Out.new] using hb).imp_left fun h => ⟨oids, h⟩
      · rw [heq] at hout
        cases hout
    · obtain rfl := Option.some.inj hout
      exact .inr (List.mem_singleton.1 hb)
  rcases hcases with ⟨oids, rfl⟩ | rfl <;>
    exact ⟨fun _ => Pg.Backend.noConfusion, fun _ => Pg.Backend.noConfusion⟩

/-- Nothing but a `SELECT` gets a result set in an extended query. -/
theorem Pg.step_other {stmt : Str} (hk : (shapeOf stmt).kind ≠ .select) {cfg : Config}
    {s : Pg.Session} {o : Outcome C} {m : Pg.Frontend} (h : Pg.About s stmt m) :
    ∀ b ∈ (Pg.step cfg s (o, m)).1, Pg.NoResult b := by
  have hghost : Pg.NoResult Pg.ghostError :=
    ⟨fun _ => Pg.Backend.noConfusion, fun _ => Pg.Backend.noConfusion⟩
  intro b hb
  rcases Pg.step_cases cfg s o m with ⟨-, -, heq⟩ | ⟨-, -, heq⟩ | ⟨-, -, heq⟩ | ⟨-, heq⟩ |
    ⟨-, out, t, hd, heq⟩ | ⟨-, -, heq⟩
  · rw [heq] at hb
    cases hb
  · rw [heq] at hb
    cases hb
  · rw [heq] at hb
    have hq : m.kind ≠ .query := by
      rcases h with ⟨hm, -⟩ | ⟨hm, -⟩ <;> simp [hm]
    rw [if_neg hq] at hb
    obtain rfl := List.mem_singleton.1 hb
    exact hghost
  · rw [heq] at hb
    cases hb
  · rw [heq] at hb
    rcases h with ⟨hm, hsql⟩ | ⟨hm, hsql⟩
    · rw [Pg.dispatch_describe hm] at hd
      obtain ⟨out', hout, hpair⟩ := Option.map_eq_some_iff.1 hd
      obtain ⟨rfl, -⟩ := Prod.mk.inj hpair
      exact Pg.describe_other hk hsql hout b hb
    · rw [Pg.dispatch_execute hm] at hd
      obtain ⟨out', hout, hpair⟩ := Option.map_eq_some_iff.1 hd
      obtain ⟨rfl, -⟩ := Prod.mk.inj hpair
      exact Pg.executePortal_other (by rw [hsql]; exact hk) hout b hb
  · rw [heq] at hb
    cases hb

/-- **The extractor decides**: under its kind, a statement without rows is acknowledged. -/
theorem acknowledged_iff {stmt : Str} {verb : Verb} :
    Acknowledged C stmt verb.kind ↔ (shapeOf stmt).kind = verb.kind := by
  constructor
  · rintro ⟨⟨shape, hshape, hkind, -⟩, -, -, -⟩
    rw [extract_eq] at hshape
    rw [Option.some.inj hshape, hkind]
  · intro h
    have hk : (shapeOf stmt).kind ≠ .select := by
      rw [h]
      cases verb <;> simp [Verb.kind]
    refine ⟨⟨_, extract_eq stmt, h, fun th => Pg.crushClass_other hk th⟩, ?_, ?_, ?_⟩
    · intro cfg slot os out hout m hm
      have hresponse := Pg.response_other hk cfg slot os m
      rw [Pg.response, hout] at hresponse
      exact hresponse hm
    · intro cfg s o m hm
      exact Pg.step_other hk hm
    · intro cfg slot os sql ps hhead hps
      unfold MySql.runQuery at hps
      simp only [splitStatements_eq, Option.bind_eq_bind, Option.bind_some, hhead, Option.getD_some,
        extract_eq, h] at hps
      cases verb with
      | insert | update | delete =>
        cases hps
        exact ⟨_, _, rfl⟩

/-! ## The first word -/

/-- Blanks in front of a statement are trimmed. -/
theorem bareStmt_lead {lead : Str} (h : lead.all isWhitespace) (s : Str) :
    bareStmt (lead ++ s) = bareStmt s := by
  have htrim : trim (lead ++ s) = trim s := by
    unfold trim trimStart
    rw [List.dropWhile_append_of_pos (List.all_eq_true.1 h)]
  rw [bareStmt, htrim, bareStmt]

/-- **The first word of a statement** that begins with one, after its blanks. -/
theorem first_word {lead u tail : Str} (hlead : lead.all isWhitespace) (hne : u ≠ [])
    (hu : u.all isWordChar) (htail : ∀ c ∈ tail.head?, isWordChar c = false) :
    ∃ ws, wordsOf (bareStmt (lead ++ (u ++ tail))) = ⟨lower u, 0, len u⟩ :: ws := by
  obtain ⟨d, hd, -⟩ := bareEnd_append tail
  have hbreaks : Breaks .start (bareEnd tail) := by
    intro c hc
    refine .inr (htail c ?_)
    rw [hd]
    exact List.mem_head?_append_of_mem_head? hc
  have hbare : bareStmt (lead ++ (u ++ tail)) = u ++ bareEnd tail := by
    rw [bareStmt_lead hlead, bareStmt_solid (ends_word hne hu)]
  rw [hbare]
  exact wordsOf_first hne hu hbreaks

/-- Blanks end a word. -/
theorem breaks_blank {gap : Str} (h : gap.all isWhitespace) (hne : gap ≠ []) (t : Str) :
    ∀ c ∈ (gap ++ t).head?, isWordChar c = false := by
  obtain ⟨b, r, rfl⟩ := List.exists_cons_of_ne_nil hne
  intro c hc
  obtain rfl : b = c := Option.some.inj hc
  exact (faint_blank (List.all_eq_true.1 h b (by simp))).1

/-- **The verb is reported when it is the first word.** -/
theorem kind_first {s : Str} {w : Word} {ws : List Word} (hw : wordsOf (bareStmt s) = w :: ws)
    {verb : Verb} (hverb : w.text = verb.word) :
    (shapeOf s).kind = verb.kind := by
  obtain ⟨into, hinto⟩ := wordAfter_total (bareStmt s) "into"
  obtain ⟨table, htable⟩ := wordAfter_total (bareStmt s) "update"
  obtain ⟨target, htarget⟩ := wordAfter_total (bareStmt s) "from"
  have hs := extract_eq s
  have hne := ne_nil_of_words hw
  unfold extract at hs
  rw [hw] at hinto htable htarget
  simp only [if_neg hne, scanWords_eq, Option.bind_eq_bind, Option.bind_some, hw, List.head?_cons,
    Option.map_some, Option.getD_some, hverb, hinto, htable, htarget] at hs
  cases verb with
  | insert | update | delete =>
    rw [← Option.some.inj hs]
    rfl

/-- **Behind the word `WITH` no verb is reported.** -/
theorem kind_with {s : Str} {w : Word} {ws : List Word} (hw : wordsOf (bareStmt s) = w :: ws)
    (hwith : w.text = ("with" : Str)) :
    (shapeOf s).kind = .select ∨ (shapeOf s).kind = .command "SELECT" := by
  have hextract := extract_select hw (.inr (.inl hwith))
  exact Pg.extractSelect_kind (hextract.symm.trans (extract_eq s))

/-- **A statement that writes is acknowledged exactly when no `WITH` list stands in front of
its verb.** -/
theorem dml_acknowledged_iff (d : Dml) : Acknowledged C d.render d.verb.kind ↔ d.withs = none := by
  rw [acknowledged_iff]
  cases hwiths : d.withs with
  | none =>
    obtain ⟨hverb, hword⟩ := spelled_word d.spells (by cases d.verb <;> decide)
      (by cases d.verb <;> decide)
    obtain ⟨ws, hws⟩ := first_word d.lead_blank hverb hword d.tail_breaks
    have hrender : d.render = d.lead ++ (d.text ++ d.tail) := by
      unfold Dml.render
      rw [hwiths]
    rw [hrender]
    exact iff_of_true (kind_first hws d.spells) rfl
  | some w =>
    obtain ⟨hwith, hword⟩ := spelled_word w.keyword.spells (by decide) (by decide)
    -- the blanks after `WITH` end the word
    have hbreaks : ∀ c ∈ (w.renderRest ++ (d.text ++ d.tail)).head?, isWordChar c = false := by
      unfold WithList.renderRest
      rw [List.append_assoc, List.append_assoc]
      exact breaks_blank w.keyword.blank w.apart _
    obtain ⟨ws, hws⟩ := first_word d.lead_blank hwith hword hbreaks
    have hrender : d.render =
        d.lead ++ (w.keyword.text ++ (w.renderRest ++ (d.text ++ d.tail))) := by
      unfold Dml.render
      rw [hwiths]
    rw [hrender]
    refine iff_of_false ?_ (by simp)
    intro hkind
    rcases kind_with hws w.keyword.spells with h | h
    · rw [hkind] at h
      revert h
      cases d.verb <;> simp [Verb.kind]
    · rw [hkind] at h
      revert h
      cases d.verb <;> simp [Verb.kind]

/-- `with x as (select 1) insert into t select * from x`. -/
def withInsert : Dml where
  lead := []
  lead_blank := by decide
  withs := some
    { keyword := ⟨"with", " ", by decide, by decide⟩
      apart := by decide
      recursive := none
      ctes := [⟨"x as ", "select 1", " ", by decide, by decide, by decide⟩]
      ctes_ne := by decide }
  verb := .insert
  text := "insert"
  spells := by decide
  tail := " into t select * from x"
  tail_breaks := by
    rintro c ⟨⟩
    decide

/-- **A `WITH` list in front of an `INSERT` gets it crushed.** -/
theorem withInsert_crushed : ¬Acknowledged .least withInsert.render withInsert.verb.kind ∧
    (extract withInsert.render).map (·.crushClass .all3) = some (.crush ⟨true, true, true⟩) := by
  have hcrush : (extract withInsert.render).map (·.crushClass .all3) =
      some (.crush ⟨true, true, true⟩) := by decide +kernel
  refine ⟨?_, hcrush⟩
  intro h
  obtain ⟨shape, hshape, -, hsafe⟩ := h.reported
  rw [hshape, Option.map_some, hsafe] at hcrush
  cases hcrush

end EtherealDb
