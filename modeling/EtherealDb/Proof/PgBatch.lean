import EtherealDb.Proof.Ctes
import EtherealDb.Proof.PgAnswer

/-!
# Scripts

A simple query may hold many statements.

* `respondStatement_append`: a statement adds to the output what it is answered alone.
* `respondAll_append`: the answers of a script stand in a row (`answersOf`), each made with the
  slot and the generator of its turn.
* `statementsOf_join`: closed texts joined by semicolons split into their own statements.
* `batch_answers`: **a script is answered as its parts one by one**, but for the ReadyForQuery
  between them, and for the parts that hold no statement.
-/

namespace EtherealDb

open Str

variable {C : Crates}

/-- The outcome as the `n` next statements leave it. -/
def Outcome.skip (o : Outcome C) (n : ℕ) : Outcome C :=
  { o with slot := fun i => o.slot (n + i), os := fun i => o.os (n + i) }

/-- A semicolon after a closed text is seen. -/
theorem Closed.cuts {s : Str} (h : Closed s) : Cuts ';' (Scan.start.run s) ';' := by
  rw [show Scan.start.run s = .start from h]
  exact ⟨rfl, rfl, Scan.not_nested_start⟩

theorem statementsOf_eq (s : Str) : statementsOf s = keep (pieces ';' .start s) := by
  have hsplit := splitStatements_eq s
  rw [splitStatements, splitTopLevel_eq] at hsplit
  exact (Option.some.inj hsplit).symm

/-- **Two parts of a script** have the statements of both. -/
theorem statementsOf_append {a : Str} (ha : Closed a) (b : Str) :
    statementsOf (a ++ ';' :: b) = statementsOf a ++ statementsOf b := by
  have hkeep : ∀ ps qs : List Str, keep (ps ++ qs) = keep ps ++ keep qs := by
    intro ps qs
    rw [keep, List.map_append, List.filter_append]
    rfl
  rw [statementsOf_eq, pieces_sep ha.cuts, hkeep, show Scan.start.run a = .start from ha,
    ← statementsOf_eq, ← statementsOf_eq]

/-- A script: texts joined by semicolons. -/
def join : List Str → Str
  | [] => []
  | [s] => s
  | s :: t :: l => s ++ ';' :: join (t :: l)

theorem statementsOf_nil : statementsOf [] = [] := by rw [statementsOf_eq]; rfl

/-- **A script of closed texts** has the statements of its texts, in order. -/
theorem statementsOf_join {sqls : List Str} (h : ∀ s ∈ sqls, Closed s) :
    statementsOf (join sqls) = sqls.flatMap statementsOf := by
  induction sqls with
  | nil => exact statementsOf_nil
  | cons s l ih =>
    cases l with
    | nil => simp [join]
    | cons t l =>
      have hl := ih fun u hu => h u (List.mem_cons_of_mem _ hu)
      rw [join, statementsOf_append (h s (by simp)), hl]
      rfl

/-- The texts that hold a statement. -/
def stated (sqls : List Str) : List Str := sqls.filter fun sql => statementsOf sql ≠ []

/-- The others add no statement to a script. -/
theorem flatMap_stated (sqls : List Str) :
    (stated sqls).flatMap statementsOf = sqls.flatMap statementsOf := by
  induction sqls with
  | nil => rfl
  | cons sql sqls ih =>
    rw [List.flatMap_cons, ← ih, stated, List.filter_cons]
    by_cases h : statementsOf sql = []
    · rw [if_neg (by simp [h]), h, List.nil_append]
      rfl
    · rw [if_pos (by simp [h]), List.flatMap_cons]
      rfl

theorem flatMap_statementsOf_eq_nil_iff (sqls : List Str) :
    sqls.flatMap statementsOf = [] ↔ stated sqls = [] := by
  rw [List.flatMap_eq_nil_iff, stated, List.filter_eq_nil_iff]
  simp

namespace Pg

open Serve (serve)

/-! ## Statements -/

/-- The answer to a statement that is alone in its query. -/
def alone (cfg : Config) (slot : Bool) (os : C.Rng) (stmt : Str) : List Backend :=
  ((respondStatement cfg slot os .new stmt).map Out.all).getD []

/-- **A statement adds its answer** to what is written before it. -/
theorem respondStatement_append (cfg : Config) (slot : Bool) (os : C.Rng) (out : Out) (stmt : Str) :
    ∃ out', respondStatement cfg slot os out stmt = some out' ∧
      out'.all = out.all ++ alone cfg slot os stmt := by
  have hnote : ∀ (out : Out) m ms, ((out.put m).putAll ms).all = out.all ++ (m :: ms) := by
    intro out m ms
    rw [all_putAll, all_put, List.append_assoc]
    rfl
  unfold alone respondStatement
  simp only [extract_eq, Option.bind_eq_bind, Option.bind_some]
  cases cfg.crushClass (shapeOf stmt) with
  | safe => exact ⟨_, rfl, by simp⟩
  | warn sig => exact ⟨_, rfl, by simp [hnote]⟩
  | crush sig =>
    by_cases hw : cfg.crush.warnOnly
    · simp only [hw, Bool.not_true, Bool.false_eq_true, if_false]
      exact ⟨_, rfl, by simp [hnote]⟩
    · by_cases hs : slot
      · -- the buffer is flushed first
        simp only [hw, hs, Bool.not_false, if_true]
        exact ⟨_, rfl, by simp [all_flush_write]⟩
      · simp only [hw, hs, Bool.not_false, Bool.false_eq_true, if_true, if_false]
        exact ⟨_, rfl, by simp [hnote]⟩

/-- The answers to statements in a row, the first of which is the `i`-th. -/
def answersOf (cfg : Config) (o : Outcome C) : ℕ → List Str → List Backend
  | _, [] => []
  | i, stmt :: stmts => alone cfg (o.slot i) (o.os i) stmt ++ answersOf cfg o (i + 1) stmts

theorem answersOf_append (cfg : Config) (o : Outcome C) (i : ℕ) (a b : List Str) :
    answersOf cfg o i (a ++ b) = answersOf cfg o i a ++ answersOf cfg o (i + a.length) b := by
  induction a generalizing i with
  | nil => rfl
  | cons stmt a ih =>
    rw [List.cons_append, answersOf, answersOf, ih, List.append_assoc, List.length_cons]
    congr 3
    omega

/-- Later statements take the outcomes of their turns. -/
theorem answersOf_skip (cfg : Config) (o : Outcome C) (n i : ℕ) (stmts : List Str) :
    answersOf cfg (o.skip n) i stmts = answersOf cfg o (n + i) stmts := by
  induction stmts generalizing i with
  | nil => rfl
  | cons stmt stmts ih => exact congrArg _ (ih (i + 1))

/-- **Statements are answered in a row.** -/
theorem respondAll_append (cfg : Config) (o : Outcome C) (i : ℕ) (stmts : List Str) (out : Out) :
    ∃ out', respondAll cfg o i stmts out = some out' ∧
      out'.all = out.all ++ answersOf cfg o i stmts := by
  induction stmts generalizing i out with
  | nil => exact ⟨out, rfl, (List.append_nil _).symm⟩
  | cons stmt stmts ih =>
    obtain ⟨out₁, h1, h2⟩ := respondStatement_append cfg (o.slot i) (o.os i) out stmt
    obtain ⟨out₂, h3, h4⟩ := ih (i + 1) out₁
    refine ⟨out₂, ?_, ?_⟩
    · rw [respondAll, h1]
      exact h3
    · rw [h4, h2, answersOf, List.append_assoc]

/-! ## Queries -/

/-- The message of a simple query. -/
def Frontend.query (sql : Str) : Frontend := ⟨81, Utf8.encode sql ++ [0]⟩

theorem queryText_query (sql : Str) : queryText (Frontend.query sql).payload = sql := by
  unfold queryText Frontend.query
  rw [if_pos (by simp), List.dropLast_concat, Utf8.fromUtf8Lossy_encode]

/-- **A query that no ghost spoils** is answered with the answers to its statements. -/
theorem step_query {cfg : Config} (hcalm : cfg.ghosts.haunting = false) (s : Session) (o : Outcome C)
    (sql : Str) : step cfg s (o, .query sql) =
      ((if statementsOf sql = [] then [.emptyQueryResponse] else answersOf cfg o 0 (statementsOf sql)) ++
        [.readyForQuery], .go s) := by
  obtain ⟨out, hout, hall⟩ : ∃ out : Out, query cfg o sql = some (out.put .readyForQuery) ∧ out.all =
      if statementsOf sql = [] then [.emptyQueryResponse] else answersOf cfg o 0 (statementsOf sql) := by
    unfold query
    simp only [splitStatements_eq, Option.bind_eq_bind, Option.bind_some]
    by_cases hne : statementsOf sql = []
    · rw [if_pos hne, if_pos hne]
      exact ⟨_, rfl, rfl⟩
    · obtain ⟨out, hout, hall⟩ := respondAll_append cfg o 0 (statementsOf sql) .new
      rw [if_neg hne, if_neg hne, hout]
      exact ⟨out, rfl, hall⟩
  have hdispatch : dispatch cfg o s (.query sql) = some (out.put .readyForQuery, s) := by
    rw [dispatch_query rfl, queryText_query, hout]
    rfl
  have hclear : ¬(Frontend.query sql).haunted cfg := by simp [Frontend.haunted, hcalm]
  have hgoes : (Frontend.query sql).kind ≠ .terminate := Kind.noConfusion
  rw [step_dispatch hclear hgoes hdispatch, all_put, hall]

/-- Queries one by one: each takes the outcomes that the ones before it leave. -/
def queries (o : Outcome C) : List Str → List (Outcome C × Frontend)
  | [] => []
  | sql :: sqls => (o, .query sql) :: queries (o.skip (statementsOf sql).length) sqls

theorem serve_queries {cfg : Config} (hcalm : cfg.ghosts.haunting = false) (s : Session)
    {sqls : List Str} (h : ∀ sql ∈ sqls, statementsOf sql ≠ []) (o : Outcome C) :
    ((serve (step cfg) s (queries o sqls)).1.flatMap List.dropLast =
      answersOf cfg o 0 (sqls.flatMap statementsOf)) ∧ (serve (step cfg) s (queries o sqls)).2 = .go s := by
  induction sqls generalizing o with
  | nil => exact ⟨rfl, rfl⟩
  | cons sql sqls ih =>
    have hstep := step_query hcalm s o sql
    rw [if_neg (h sql (by simp))] at hstep
    obtain ⟨hout, hgo⟩ := ih (fun t ht => h t (by simp [ht])) (o.skip (statementsOf sql).length)
    rw [queries, Serve.serve_go (by rw [hstep]), hstep]
    refine ⟨?_, hgo⟩
    rw [List.flatMap_cons, hout, List.dropLast_concat, answersOf_skip, List.flatMap_cons,
      answersOf_append, Nat.add_zero, Nat.zero_add]

/-- **A script is answered as its parts one by one.** When no ghost is about, the answer to closed
texts joined by semicolons are the answers to those that hold a statement, without the ReadyForQuery
between them: each statement gets the slot and the generator of its turn, and a crushed one stays in
its place. A text without a statement, which alone gets an EmptyQueryResponse, gets nothing in a
script that has one. The session is left as it was. -/
theorem batch_answers {cfg : Config} (hcalm : cfg.ghosts.haunting = false) (s : Session) (o : Outcome C)
    {sqls : List Str} (hclosed : ∀ sql ∈ sqls, Closed sql) :
    step cfg s (o, .query (join sqls)) =
        ((if stated sqls = [] then [.emptyQueryResponse]
          else (serve (step cfg) s (queries o (stated sqls))).1.flatMap List.dropLast) ++
            [.readyForQuery], .go s) ∧
      (serve (step cfg) s (queries o (stated sqls))).2 = .go s := by
  have hstmts : ∀ sql ∈ stated sqls, statementsOf sql ≠ [] := fun sql hsql => by
    simpa using (List.mem_filter.1 hsql).2
  obtain ⟨hout, hgo⟩ := serve_queries hcalm s hstmts o
  refine ⟨?_, hgo⟩
  rw [step_query hcalm s o, statementsOf_join hclosed, hout, flatMap_stated]
  simp only [flatMap_statementsOf_eq_nil_iff]

/-- Two statements, and the blank behind a last semicolon. -/
def twoSelects : List Str := ["select 1", "select ';'", " "]

theorem batch_two_selects : Config.default.ghosts.haunting = false ∧ stated twoSelects ≠ [] ∧
    step .default .new (Outcome.quiet, .query (join twoSelects)) =
        ((if stated twoSelects = [] then [.emptyQueryResponse]
          else (serve (step .default) .new (queries .quiet (stated twoSelects))).1.flatMap List.dropLast) ++
            [.readyForQuery], .go .new) ∧
      (serve (step .default) .new (queries .quiet (stated twoSelects))).2 = .go .new :=
  have hcalm : Config.default.ghosts.haunting = false := by decide
  have hclosed : ∀ sql ∈ twoSelects, Closed sql := by unfold Closed; decide
  have hstated : stated twoSelects ≠ [] := by
    rw [Ne, ← flatMap_statementsOf_eq_nil_iff, funext statementsOf_eq]
    decide +kernel
  ⟨hcalm, hstated, batch_answers hcalm .new .quiet hclosed⟩

end Pg

end EtherealDb
