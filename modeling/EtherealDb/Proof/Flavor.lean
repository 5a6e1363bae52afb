import EtherealDb.Proof.MySqlServe
import EtherealDb.Proof.PgBatch
import EtherealDb.Proof.RespReply
import EtherealDb.Proof.RespServe

/-!
# Themes and fuzz

A theme and the chance of a pathological value are the flavor of a configuration. They show in
the values that are made up, and nowhere else.

* `Pg.session_flavored`: **the messages of a session keep their outline**: row descriptions, the
  number of rows and the formats of their cells, tags, notices and errors, and the end.
* `MySql.Conn.replies_flavored`: the same of the packets of a connection.
* `Resp.Conn.commands_flavored`: the same of Redis replies, whose outline is the nesting of their
  arrays.
-/

namespace EtherealDb

open Str

variable {C : Crates}

/-- A configuration with another theme and another chance of pathological values. -/
def Config.flavored (cfg : Config) (theme : ThemeData) (fuzz : ℚ) : Config :=
  { cfg with theme := theme, ghosts := { cfg.ghosts with fuzz := fuzz } }

/-- **Draws that always look the same** look the same in a loop. -/
theorem Draw.map_times {α β : Type} {d : Draw C α} {f : α → β} {b : β} (h : ∀ rng, f (d rng).1 = b)
    (n : ℕ) (rng : C.Rng) : (d.times n rng).1.map f = List.replicate n b := by
  rw [List.eq_replicate_iff]
  refine ⟨by rw [List.length_map, Draw.length_times], ?_⟩
  intro x hx
  obtain ⟨a, ha, rfl⟩ := List.mem_map.1 hx
  obtain ⟨s, rfl⟩ := Draw.mem_times ha
  exact h s

/-! ## Postgres -/

namespace Pg

/-- A cell without its value. -/
def Cell.outline : Cell → Cell
  | .text _ => .text []
  | .binary _ => .binary []

/-- **A message without the values** of its cells. -/
def Backend.outline : Backend → Backend
  | .dataRow cells => .dataRow (cells.map Cell.outline)
  | m => m

/-- Empty cells in the formats of their columns, from column `i` on. -/
def blanks (formats : List ℤ) : ℕ → ℕ → List Cell
  | _, 0 => []
  | i, n + 1 => (if formatFor formats i = 1 then .binary [] else .text []) :: blanks formats (i + 1) n

theorem outline_putTexts (formats : List ℤ) {cols : List Resolved} {texts : List Str}
    (h : texts.length = cols.length) (i : ℕ) :
    (putTexts formats i cols texts).map Cell.outline = blanks formats i cols.length := by
  induction cols generalizing texts i with
  | nil => simp [putTexts, blanks]
  | cons c cols ih =>
    cases texts with
    | nil => cases h
    | cons t texts =>
      have hcell : (putCell formats i c t).outline =
          if formatFor formats i = 1 then .binary [] else .text [] := by
        unfold putCell
        split_ifs
        · rfl
        · rfl
      rw [putTexts, List.map_cons, hcell, ih (Nat.succ.inj h), List.length_cons, blanks]

/-- **The outline of a row** is that of its columns. -/
theorem outline_row (cols : List Resolved) (formats : List ℤ) (g : Gen) (rng : C.Rng) :
    (putDataRowFmt cols formats g rng).1.outline = .dataRow (blanks formats 0 cols.length) := by
  rw [putDataRowFmt_eq]
  exact congrArg Backend.dataRow (outline_putTexts formats (length_rowTexts cols rng) 0)

theorem outline_rows (cols : List Resolved) (formats : List ℤ) (g : Gen) (n : ℕ) (rng : C.Rng) :
    ((putDataRowFmt cols formats g).times n rng).1.map Backend.outline =
      List.replicate n (.dataRow (blanks formats 0 cols.length)) :=
  Draw.map_times (outline_row cols formats g) n rng

variable (cfg : Config) (theme : ThemeData) (fuzz : ℚ)

theorem outline_streamRows (cols : List Resolved) (formats : List ℤ) (rng : C.Rng) :
    (streamRows cols formats cfg.crush.maxRows (cfg.flavored theme fuzz).genCtx rng).1.map Backend.outline =
      (streamRows cols formats cfg.crush.maxRows cfg.genCtx rng).1.map Backend.outline := by
  rw [streamRows_eq, streamRows_eq, List.map_append, List.map_append, outline_rows, outline_rows]

theorem outline_normalResponse (shape : ResultShape) (stmt : Str) (os : C.Rng) :
    (normalResponse shape (cfg.flavored theme fuzz) stmt os).map Backend.outline =
      (normalResponse shape cfg stmt os).map Backend.outline := by
  unfold normalResponse
  cases shape.kind with
  | select =>
    -- the number of rows is drawn before the rows
    have hrows : ∀ cfg : Config, (normalRows shape cfg (seedRng cfg (Utf8.encode stmt) os)).1.map
        Backend.outline = putRowDescription (resolveCols shape cfg) ::
          List.replicate (rowCount shape cfg (seedRng cfg (Utf8.encode stmt) os)).1
            (.dataRow (blanks [] 0 (resolveCols shape cfg).length)) ++
          [.commandComplete (selectTag (rowCount shape cfg (seedRng cfg (Utf8.encode stmt) os)).1)] := by
      intro cfg
      rw [normalRows_eq, List.map_append, List.map_cons]
      exact congrArg (putRowDescription (resolveCols shape cfg) :: · ++ _) (outline_rows ..)
    exact (hrows (cfg.flavored theme fuzz)).trans (hrows cfg).symm
  | _ => rfl

theorem outline_alone (slot : Bool) (os : C.Rng) (stmt : Str) :
    (alone (cfg.flavored theme fuzz) slot os stmt).map Backend.outline =
      (alone cfg slot os stmt).map Backend.outline := by
  have hcls : (cfg.flavored theme fuzz).crushClass (shapeOf stmt) = cfg.crushClass (shapeOf stmt) := rfl
  have hwarn : (cfg.flavored theme fuzz).crush.warnOnly = cfg.crush.warnOnly := rfl
  have hnormal := outline_normalResponse cfg theme fuzz (shapeOf stmt) stmt os
  have hcrush : (crushStream (shapeOf stmt) (cfg.flavored theme fuzz) stmt os).map Backend.outline =
      (crushStream (shapeOf stmt) cfg stmt os).map Backend.outline := by
    unfold crushStream
    rw [List.map_append, List.map_append]
    exact congrArg _ (outline_streamRows cfg theme fuzz _ [] _)
  unfold alone respondStatement
  simp only [extract_eq, Option.bind_eq_bind, Option.bind_some, hcls, hwarn]
  cases cfg.crushClass (shapeOf stmt) with
  | safe => exact hnormal
  | warn sig => exact congrArg (_ :: ·) hnormal
  | crush sig =>
    by_cases hw : cfg.crush.warnOnly
    · simp only [hw, Bool.not_true, Bool.false_eq_true, if_false]
      exact congrArg (_ :: ·) hnormal
    · by_cases hs : slot
      · have hwrite : ∀ ms, (Out.new.flush.write ms).all = ms := fun ms => by
          rw [all_flush_write, all_new, List.nil_append]
        simp only [hw, hs, Bool.not_false, if_true, Option.pure_def, Option.map_some, Option.getD_some, hwrite]
        exact hcrush
      · simp only [hw, hs, Bool.not_false, Bool.false_eq_true, if_true, if_false]
        exact congrArg (_ :: ·) hnormal

theorem outline_answersOf (o : Outcome C) (i : ℕ) (stmts : List Str) :
    (answersOf (cfg.flavored theme fuzz) o i stmts).map Backend.outline =
      (answersOf cfg o i stmts).map Backend.outline := by
  induction stmts generalizing i with
  | nil => rfl
  | cons stmt stmts ih =>
    rw [answersOf, answersOf, List.map_append, List.map_append, outline_alone, ih]

/-- What a client sees of an answer but for the values, and the session it leaves. -/
def sight (p : Option (Out × Session)) : Option (List Backend × Session) :=
  p.map fun p => (p.1.all.map Backend.outline, p.2)

theorem outline_query (o : Outcome C) (sql : Str) :
    (query (cfg.flavored theme fuzz) o sql).map (fun out => out.all.map Backend.outline) =
      (query cfg o sql).map fun out => out.all.map Backend.outline := by
  obtain ⟨out₁, h1, hall₁⟩ := respondAll_append (cfg.flavored theme fuzz) o 0 (statementsOf sql) .new
  obtain ⟨out₂, h2, hall₂⟩ := respondAll_append cfg o 0 (statementsOf sql) .new
  have hall : out₁.all.map Backend.outline = out₂.all.map Backend.outline := by
    rw [hall₁, hall₂, all_new, List.nil_append, List.nil_append, outline_answersOf]
  unfold query
  simp only [splitStatements_eq, Option.bind_eq_bind, Option.bind_some, h1, h2]
  by_cases hnil : statementsOf sql = []
  · simp only [if_pos hnil]
  · have hput : ∀ out : Out, (out.put .readyForQuery).all.map Backend.outline =
        out.all.map Backend.outline ++ [.readyForQuery] := fun out => by rw [all_put, List.map_append]; rfl
    have hready : (out₁.put .readyForQuery).all.map Backend.outline =
        (out₂.put .readyForQuery).all.map Backend.outline := by rw [hput, hput, hall]
    simp only [if_neg hnil]
    exact congrArg some hready

/-- The rows that Execute sends. -/
theorem outline_portalRows (shape : ResultShape) (formats : List ℤ) (maxRows : ℤ) (rng : C.Rng) :
    (portalRows shape (cfg.flavored theme fuzz) formats maxRows rng).1.map Backend.outline =
      (portalRows shape cfg formats maxRows rng).1.map Backend.outline := by
  have hrows : ∀ cfg : Config, (portalRows shape cfg formats maxRows rng).1.map Backend.outline =
      List.replicate (boundRows maxRows (rowCount shape cfg rng).1)
          (.dataRow (blanks formats 0 (binarize (resolveCols shape cfg)).length)) ++
        [.commandComplete (selectTag (boundRows maxRows (rowCount shape cfg rng).1))] := by
    intro cfg
    rw [portalRows_eq, List.map_append, outline_rows]
    rfl
  exact (hrows (cfg.flavored theme fuzz)).trans (hrows cfg).symm

theorem outline_executeSelect (slot : Bool) (os : C.Rng) (portal : Portal) (maxRows : ℤ)
    (shape : ResultShape) :
    (executeSelect (cfg.flavored theme fuzz) slot os portal maxRows shape .new).all.map Backend.outline =
      (executeSelect cfg slot os portal maxRows shape .new).all.map Backend.outline := by
  have hcls : (cfg.flavored theme fuzz).crushClass shape = cfg.crushClass shape := rfl
  have hwarn : (cfg.flavored theme fuzz).crush.warnOnly = cfg.crush.warnOnly := rfl
  have hrows := outline_portalRows cfg theme fuzz shape portal.resultFormats maxRows
    (seedRng cfg (Utf8.encode portal.sql) os)
  have hstream := outline_streamRows cfg theme fuzz (binarize (resolveCols shape cfg)) portal.resultFormats
    (seedRng cfg (Utf8.encode portal.sql) os)
  unfold executeSelect
  simp only [hcls, hwarn]
  cases cfg.crushClass shape with
  | safe => exact hrows
  | warn sig => exact congrArg (_ :: ·) hrows
  | crush sig =>
    by_cases hw : cfg.crush.warnOnly
    · simp only [hw, Bool.not_true, Bool.false_eq_true, if_false]
      exact congrArg (_ :: ·) hrows
    · by_cases hs : slot
      · simp only [hw, hs, Bool.not_false, if_true]
        rw [all_write_write, all_write_write, all_flush_write, all_flush_write, all_new, List.nil_append,
          List.nil_append, List.map_append, List.map_append]
        exact congrArg _ hstream
      · simp only [hw, hs, Bool.not_false, Bool.false_eq_true, if_true, if_false]
        exact congrArg (_ :: ·) hrows

theorem sight_dispatch (o : Outcome C) (s : Session) (m : Frontend) :
    sight (dispatch (cfg.flavored theme fuzz) o s m) = sight (dispatch cfg o s m) := by
  unfold dispatch
  cases m.kind with
  | query =>
    have hquery := outline_query cfg theme fuzz o (queryText m.payload)
    have hview : ∀ q : Option Out, sight (q.map fun out => (out, s)) =
        (q.map fun out => out.all.map Backend.outline).map fun ms => (ms, s) := by
      intro q
      cases q with
      | none => rfl
      | some out => rfl
    rw [hview, hview, hquery]
  | execute =>
    unfold executePortal
    simp only [extract_eq, Option.bind_eq_bind, Option.bind_some]
    cases (shapeOf ((s.portals (Read.executeMessage.of m.payload).portal).getD .default).sql).kind with
    | select => exact congrArg (fun ms => some (ms, s)) (outline_executeSelect cfg theme fuzz _ _ _ _ _)
    | _ => rfl
  | _ => rfl

/-- One step. -/
theorem step_flavored (s : Session) (om : Outcome C × Frontend) :
    (step (cfg.flavored theme fuzz) s om).1.map Backend.outline = (step cfg s om).1.map Backend.outline ∧
      (step (cfg.flavored theme fuzz) s om).2 = (step cfg s om).2 := by
  obtain ⟨o, m⟩ := om
  have hhaunted : m.haunted (cfg.flavored theme fuzz) = m.haunted cfg := rfl
  have hcrashed : o.crashed (cfg.flavored theme fuzz) = o.crashed cfg := rfl
  have hdropped : o.dropped (cfg.flavored theme fuzz) = o.dropped cfg := rfl
  have herrored : o.errored (cfg.flavored theme fuzz) = o.errored cfg := rfl
  have hsight := sight_dispatch cfg theme fuzz o s m
  unfold step
  simp only [hhaunted, hcrashed, hdropped, herrored]
  split_ifs
  · exact ⟨rfl, rfl⟩
  · exact ⟨rfl, rfl⟩
  · exact ⟨rfl, rfl⟩
  · exact ⟨rfl, rfl⟩
  · exact ⟨rfl, rfl⟩
  · cases h1 : dispatch (cfg.flavored theme fuzz) o s m with
    | none =>
      cases h2 : dispatch cfg o s m with
      | none => exact ⟨rfl, rfl⟩
      | some q => rw [h1, h2] at hsight; cases hsight
    | some p =>
      cases h2 : dispatch cfg o s m with
      | none => rw [h1, h2] at hsight; cases hsight
      | some q =>
        rw [h1, h2] at hsight
        obtain ⟨hall, hs⟩ := Prod.mk.inj (Option.some.inj hsight)
        exact ⟨hall, congrArg Serve.Next.go hs⟩

/-- **A theme and fuzz show in values alone.** In every session, under every theme and every chance
of pathological values: the same messages answer each message of the client, with the same row
descriptions, as many rows, of as many cells in the same formats, the same tags, notices and
errors; and the session goes on or ends alike. -/
theorem session_flavored (l : List (Outcome C × Frontend)) :
    (session (cfg.flavored theme fuzz) l).1.map (List.map Backend.outline) =
        (session cfg l).1.map (List.map Backend.outline) ∧
      (session (cfg.flavored theme fuzz) l).2 = (session cfg l).2 :=
  Serve.serve_image (step_flavored cfg theme fuzz) l .new

end Pg

/-! ## MySQL -/

namespace MySql

/-- **A packet without the values** of its cells. -/
def Packet.outline : Packet → Packet
  | .row cells => .row (cells.map fun _ => [])
  | p => p

/-- What a command is answered with, but for the values. -/
def Answer.outline : Answer → Answer
  | .reply ps => .reply (ps.map Packet.outline)
  | a => a

theorem outline_textRows (cols : List Resolved) (g : Gen) (n : ℕ) (rng : C.Rng) :
    (textRows cols g n rng).map (Packet.outline ∘ Packet.row) =
      List.replicate n (.row (List.replicate cols.length [])) := by
  rw [List.eq_replicate_iff]
  refine ⟨by rw [List.length_map, length_textRows], ?_⟩
  intro p hp
  obtain ⟨r, hr, rfl⟩ := List.mem_map.1 hp
  have hlen := length_of_mem_textRows hr
  exact congrArg Packet.row (by rw [List.map_const', hlen])

variable (cfg : Config) (theme : ThemeData) (fuzz : ℚ)

theorem outline_resultSet (cols : List Resolved) (n : ℕ) (rng : C.Rng) :
    (resultSet cols (textRows cols (cfg.flavored theme fuzz).genCtx n rng)).map Packet.outline =
      (resultSet cols (textRows cols cfg.genCtx n rng)).map Packet.outline := by
  simp only [resultSet, List.map_append, List.map_map, outline_textRows]

theorem outline_selectResponse (slot : Bool) (os : C.Rng) (sql : Str) (shape : ResultShape) :
    (selectResponse (cfg.flavored theme fuzz) slot os sql shape).map Packet.outline =
      (selectResponse cfg slot os sql shape).map Packet.outline := by
  have hnormal : (normalRows shape (cfg.flavored theme fuzz)
      (seedRng (cfg.flavored theme fuzz) (Utf8.encode sql) os)).1.map Packet.outline =
        (normalRows shape cfg (seedRng cfg (Utf8.encode sql) os)).1.map Packet.outline := by
    rw [normalRows_eq, normalRows_eq]
    exact outline_resultSet cfg theme fuzz _ _ _
  have hcrush : ∀ cols, (crushStream cols (cfg.flavored theme fuzz) sql os).map Packet.outline =
      (crushStream cols cfg sql os).map Packet.outline := by
    intro cols
    rw [crushStream_eq, crushStream_eq]
    exact outline_resultSet cfg theme fuzz _ _ _
  have hcls : (cfg.flavored theme fuzz).crushClass shape = cfg.crushClass shape := rfl
  have hwarn : (cfg.flavored theme fuzz).crush.warnOnly = cfg.crush.warnOnly := rfl
  unfold selectResponse
  simp only [hcls, hwarn]
  cases cfg.crushClass shape with
  | crush sig =>
    dsimp only
    split_ifs
    · exact hcrush _
    · exact hcrush _
    · exact hnormal
  | _ => exact hnormal

theorem outline_runQuery (slot : Bool) (os : C.Rng) (sql : Str) :
    (runQuery (cfg.flavored theme fuzz) slot os sql).map (List.map Packet.outline) =
      (runQuery cfg slot os sql).map (List.map Packet.outline) := by
  unfold runQuery
  simp only [splitStatements_eq, extract_eq, Option.bind_eq_bind, Option.bind_some]
  cases (shapeOf ((statementsOf sql).head?.getD [])).kind with
  | select => exact congrArg some (outline_selectResponse cfg theme fuzz slot os _ _)
  | _ => rfl

/-- **One command.** -/
theorem answer_flavored (o : Outcome C) (cmd : Bytes) :
    (answer (cfg.flavored theme fuzz) o cmd).outline = (answer cfg o cmd).outline := by
  cases cmd with
  | nil => rfl
  | cons c rest =>
    have hquery := outline_runQuery cfg theme fuzz (o.slot 0) (o.os 0) (Utf8.fromUtf8Lossy rest)
    have hhaunting : (cfg.flavored theme fuzz).ghosts.haunting = cfg.ghosts.haunting := rfl
    have hcrashed : o.crashed (cfg.flavored theme fuzz) = o.crashed cfg := rfl
    have hdropped : o.dropped (cfg.flavored theme fuzz) = o.dropped cfg := rfl
    have herrored : o.errored (cfg.flavored theme fuzz) = o.errored cfg := rfl
    unfold answer
    simp only [hhaunting, hcrashed, hdropped, herrored]
    split_ifs
    all_goals try rfl
    cases h1 : runQuery (cfg.flavored theme fuzz) (o.slot 0) (o.os 0) (Utf8.fromUtf8Lossy rest) with
    | none =>
      cases h2 : runQuery cfg (o.slot 0) (o.os 0) (Utf8.fromUtf8Lossy rest) with
      | none => rfl
      | some qs => rw [h1, h2] at hquery; cases hquery
    | some ps =>
      cases h2 : runQuery cfg (o.slot 0) (o.os 0) (Utf8.fromUtf8Lossy rest) with
      | none => rw [h1, h2] at hquery; cases hquery
      | some qs =>
        rw [h1, h2] at hquery
        exact congrArg Answer.reply (Option.some.inj hquery)

namespace Conn

/-- The packets of an answer, with their sequence ids. -/
def tagged (id : UInt8) (ps : List Packet) : List (UInt8 × Packet) :=
  ps.mapIdx fun i p => (id + 1 + UInt8.ofNat i, p)

theorem numbered_eq (id : UInt8) (ps : List Packet) :
    numbered id ps = (tagged id ps).map fun q => (q.1, q.2.payload) := by
  rw [numbered, tagged, List.mapIdx_eq_zipIdx_map, List.mapIdx_eq_zipIdx_map, List.map_map]
  rfl

theorem tagged_outline {ps qs : List Packet} (h : ps.map Packet.outline = qs.map Packet.outline) (id : UInt8) :
    (tagged id ps).map (fun q => (q.1, q.2.outline)) = (tagged id qs).map fun q => (q.1, q.2.outline) := by
  have hmap : ∀ ps : List Packet, (tagged id ps).map (fun q => (q.1, q.2.outline)) =
      (ps.map Packet.outline).mapIdx fun i p => (id + 1 + UInt8.ofNat i, p) := by
    intro ps
    rw [tagged, List.mapIdx_eq_zipIdx_map, List.mapIdx_eq_zipIdx_map, List.map_map, List.zipIdx_map,
      List.map_map]
    rfl
  rw [hmap, hmap, h]

/-- **A theme and fuzz show in values alone**, over MySQL: whatever a client sends, as many packets
answer it under the same sequence ids, each the same packet or a row of as many cells. -/
theorem replies_flavored (os : List (Outcome C)) (cmds : List (UInt8 × Bytes)) :
    ∃ ps qs : List (UInt8 × Packet),
      replies (cfg.flavored theme fuzz) os cmds = ps.map (fun q => (q.1, q.2.payload)) ∧
        replies cfg os cmds = qs.map (fun q => (q.1, q.2.payload)) ∧
          ps.map (fun q => (q.1, q.2.outline)) = qs.map fun q => (q.1, q.2.outline) := by
  induction os generalizing cmds with
  | nil => exact ⟨[], [], rfl, rfl, rfl⟩
  | cons o os ih =>
    cases cmds with
    | nil => exact ⟨[], [], rfl, rfl, rfl⟩
    | cons c cmds =>
      obtain ⟨ps, qs, hps, hqs, hsame⟩ := ih cmds
      have hanswer := answer_flavored cfg theme fuzz o c.2
      rw [replies, replies]
      cases h1 : answer (cfg.flavored theme fuzz) o c.2 with
      | reply as =>
        cases h2 : answer cfg o c.2 with
        | reply bs =>
          rw [h1, h2] at hanswer
          have htagged := tagged_outline (Answer.reply.inj hanswer) c.1
          refine ⟨tagged c.1 as ++ ps, tagged c.1 bs ++ qs, ?_, ?_, ?_⟩
          · rw [List.map_append, ← numbered_eq, ← hps]
          · rw [List.map_append, ← numbered_eq, ← hqs]
          · rw [List.map_append, List.map_append, htagged, hsame]
        | closed | panicked => rw [h1, h2] at hanswer; cases hanswer
      | closed | panicked =>
        cases h2 : answer cfg o c.2 with
        | reply bs => rw [h1, h2] at hanswer; cases hanswer
        | closed | panicked => exact ⟨[], [], rfl, rfl, rfl⟩

end Conn

end MySql

/-! ## Redis -/

namespace Resp

open Resp2 (Reply WellFormed)

/-- **A reply without its values**: its kind, and the outlines of the items of an array. -/
def outline : Reply → Reply
  | .int _ => .int 0
  | .bulk _ => .bulk []
  | .array l => .array (l.map outline)
  | r => r

/-- The bytes are one reply, of an outline. -/
def Looks (shape : Reply) (b : Bytes) : Prop :=
  ∃ r, WellFormed r ∧ Resp2.depth r ≤ 3 ∧ b = Resp2.encode r ∧ outline r = shape

/-- Two replies of one outline. -/
def Alike (b b' : Bytes) : Prop := ∃ shape, Looks shape b ∧ Looks shape b'

theorem looks_bulk (d : Bytes) : Looks (.bulk []) (bulk d) :=
  ⟨_, .bulk d, by rw [Resp2.depth_bulk]; omega, bulk_eq d, by rw [outline]⟩

theorem looks_integer (n : ℤ) : Looks (.int 0) (integer n) :=
  ⟨_, .int n, by simp [Resp2.depth], integer_eq n, by rw [outline]⟩

/-- The bytes are as many bulk strings. -/
def Bulks (n : ℕ) (b : Bytes) : Prop := ∃ ds : List Bytes, ds.length = n ∧ b = ds.flatMap bulk

/-- Bulk strings under their header. -/
theorem Bulks.reply {n : ℕ} {b : Bytes} (h : Bulks n b) : ∃ r, WellFormed r ∧ Resp2.depth r ≤ 2 ∧
    arrayHeader n ++ b = Resp2.encode r ∧ outline r = .array (List.replicate n (.bulk [])) := by
  obtain ⟨ds, rfl, rfl⟩ := h
  refine ⟨.array (ds.map .bulk), .array ?_, Resp2.depth_array_le ?_, ?_, ?_⟩
  · intro r hr
    obtain ⟨d, -, rfl⟩ := List.mem_map.1 hr
    exact .bulk d
  · intro r hr
    obtain ⟨d, -, rfl⟩ := List.mem_map.1 hr
    exact (Resp2.depth_bulk d).le
  · have hflat : ds.flatMap bulk = (ds.map Reply.bulk).flatMap Resp2.encode := by
      rw [List.flatMap_map]
      exact congrArg (ds.flatMap ·) (funext bulk_eq)
    rw [hflat, ← array_eq, List.length_map]
  · have hblank : outline ∘ Reply.bulk = fun _ => .bulk [] := funext fun d => by simp [outline]
    rw [outline, List.map_map, hblank, List.map_const']

theorem Bulks.looks {n : ℕ} {b : Bytes} (h : Bulks n b) :
    Looks (.array (List.replicate n (.bulk []))) (arrayHeader n ++ b) := by
  obtain ⟨r, hwell, hdepth, hr, hlook⟩ := h.reply
  exact ⟨r, hwell, by omega, hr, hlook⟩

/-- A cursor and a page of bulk strings. -/
theorem Bulks.looks_page {n : ℕ} {b : Bytes} (h : Bulks n b) (cursor : Bytes) :
    Looks (.array [.bulk [], .array (List.replicate n (.bulk []))])
      (arrayHeader 2 ++ bulk cursor ++ arrayHeader n ++ b) := by
  obtain ⟨r, hwell, hdepth, hr, hlook⟩ := h.reply
  have hcursor : WellFormed (.bulk cursor) ∧ Resp2.depth (.bulk cursor) ≤ 2 :=
    ⟨.bulk cursor, by rw [Resp2.depth_bulk]; omega⟩
  refine ⟨.array [.bulk cursor, r], .array ?_, Resp2.depth_array_le ?_, ?_, ?_⟩
  · intro q hq
    rcases List.mem_pair.1 hq with rfl | rfl
    · exact hcursor.1
    · exact hwell
  · intro q hq
    rcases List.mem_pair.1 hq with rfl | rfl
    · exact hcursor.2
    · exact hdepth
  · rw [← array_eq, List.append_assoc, List.append_assoc, hr, bulk_eq]
    simp
  · simp [outline, hlook]

theorem bulks_bulks (n : ℕ) (d : Draw C Str) (rng : C.Rng) : Bulks n (bulks n d rng).1 := by
  have hbulks : (bulks n d rng).1 = (d.times n rng).1.flatMap fun s => bulk (Utf8.encode s) := rfl
  refine ⟨(d.times n rng).1.map Utf8.encode, by rw [List.length_map, Draw.length_times], ?_⟩
  rw [hbulks, List.flatMap_map]

theorem bulks_hash (cfg : Config) (n : ℕ) (rng : C.Rng) :
    Bulks (n * 2) (Draw.times (hashField cfg) n rng).1.flatten := by
  induction n generalizing rng with
  | zero => exact ⟨[], rfl, rfl⟩
  | succ n ih =>
    let f := pick keyFields rng
    let v := valueForKey (Utf8.encode f.1) cfg f.2
    obtain ⟨ds, hlen, hds⟩ := ih v.2
    have hstep : (Draw.times (hashField cfg) (n + 1) rng).1 =
        (bulk (Utf8.encode f.1) ++ bulk (Utf8.encode v.1)) :: (Draw.times (hashField cfg) n v.2).1 := rfl
    refine ⟨Utf8.encode f.1 :: Utf8.encode v.1 :: ds, by simp only [List.length_cons, hlen]; omega, ?_⟩
    rw [hstep, List.flatten_cons, hds, List.flatMap_cons, List.flatMap_cons, List.append_assoc]

variable (cfg : Config) (theme : ThemeData) (fuzz : ℚ)

/-- **Every arm** answers alike: the counts are drawn before the values, from the same generator. -/
theorem run_flavored (os : ℕ → C.Rng) (args : List Bytes) (c : Cmd) :
    run (cfg.flavored theme fuzz) os args c = run cfg os args c ∨
      Alike (run (cfg.flavored theme fuzz) os args c) (run cfg os args c) := by
  cases c with
  | get => exact .inr ⟨_, looks_bulk _, looks_bulk _⟩
  | hget => exact .inr ⟨_, looks_bulk _, looks_bulk _⟩
  | strlen => exact .inr ⟨_, looks_integer _, looks_integer _⟩
  | mget =>
    have hkeys : ∀ cfg : Config, Bulks (args.length - 1) (args.tail.mapIdx fun i k =>
        bulk (Utf8.encode (valueForKey k cfg (seedRng cfg k (os i))).1)).flatten := by
      intro cfg
      refine ⟨args.tail.mapIdx fun i k => Utf8.encode (valueForKey k cfg (seedRng cfg k (os i))).1,
        by rw [List.length_mapIdx, List.length_tail], ?_⟩
      rw [List.flatMap_def, List.mapIdx_eq_zipIdx_map, List.mapIdx_eq_zipIdx_map, List.map_map]
      rfl
    exact .inr ⟨_, (hkeys _).looks, (hkeys _).looks⟩
  | hgetall => exact .inr ⟨_, (bulks_hash _ _ _).looks, (bulks_hash _ _ _).looks⟩
  | keys => exact .inr ⟨_, (bulks_bulks _ _ _).looks, (bulks_bulks _ _ _).looks⟩
  | scan => exact .inr ⟨_, (bulks_bulks _ _ _).looks_page _, (bulks_bulks _ _ _).looks_page _⟩
  | lrange => exact .inr ⟨_, (bulks_bulks _ _ _).looks, (bulks_bulks _ _ _).looks⟩
  | _ => exact .inl rfl

theorem crushKeys_flavored (os : C.Rng) :
    Alike (crushKeys (cfg.flavored theme fuzz) os) (crushKeys cfg os) := by
  rw [crushKeys_eq, crushKeys_eq]
  exact ⟨_, (bulks_bulks _ _ _).looks, (bulks_bulks _ _ _).looks⟩

/-- **One command**: the same bytes, or a reply of the same outline. -/
theorem answer_flavored (o : Outcome C) (args : List Bytes) :
    ((answer (cfg.flavored theme fuzz) o args).bytes = (answer cfg o args).bytes ∨
        Alike (answer (cfg.flavored theme fuzz) o args).bytes (answer cfg o args).bytes) ∧
      (answer (cfg.flavored theme fuzz) o args).open' = (answer cfg o args).open' := by
  cases args with
  | nil => exact ⟨.inl rfl, rfl⟩
  | cons a args =>
    have hdispatch : dispatch (cmdName a) (a :: args) (cfg.flavored theme fuzz) o.os =
        dispatch (cmdName a) (a :: args) cfg o.os ∨
          Alike (dispatch (cmdName a) (a :: args) (cfg.flavored theme fuzz) o.os)
            (dispatch (cmdName a) (a :: args) cfg o.os) := by
      unfold dispatch
      cases cmdOf (cmdName a) with
      | none => exact .inl rfl
      | some c => exact run_flavored cfg theme fuzz o.os (a :: args) c
    have hhaunting : (cfg.flavored theme fuzz).ghosts.haunting = cfg.ghosts.haunting := rfl
    have hcrashed : o.crashed (cfg.flavored theme fuzz) = o.crashed cfg := rfl
    have hdropped : o.dropped (cfg.flavored theme fuzz) = o.dropped cfg := rfl
    have herrored : o.errored (cfg.flavored theme fuzz) = o.errored cfg := rfl
    have hcrush : (cfg.flavored theme fuzz).crush = cfg.crush := rfl
    unfold answer
    simp only [hhaunting, hcrashed, hdropped, herrored, hcrush]
    split_ifs
    · exact ⟨.inl rfl, rfl⟩
    · exact ⟨.inl rfl, rfl⟩
    · exact ⟨.inl rfl, rfl⟩
    · exact ⟨.inr (crushKeys_flavored cfg theme fuzz (o.os 0)), rfl⟩
    · exact ⟨hdispatch, rfl⟩

/-- **A theme and fuzz show in values alone**, over Redis: whatever a client sends, each command is
answered with the same bytes, or with a reply of the same kind and as many items. -/
theorem Conn.commands_flavored (os : List (Outcome C)) (s : Bytes) :
    ∃ bs bs' : List Bytes, Conn.session (cfg.flavored theme fuzz) os s = bs.flatten ∧
      Conn.session cfg os s = bs'.flatten ∧ List.Forall₂ (fun b b' => b = b' ∨ Alike b b') bs bs' := by
  induction os generalizing s with
  | nil => exact ⟨[], [], rfl, rfl, .nil⟩
  | cons o os ih =>
    rw [Conn.session, Conn.session]
    unfold round
    cases readCommand C.memory s with
    | closed | failed | panicked => exact ⟨[], [], rfl, rfl, .nil⟩
    | command args rest =>
      obtain ⟨hbytes, hopen⟩ := answer_flavored cfg theme fuzz o args
      obtain ⟨bs, bs', hbs, hbs', hall⟩ := ih rest
      dsimp only
      rw [hopen]
      by_cases hgo : (answer cfg o args).open' = true
      · rw [if_pos hgo, if_pos hgo, hbs, hbs']
        exact ⟨_ :: bs, _ :: bs', rfl, rfl, .cons hbytes hall⟩
      · rw [if_neg hgo, if_neg hgo, List.append_nil, List.append_nil]
        exact ⟨[_], [_], List.flatten_singleton.symm, List.flatten_singleton.symm, .cons hbytes .nil⟩

end Resp

end EtherealDb
