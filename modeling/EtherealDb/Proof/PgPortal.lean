import EtherealDb.Proof.PgAnswer

/-!
# Describe and Execute of a portal

* `execute_rows`: every row that Execute sends is a row of the described columns.
* `describe_execute`: **what Describe announced is what Execute sends**: as many cells, in
  order, each of its column's type, at the type's width.
* `formatsAgree_iff`: **the announced formats are the formats sent exactly when no column
  is asked for in binary**, or no row is ever sent.
-/

namespace EtherealDb.Pg

open Str
open Serve (Next serve)

variable {C : Crates}

/-! ## Messages about a portal -/

/-- A Describe of the portal `p`. -/
def Describes (p : Str) (m : Frontend) : Prop :=
  m.kind = .describe ∧ Read.targetMessage.of m.payload = ⟨false, p⟩

/-- An Execute of the portal `p`. -/
def Executes (p : Str) (m : Frontend) : Prop :=
  m.kind = .execute ∧ (Read.executeMessage.of m.payload).portal = p

/-- Neither a Bind nor a Close of the portal `p`. -/
def Keeps (p : Str) (m : Frontend) : Prop :=
  (m.kind = .bind → (Read.bindMessage.of m.payload).portal ≠ p) ∧
    (m.kind = .close → Read.targetMessage.of m.payload ≠ ⟨false, p⟩)

theorem bind_portals {s : Session} {b : BindMessage} {p : Str} (h : b.portal ≠ p) :
    (s.bind b).portals p = s.portals p :=
  Function.update_of_ne h.symm _ _

theorem close_portals {s : Session} {t : TargetMessage} {p : Str} (h : t ≠ ⟨false, p⟩) :
    (s.close t).portals p = s.portals p := by
  obtain ⟨isStmt, name⟩ := t
  cases isStmt with
  | true => rfl
  | false =>
    have hne : p ≠ name := fun heq => h (by rw [heq])
    exact Function.update_of_ne hne _ _

/-- What a message does to the maps. -/
def Session.after (s : Session) (m : Frontend) : Session :=
  match m.kind with
  | .parse => s.parse (Read.parseMessage.of m.payload)
  | .bind => s.bind (Read.bindMessage.of m.payload)
  | .close => s.close (Read.targetMessage.of m.payload)
  | _ => s

/-- **Only Parse, Bind and Close write the maps.** -/
theorem dispatch_after {cfg : Config} {s s' : Session} {o : Outcome C} {m : Frontend} {out : Out}
    (h : dispatch cfg o s m = some (out, s')) : s' = s.after m := by
  unfold Session.after
  cases hkind : m.kind with
  | bind =>
    rw [dispatch_bind hkind] at h
    exact (Prod.mk.inj (Option.some.inj h)).2.symm
  | close =>
    rw [dispatch_close hkind] at h
    exact (Prod.mk.inj (Option.some.inj h)).2.symm
  | parse =>
    rw [dispatch_parse hkind] at h
    exact (Prod.mk.inj (Option.some.inj h)).2.symm
  | query =>
    rw [dispatch_query hkind] at h
    obtain ⟨_, -, heq⟩ := Option.map_eq_some_iff.1 h
    exact (Prod.mk.inj heq).2.symm
  | describe =>
    rw [dispatch_describe hkind] at h
    obtain ⟨_, -, heq⟩ := Option.map_eq_some_iff.1 h
    exact (Prod.mk.inj heq).2.symm
  | execute =>
    rw [dispatch_execute hkind] at h
    obtain ⟨_, -, heq⟩ := Option.map_eq_some_iff.1 h
    exact (Prod.mk.inj heq).2.symm
  | sync =>
    rw [dispatch_sync hkind] at h
    exact (Prod.mk.inj (Option.some.inj h)).2.symm
  | terminate =>
    rw [dispatch_ignored (Or.inl hkind)] at h
    exact (Prod.mk.inj (Option.some.inj h)).2.symm
  | flush =>
    rw [dispatch_ignored (Or.inr (Or.inl hkind))] at h
    exact (Prod.mk.inj (Option.some.inj h)).2.symm
  | other =>
    rw [dispatch_ignored (Or.inr (Or.inr hkind))] at h
    exact (Prod.mk.inj (Option.some.inj h)).2.symm

/-- **A round that goes on does to the maps what its message does**: a ghost eats no Parse,
Bind or Close. -/
theorem step_after {cfg : Config} {s s' : Session} {om : Outcome C × Frontend}
    (h : (step cfg s om).2 = .go s') : s' = s.after om.2 := by
  obtain ⟨o, m⟩ := om
  rcases step_cases cfg s o m with ⟨-, -, heq⟩ | ⟨-, -, heq⟩ | ⟨hh, -, heq⟩ | ⟨-, heq⟩ |
    ⟨-, out, t, hd, heq⟩ | ⟨-, -, heq⟩
  · rw [heq] at h; cases h
  · rw [heq] at h; cases h
  · rw [heq] at h
    cases h
    rcases kind_of_haunted hh with hk | hk <;> simp only [Session.after, hk]
  · rw [heq] at h; cases h
  · rw [heq] at h
    cases h
    exact dispatch_after hd
  · rw [heq] at h; cases h

/-- **A message keeps the portals that it does not bind or close.** -/
theorem step_portals {cfg : Config} {s s' : Session} {om : Outcome C × Frontend} {p : Str}
    (hk : Keeps p om.2) (h : (step cfg s om).2 = .go s') : s'.portals p = s.portals p := by
  rw [step_after h]
  unfold Session.after
  cases hkind : om.2.kind with
  | bind => exact bind_portals (hk.1 hkind)
  | close => exact close_portals (hk.2 hkind)
  | parse | query | describe | execute | sync | terminate | flush | other => rfl

/-- **What a Describe of a portal writes.** -/
theorem step_describe (cfg : Config) (s : Session) (o : Outcome C) {p : Str} {m : Frontend}
    (h : Describes p m) :
    step cfg s (o, m) = ([description cfg (s.portal p).sql], .go s) := by
  obtain ⟨hk, ht⟩ := h
  have hsql : s.described m.payload = (s.portal p).sql := by
    unfold Session.described Session.portal
    rw [ht]
    cases hp : s.portals p with
    | none => simp only [hp]; rfl
    | some portal => simp only [hp]; rfl
  have hd : dispatch cfg o s m = some (Out.new.put (description cfg (s.portal p).sql), s) := by
    rw [dispatch_describe hk, describe_eq, ht, hsql]
    rfl
  have hh : ¬m.haunted cfg := not_haunted (by simp [hk]) (by simp [hk]) cfg
  exact step_dispatch hh (by simp [hk]) hd

/-- The rows of a portal: its columns' texts, put in its formats. -/
def IsRow (cfg : Config) (portal : Portal) (cells : List Cell) : Prop :=
  (shapeOf portal.sql).kind = .select ∧
    ∃ texts : List Str,
      texts.length = (binarize (resolveCols (shapeOf portal.sql) cfg)).length ∧
      cells = putTexts portal.resultFormats 0 (binarize (resolveCols (shapeOf portal.sql) cfg)) texts

/-- Rows come from the `Select` part of `execute_portal` alone. -/
theorem executeSelect_of_row {cfg : Config} {s : Session} {o : Outcome C} {p : Str} {m : Frontend}
    (h : Executes p m) {cells : List Cell} (hrow : .dataRow cells ∈ (step cfg s (o, m)).1) :
    (shapeOf (s.portal p).sql).kind = .select ∧
      .dataRow cells ∈ (executeSelect cfg (o.slot 0) (o.os 0) (s.portal p)
        (Read.executeMessage.of m.payload).maxRows (shapeOf (s.portal p).sql) .new).all := by
  obtain ⟨hk, hp⟩ := h
  rcases step_cases cfg s o m with ⟨-, -, heq⟩ | ⟨-, -, heq⟩ | ⟨-, -, heq⟩ | ⟨-, heq⟩ |
    ⟨-, out, t, hd, heq⟩ | ⟨-, -, heq⟩
  · rw [heq] at hrow; simp at hrow
  · rw [heq] at hrow; simp at hrow
  · rw [heq, if_neg (by rw [hk]; simp)] at hrow; simp [ghostError] at hrow
  · rw [heq] at hrow; simp at hrow
  · rw [heq] at hrow
    rw [dispatch_execute hk, hp] at hd
    obtain ⟨_, hex, heq'⟩ := Option.map_eq_some_iff.1 hd
    obtain ⟨rfl, -⟩ := Prod.mk.inj heq'
    unfold executePortal at hex
    rw [extract_eq] at hex
    simp only [Option.bind_eq_bind, Option.bind_some] at hex
    cases hkind : (shapeOf (s.portal p).sql).kind with
    | select =>
      rw [hkind] at hex
      cases hex
      exact ⟨rfl, hrow⟩
    | empty | insert | update | delete | command =>
      rw [hkind] at hex
      cases hex
      simp at hrow
  · rw [heq] at hrow; simp at hrow

/-- **Every row that Execute sends holds the texts of the portal's columns**, in their order, crushed
or not. -/
theorem execute_texts {cfg : Config} {s : Session} {o : Outcome C} {p : Str} {m : Frontend}
    (h : Executes p m) {cells : List Cell} (hrow : .dataRow cells ∈ (step cfg s (o, m)).1) :
    (shapeOf (s.portal p).sql).kind = .select ∧ ∃ rng : C.Rng,
      cells = putTexts (s.portal p).resultFormats 0
        (binarize (resolveCols (shapeOf (s.portal p).sql) cfg))
        (rowTexts cfg.genCtx (binarize (resolveCols (shapeOf (s.portal p).sql) cfg)) rng).1 := by
  obtain ⟨hk, hrow⟩ := executeSelect_of_row h hrow
  obtain ⟨note, n, rng, hn, hall⟩ := executeSelect_all cfg (o.slot 0) (o.os 0) (s.portal p)
    (Read.executeMessage.of m.payload).maxRows (shapeOf (s.portal p).sql) .new
  have hnote : .dataRow cells ∉ note := by cases hn <;> simp
  rw [hall, times_putDataRowFmt] at hrow
  simp only [all_new, List.nil_append, List.mem_append, hnote, false_or, List.mem_singleton,
    reduceCtorEq, or_false, List.mem_map, Backend.dataRow.injEq] at hrow
  obtain ⟨texts, htexts, rfl⟩ := hrow
  obtain ⟨rng', rfl⟩ := Draw.mem_times htexts
  exact ⟨hk, rng', rfl⟩

/-- Every row that Execute sends is a row of the portal. -/
theorem execute_rows {cfg : Config} {s : Session} {o : Outcome C} {p : Str} {m : Frontend}
    (h : Executes p m) {cells : List Cell} (hrow : .dataRow cells ∈ (step cfg s (o, m)).1) :
    IsRow cfg (s.portal p) cells := by
  obtain ⟨hk, rng, rfl⟩ := execute_texts h hrow
  exact ⟨hk, _, length_rowTexts _ rng, rfl⟩

/-! ## Shape -/

/-- A cell that was written for a field: a text, or the binary encoding of a text at the
field's type, which then has the type's width. -/
def Fits (f : Field) (cell : Cell) : Prop :=
  ∃ wt t, f.oid = oid wt ∧
    (cell = .text t ∨
      cell = .binary (textToBinary wt t) ∧
        ∀ n, oidWidth f.oid = some n → (textToBinary wt t).length = n)

/-- The field that announces a column. -/
def Resolved.field (c : Resolved) : Field := ⟨c.name, oid c.wt, 0⟩

theorem fits_putCell (formats : List ℤ) (i : ℕ) (c : Resolved) (t : Str) :
    Fits (Resolved.field c) (putCell formats i c t) := by
  refine ⟨c.wt, t, rfl, ?_⟩
  unfold putCell
  split
  · exact Or.inr ⟨rfl, fun n hn => length_textToBinary hn t⟩
  · exact Or.inl rfl

/-- A row fits the description of its columns. -/
theorem forall₂_fits {formats : List ℤ} {cols : List Resolved} {texts : List Str} (i : ℕ)
    (h : texts.length = cols.length) :
    List.Forall₂ Fits (cols.map Resolved.field) (putTexts formats i cols texts) := by
  induction cols generalizing texts i with
  | nil => exact .nil
  | cons c cols ih =>
    cases texts with
    | nil => simp at h
    | cons t texts =>
      exact .cons (fits_putCell formats i c t) (ih (i + 1) (by simpa using h))

/-- **Describe and Execute agree.** A DataRow that answers an Execute of a portal after a
Describe of it, with no Bind or Close of it in between, has a cell for each field that the
Describe announced, in order and of the announced type: the cells are the texts of the columns
announced, each in its own place and format. -/
theorem describe_execute {cfg : Config} {s : Session} {p : Str} {d e : Frontend}
    {od oe : Outcome C} {mid : List (Outcome C × Frontend)} (hd : Describes p d)
    (he : Executes p e) (hmid : ∀ om ∈ mid, Keeps p om.2) {ad ae : List Backend}
    {am : List (List Backend)} (hlen : am.length = mid.length)
    (hrun : (serve (step cfg) s ((od, d) :: mid ++ [(oe, e)])).1 = ad :: am ++ [ae])
    {cells : List Cell} (hrow : .dataRow cells ∈ ae) :
    ∃ (cols : List Resolved) (rng : C.Rng), ad = [.rowDescription (cols.map Resolved.field)] ∧
      cells = putTexts (s.portal p).resultFormats 0 cols (rowTexts cfg.genCtx cols rng).1 ∧
        List.Forall₂ Fits (cols.map Resolved.field) cells := by
  have hstep := step_describe cfg s od hd
  rw [List.cons_append, List.cons_append, Serve.serve_go (by rw [hstep]), hstep] at hrun
  obtain ⟨rfl, hrest⟩ := List.cons.inj hrun
  -- the messages in between are all answered, and keep the portal
  cases hm : (serve (step cfg) s mid).2 with
  | stop why =>
    -- then the Execute would have no answer
    have hle : (serve (step cfg) s mid).1.length ≤ mid.length := Serve.length_serve_le mid s
    rw [Serve.serve_append_stop hm] at hrest
    have := congrArg List.length hrest
    simp only [List.length_append, List.length_singleton] at this
    omega
  | go t =>
    have hkeep : t.portals p = s.portals p :=
      Serve.serve_keeps (r := fun u => u.portals p) (fun _ _ _ hk hgo => step_portals hk hgo) hmid hm
    have hportal : t.portal p = s.portal p := by unfold Session.portal; rw [hkeep]
    rw [Serve.serve_append hm] at hrest
    have hlast : (serve (step cfg) t [(oe, e)]).1 = [ae] :=
      (List.append_inj hrest (by rw [Serve.length_serve hm, hlen])).2
    have hae : ae = (step cfg t (oe, e)).1 := by
      cases hnext : (step cfg t (oe, e)).2 with
      | go u => rw [Serve.serve_go hnext] at hlast; exact (List.cons.inj hlast).1.symm
      | stop why => rw [Serve.serve_stop hnext] at hlast; exact (List.cons.inj hlast).1.symm
    rw [hae] at hrow
    obtain ⟨hk, rng, rfl⟩ := execute_texts he hrow
    rw [hportal] at hk ⊢
    refine ⟨_, rng, ?_, rfl, forall₂_fits 0 (length_rowTexts _ rng)⟩
    unfold description
    rw [if_pos hk]
    rfl

/-- The portal `p` of a session, bound to `select 1` with its column in binary. -/
def bound : Session := { Session.new with portals := fun _ => some ⟨"select 1", [1]⟩ }

theorem describe_execute_bound : ∃ (cols : List Resolved) (rng : Crates.least.Rng),
    [description .default "select 1"] = [.rowDescription (cols.map Resolved.field)] ∧
      [.binary [0, 0, 0, 1]] = putTexts (bound.portal []).resultFormats 0 cols
        (rowTexts Config.default.genCtx cols rng).1 ∧
        List.Forall₂ Fits (cols.map Resolved.field) [.binary [0, 0, 0, 1]] := by
  let mid : List (Outcome .least × Frontend) := []
  have hd : Describes [] ⟨68, [80]⟩ := ⟨rfl, rfl⟩
  have he : Executes [] ⟨69, []⟩ := ⟨rfl, rfl⟩
  have hmid : ∀ om ∈ mid, Keeps [] om.2 := by simp [mid]
  have hlen : ([] : List (List Backend)).length = mid.length := rfl
  have hrun : (serve (step .default) bound
      ((Outcome.quiet, ⟨68, [80]⟩) :: mid ++ [(.quiet, ⟨69, []⟩)])).1 =
      [description .default "select 1"] :: [] ++
        [[.dataRow [.binary [0, 0, 0, 1]], .commandComplete "SELECT 1"]] := by decide +kernel
  exact describe_execute hd he hmid hlen hrun List.mem_cons_self

/-! ## Formats -/

/-- The formats that Describe announces of a portal are the formats in which Execute sends
its rows, in every session that has bound it and under every configuration. -/
def FormatsAgree (C : Crates) (portal : Portal) : Prop :=
  ∀ (cfg : Config) (s : Session) (p : Str) (d e : Frontend) (od oe : Outcome C),
    s.portals p = some portal → Describes p d → Executes p e →
    ∀ fields cells, (step cfg s (od, d)).1 = [.rowDescription fields] →
      .dataRow cells ∈ (step cfg s (oe, e)).1 →
        fields.map Field.format = cells.map Cell.format

/-- A `SELECT` that gets no rows, whatever the configuration: from a system catalog, or
under a `LIMIT 0` that no threshold crushes. -/
def Rowless (shape : ResultShape) : Prop :=
  shape.forceEmpty ∨
    shape.limit = some 0 ∧ ∀ th sig, shape.crushClass th ≠ .crush sig

/-- The number of columns of a portal. -/
def Portal.width (portal : Portal) : ℕ := (shapeOf portal.sql).columns.length

theorem length_binarize (portal : Portal) (cfg : Config) :
    (binarize (resolveCols (shapeOf portal.sql) cfg)).length = portal.width := by
  simp [binarize, resolveCols, Portal.width]

theorem format_putCell (formats : List ℤ) (i : ℕ) (c : Resolved) (t : Str) :
    (putCell formats i c t).format = if formatFor formats i = 1 then 1 else 0 := by
  unfold putCell
  split <;> rfl

/-- Describe announces text for every column. -/
theorem format_description {cfg : Config} {portal : Portal} {fields : List Field}
    (h : description cfg portal.sql = .rowDescription fields) :
    fields.map Field.format = List.replicate portal.width 0 := by
  unfold description at h
  split at h
  · obtain rfl := Backend.rowDescription.inj h
    rw [List.eq_replicate_iff, List.length_map, List.length_map, length_binarize]
    refine ⟨rfl, ?_⟩
    intro f hf
    obtain ⟨_, hc, rfl⟩ := List.mem_map.1 hf
    obtain ⟨c, -, rfl⟩ := List.mem_map.1 hc
    rfl
  · cases h

/-- Execute sends each cell in the format its code asks for. -/
theorem format_row {cfg : Config} {portal : Portal} {cells : List Cell}
    (h : IsRow cfg portal cells) {i : ℕ} (hi : i < portal.width) :
    (cells.map Cell.format)[i]? = some (if formatFor portal.resultFormats i = 1 then 1 else 0) := by
  obtain ⟨-, texts, hlen, rfl⟩ := h
  have hcell : (putTexts portal.resultFormats 0 _ texts).length = _ := length_putTexts 0 hlen
  rw [length_binarize] at hcell
  obtain ⟨c, t, -, -, hget⟩ := getElem?_putTexts (List.getElem?_eq_getElem (by omega : i < (putTexts
    portal.resultFormats 0 (binarize (resolveCols (shapeOf portal.sql) cfg)) texts).length))
  rw [List.getElem?_map, List.getElem?_eq_getElem (by omega), hget, Option.map_some, format_putCell,
    Nat.zero_add]

theorem length_row {cfg : Config} {portal : Portal} {cells : List Cell}
    (h : IsRow cfg portal cells) : cells.length = portal.width := by
  obtain ⟨-, texts, hlen, rfl⟩ := h
  rw [length_putTexts 0 hlen, length_binarize]

/-- Execute on a portal that holds a `SELECT`, when no ghost haunts it. -/
theorem step_execute {cfg : Config} {s : Session} {o : Outcome C} {p : Str} {m : Frontend}
    (h : Executes p m) (hq : cfg.ghosts.haunting = false)
    (hk : (shapeOf (s.portal p).sql).kind = .select) :
    (step cfg s (o, m)).1 = (executeSelect cfg (o.slot 0) (o.os 0) (s.portal p)
      (Read.executeMessage.of m.payload).maxRows (shapeOf (s.portal p).sql) .new).all := by
  have hd : dispatch cfg o s m = some (executeSelect cfg (o.slot 0) (o.os 0) (s.portal p)
      (Read.executeMessage.of m.payload).maxRows (shapeOf (s.portal p).sql) .new, s) := by
    rw [dispatch_execute h.1, h.2]
    unfold executePortal
    rw [extract_eq]
    simp only [Option.bind_eq_bind, Option.bind_some]
    rw [hk]
    rfl
  have hh : ¬m.haunted cfg := by simp [Frontend.haunted, hq]
  rw [step_dispatch hh (by simp [h.1]) hd]

/-- With a band above zero, a `SELECT` gets a row unless a catalog or a `LIMIT 0` forbids. -/
theorem rowCount_pos {shape : ResultShape} {cfg : Config} (he : shape.forceEmpty = false)
    (hl : shape.limit ≠ some 0) (hb : 1 ≤ cfg.rowsMin) (rng : C.Rng) :
    1 ≤ (rowCount shape cfg rng).1 := by
  have hband : 1 ≤ (C.randomRangeIncl .usize cfg.rowsMin (max cfg.rowsMax cfg.rowsMin) rng).1.toNat := by
    have hmem := (C.rangeIncl_mem .usize cfg.rowsMin (max cfg.rowsMax cfg.rowsMin) rng
      (by omega)).1
    omega
  have hlimit : ∀ n, 1 ≤ n → 1 ≤ limited shape n := by
    intro n hn
    unfold limited
    cases hs : shape.limit with
    | none => exact hn
    | some limit =>
      have : limit ≠ 0 := fun h0 => hl (by rw [hs, h0])
      rw [Option.elim_some]
      omega
  rw [rowCount_fst]
  apply hlimit
  unfold rowBand
  rw [if_neg (by simp [he])]
  by_cases h1 : shape.aggregateOnly ∨ shape.tableHint = none
  · rw [if_pos h1]
    exact le_rfl
  · rw [if_neg h1]
    exact hband

/-- A loop that runs writes a row. -/
theorem row_mem_times (cols : List Resolved) (formats : List ℤ) (g : Gen) {n : ℕ} (h : 1 ≤ n)
    (rng : C.Rng) : ∃ cells, .dataRow cells ∈ ((putDataRowFmt cols formats g).times n rng).1 := by
  obtain ⟨k, rfl⟩ : ∃ k, n = k + 1 := ⟨n - 1, by omega⟩
  exact ⟨_, List.mem_cons_self⟩

/-- **No row goes out where none may.** -/
theorem rowless_notMem {shape : ResultShape} (h : Rowless shape) (cfg : Config) (slot : Bool)
    (os : C.Rng) (portal : Portal) (maxRows : ℤ) (cells : List Cell) :
    .dataRow cells ∉ (executeSelect cfg slot os portal maxRows shape .new).all := by
  have hcrush : ∀ sig, cfg.crushClass shape ≠ .crush sig := by
    intro sig hc
    unfold Config.crushClass at hc
    split at hc
    · rcases h with he | ⟨-, hno⟩
      · unfold ResultShape.crushClass at hc
        rw [if_pos (Or.inr (Or.inr (Or.inr he)))] at hc
        cases hc
      · exact hno _ sig hc
    · cases hc
  -- a catalog has no rows, and a limit of zero leaves none
  have hzero : ∀ rng : C.Rng, (rowCount shape cfg rng).1 = 0 := by
    intro rng
    rw [rowCount_fst, limited]
    rcases h with he | ⟨hl, -⟩
    · unfold rowBand
      rw [if_pos he, Draw.pure_apply]
      cases shape.limit <;> simp
    · simp [hl]
  have hrows : ∀ rng : C.Rng, .dataRow cells ∉
      (portalRows shape cfg portal.resultFormats maxRows rng).1 := by
    intro rng
    rw [portalRows_eq, hzero, Nat.le_zero.1 (boundRows_le maxRows 0)]
    simp [Draw.times, Draw.pure_apply]
  unfold executeSelect
  dsimp only
  cases hc : cfg.crushClass shape with
  | crush sig => exact absurd hc (hcrush sig)
  | warn sig =>
    dsimp only
    rw [all_putAll, all_put]
    simpa using hrows _
  | safe =>
    dsimp only
    rw [all_putAll]
    simpa using hrows _

/-- **A portal that may get rows gets one**, under some configuration. -/
theorem exists_row (C : Crates) {portal : Portal} (hk : (shapeOf portal.sql).kind = .select)
    (hr : ¬Rowless (shapeOf portal.sql)) {s : Session} {p : Str} (hs : s.portal p = portal)
    {m : Frontend} (hm : Executes p m) (hmax : (Read.executeMessage.of m.payload).maxRows = 0) :
    ∃ (cfg : Config) (o : Outcome C) (cells : List Cell), .dataRow cells ∈ (step cfg s (o, m)).1 := by
  subst hs
  obtain ⟨hempty, hlimit⟩ := not_or.1 hr
  simp only [Bool.not_eq_true] at hempty
  let o : Outcome C := ⟨0, 0, 0, 0, fun _ => true, fun _ => C.seedFromU64 0⟩
  by_cases hl : (shapeOf (s.portal p).sql).limit = some 0
  · -- a threshold that crushes past the limit
    obtain ⟨th, sig, hc⟩ : ∃ th sig, (shapeOf (s.portal p).sql).crushClass th = .crush sig := by
      by_contra hno
      exact hlimit ⟨hl, fun th sig hc => hno ⟨th, sig, hc⟩⟩
    let cfg : Config := { Config.default with crush := ⟨true, 1, false, th⟩ }
    have hclass : cfg.crushClass (shapeOf (s.portal p).sql) = .crush sig := hc
    obtain ⟨cells, hcells⟩ := row_mem_times (binarize (resolveCols _ cfg))
      (s.portal p).resultFormats cfg.genCtx le_rfl (seedRng cfg (Utf8.encode (s.portal p).sql) (o.os 0))
    refine ⟨cfg, o, cells, ?_⟩
    rw [step_execute hm rfl hk]
    unfold executeSelect
    simp only [hclass]
    change _ ∈ ((Out.new.flush.write _).write _).all
    rw [all_write_write, all_flush_write, streamRows_eq]
    exact List.mem_append_right _ (List.mem_append_right _ (List.mem_append_left _ hcells))
  · let cfg : Config := { Config.default with rowsMin := 1, rowsMax := 1 }
    let count := rowCount (shapeOf (s.portal p).sql) cfg
      (seedRng cfg (Utf8.encode (s.portal p).sql) (o.os 0))
    obtain ⟨cells, hcells⟩ := row_mem_times (binarize (resolveCols _ cfg))
      (s.portal p).resultFormats cfg.genCtx
      (rowCount_pos hempty hl le_rfl _ : 1 ≤ count.1) count.2
    refine ⟨cfg, o, cells, ?_⟩
    have hclass : cfg.crushClass (shapeOf (s.portal p).sql) = .safe := rfl
    rw [step_execute hm rfl hk]
    unfold executeSelect
    simp only [hclass]
    rw [all_putAll, portalRows_eq, hmax]
    exact List.mem_append_right _ (List.mem_append_left _ hcells)

/-- **Announced and sent formats agree** exactly when no column is asked for in binary, or
the portal gets no rows. -/
theorem formatsAgree_iff (C : Crates) (portal : Portal) :
    FormatsAgree C portal ↔ (shapeOf portal.sql).kind ≠ .select ∨ Rowless (shapeOf portal.sql) ∨
      ∀ i < portal.width, formatFor portal.resultFormats i ≠ 1 := by
  constructor
  · intro hagree
    by_contra hno
    simp only [not_or, not_not, not_forall] at hno
    obtain ⟨hk, hr, i, hi, hbin⟩ := hno
    -- describe the portal and send it a row, in a session that has bound it
    let s : Session := { Session.new with portals := fun _ => some portal }
    have hs : s.portal [] = portal := rfl
    have hd : Describes [] ⟨68, [80]⟩ := ⟨rfl, rfl⟩
    have he : Executes [] ⟨69, []⟩ := ⟨rfl, rfl⟩
    obtain ⟨cfg, o, cells, hrow⟩ := exists_row C hk hr hs he (by decide +kernel)
    obtain ⟨fields, hdesc⟩ : ∃ fields, description cfg portal.sql = .rowDescription fields :=
      ⟨_, description_select hk⟩
    have hfmt := hagree cfg s [] _ _ o o rfl hd he fields cells
      (by rw [step_describe cfg s o hd, hs, hdesc]) hrow
    have hann := format_description hdesc
    have hsent := format_row (execute_rows he hrow) (i := i) (by rw [hs]; exact hi)
    rw [hs, if_pos hbin, ← hfmt, hann, List.getElem?_replicate, if_pos hi] at hsent
    simp at hsent
  · -- what is announced is always text, and here so is what is sent
    intro hcond cfg s p d e od oe hs hd he fields cells hdesc hrow
    have hp : s.portal p = portal := by unfold Session.portal; rw [hs]; rfl
    rw [step_describe cfg s od hd, hp] at hdesc
    have hann := format_description (List.cons.inj hdesc).1
    have hisrow := execute_rows he hrow
    rw [hp] at hisrow
    rcases hcond with hk | hr | htext
    · exact absurd hisrow.1 hk
    · obtain ⟨-, hrow⟩ := executeSelect_of_row he hrow
      rw [hp] at hrow
      exact absurd hrow (rowless_notMem hr _ _ _ _ _ _)
    · rw [hann, eq_comm, List.eq_replicate_iff, List.length_map, length_row hisrow]
      refine ⟨rfl, ?_⟩
      intro f hf
      obtain ⟨i, hi, rfl⟩ := List.mem_iff_getElem.1 hf
      rw [List.length_map, length_row hisrow] at hi
      have := format_row hisrow hi
      rw [if_neg (htext i hi)] at this
      exact (List.getElem?_eq_some_iff.1 this).2

/-- A column asked for in binary is announced as text. -/
theorem not_formatsAgree_binary : ¬FormatsAgree .least ⟨"select 1", [1]⟩ := by
  intro h
  have hfmt := h .default bound [] ⟨68, [80]⟩ ⟨69, []⟩ .quiet .quiet rfl ⟨rfl, rfl⟩ ⟨rfl, rfl⟩
    [⟨"?column?", 23, 0⟩] [.binary [0, 0, 0, 1]] (by decide +kernel) (by decide +kernel)
  exact absurd hfmt (by decide)

end EtherealDb.Pg
