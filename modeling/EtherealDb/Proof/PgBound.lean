import EtherealDb.Proof.PgPortal

/-!
# The row bound of Execute

Rows are sent by a loop that counts them or by the crush stream, and only the first
looks at the bound of the Execute message.

* `dataRows_crushed`, `dataRows_normal`: how many rows an Execute of a `SELECT` sends, on
  each path.
* `execute_bounded_iff`: **the bound is kept exactly when the portal is not crushed**, or
  the crush stream is no longer than the bound.
-/

namespace EtherealDb.Pg

variable {C : Crates}

/-! ## Counting rows -/

def Backend.isDataRow : Backend → Bool
  | .dataRow _ => true
  | _ => false

/-- The number of DataRows among some messages. -/
def dataRows (ms : List Backend) : ℕ := ms.countP Backend.isDataRow

@[simp] theorem dataRows_nil : dataRows [] = 0 := rfl

@[simp] theorem dataRows_append (a b : List Backend) :
    dataRows (a ++ b) = dataRows a + dataRows b := List.countP_append

theorem dataRows_one {m : Backend} (h : m.isDataRow = false) : dataRows [m] = 0 := by
  simp [dataRows, h]

/-- The loop of rows writes as many as it is told. -/
theorem dataRows_times (cols : List Resolved) (formats : List ℤ) (g : Gen) (n : ℕ) (rng : C.Rng) :
    dataRows ((putDataRowFmt cols formats g).times n rng).1 = n := by
  have hall : ∀ m ∈ ((putDataRowFmt cols formats g).times n rng).1, m.isDataRow = true := by
    intro m hm
    rw [times_putDataRowFmt] at hm
    obtain ⟨texts, -, rfl⟩ := List.mem_map.1 hm
    rfl
  rw [dataRows, List.countP_eq_length.2 hall, Draw.length_times]

theorem dataRows_portalRows (shape : ResultShape) (cfg : Config) (formats : List ℤ) (maxRows : ℤ)
    (rng : C.Rng) : dataRows (portalRows shape cfg formats maxRows rng).1 =
      boundRows maxRows (rowCount shape cfg rng).1 := by
  rw [portalRows_eq, dataRows_append, dataRows_times, dataRows_one rfl]
  rfl

theorem dataRows_streamRows (cols : List Resolved) (formats : List ℤ) (n : ℕ) (g : Gen)
    (rng : C.Rng) : dataRows (streamRows cols formats n g rng).1 = n := by
  rw [streamRows_eq, dataRows_append, dataRows_times, dataRows_one rfl]
  rfl

/-! ## Which path -/

/-- A statement of this shape gets the crush stream: its class says so, crush mode does
more than warn, and a slot is free. -/
def Crushed (cfg : Config) (slot : Bool) (shape : ResultShape) : Prop :=
  (∃ sig, cfg.crushClass shape = .crush sig) ∧ cfg.crush.warnOnly = false ∧ slot = true

/-- **The crush stream has a length of its own.** -/
theorem dataRows_crushed {cfg : Config} {slot : Bool} {shape : ResultShape}
    (h : Crushed cfg slot shape) (os : C.Rng) (portal : Portal) (maxRows : ℤ) :
    dataRows (executeSelect cfg slot os portal maxRows shape .new).all = cfg.crush.maxRows := by
  obtain ⟨⟨sig, hc⟩, hw, rfl⟩ := h
  unfold executeSelect
  dsimp only
  rw [hc]
  simp only [hw, Bool.not_false, if_true]
  rw [all_write_write, all_flush_write, dataRows_append, dataRows_append, dataRows_streamRows,
    all_new, dataRows_nil, dataRows_one rfl, Nat.zero_add, Nat.zero_add]

/-- **Every other answer counts its rows against the bound.** -/
theorem dataRows_normal {cfg : Config} {slot : Bool} {shape : ResultShape}
    (h : ¬Crushed cfg slot shape) (os : C.Rng) (portal : Portal) (maxRows : ℤ) :
    dataRows (executeSelect cfg slot os portal maxRows shape .new).all =
      boundRows maxRows
        (rowCount shape cfg (seedRng cfg (Utf8.encode portal.sql) os)).1 := by
  have hnote : ∀ msg, dataRows ((Out.new.put (.notice msg)).putAll (portalRows shape cfg
      portal.resultFormats maxRows (seedRng cfg (Utf8.encode portal.sql) os)).1).all =
      boundRows maxRows
        (rowCount shape cfg (seedRng cfg (Utf8.encode portal.sql) os)).1 := by
    intro msg
    rw [all_putAll, all_put, dataRows_append, dataRows_portalRows, all_new, List.nil_append,
      dataRows_one rfl, Nat.zero_add]
  unfold executeSelect
  dsimp only
  cases hc : cfg.crushClass shape with
  | safe =>
    dsimp only
    rw [all_putAll, dataRows_append, dataRows_portalRows, all_new, dataRows_nil, Nat.zero_add]
  | warn sig => exact hnote _
  | crush sig =>
    by_cases hw : cfg.crush.warnOnly
    · simp only [hw]
      exact hnote _
    · have hs : ¬slot = true := fun hs => h ⟨⟨sig, hc⟩, by simpa using hw, hs⟩
      simp only [hw, hs]
      exact hnote _

/-- The normal answer to one statement of a simple query. -/
theorem dataRows_statement {cfg : Config} {slot : Bool} {stmt : Str}
    (hk : (shapeOf stmt).kind = .select) (h : ¬Crushed cfg slot (shapeOf stmt)) (os : C.Rng) :
    ∃ out, respondStatement cfg slot os .new stmt = some out ∧ dataRows out.all =
      (rowCount (shapeOf stmt) cfg (seedRng cfg (Utf8.encode stmt) os)).1 := by
  have hrows : dataRows (normalResponse (shapeOf stmt) cfg stmt os) =
      (rowCount (shapeOf stmt) cfg (seedRng cfg (Utf8.encode stmt) os)).1 := by
    unfold normalResponse
    rw [hk]
    dsimp only
    rw [normalRows_eq, putDataRow, ← List.singleton_append, dataRows_append, dataRows_append,
      dataRows_times, dataRows_one rfl, dataRows_one rfl, Nat.zero_add]
    rfl
  have hnote : ∀ msg, dataRows ((Out.new.put (.notice msg)).putAll
      (normalResponse (shapeOf stmt) cfg stmt os)).all =
      (rowCount (shapeOf stmt) cfg (seedRng cfg (Utf8.encode stmt) os)).1 := by
    intro msg
    rw [all_putAll, all_put, dataRows_append, hrows, all_new, List.nil_append, dataRows_one rfl,
      Nat.zero_add]
  unfold respondStatement
  simp only [extract_eq, Option.bind_eq_bind, Option.bind_some]
  cases hc : cfg.crushClass (shapeOf stmt) with
  | safe => exact ⟨_, rfl, by rw [all_putAll, dataRows_append, hrows, all_new]; simp⟩
  | warn sig => exact ⟨_, rfl, hnote _⟩
  | crush sig =>
    by_cases hw : cfg.crush.warnOnly
    · simp only [hw]
      exact ⟨_, rfl, hnote _⟩
    · have hs : ¬slot = true := fun hs => h ⟨⟨sig, hc⟩, by simpa using hw, hs⟩
      simp only [hw, hs]
      exact ⟨_, rfl, hnote _⟩

/-- **The bound on one portal.** -/
theorem executePortal_bounded_iff (cfg : Config) (slot : Bool) (os : C.Rng) (portal : Portal)
    {maxRows : ℤ} (hmax : 0 < maxRows) {out : Out}
    (h : executePortal cfg slot os portal maxRows .new = some out) :
    dataRows out.all ≤ maxRows.toNat ↔
      ¬Crushed cfg slot (shapeOf portal.sql) ∨ cfg.crush.maxRows ≤ maxRows.toNat := by
  unfold executePortal at h
  rw [extract_eq] at h
  simp only [Option.bind_eq_bind, Option.bind_some] at h
  cases hk : (shapeOf portal.sql).kind with
  | select =>
    rw [hk] at h
    obtain rfl := Option.some.inj h
    by_cases hc : Crushed cfg slot (shapeOf portal.sql)
    · rw [dataRows_crushed hc]
      exact ⟨.inr, fun hor => hor.resolve_left fun hno => hno hc⟩
    · rw [dataRows_normal hc, boundRows, if_pos hmax]
      exact ⟨fun _ => .inl hc, fun _ => Nat.min_le_right _ _⟩
  | empty | insert | update | delete | command =>
    -- no other statement is crushed, and none has rows
    have hc : ¬Crushed cfg slot (shapeOf portal.sql) := by
      rintro ⟨⟨sig, h⟩, -⟩
      rw [kind_of_crush h] at hk
      cases hk
    rw [hk] at h
    obtain rfl := Option.some.inj h
    rw [all_put, all_new, List.nil_append, dataRows_one rfl]
    exact ⟨fun _ => .inl hc, fun _ => Nat.zero_le _⟩

/-- **When Execute keeps its bound**: a ghost is in its way, or its portal is not crushed,
or the crush stream is no longer than the bound. -/
theorem execute_bounded_iff {cfg : Config} {s : Session} {o : Outcome C} {p : Str} {m : Frontend}
    (h : Executes p m) (hmax : 0 < (Read.executeMessage.of m.payload).maxRows) :
    dataRows (step cfg s (o, m)).1 ≤ (Read.executeMessage.of m.payload).maxRows.toNat ↔
      (m.haunted cfg ∧ (o.crashed cfg ∨ o.dropped cfg ∨ o.errored cfg)) ∨
        ¬Crushed cfg (o.slot 0) (shapeOf (s.portal p).sql) ∨
        cfg.crush.maxRows ≤ (Read.executeMessage.of m.payload).maxRows.toNat := by
  by_cases hghost : m.haunted cfg ∧ (o.crashed cfg ∨ o.dropped cfg ∨ o.errored cfg)
  · -- a ghost sends an error at most
    have hzero : dataRows (step cfg s (o, m)).1 = 0 := by
      unfold step
      by_cases hcrash : m.haunted cfg ∧ o.crashed cfg
      · simp only [if_pos hcrash, dataRows_nil]
      by_cases hdrop : m.haunted cfg ∧ o.dropped cfg
      · simp only [if_neg hcrash, if_pos hdrop, dataRows_nil]
      · have herr : m.haunted cfg ∧ o.errored cfg :=
          ⟨hghost.1, (hghost.2.resolve_left fun hc => hcrash ⟨hghost.1, hc⟩).resolve_left
            fun hd => hdrop ⟨hghost.1, hd⟩⟩
        simp only [if_neg hcrash, if_neg hdrop, if_pos herr, h.1, reduceCtorEq, if_false]
        exact dataRows_one rfl
    rw [hzero]
    exact ⟨fun _ => .inl hghost, fun _ => Nat.zero_le _⟩
  · obtain ⟨out, hout, -⟩ := executePortal_all cfg (o.slot 0) (o.os 0) (s.portal p)
      (Read.executeMessage.of m.payload).maxRows
    have hd : dispatch cfg o s m = some (out, s) := by
      rw [dispatch_execute h.1, h.2, hout]
      rfl
    have hstep : (step cfg s (o, m)).1 = out.all := by
      have hcrash : ¬(m.haunted cfg ∧ o.crashed cfg) := fun hc => hghost ⟨hc.1, .inl hc.2⟩
      have hdrop : ¬(m.haunted cfg ∧ o.dropped cfg) := fun hd => hghost ⟨hd.1, .inr (.inl hd.2)⟩
      have herr : ¬(m.haunted cfg ∧ o.errored cfg) := fun he => hghost ⟨he.1, .inr (.inr he.2)⟩
      have hterm : ¬m.kind = .terminate := by rw [h.1]; simp
      unfold step
      simp only [if_neg hcrash, if_neg hdrop, if_neg herr, if_neg hterm, hd]
      rfl
    rw [hstep, executePortal_bounded_iff cfg (o.slot 0) (o.os 0) (s.portal p) hmax hout]
    exact ⟨.inr, fun hor => hor.resolve_left hghost⟩

/-- An Execute of the unnamed portal for one row at most. -/
def executeOne : Frontend := ⟨69, [0, 0, 0, 0, 1]⟩

/-- The unnamed portal of `select 1` keeps the bound. -/
theorem execute_bounded_one :
    dataRows (step .default bound (Outcome.quiet, executeOne)).1 ≤ 1 := by
  have hm : Executes [] executeOne := ⟨rfl, rfl⟩
  have hsafe : ¬Crushed .default (Outcome.quiet.slot 0) (shapeOf (bound.portal []).sql) := by
    rintro ⟨⟨sig, hsig⟩, -⟩
    cases hsig
  exact (execute_bounded_iff hm (by decide)).2 (.inr (.inl hsafe))

/-- Crush mode at its default length and threshold. -/
def crushing : Config :=
  { Config.default with crush := { CrushConfig.default with enabled := true } }

/-- The unnamed portal of a query for a whole table. -/
def wholeTable : Session :=
  { Session.new with portals := fun _ => some ⟨"select * from users", []⟩ }

/-- A world in which a crush slot is free. -/
def freeSlot : Outcome .least := { Outcome.quiet with slot := fun _ => true }

/-- **An Execute for one row is answered with the whole crush stream.** -/
theorem execute_unbounded : 0 < (Read.executeMessage.of executeOne.payload).maxRows ∧
    ¬dataRows (step crushing wholeTable (freeSlot, executeOne)).1 ≤
      (Read.executeMessage.of executeOne.payload).maxRows.toNat := by
  have hm : Executes [] executeOne := ⟨rfl, rfl⟩
  have hkind : (shapeOf (wholeTable.portal []).sql).kind = .select := by decide +kernel
  have hcrushed : Crushed crushing (freeSlot.slot 0) (shapeOf (wholeTable.portal []).sql) :=
    ⟨⟨⟨true, true, true⟩, by decide +kernel⟩, rfl, rfl⟩
  rw [step_execute hm rfl hkind, dataRows_crushed hcrushed]
  decide

end EtherealDb.Pg
