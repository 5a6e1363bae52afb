import EtherealDb.Proof.PgAnswer
import EtherealDb.Proof.PgReader

/-!
# Bind messages

A Bind message has three lists under counts of 16 bits. The reader takes a count for a
signed number, and a negative one for zero.

* `eats_bind`: readers that take chunks off a payload, one after another.
* `eats_count`, `count_long`: what a count is read as.
* `stored_of_short`: a message whose lists are short is stored as it was sent.
* `not_stored_longFormats` and its siblings: for each list, a long one that is not.
* `bind_stores_iff`: **messages with lists of these lengths are stored as they were sent exactly
  when no list has more than 32767 entries.**
-/

namespace EtherealDb.Pg

variable {C : Crates}

/-! ## Messages -/

/-- **The fields of a Bind message**, names as bytes, a parameter as its value or NULL. -/
structure BindWire where
  portal : Bytes
  stmt : Bytes
  paramFormats : List Int16
  params : List (Option Bytes)
  resultFormats : List Int16

/-- Format codes. -/
def encodeCodes (l : List Int16) : Bytes := l.flatMap fun x => beInt 2 x.toInt

@[simp] theorem encodeCodes_nil : encodeCodes [] = [] := rfl

@[simp] theorem encodeCodes_cons (x : Int16) (l : List Int16) :
    encodeCodes (x :: l) = beInt 2 x.toInt ++ encodeCodes l := List.flatMap_cons

/-- A list of format codes under its count. -/
def encodeFormats (l : List Int16) : Bytes := be 2 l.length ++ encodeCodes l

/-- A parameter under its length, which is -1 for NULL. -/
def encodeParam : Option Bytes → Bytes
  | none => beInt 4 (-1)
  | some v => beInt 4 v.length ++ v

namespace BindWire

/-- The payload of a Bind message. -/
def encode (w : BindWire) : Bytes :=
  (w.portal ++ [0]) ++ ((w.stmt ++ [0]) ++ (encodeFormats w.paramFormats ++
    (be 2 w.params.length ++ w.params.flatMap encodeParam ++ encodeFormats w.resultFormats)))

/-- **A message as the protocol allows it**, in a payload that a slice can hold. -/
structure WellFormed (w : BindWire) : Prop where
  portal : 0 ∉ w.portal
  stmt : 0 ∉ w.stmt
  size : ∀ v, some v ∈ w.params → v.length < 2 ^ 31
  fits : w.encode.length ≤ isizeMax

/-- **The handler stores** under the portal's name the text of the statement and the result
format codes of the message. -/
def Stored (C : Crates) (w : BindWire) : Prop :=
  ∀ (cfg : Config) (o : Outcome C) (s : Session), ∃ out s',
    dispatch cfg o s ⟨66, w.encode⟩ = some (out, s') ∧
      s'.portals (Utf8.fromUtf8Lossy w.portal) = some
        ⟨(s.statements (Utf8.fromUtf8Lossy w.stmt)).getD [], w.resultFormats.map Int16.toInt⟩

end BindWire

/-! ## Reading chunks -/

/-- **A reader that takes a chunk** off a payload, wherever it stands in one. -/
def Eats {α : Type} (x : Read α) (c : Bytes) (v : α) : Prop :=
  ∀ pre s : Bytes, (pre ++ c ++ s).length < 2 ^ 64 →
    x.run ⟨pre ++ c ++ s, pre.length⟩ = (v, ⟨pre ++ c ++ s, (pre ++ c).length⟩)

theorem eats_pure {α : Type} (v : α) : Eats (pure v) [] v := by
  intro pre s _
  rw [List.append_nil]
  rfl

/-- **Readers take their chunks one after another.** -/
theorem eats_bind {α β : Type} {x : Read α} {f : α → Read β} {c d : Bytes} {v : α} {w : β}
    (hx : Eats x c v) (hf : Eats (f v) d w) : Eats (x >>= f) (c ++ d) w := by
  intro pre s hlen
  have hfirst := hx pre (d ++ s) (by simpa [Nat.add_assoc] using hlen)
  have hsecond := hf (pre ++ c) s (by simpa [Nat.add_assoc] using hlen)
  simp only [List.append_assoc] at hfirst hsecond hlen ⊢
  rw [StateT.run_bind, hfirst]
  exact hsecond

/-- What is done with a value takes nothing. -/
theorem eats_return {α β : Type} {x : Read α} {c : Bytes} {v : α} (hx : Eats x c v) (f : α → β) :
    Eats (x >>= fun a => pure (f a)) c (f v) := by
  have h := eats_bind (f := fun a => pure (f a)) hx (eats_pure (f v))
  rwa [List.append_nil] at h

theorem eats_u8 (b : UInt8) : Eats Read.u8 [b] b := by
  intro pre s _
  have hget : (pre ++ [b] ++ s)[pre.length]? = some b := by simp
  have hrun : Read.u8.run ⟨pre ++ [b] ++ s, pre.length⟩ =
      ((pre ++ [b] ++ s)[pre.length]?.getD 0, ⟨pre ++ [b] ++ s, pre.length + 1⟩) := rfl
  rw [hrun, hget]
  simp

theorem eats_i16 (x y : UInt8) : Eats Read.i16 [x, y] (ofBeInt [x, y]) := by
  rw [← Reader.signed_two]
  exact eats_bind (eats_u8 x) (eats_bind (eats_u8 y) (eats_pure _))

theorem eats_i32 (x y z w : UInt8) : Eats Read.i32 [x, y, z, w] (ofBeInt [x, y, z, w]) := by
  rw [← Reader.signed_four]
  exact eats_bind (eats_u8 x) (eats_bind (eats_u8 y) (eats_bind (eats_u8 z)
    (eats_bind (eats_u8 w) (eats_pure _))))

theorem eats_cstr {t : Bytes} (h : 0 ∉ t) : Eats Read.cstr (t ++ [0]) (Utf8.fromUtf8Lossy t) := by
  intro pre s _
  set b := pre ++ (t ++ [0]) ++ s with hb
  have hlen : b.length = pre.length + t.length + 1 + s.length := by
    simp [hb]
    omega
  have hdrop : b.drop (min pre.length b.length) = t ++ 0 :: s := by
    rw [Nat.min_eq_left (by omega), hb]
    simp
  have htext : (t ++ 0 :: s).takeWhile (· ≠ 0) = t := by
    have hall : ∀ c ∈ t, decide (c ≠ 0) = true := by
      intro c hc
      rw [decide_eq_true_eq]
      rintro rfl
      exact h hc
    rw [List.takeWhile_append_of_pos hall, List.takeWhile_cons_of_neg (by simp), List.append_nil]
  have hrun : Read.cstr.run ⟨b, pre.length⟩ =
      (Utf8.fromUtf8Lossy ((b.drop (min pre.length b.length)).takeWhile (· ≠ 0)), ⟨b, min
        (min pre.length b.length + ((b.drop (min pre.length b.length)).takeWhile (· ≠ 0)).length + 1)
        (b.length + 1)⟩) := rfl
  rw [hrun, hdrop, htext]
  have hpos : min (min pre.length b.length + t.length + 1) (b.length + 1) =
      (pre ++ (t ++ [0])).length := by
    simp only [List.length_append, List.length_singleton]
    omega
  rw [hpos]

theorem eats_skip {v : Bytes} : Eats (Read.skip v.length) v () := by
  intro pre s hlen
  have hmin : min (pre.length + v.length) (2 ^ 64 - 1) = (pre ++ v).length := by
    simp only [List.length_append] at hlen ⊢
    omega
  rw [← hmin]
  rfl

/-- A loop takes the chunks of its rounds. -/
theorem eats_times {α β : Type} {x : Read β} {c : α → Bytes} {v : α → β} {l : List α}
    (h : ∀ a ∈ l, Eats x (c a) (v a)) : Eats (Read.times x l.length) (l.flatMap c) (l.map v) := by
  induction l with
  | nil => exact eats_pure []
  | cons a l ih =>
    exact eats_bind (h a (by simp))
      (eats_return (ih fun b hb => h b (by simp [hb])) fun vs => v a :: vs)

/-! ## Counts, codes and parameters -/

theorem eats_two {l : Bytes} (h : l.length = 2) : Eats Read.i16 l (ofBeInt l) := by
  match l with
  | [x, y] => exact eats_i16 x y

theorem eats_four {l : Bytes} (h : l.length = 4) : Eats Read.i32 l (ofBeInt l) := by
  match l with
  | [x, y, z, w] => exact eats_i32 x y z w

/-- **A count is read as a signed number.** -/
theorem eats_count (n : ℕ) : Eats Read.i16 (be 2 n) ((n : ℤ).bmod (256 ^ 2)) := by
  have hval : ofBeInt (be 2 n) = (n : ℤ).bmod (256 ^ 2) := by
    rw [ofBeInt, length_be, ofBe_be, Int.natCast_mod, Int.emod_bmod]
  rw [← hval]
  exact eats_two (length_be 2 n)

theorem count_short {n : ℕ} (h : n < 2 ^ 15) : ((n : ℤ).bmod (256 ^ 2)).toNat = n := by
  rw [Int.bmod_def]
  split_ifs <;> omega

/-- A count from `2^15` on is read as a negative number, and taken for zero. -/
theorem count_long {n : ℕ} (h : 2 ^ 15 ≤ n) (hn : n < 2 ^ 16) :
    ((n : ℤ).bmod (256 ^ 2)).toNat = 0 := by
  rw [Int.bmod_def]
  split_ifs <;> omega

theorem eats_format (x : Int16) : Eats Read.i16 (beInt 2 x.toInt) x.toInt := by
  have h := eats_two (length_beInt 2 x.toInt)
  rwa [ofBeInt_beInt (by decide) x.le_toInt x.toInt_lt] at h

theorem eats_param {o : Option Bytes} (h : ∀ v ∈ o, v.length < 2 ^ 31) :
    Eats Read.param (encodeParam o) () := by
  cases o with
  | none =>
    have hlen := eats_four (length_beInt 4 (-1))
    rw [ofBeInt_beInt (by decide) (by decide) (by decide)] at hlen
    have hnone : Eats (if (0 : ℤ) < -1 then Read.skip (-1 : ℤ).toNat else pure ()) [] () := eats_pure ()
    have hread := eats_bind (f := fun n => if 0 < n then Read.skip n.toNat else pure ()) hlen hnone
    rwa [List.append_nil] at hread
  | some v =>
    have hv := h v rfl
    have hlen := eats_four (length_beInt 4 v.length)
    rw [ofBeInt_beInt (by decide) (by omega) (by omega)] at hlen
    refine eats_bind hlen ?_
    by_cases hpos : (0 : ℤ) < v.length
    · rw [if_pos hpos, Int.toNat_natCast]
      exact eats_skip
    · rw [if_neg hpos]
      obtain rfl : v = [] := List.eq_nil_of_length_eq_zero (by omega)
      exact eats_pure ()

theorem eats_formats {l : List Int16} :
    Eats (Read.times Read.i16 l.length) (encodeCodes l) (l.map Int16.toInt) :=
  eats_times fun x _ => eats_format x

theorem eats_params {l : List (Option Bytes)} (h : ∀ v, some v ∈ l → v.length < 2 ^ 31) :
    Eats (Read.times Read.param l.length) (l.flatMap encodeParam) (l.map fun _ => ()) :=
  eats_times fun _ ho => eats_param fun v hv => h v (by rwa [← Option.mem_def.1 hv])

/-! ## Messages -/

/-- **The chunks of a Bind message**: two names, and three lists under their counts, as far as
these are read. -/
theorem eats_bindMessage {portal stmt k m n ks ms ns : Bytes} {i j l : ℤ} {is ls : List ℤ}
    {js : List Unit} (hp : 0 ∉ portal) (hs : 0 ∉ stmt)
    (hk : Eats Read.i16 k i) (hks : Eats (Read.times Read.i16 i.toNat) ks is)
    (hm : Eats Read.i16 m j) (hms : Eats (Read.times Read.param j.toNat) ms js)
    (hn : Eats Read.i16 n l) (hns : Eats (Read.times Read.i16 l.toNat) ns ls) :
    Eats Read.bindMessage
      ((portal ++ [0]) ++ ((stmt ++ [0]) ++ (k ++ (ks ++ (m ++ (ms ++ (n ++ ns)))))))
      ⟨Utf8.fromUtf8Lossy portal, Utf8.fromUtf8Lossy stmt, ls⟩ :=
  eats_bind (eats_cstr hp) (eats_bind (eats_cstr hs) (eats_bind hk (eats_bind hks (eats_bind hm
    (eats_bind hms (eats_bind hn (eats_return hns (BindMessage.mk _ _))))))))

theorem of_eats {α : Type} {x : Read α} {c : Bytes} {v : α} (h : Eats x c v) {s payload : Bytes}
    (hpayload : payload = c ++ s) (hlen : payload.length ≤ isizeMax) : x.of payload = v := by
  subst hpayload
  have hrun := h [] s (by simp only [isizeMax] at hlen; simp only [List.nil_append]; omega)
  rw [List.nil_append] at hrun
  exact congrArg Prod.fst hrun

namespace BindWire

variable {w : BindWire}

/-- What the reader makes of the format codes decides. -/
theorem stored_iff {l : List ℤ} (h : Read.bindMessage.of w.encode =
    ⟨Utf8.fromUtf8Lossy w.portal, Utf8.fromUtf8Lossy w.stmt, l⟩) :
    w.Stored C ↔ l = w.resultFormats.map Int16.toInt := by
  have hdispatch : ∀ (cfg : Config) (o : Outcome C) (s : Session),
      dispatch cfg o s ⟨66, w.encode⟩ =
        some (Out.new.put .bindComplete, s.bind (Read.bindMessage.of w.encode)) :=
    fun cfg o s => dispatch_bind rfl
  constructor
  · intro hstored
    obtain ⟨out, s', hrun, hportal⟩ :=
      hstored .default ⟨0, 0, 0, 0, fun _ => false, fun _ => C.seedFromU64 0⟩ .new
    rw [hdispatch, h] at hrun
    obtain ⟨-, rfl⟩ := Prod.mk.inj (Option.some.inj hrun)
    simp only [Session.bind, Function.update_self, Option.some.injEq, Portal.mk.injEq] at hportal
    exact hportal.2
  · rintro rfl cfg o s
    refine ⟨_, _, hdispatch cfg o s, ?_⟩
    rw [h]
    simp [Session.bind]

/-- **A message whose lists are short is stored as it was sent.** -/
theorem stored_of_short (h : w.WellFormed) (hf : w.paramFormats.length < 2 ^ 15)
    (hp : w.params.length < 2 ^ 15) (hr : w.resultFormats.length < 2 ^ 15) : w.Stored C := by
  have hks := eats_formats (l := w.paramFormats)
  have hms := eats_params h.size
  have hns := eats_formats (l := w.resultFormats)
  rw [← count_short hf] at hks
  rw [← count_short hp] at hms
  rw [← count_short hr] at hns
  have hread := eats_bindMessage h.portal h.stmt (eats_count _) hks (eats_count _) hms
    (eats_count _) hns
  refine (stored_iff (of_eats hread (s := []) ?_ h.fits)).2 rfl
  simp only [encode, encodeFormats, List.append_assoc, List.append_nil]

/-! ## Long lists -/

theorem length_params {l : List (Option Bytes)} {k : ℕ} (h : ∀ o ∈ l, (encodeParam o).length ≤ k) :
    (l.flatMap encodeParam).length ≤ l.length * k := by
  rw [List.length_flatMap]
  exact (List.sum_le_card_nsmul _ k (by simpa using h)).trans_eq (by simp)

theorem length_formats (l : List Int16) : (encodeFormats l).length = 2 + 2 * l.length := by
  have hsum : (encodeCodes l).length = 2 * l.length := by
    rw [encodeCodes, List.length_flatMap]
    simp [Nat.mul_comm]
  rw [encodeFormats, List.length_append, length_be, hsum]

/-- A message without names, of lists that a count of 16 bits counts. -/
theorem wellFormed_of {fs rs : List Int16} {ps : List (Option Bytes)} (hf : fs.length < 2 ^ 16)
    (hp : ps.length < 2 ^ 16) (hr : rs.length < 2 ^ 16) (hps : ∀ v, some v ∈ ps → v.length ≤ 2 ^ 17) :
    WellFormed ⟨[], [], fs, ps, rs⟩ := by
  refine ⟨by simp, by simp, fun v hv => (hps v hv).trans_lt (by decide), ?_⟩
  have hparams := length_params (l := ps) (k := 2 ^ 18) ?_
  · simp only [encode, List.length_append, length_formats, length_be, isizeMax, List.length_nil,
      List.length_singleton]
    omega
  · intro o ho
    cases o with
    | none => simp [encodeParam]
    | some v =>
      have hv := hps v ho
      simp only [encodeParam, List.length_append, length_beInt]
      omega

/-- **Many parameter codes**: the first code is taken for the number of parameters, the second
for that of result codes, and the third for one of these. -/
def longFormats (f p r : ℕ) : BindWire :=
  ⟨[], [], 0 :: 1 :: 5 :: List.replicate (f - 3) 0, List.replicate p none, List.replicate r 0⟩

/-- A value whose length, as four bytes, holds a one and a five. -/
def longValue : Bytes := List.replicate 65541 0

theorem length_longValue : longValue.length = 65541 := List.length_replicate

/-- **Many parameters**: the length of the first is taken for the number of result codes and
one of these. -/
def longParams (f p r : ℕ) : BindWire :=
  ⟨[], [], List.replicate f 0, some longValue :: List.replicate (p - 1) none,
    List.replicate r 0⟩

/-- **Many result codes**: none of them is read. -/
def longResults (f p r : ℕ) : BindWire :=
  ⟨[], [], List.replicate f 0, List.replicate p none, List.replicate r 0⟩

variable {f p r : ℕ}

/-- Result codes that are all zero are not a code five. -/
theorem five_ne_zeros (r : ℕ) : [(5 : ℤ)] ≠ (List.replicate r (0 : Int16)).map Int16.toInt := by
  intro h
  rw [List.map_replicate] at h
  have hmem : (5 : ℤ) ∈ List.replicate r (Int16.toInt 0) := by rw [← h]; simp
  exact absurd (List.eq_of_mem_replicate hmem) (by decide)

theorem not_stored_longFormats (hf : 2 ^ 15 ≤ f) (hf' : f < 2 ^ 16) (hp : p < 2 ^ 16)
    (hr : r < 2 ^ 16) : (longFormats f p r).WellFormed ∧ ¬(longFormats f p r).Stored C := by
  have hcount : (longFormats f p r).paramFormats.length = f := by
    simp only [longFormats, List.length_cons, List.length_replicate]
    omega
  have hwf : (longFormats f p r).WellFormed :=
    wellFormed_of (by rw [← hcount] at hf'; exact hf') (by simpa) (by simpa) (by simp)
  have hnone : Eats (Read.times Read.i16 ((f : ℤ).bmod (256 ^ 2)).toNat) [] [] := by
    rw [count_long hf hf']
    exact eats_pure []
  have hparams : Eats (Read.times Read.param (Int16.toInt 0).toNat) [] [] := eats_pure []
  have hread := eats_bindMessage hwf.portal hwf.stmt (eats_count f) hnone (eats_format 0) hparams
    (eats_format 1) (eats_formats (l := [5]))
  refine ⟨hwf, fun hstored => five_ne_zeros r ?_⟩
  refine (stored_iff (of_eats hread (s := encodeCodes (List.replicate (f - 3) 0) ++
    (be 2 (longFormats f p r).params.length ++ (longFormats f p r).params.flatMap encodeParam ++
      encodeFormats (longFormats f p r).resultFormats)) ?_ hwf.fits)).1 hstored
  rw [encode, encodeFormats, hcount]
  simp only [longFormats, encodeCodes_cons, encodeCodes_nil, List.append_assoc, List.append_nil,
    List.nil_append]

theorem not_stored_longParams (hf : f < 2 ^ 15) (hp : 2 ^ 15 ≤ p) (hp' : p < 2 ^ 16)
    (hr : r < 2 ^ 16) : (longParams f p r).WellFormed ∧ ¬(longParams f p r).Stored C := by
  have hcount : (longParams f p r).params.length = p := by
    simp only [longParams, List.length_cons, List.length_replicate]
    omega
  have hwf : (longParams f p r).WellFormed := by
    refine wellFormed_of (by simp; omega) (by rw [← hcount] at hp'; exact hp') (by simpa) ?_
    intro v hv
    obtain rfl : v = longValue := by simpa [longParams] using hv
    rw [length_longValue]
    decide
  have hnone : Eats (Read.times Read.param ((p : ℤ).bmod (256 ^ 2)).toNat) [] [] := by
    rw [count_long hp hp']
    exact eats_pure []
  have hks := eats_formats (l := (longParams f p r).paramFormats)
  rw [← count_short (n := (longParams f p r).paramFormats.length) (by simpa [longParams])] at hks
  have hread := eats_bindMessage hwf.portal hwf.stmt (eats_count _) hks (eats_count p) hnone
    (eats_format 1) (eats_formats (l := [5]))
  refine ⟨hwf, fun hstored => five_ne_zeros r ?_⟩
  refine (stored_iff (of_eats hread (s := longValue ++
    (List.replicate (p - 1) none).flatMap encodeParam ++
      encodeFormats (longParams f p r).resultFormats) ?_ hwf.fits)).1 hstored
  -- the length is `0x00010005`
  have hlen : encodeParam (some longValue) =
      beInt 2 (Int16.toInt 1) ++ beInt 2 (Int16.toInt 5) ++ longValue := by
    rw [encodeParam, length_longValue]
    exact congrArg (· ++ longValue) (by decide)
  rw [encode, encodeFormats, hcount]
  simp only [longParams, List.flatMap_cons, encodeCodes_cons, encodeCodes_nil, hlen,
    List.append_assoc, List.append_nil, List.nil_append]

theorem not_stored_longResults (hf : f < 2 ^ 15) (hp : p < 2 ^ 15) (hr : 2 ^ 15 ≤ r)
    (hr' : r < 2 ^ 16) : (longResults f p r).WellFormed ∧ ¬(longResults f p r).Stored C := by
  have hwf : (longResults f p r).WellFormed :=
    wellFormed_of (by simp; omega) (by simp; omega) (by simpa) (by simp)
  have hnone : Eats (Read.times Read.i16 ((r : ℤ).bmod (256 ^ 2)).toNat) [] [] := by
    rw [count_long hr hr']
    exact eats_pure []
  have hks := eats_formats (l := (longResults f p r).paramFormats)
  rw [← count_short (n := (longResults f p r).paramFormats.length) (by simpa [longResults])] at hks
  have hms := eats_params hwf.size
  rw [← count_short (n := (longResults f p r).params.length) (by simpa [longResults])] at hms
  have hread := eats_bindMessage hwf.portal hwf.stmt (eats_count _) hks (eats_count _) hms
    (eats_count r) hnone
  refine ⟨hwf, fun hstored => ?_⟩
  have hnil := (stored_iff (of_eats hread (s := encodeCodes (List.replicate r 0)) ?_
    hwf.fits)).1 hstored
  · rw [longResults, List.map_replicate] at hnil
    have hlen := congrArg List.length hnil
    simp only [List.length_nil, List.length_replicate] at hlen
    omega
  · have hcount : (longResults f p r).resultFormats.length = r := List.length_replicate
    simp only [encode, encodeFormats, hcount, List.append_assoc, List.append_nil]
    rfl

end BindWire

/-- **Bind messages with lists of given lengths are stored as they were sent, whatever is in
them, exactly when no list has more than 32767 entries.** -/
theorem bind_stores_iff (f p r : UInt16) :
    (∀ w : BindWire, w.WellFormed → w.paramFormats.length = f.toNat → w.params.length = p.toNat →
      w.resultFormats.length = r.toNat → w.Stored C) ↔
      f.toNat < 2 ^ 15 ∧ p.toNat < 2 ^ 15 ∧ r.toNat < 2 ^ 15 := by
  have hf := f.toNat_lt
  have hp := p.toNat_lt
  have hr := r.toNat_lt
  constructor
  · intro h
    by_contra hlong
    by_cases hfs : f.toNat < 2 ^ 15
    · by_cases hps : p.toNat < 2 ^ 15
      · obtain ⟨hwf, hno⟩ := BindWire.not_stored_longResults (C := C) hfs hps (by omega) hr
        exact hno (h _ hwf List.length_replicate List.length_replicate List.length_replicate)
      · obtain ⟨hwf, hno⟩ := BindWire.not_stored_longParams (C := C) hfs (by omega) hp hr
        refine hno (h _ hwf List.length_replicate ?_ List.length_replicate)
        simp only [BindWire.longParams, List.length_cons, List.length_replicate]
        omega
    · obtain ⟨hwf, hno⟩ := BindWire.not_stored_longFormats (C := C) (by omega) hf hp hr
      refine hno (h _ hwf ?_ List.length_replicate List.length_replicate)
      simp only [BindWire.longFormats, List.length_cons, List.length_replicate]
      omega
  · rintro ⟨hfs, hps, hrs⟩ w hwf hfw hpw hrw
    exact BindWire.stored_of_short hwf (by omega) (by omega) (by omega)

/-- **32768 result format codes are stored as none.** -/
theorem bind_forgets_codes : (BindWire.longResults 0 0 32768).WellFormed ∧
    ¬(BindWire.longResults 0 0 32768).Stored .least :=
  BindWire.not_stored_longResults (by decide) (by decide) (by decide) (by decide)

end EtherealDb.Pg
