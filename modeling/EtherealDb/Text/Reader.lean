import EtherealDb.Text.Wire
import Mathlib.Tactic.NormNum
import Mathlib.Tactic.Positivity
import Mathlib.Tactic.Zify

/-!
# Reading bytes

Readers of fixed-width integers, of blocks and of NUL-terminated texts. A reader returns
what it read and the bytes after it, or `none` where the bytes run out.

* `ofBe_be`: an integer in network order is read back modulo its width.
* `takeN_append`, `readNat_be`, `readInt_be_of_lt`, `takeNul_append`: each reader undoes its
  writer, whatever follows.
* `toEnd_flatMap`: so does a reader of many items; `sum_le_of_toEnd` bounds them by their bytes.
* `eq_of_readInt`: what an integer is read from is its encoding.
-/

namespace EtherealDb

/-! ## Integers -/

/-- The value of bytes in network order. -/
def ofBe (l : Bytes) : ℕ := l.foldl (fun v b => v * 256 + b.toNat) 0

theorem ofBe_concat (l : Bytes) (b : UInt8) : ofBe (l ++ [b]) = ofBe l * 256 + b.toNat := by
  simp [ofBe]

theorem ofBe_be (w n : ℕ) : ofBe (be w n) = n % 256 ^ w := by
  induction w generalizing n with
  | zero => rw [Nat.pow_zero, Nat.mod_one]; rfl
  | succ w ih =>
    have hb : (UInt8.ofNat n).toNat = n % 256 := UInt8.toNat_ofNat'
    rw [be, ofBe_concat, ih, hb, Nat.pow_succ', Nat.mod_mul]
    omega

theorem ofBe_be_of_lt {w n : ℕ} (h : n < 256 ^ w) : ofBe (be w n) = n := by
  rw [ofBe_be, Nat.mod_eq_of_lt h]

/-- The value of bytes in network order, in two's complement. -/
def ofBeInt (l : Bytes) : ℤ := (ofBe l : ℤ).bmod (256 ^ l.length)

/-- **A signed integer is read back** when its width holds it. -/
theorem ofBeInt_beInt {w : ℕ} {x : ℤ} (hw : 0 < w) (hlo : -(2 ^ (8 * w - 1)) ≤ x)
    (hhi : x < 2 ^ (8 * w - 1)) : ofBeInt (beInt w x) = x := by
  have hpow : (256 : ℤ) ^ w = 2 * 2 ^ (8 * w - 1) := by
    rw [show (256 : ℤ) = 2 ^ 8 by norm_num, ← pow_mul, ← pow_succ']
    congr 1
    omega
  have hpos : (0 : ℤ) < 256 ^ w := by rw [hpow]; positivity
  have hval : ((x % 256 ^ w).toNat : ℤ) = x % 256 ^ w :=
    Int.toNat_of_nonneg (Int.emod_nonneg _ hpos.ne')
  have hlt : (x % 256 ^ w).toNat < 256 ^ w := by
    have := Int.emod_lt_of_pos x hpos
    zify
    rwa [hval]
  rw [ofBeInt, beInt, length_be, ofBe_be_of_lt hlt, hval]
  have hcast : ((256 ^ w : ℕ) : ℤ) = 256 ^ w := by push_cast; rfl
  rw [← hcast, Int.emod_bmod]
  apply Int.bmod_eq_of_le
  · rw [hcast]; omega
  · rw [hcast]; omega

/-! ## Blocks -/

/-- The first `n` bytes. -/
def takeN (n : ℕ) (s : Bytes) : Option (Bytes × Bytes) :=
  if n ≤ s.length then some (s.take n, s.drop n) else none

theorem takeN_append (a s : Bytes) : takeN a.length (a ++ s) = some (a, s) := by
  unfold takeN
  rw [if_pos (by simp), List.take_left, List.drop_left]

theorem takeN_of_length {n : ℕ} {a : Bytes} (h : a.length = n) (s : Bytes) :
    takeN n (a ++ s) = some (a, s) := by
  rw [← h]
  exact takeN_append a s

theorem takeN_eq_some {n : ℕ} {s a r : Bytes} (h : takeN n s = some (a, r)) :
    s = a ++ r ∧ a.length = n := by
  unfold takeN at h
  split_ifs at h with hn
  obtain ⟨rfl, rfl⟩ := Prod.mk.inj (Option.some.inj h)
  exact ⟨(List.take_append_drop n s).symm, by rw [List.length_take]; omega⟩

/-- An integer of `w` bytes. -/
def readNat (w : ℕ) (s : Bytes) : Option (ℕ × Bytes) := (takeN w s).map fun p => (ofBe p.1, p.2)

theorem readNat_of_length {w : ℕ} {a : Bytes} (h : a.length = w) (s : Bytes) :
    readNat w (a ++ s) = some (ofBe a, s) := by
  rw [readNat, takeN_of_length h]
  rfl

theorem readNat_be {w n : ℕ} (h : n < 256 ^ w) (s : Bytes) :
    readNat w (be w n ++ s) = some (n, s) := by
  rw [readNat_of_length (length_be w n), ofBe_be_of_lt h]

/-- A signed integer of `w` bytes. -/
def readInt (w : ℕ) (s : Bytes) : Option (ℤ × Bytes) :=
  (takeN w s).map fun p => (ofBeInt p.1, p.2)

theorem readInt_of_length {w : ℕ} {a : Bytes} (h : a.length = w) (s : Bytes) :
    readInt w (a ++ s) = some (ofBeInt a, s) := by
  rw [readInt, takeN_of_length h]
  rfl

/-- A number read as a signed integer wraps around. -/
theorem readInt_be (w n : ℕ) (s : Bytes) :
    readInt w (be w n ++ s) = some ((n : ℤ).bmod (256 ^ w), s) := by
  have hval : ofBeInt (be w n) = (n : ℤ).bmod (256 ^ w) := by
    rw [ofBeInt, length_be, ofBe_be, Int.natCast_mod, Int.emod_bmod]
  rw [readInt_of_length (length_be w n), hval]

/-- Unless the width holds it with its sign. -/
theorem readInt_be_of_lt {w n : ℕ} (h : 2 * n < 256 ^ w) (s : Bytes) :
    readInt w (be w n ++ s) = some ((n : ℤ), s) := by
  have hmod : (n : ℤ).bmod (256 ^ w) = n := by
    apply Int.bmod_eq_of_le
    · omega
    · omega
  rw [readInt_be, hmod]

/-! Reading is the inverse of writing, too. -/

theorem ofBe_lt (l : Bytes) : ofBe l < 256 ^ l.length := by
  induction l using List.reverseRecOn with
  | nil => decide
  | append_singleton l b ih =>
    have hb := b.toNat_lt
    rw [ofBe_concat, List.length_append, List.length_singleton, Nat.pow_succ]
    omega

/-- **Bytes are the encoding of their value.** -/
theorem be_ofBe (l : Bytes) : be l.length (ofBe l) = l := by
  induction l using List.reverseRecOn with
  | nil => rfl
  | append_singleton l b ih =>
    have hb := b.toNat_lt
    have hdiv : (ofBe l * 256 + b.toNat) / 256 = ofBe l := by omega
    have hlow : UInt8.ofNat (ofBe l * 256 + b.toNat) = b := by
      apply UInt8.toNat_inj.1
      rw [UInt8.toNat_ofNat']
      omega
    rw [ofBe_concat, List.length_append, List.length_singleton, be, hdiv, ih, hlow]

theorem beInt_ofBeInt (l : Bytes) : beInt l.length (ofBeInt l) = l := by
  have hmod : ofBeInt l % 256 ^ l.length = ofBe l := by
    have hcast : ((256 ^ l.length : ℕ) : ℤ) = 256 ^ l.length := by push_cast; rfl
    rw [ofBeInt, ← hcast, Int.bmod_emod]
    exact Int.emod_eq_of_lt (Int.natCast_nonneg _) (by exact_mod_cast ofBe_lt l)
  rw [beInt, hmod, Int.toNat_natCast, be_ofBe]

/-- What a signed integer is read from is its encoding. -/
theorem eq_of_readInt {w : ℕ} {x : ℤ} {s r : Bytes} (h : readInt w s = some (x, r)) :
    s = beInt w x ++ r := by
  obtain ⟨⟨a, r'⟩, htake, he⟩ := Option.map_eq_some_iff.1 h
  obtain ⟨rfl, rfl⟩ := Prod.mk.inj he
  obtain ⟨rfl, rfl⟩ := takeN_eq_some htake
  rw [beInt_ofBeInt]

theorem readInt_beInt {w : ℕ} {x : ℤ} (hw : 0 < w) (hlo : -(2 ^ (8 * w - 1)) ≤ x)
    (hhi : x < 2 ^ (8 * w - 1)) (s : Bytes) : readInt w (beInt w x ++ s) = some (x, s) := by
  rw [readInt_of_length (length_beInt w x), ofBeInt_beInt hw hlo hhi]
/-! ## Items to the end -/

/-- The items of a byte string to its end, at most so many. -/
def toEndFrom {α : Type} (p : Bytes → Option (α × Bytes)) : ℕ → Bytes → Option (List α)
  | _, [] => some []
  | 0, _ => none
  | fuel + 1, s => (p s).bind fun a => (toEndFrom p fuel a.2).map fun l => a.1 :: l

/-- The items of a byte string, each of a byte or more. -/
def toEnd {α : Type} (p : Bytes → Option (α × Bytes)) (s : Bytes) : Option (List α) :=
  toEndFrom p s.length s

/-- **Items that are read back one by one are read back to the end**, up to what the reader makes of
each. -/
theorem toEnd_flatMap {α β : Type} {p : Bytes → Option (α × Bytes)} {e : β → Bytes} (f : β → α)
    {l : List β} (h : ∀ b ∈ l, ∀ s, p (e b ++ s) = some (f b, s)) (hne : ∀ b ∈ l, e b ≠ []) :
    toEnd p (l.flatMap e) = some (l.map f) := by
  have hfrom : ∀ fuel, (l.flatMap e).length ≤ fuel →
      toEndFrom p fuel (l.flatMap e) = some (l.map f) := by
    induction l with
    | nil => intro fuel _; cases fuel <;> rfl
    | cons a l ih =>
      intro fuel hfuel
      have hpos : 0 < (e a).length := List.length_pos_iff.2 (hne a (by simp))
      rw [List.flatMap_cons, List.length_append] at hfuel
      cases fuel with
      | zero => omega
      | succ fuel =>
        have hrest := ih (fun b hb => h b (by simp [hb])) (fun b hb => hne b (by simp [hb])) fuel
          (by omega)
        have hcons : e a ++ l.flatMap e ≠ [] := by
          intro he
          have hzero := congrArg List.length he
          rw [List.length_append, List.length_nil] at hzero
          omega
        rw [List.flatMap_cons, toEndFrom.eq_3 _ _ _ hcons, h a (by simp), Option.bind_some, hrest]
        rfl
  exact hfrom _ le_rfl

/-- **Items take no more bytes than there are.** -/
theorem sum_le_of_toEnd {α : Type} {p : Bytes → Option (α × Bytes)} {size : α → ℕ}
    (h : ∀ s a r, p s = some (a, r) → size a + r.length ≤ s.length) {s : Bytes} {l : List α}
    (hl : toEnd p s = some l) : (l.map size).sum ≤ s.length := by
  have hfrom : ∀ fuel s l, toEndFrom p fuel s = some l → (l.map size).sum ≤ s.length := by
    intro fuel
    induction fuel with
    | zero =>
      intro s l hl
      cases s with
      | nil =>
        obtain rfl := Option.some.inj hl
        exact Nat.zero_le _
      | cons b s => cases hl
    | succ fuel ih =>
      intro s l hl
      cases s with
      | nil =>
        obtain rfl := Option.some.inj hl
        exact Nat.zero_le _
      | cons b s =>
        obtain ⟨⟨a, r⟩, ha, hmap⟩ := Option.bind_eq_some_iff.1 hl
        obtain ⟨rest, hrest, rfl⟩ := Option.map_eq_some_iff.1 hmap
        have hone := h _ _ _ ha
        have hmore := ih _ _ hrest
        rw [List.map_cons, List.sum_cons]
        dsimp only at hmore ⊢
        omega
  exact hfrom _ _ _ hl

/-! ## NUL-terminated texts -/

/-- The bytes before the first NUL, and those after it. -/
def takeNul : Bytes → Option (Bytes × Bytes)
  | [] => none
  | b :: s => if b = 0 then some ([], s) else (takeNul s).map fun p => (b :: p.1, p.2)

theorem takeNul_append {a : Bytes} (h : 0 ∉ a) (s : Bytes) :
    takeNul (a ++ 0 :: s) = some (a, s) := by
  induction a with
  | nil => rfl
  | cons b a ih =>
    rw [List.mem_cons, not_or] at h
    rw [List.cons_append, takeNul, if_neg (Ne.symm h.1), ih h.2]
    rfl

/-- What is read holds no NUL. -/
theorem takeNul_some {s a r : Bytes} (h : takeNul s = some (a, r)) : 0 ∉ a := by
  induction s generalizing a with
  | nil => cases h
  | cons b s ih =>
    rw [takeNul] at h
    by_cases hb : b = 0
    · rw [if_pos hb] at h
      obtain ⟨rfl, -⟩ := Prod.mk.inj (Option.some.inj h)
      exact List.not_mem_nil
    · rw [if_neg hb] at h
      obtain ⟨⟨a', r'⟩, hp, he⟩ := Option.map_eq_some_iff.1 h
      obtain ⟨rfl, rfl⟩ := Prod.mk.inj he
      rw [List.mem_cons, not_or]
      exact ⟨Ne.symm hb, ih hp⟩

end EtherealDb
