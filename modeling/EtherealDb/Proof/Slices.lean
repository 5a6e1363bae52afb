import EtherealDb.Proof.Extract
import EtherealDb.Proof.Params

/-!
# No scanner slices out of bounds

Offsets that one scanner computes are used to slice in another. Each is the length of a
prefix of the text, so a slice between two of them is in bounds.

* `slice_isSome_iff`: when a slice panics.
* `scanners_never_panic`: **no slice of the scanners does, on any text.**
-/

namespace EtherealDb

open Str

variable {s : Str} {i j : ℕ}

/-! ## When a slice panics -/

theorem splitAt?_isSome_iff : (splitAt? s i).isSome ↔ Boundary s i := by
  rw [Option.isSome_iff_exists]
  constructor
  · rintro ⟨⟨p, q⟩, h⟩
    obtain ⟨hs, hp⟩ := splitAt?_eq_some.1 h
    exact ⟨p, q, hs, hp⟩
  · rintro ⟨p, q, hs, hp⟩
    exact ⟨(p, q), splitAt?_eq_some.2 ⟨hs, hp⟩⟩

theorem sliceFrom_isSome_iff : (sliceFrom s i).isSome ↔ Boundary s i := by
  rw [sliceFrom, Option.isSome_map, splitAt?_isSome_iff]

theorem sliceTo_isSome_iff : (sliceTo s i).isSome ↔ Boundary s i := by
  rw [sliceTo, Option.isSome_map, splitAt?_isSome_iff]

theorem Boundary.le_len (h : Boundary s i) : i ≤ len s := by
  obtain ⟨p, q, rfl, rfl⟩ := h
  rw [len_append]
  exact Nat.le_add_right _ _

/-- **A slice panics** unless its ends are boundaries in order. -/
theorem slice_isSome_iff :
    (slice s i j).isSome ↔ i ≤ j ∧ j ≤ len s ∧ Boundary s i ∧ Boundary s j := by
  constructor
  · intro h
    obtain ⟨t, ht⟩ := Option.isSome_iff_exists.1 h
    unfold slice at ht
    split at ht
    · rename_i hij
      obtain ⟨rest, hrest, hto⟩ := Option.bind_eq_some_iff.1 ht
      obtain ⟨⟨p, q⟩, hp, rfl⟩ := Option.map_eq_some_iff.1 hrest
      obtain ⟨⟨u, v⟩, hu, rfl⟩ := Option.map_eq_some_iff.1 hto
      obtain ⟨hs, hpi⟩ := splitAt?_eq_some.1 hp
      obtain ⟨hq, huj⟩ := splitAt?_eq_some.1 hu
      -- the two parts up to the second end make a prefix
      have hj : Boundary s j := by
        refine ⟨p ++ u, v, ?_, ?_⟩
        · rw [List.append_assoc, ← hq]
          exact hs
        · rw [len_append, hpi, huj]
          omega
      exact ⟨hij, hj.le_len, ⟨p, q, hs, hpi⟩, hj⟩
    · cases ht
  · rintro ⟨hij, -, hi, hj⟩
    exact slice_isSome hi hj hij

/-! ## The scanners -/

theorem isSome_of_total {α : Type} {o : Option α} (h : ∃ a, o = some a) : o.isSome :=
  Option.isSome_iff_exists.2 h

/-- The scanners on one text, as a statement, an item, an expression or a query. -/
structure NeverPanics (s : Str) : Prop where
  split : ∀ sep, (splitTopLevel s sep).isSome
  statements : (splitStatements s).isSome
  words : (scanWords s).isSome
  raw : ∀ kw words, scanWords s = some words → (rawAfter words s kw).isSome
  word : ∀ kw words, scanWords s = some words → (wordAfter words s kw).isSome
  keyword : ∀ kw, (skipKeyword kw s).isSome
  select : ∀ words, scanWords s = some words → (extractSelect s words).isSome
  aliased : (peelAlias s).isSome
  cast : (peelCast s).isSome
  expr : (classifyExpr s).isSome
  item : (parseItem s).isSome
  shape : (extract s).isSome
  column : ∀ k, (Utf8.encode s)[k]? = some 36 → (nearbyColumn s k).isSome

/-- **The scanners never slice out of bounds.** A slice is taken, and does not panic, exactly
between two boundaries in order; and on every text all slices are taken. -/
theorem scanners_never_panic :
    (∀ (s : Str) i j, (slice s i j).isSome ↔ i ≤ j ∧ j ≤ len s ∧ Boundary s i ∧ Boundary s j) ∧
      (∀ (s : Str) i, (sliceFrom s i).isSome ↔ Boundary s i) ∧
      (∀ (s : Str) i, (sliceTo s i).isSome ↔ Boundary s i) ∧ ∀ s, NeverPanics s := by
  refine ⟨fun _ _ _ => slice_isSome_iff, fun _ _ => sliceFrom_isSome_iff,
    fun _ _ => sliceTo_isSome_iff, ?_⟩
  intro s
  have hwords : ∀ words, scanWords s = some words → words = wordsOf s := by
    intro words h
    rw [scanWords_eq] at h
    exact (Option.some.inj h).symm
  exact {
    split := fun sep => by rw [splitTopLevel_eq]; rfl
    statements := by rw [splitStatements_eq]; rfl
    words := by rw [scanWords_eq]; rfl
    raw := fun kw words h => hwords words h ▸ isSome_of_total (rawAfter_total s kw)
    word := fun kw words h => hwords words h ▸ isSome_of_total (wordAfter_total s kw)
    keyword := fun kw => isSome_of_total (skipKeyword_total kw s)
    select := fun words h => hwords words h ▸ isSome_of_total (extractSelect_total s)
    aliased := isSome_of_total (peelAlias_total s)
    cast := isSome_of_total (peelCast_total s)
    expr := isSome_of_total (classifyExpr_total s)
    item := isSome_of_total (parseItem_total s)
    shape := extract_isSome s
    column := fun k h => nearbyColumn_isSome (boundary_of_ascii (by decide) h) }

end EtherealDb
