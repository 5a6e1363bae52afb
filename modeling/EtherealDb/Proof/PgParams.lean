import EtherealDb.Proof.Params
import EtherealDb.Proof.PgWire

/-!
# Parameter descriptions

* `discovered_iff`: **parameter discovery is exact, and its description is read back, exactly
  when no number above 65535 stands after a dollar sign.**
-/

namespace EtherealDb.Pg

open Str
open Resp2 (many many_map)

/-- **Parameter discovery is exact**: each number is read without an overflow, each of the
placeholders has an entry of its own, and a client reads back the types that are sent. -/
structure Discovered (memory : Memory) (sql : Str) (rules : Rules) : Prop where
  exact : ∀ i, (Utf8.encode sql)[i]? = some 36 →
    (checkedNumber (digitsAfter (Utf8.encode sql) i)).isSome
  described : ∃ types, paramTypes memory sql rules = some types ∧
    (∀ p ∈ placeholders sql, p.2 - 1 < types.length) ∧ types.length ≤ 65535 ∧
    Client.parameterDescription (Backend.parameterDescription (types.map oid)).body =
      some (types.map oid)

/-- The types of a description are read back when their count fits. -/
theorem parameterDescription_body {types : List WireType} (h : types.length ≤ 65535) :
    Client.parameterDescription (Backend.parameterDescription (types.map oid)).body =
      some (types.map oid) := by
  have hcount : readNat 2 (be 2 (types.map oid).length ++ (types.map oid).flatMap (be 4)) =
      some ((types.map oid).length, (types.map oid).flatMap (be 4)) := by
    have hpow : 256 ^ 2 = 65536 := rfl
    apply readNat_be
    rw [List.length_map]
    omega
  have hmany : many (readNat 4) (types.map oid).length ((types.map oid).flatMap (be 4)) =
      some (types.map oid, []) := by
    have hread : ∀ o ∈ types.map oid, ∀ s, readNat 4 (be 4 o ++ s) = some (id o, s) := by
      intro o ho s
      obtain ⟨wt, -, rfl⟩ := List.mem_map.1 ho
      exact readNat_be (oid_lt wt) s
    have hmap := many_map hread []
    rwa [List.append_nil, List.map_id] at hmap
  unfold Client.parameterDescription
  rw [Backend.body, hcount]
  simp only [Option.bind_eq_bind, Option.bind_some, hmany, if_true]

/-- **Parameter discovery is exact exactly when no number above 65535 stands after a dollar
sign**, anywhere in the text. -/
theorem discovered_iff (memory : Memory) (sql : Str) (rules : Rules) : Discovered memory sql rules ↔
    ∀ i, (Utf8.encode sql)[i]? = some 36 → number (digitsAfter (Utf8.encode sql) i) ≤ 65535 := by
  constructor
  · rintro ⟨hexact, types, -, hentry, hfew, -⟩ i hi
    obtain ⟨hchecked, hwrap⟩ := checkedNumber_isSome (digitsAfter (Utf8.encode sql) i)
    have hnum := hwrap (hchecked.1 (hexact i hi))
    by_contra hbig
    have hmem : (i, number (digitsAfter (Utf8.encode sql) i)) ∈ placeholders sql :=
      mem_placeholders_iff.2 ⟨hi, hnum.symm, by omega⟩
    have hlt := hentry _ hmem
    omega
  · intro h
    have hexact : ∀ i, (Utf8.encode sql)[i]? = some 36 →
        number (digitsAfter (Utf8.encode sql) i) < 2 ^ 64 := by
      intro i hi
      have hle := h i hi
      omega
    have hnum : ∀ p ∈ placeholders sql, 1 ≤ p.2 ∧ p.2 ≤ 65535 := by
      rintro ⟨i, n⟩ hp
      obtain ⟨hi, hn, hone⟩ := mem_placeholders_iff.1 hp
      rw [(checkedNumber_isSome _).2 (hexact i hi)] at hn
      exact ⟨hone, hn ▸ h i hi⟩
    have hsome : (paramTypes memory sql rules).isSome := by
      rw [paramTypes_isSome]
      intro p hp
      have hle := (hnum p hp).2
      have hvector := memory.description_le
      have hdescription := memory.le_description
      omega
    obtain ⟨types, htypes⟩ := Option.isSome_iff_exists.1 hsome
    have hlen := length_paramTypes htypes
    have hfew : types.length ≤ 65535 := by
      rw [hlen, foldl_max_le]
      refine ⟨Nat.zero_le _, ?_⟩
      intro n hn
      obtain ⟨p, hp, rfl⟩ := List.mem_map.1 hn
      exact (hnum p hp).2
    refine ⟨fun i hi => (checkedNumber_isSome _).1.2 (hexact i hi), types, htypes, ?_, hfew,
      parameterDescription_body hfew⟩
    intro p hp
    have hone := (hnum p hp).1
    have hmax : p.2 ≤ types.length := by
      rw [hlen]
      exact (foldl_max_le.1 le_rfl).2 _ (List.mem_map_of_mem hp)
    omega

/-- **Five digits are enough** to lose the count, and nineteen to panic. -/
theorem not_discovered : ¬Discovered .most "$65536" ⟨[]⟩ ∧
    paramTypes .most "$9223372036854775808" ⟨[]⟩ = none := by
  constructor
  · rintro ⟨-, types, -, hentry, hfew, -⟩
    have hmem : (0, 65536) ∈ placeholders "$65536" := by decide +kernel
    have hlt := hentry _ hmem
    omega
  · have hmem : (0, 9223372036854775808) ∈ placeholders "$9223372036854775808" := by
      decide +kernel
    rw [← Option.not_isSome_iff_eq_none, paramTypes_isSome]
    intro h
    have hle : 9223372036854775808 ≤ isizeMax := h _ hmem
    unfold isizeMax at hle
    omega

end EtherealDb.Pg
