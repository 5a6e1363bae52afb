import EtherealDb.Proof.Crush
import EtherealDb.Proof.Fuzz
import EtherealDb.Proof.Items
import EtherealDb.Proof.RespReply

/-!
# The keys that Redis lists

Nothing is stored, so a listed key need not exist. What is promised is less: the key is made
from the theme, and the value of it is a value of the field that it ends with.

* `listed_fakeKey`: a made-up key is one to list.
* `keys_listed`: **`KEYS`, `SCAN` and a crush stream list such keys alone**, as many as the
  configuration allows, and a client reads every one of them.
-/

namespace EtherealDb.Resp

open Str
open Resp2 (Reply WellFormed)

variable {C : Crates}

/-- A word that a key of the theme may start with. -/
def Namespace (theme : ThemeData) (ns : Str) : Prop :=
  if theme.nouns = [] then ns = ("key" : Str) else ∃ w ∈ theme.nouns, ns = w.toList

/-- **A key to list**: a namespace, a number and a field, and `GET` is answered with a value
of the field. -/
def Listed (C : Crates) (cfg : Config) (key : Bytes) : Prop :=
  ∃ (ns : Str) (n : ℤ), ∃ field ∈ keyFields,
    key = Utf8.encode (ns ++ ':' :: intText n ++ ':' :: field.toList) ∧
    Namespace cfg.theme ns ∧ 1 ≤ n ∧ n < 1000000 ∧
    ∀ (os : ℕ → C.Rng) (name : Bytes) (more : List Bytes), run cfg os (name :: key :: more) .get =
      bulk (Utf8.encode (valueForKey (Utf8.encode field) cfg (seedRng cfg key (os 0))).1)

/-! ## One key -/

/-- The namespace that `fake_key` draws. -/
theorem namespace_drawn (theme : ThemeData) (rng : C.Rng) : Namespace theme
    ((if theme.nouns = [] then pure ("key" : Str) else pick theme.nouns : Draw C Str) rng).1 := by
  unfold Namespace
  by_cases hnil : theme.nouns = []
  · rw [if_pos hnil, if_pos hnil]
    rfl
  · rw [if_neg hnil, if_neg hnil]
    exact pick_text hnil rng

/-- **The value of a key is the value of the field at its end**, whatever stands before it. -/
theorem valueForKey_last {field : Str} (h : ':' ∉ field) (before : Str) (cfg : Config) :
    (valueForKey (Utf8.encode (before ++ ':' :: field)) cfg : Draw C Str) =
      valueForKey (Utf8.encode field) cfg := by
  have hself : rsplitNext ':' field = field := rsplitNext_self h
  unfold valueForKey
  rw [Utf8.fromUtf8Lossy_encode, Utf8.fromUtf8Lossy_encode, rsplitNext_append h, hself]

/-- **A made-up key is one to list.** -/
theorem listed_fakeKey (cfg : Config) (rng : C.Rng) :
    Listed C cfg (Utf8.encode (fakeKey cfg.theme rng).1) := by
  let ns := (if cfg.theme.nouns = [] then pure ("key" : Str) else pick cfg.theme.nouns : Draw C Str) rng
  let field := pick keyFields ns.2
  let n := C.randomRange .i32 1 1000000 field.2
  have hfields : keyFields ≠ [] := by decide
  obtain ⟨w, hw, hfield⟩ := pick_text hfields ns.2
  have hn := C.range_mem .i32 1 1000000 field.2 (by decide)
  have hkey : (fakeKey cfg.theme rng).1 = ns.1 ++ ':' :: intText n.1 ++ ':' :: w.toList := by
    rw [← hfield]
    unfold n ns fakeKey
    by_cases hnil : cfg.theme.nouns = []
    · simp only [if_pos hnil, Draw.bind_apply, Draw.pure_apply, drawInt, field, ns]
    · simp only [if_neg hnil, Draw.bind_apply, Draw.pure_apply, drawInt, field, ns]
  -- no field holds the colon that ends the rest of the key
  have hcolon : ':' ∉ w.toList := by
    have hall : keyFields.all fun w => !w.toList.contains ':' := by decide
    simpa using List.all_eq_true.1 hall w hw
  refine ⟨ns.1, n.1, w, hw, by rw [hkey], namespace_drawn cfg.theme rng, hn.1, hn.2, ?_⟩
  intro os name more
  rw [hkey, ← valueForKey_last hcolon (ns.1 ++ ':' :: intText n.1) cfg]
  rfl

/-! ## Lists of them -/

/-- The loop of made-up keys writes keys to list, and as many as it has rounds. -/
theorem bulks_listed (cfg : Config) (n : ℕ) (rng : C.Rng) : ∃ ks : List Bytes, ks.length = n ∧
    (∀ key ∈ ks, Listed C cfg key) ∧
    arrayHeader n ++ (bulks n (fakeKey cfg.theme) rng).1 = Resp2.encode (.array (ks.map .bulk)) := by
  have hlen := Draw.length_times (fakeKey cfg.theme) n rng
  refine ⟨((fakeKey cfg.theme).times n rng).1.map Utf8.encode, by rw [List.length_map, hlen], ?_, ?_⟩
  · intro key hkey
    obtain ⟨s, hs, rfl⟩ := List.mem_map.1 hkey
    obtain ⟨rng', rfl⟩ := Draw.mem_times hs
    exact listed_fakeKey cfg rng'
  · have hbytes : (bulks n (fakeKey cfg.theme) rng).1 =
        ((((fakeKey cfg.theme).times n rng).1.map Utf8.encode).map Reply.bulk).flatMap Resp2.encode := by
      rw [List.map_map, List.flatMap_map]
      exact List.flatMap_congr fun s _ => bulk_eq _
    rw [hbytes, ← array_eq, List.length_map, List.length_map, hlen]

theorem wellFormed_bulks (ks : List Bytes) : WellFormed (.array (ks.map .bulk)) := by
  refine .array ?_
  intro r hr
  obtain ⟨k, -, rfl⟩ := List.mem_map.1 hr
  exact .bulk k

theorem depth_bulks (ks : List Bytes) : Resp2.depth (.array (ks.map .bulk)) ≤ 2 := by
  refine Resp2.depth_array_le ?_
  intro r hr
  obtain ⟨k, -, rfl⟩ := List.mem_map.1 hr
  exact (Resp2.depth_bulk k).le

/-- A client reads an array of bulk strings. -/
theorem parse_bulks (ks : List Bytes) (rest : Bytes) : Resp2.parse 2
    (Resp2.encode (.array (ks.map .bulk)) ++ rest) = some (.array (ks.map .bulk), rest) :=
  Resp2.parse_encode (wellFormed_bulks ks) (depth_bulks ks) rest

/-- **What Redis lists is made of the theme, and its values of the fields.** A client reads the
answer to `KEYS` and to `SCAN` as a list of keys to list, of a length in the band of rows, and a
crush stream as exactly `max_rows` of them. `SCAN` is over with its first page. -/
theorem keys_listed (cfg : Config) (os : ℕ → C.Rng) (args : List Bytes) (rest : Bytes) :
    (∃ ks : List Bytes, Resp2.parse 2 (run cfg os args .keys ++ rest) =
        some (.array (ks.map .bulk), rest) ∧
      cfg.rowsMin ≤ ks.length ∧ ks.length ≤ max cfg.rowsMax cfg.rowsMin ∧
      ∀ key ∈ ks, Listed C cfg key) ∧
    (∃ ks : List Bytes, Resp2.parse 3 (run cfg os args .scan ++ rest) =
        some (.array [.bulk (Utf8.encode ("0" : Str)), .array (ks.map .bulk)], rest) ∧
      cfg.rowsMin ≤ ks.length ∧ ks.length ≤ max cfg.rowsMax cfg.rowsMin ∧
      ∀ key ∈ ks, Listed C cfg key) ∧
    (∃ ks : List Bytes, Resp2.parse 2 (crushKeys cfg (os 0) ++ rest) =
        some (.array (ks.map .bulk), rest) ∧
      ks.length = cfg.crush.maxRows ∧ ∀ key ∈ ks, Listed C cfg key) := by
  let n := C.randomRangeIncl .usize cfg.rowsMin (max cfg.rowsMax cfg.rowsMin)
    (seedRng cfg (args[1]?.getD []) (os 0))
  have hband : cfg.rowsMin ≤ n.1.toNat ∧ n.1.toNat ≤ max cfg.rowsMax cfg.rowsMin := by
    have hmem : (cfg.rowsMin : ℤ) ≤ n.1 ∧ n.1 ≤ max (cfg.rowsMax : ℤ) cfg.rowsMin :=
      C.rangeIncl_mem .usize _ _ _ (le_max_right _ _)
    omega
  obtain ⟨ks, hlen, hks, hbytes⟩ := bulks_listed (C := C) cfg n.1.toNat n.2
  have hrange : cfg.rowsMin ≤ ks.length ∧ ks.length ≤ max cfg.rowsMax cfg.rowsMin := hlen ▸ hband
  refine ⟨⟨ks, ?_, hrange.1, hrange.2, hks⟩, ⟨ks, ?_, hrange.1, hrange.2, hks⟩, ?_⟩
  · have hrun : run cfg os args .keys = Resp2.encode (.array (ks.map .bulk)) := hbytes
    rw [hrun]
    exact parse_bulks ks rest
  · -- the cursor and the page are the two items of an array
    have hrun : run cfg os args .scan = Resp2.encode
        (.array [.bulk (Utf8.encode ("0" : Str)), .array (ks.map .bulk)]) := by
      rw [← array_eq, List.flatMap_cons, List.flatMap_cons, List.flatMap_nil, List.append_nil,
        ← hbytes, ← bulk_eq]
      simp only [run, List.append_assoc]
      rfl
    rw [hrun]
    refine Resp2.parse_encode (.array ?_) (Resp2.depth_array_le ?_) rest
    · intro r hr
      rcases List.mem_pair.1 hr with rfl | rfl
      · exact .bulk _
      · exact wellFormed_bulks ks
    · intro r hr
      rcases List.mem_pair.1 hr with rfl | rfl
      · rw [Resp2.depth_bulk]
        decide
      · exact depth_bulks ks
  · obtain ⟨ks, hlen, hks, hbytes⟩ := bulks_listed (C := C) cfg cfg.crush.maxRows
      (seedRng cfg (Utf8.encode "KEYS *") (os 0))
    refine ⟨ks, ?_, hlen, hks⟩
    rw [crushKeys_eq, hbytes]
    exact parse_bulks ks rest

end EtherealDb.Resp
