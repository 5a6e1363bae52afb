import EtherealDb.Text.Reader

/-!
# Frames

Packets with a three-byte little-endian length and a sequence id. A packet of the largest
length is continued by the next one, so that a payload of any length can be sent
(`frame`) and put together again (`join`).

* `read_packet`: a packet whose length the header can express is read back.
* `readAll_packets`: so are packets one after another.
* `join_frame`: **a payload of any length survives framing.**
* `room_le_of_join`: what a run of packets holds has room in its bytes.
* `joinAll_packets_iff`: **packets one after another are read as their payloads exactly when none of
  them announces a continuation**, or is longer.
-/

namespace EtherealDb.Frames

/-- The length that announces a continuation: the largest of three bytes. -/
def full : ℕ := 2 ^ 24 - 1

/-- One packet. -/
def packet (id : UInt8) (payload : Bytes) : Bytes := (be 3 payload.length).reverse ++ id :: payload

theorem length_packet (id : UInt8) (p : Bytes) : (packet id p).length = p.length + 4 := by
  simp [packet]
  omega

/-- The header of a packet: its length and its id. -/
def readHeader (s : Bytes) : Option ((ℕ × UInt8) × Bytes) :=
  (takeN 3 s).bind fun p =>
    match p.2 with
    | [] => none
    | id :: r => some ((ofBe p.1.reverse, id), r)

/-- One packet: its id, its payload, and the bytes after it. -/
def read (s : Bytes) : Option ((UInt8 × Bytes) × Bytes) :=
  (readHeader s).bind fun h => (takeN h.1.1 h.2).map fun p => ((h.1.2, p.1), p.2)

theorem readHeader_append (n : ℕ) (id : UInt8) (s : Bytes) :
    readHeader ((be 3 n).reverse ++ id :: s) = some ((n % 256 ^ 3, id), s) := by
  have hlen : ((be 3 n).reverse).length = 3 := by simp
  rw [readHeader, takeN_of_length hlen, Option.bind_some]
  dsimp only
  rw [List.reverse_reverse, ofBe_be]

/-- **A packet is read back** when three bytes hold its length. -/
theorem read_packet {id : UInt8} {p : Bytes} (h : p.length < 2 ^ 24) (s : Bytes) :
    read (packet id p ++ s) = some ((id, p), s) := by
  have hmod : p.length % 256 ^ 3 = p.length := Nat.mod_eq_of_lt h
  rw [read, packet, List.append_assoc, List.cons_append, readHeader_append, hmod,
    Option.bind_some, takeN_append]
  rfl

/-- A read takes the payload and four bytes. -/
theorem read_length {s r p : Bytes} {id : UInt8} (h : read s = some ((id, p), r)) :
    s.length = p.length + r.length + 4 := by
  obtain ⟨⟨⟨n, i⟩, t⟩, hhead, htake⟩ := Option.bind_eq_some_iff.1 h
  obtain ⟨⟨a, b⟩, ha, he⟩ := Option.map_eq_some_iff.1 htake
  obtain ⟨⟨hd, tl⟩, h3, hid⟩ := Option.bind_eq_some_iff.1 hhead
  obtain ⟨rfl, hlen⟩ := takeN_eq_some h3
  obtain ⟨ht, -⟩ := takeN_eq_some ha
  cases tl with
  | nil => cases hid
  | cons j tl =>
    simp only [Option.some.injEq, Prod.mk.injEq] at hid he
    obtain ⟨-, rfl⟩ := hid
    obtain ⟨⟨-, rfl⟩, rfl⟩ := he
    dsimp only at ht
    rw [ht]
    simp only [List.length_append, List.length_cons]
    omega

/-- The packets of a byte string. -/
def readAll (s : Bytes) : Option (List (UInt8 × Bytes)) := toEnd read s

/-- **Packets are read back in turn.** -/
theorem readAll_packets {l : List (UInt8 × Bytes)} (h : ∀ p ∈ l, p.2.length < 2 ^ 24) :
    readAll (l.flatMap fun p => packet p.1 p.2) = some l := by
  have hread := toEnd_flatMap (p := read) (e := fun p : UInt8 × Bytes => packet p.1 p.2) id (l := l) ?_ ?_
  · rwa [List.map_id] at hread
  · intro p hp s
    exact read_packet (h p hp) s
  · intro p _ he
    have hzero := congrArg List.length he
    rw [length_packet, List.length_nil] at hzero
    omega

/-! ## Payloads of any length -/

/-- The packets of a payload. -/
def frame (id : UInt8) (p : Bytes) : Bytes :=
  if p.length < full then packet id p
  else packet id (p.take full) ++ frame (id + 1) (p.drop full)
termination_by p.length
decreasing_by
  have : 0 < full := by decide
  rw [List.length_drop]
  omega

theorem frame_short {id : UInt8} {p : Bytes} (h : p.length < full) : frame id p = packet id p := by
  rw [frame, if_pos h]

theorem frame_long {id : UInt8} {p : Bytes} (h : full ≤ p.length) :
    frame id p = packet id (p.take full) ++ frame (id + 1) (p.drop full) := by
  rw [frame, if_neg (by omega)]

/-- Framing makes a payload longer. -/
theorem length_lt_frame (id : UInt8) (p : Bytes) : p.length < (frame id p).length := by
  fun_induction frame id p with
  | case1 id p h =>
    rw [length_packet]
    omega
  | case2 id p h ih =>
    rw [List.length_drop] at ih
    rw [List.length_append, length_packet, List.length_take]
    omega

/-- The payload of at most so many packets. -/
def joinFrom : ℕ → Bytes → Option (Bytes × Bytes)
  | 0, _ => none
  | fuel + 1, s => (read s).bind fun p =>
      if p.1.2.length < full then some (p.1.2, p.2)
      else (joinFrom fuel p.2).map fun q => (p.1.2 ++ q.1, q.2)

/-- The first payload of a byte string, and the bytes after it. Every packet takes four
bytes or more. -/
def join (s : Bytes) : Option (Bytes × Bytes) := joinFrom s.length s

theorem joinFrom_frame {fuel : ℕ} (id : UInt8) (p s : Bytes) (h : p.length < full * fuel) :
    joinFrom fuel (frame id p ++ s) = some (p, s) := by
  have hcap : full < 2 ^ 24 := by decide
  induction fuel generalizing id p with
  | zero => omega
  | succ fuel ih =>
    rw [Nat.mul_succ] at h
    by_cases hp : p.length < full
    · rw [frame_short hp, joinFrom, read_packet (by omega), Option.bind_some, if_pos hp]
    · have htake : (p.take full).length = full := by rw [List.length_take]; omega
      have hdrop : (p.drop full).length < full * fuel := by rw [List.length_drop]; omega
      rw [frame_long (by omega), List.append_assoc, joinFrom, read_packet (by omega),
        Option.bind_some, if_neg (by simp only; omega), ih _ _ hdrop, Option.map_some,
        List.take_append_drop]

/-- **A payload of any length survives framing**, and nothing is left of it. -/
theorem join_frame (id : UInt8) (p s : Bytes) : join (frame id p ++ s) = some (p, s) := by
  apply joinFrom_frame
  have hlen := length_lt_frame id p
  have hfuel : (frame id p ++ s).length ≤ full * (frame id p ++ s).length :=
    Nat.le_mul_of_pos_left _ (by decide)
  rw [List.length_append] at hfuel ⊢
  omega

/-- The bytes that a payload takes at the least: its own and a header, or two when it has a
continuation. -/
def room (p : Bytes) : ℕ := p.length + if full ≤ p.length then 8 else 4

/-- **What a run of packets holds has room in its bytes.** -/
theorem room_le_of_join {s p r : Bytes} (h : join s = some (p, r)) : room p + r.length ≤ s.length := by
  have hfrom : ∀ fuel s p r, joinFrom fuel s = some (p, r) → room p + r.length ≤ s.length := by
    intro fuel
    induction fuel with
    | zero => intro s p r h; cases h
    | succ fuel ih =>
      intro s p r h
      obtain ⟨⟨⟨id, a⟩, t⟩, hread, he⟩ := Option.bind_eq_some_iff.1 h
      have hlen := read_length hread
      dsimp only at he
      by_cases hshort : a.length < full
      · rw [if_pos hshort] at he
        obtain ⟨rfl, rfl⟩ := Prod.mk.inj (Option.some.inj he)
        rw [room, if_neg (Nat.not_le.2 hshort)]
        omega
      · rw [if_neg hshort] at he
        obtain ⟨⟨b, u⟩, hmore, he⟩ := Option.map_eq_some_iff.1 he
        obtain ⟨rfl, rfl⟩ := Prod.mk.inj he
        have hrest := ih _ _ _ hmore
        rw [room] at hrest ⊢
        rw [List.length_append, if_pos (by omega)]
        dsimp only
        split_ifs at hrest <;> omega
  exact hfrom _ _ _ _ h

/-- The payloads of a byte string, continued packets joined. -/
def joinAll (s : Bytes) : Option (List Bytes) := toEnd join s

theorem join_packet {id : UInt8} {p : Bytes} (h : p.length < full) (s : Bytes) :
    join (packet id p ++ s) = some (p, s) := by
  have hjoin := join_frame id p s
  rwa [frame_short h] at hjoin

/-- **Packets are told apart exactly when each payload is short.** A longer one is not read in its
place, whatever the packets behind it are. -/
theorem joinAll_packets_iff {l : List (UInt8 × Bytes)} :
    joinAll (l.flatMap fun p => packet p.1 p.2) = some (l.map Prod.snd) ↔ ∀ p ∈ l, p.2.length < full := by
  constructor
  · intro h
    have hsum := sum_le_of_toEnd (fun _ _ _ => room_le_of_join) h
    rw [List.map_map] at hsum
    by_contra hno
    push Not at hno
    refine absurd hsum (Nat.not_le.2 ?_)
    have hbytes : (l.flatMap fun p => packet p.1 p.2).length = (l.map fun p => p.2.length + 4).sum := by
      rw [List.length_flatMap]
      exact congrArg List.sum (List.map_congr_left fun p _ => length_packet p.1 p.2)
    obtain ⟨p, hp, hlong⟩ := hno
    rw [hbytes]
    refine List.sum_lt_sum _ _ (fun q _ => ?_) ⟨p, hp, ?_⟩
    · rw [Function.comp_apply, room]
      split_ifs <;> omega
    · rw [Function.comp_apply, room, if_pos hlong]
      omega
  · intro h
    refine toEnd_flatMap Prod.snd (fun p hp s => join_packet (h p hp) s) fun p _ he => ?_
    have hzero := congrArg List.length he
    rw [length_packet, List.length_nil] at hzero
    omega

end EtherealDb.Frames
