import EtherealDb.Spec.Server

/-!
# The command line

What `main` makes of its options: row and latency bands, themes, and the configuration and the
crush slots that its listeners share. An option's text comes from `clap`, which has the command
line taken apart.
-/

namespace EtherealDb

open Str

/-! ## Themes -/

/-- `ECOMMERCE`. -/
def ecommerceTheme : ThemeData where
  name := "ecommerce"
  statuses := ["pending", "paid", "shipped", "delivered", "refunded", "cancelled", "returned"]
  kinds := ["physical", "digital", "subscription", "bundle", "giftcard"]
  nouns := ["order", "cart", "sku", "shipment", "invoice", "coupon", "catalog", "checkout", "wishlist",
    "refund", "warehouse", "pallet", "voucher", "fulfillment"]
  statuses_ne := by decide
  kinds_ne := by decide

/-- `FINANCE`. -/
def financeTheme : ThemeData where
  name := "finance"
  statuses := ["pending", "cleared", "settled", "declined", "disputed", "reversed"]
  kinds := ["checking", "savings", "credit", "loan", "brokerage"]
  nouns := ["ledger", "account", "transaction", "balance", "statement", "dividend", "portfolio",
    "invoice", "accrual", "liability", "remittance", "escrow"]
  statuses_ne := by decide
  kinds_ne := by decide

/-- `IOT`. -/
def iotTheme : ThemeData where
  name := "iot"
  statuses := ["online", "offline", "degraded", "provisioning", "faulted", "sleeping"]
  kinds := ["sensor", "actuator", "gateway", "controller", "beacon"]
  nouns := ["telemetry", "firmware", "sensor", "gateway", "payload", "heartbeat", "uplink", "threshold",
    "reading", "device", "calibration", "downlink"]
  statuses_ne := by decide
  kinds_ne := by decide

/-- `USERS`. -/
def usersTheme : ThemeData where
  name := "users"
  statuses := ["active", "invited", "suspended", "deactivated", "pending"]
  kinds := ["admin", "member", "guest", "owner", "moderator"]
  nouns := ["profile", "session", "avatar", "handle", "follower", "notification", "preference", "badge",
    "invite", "mention"]
  statuses_ne := by decide
  kinds_ne := by decide

namespace Theme

/-- `ALL`. -/
def all : List ThemeData := [genericTheme, ecommerceTheme, financeTheme, iotTheme, usersTheme]

/-- `by_name`. -/
def byName (name : Str) : Option ThemeData :=
  let n := lower name
  all.find? fun t => t.name.toList = n

/-- `names`. -/
def names : List String := all.map ThemeData.name

end Theme

/-- The message of `parse_theme`. -/
def unknownTheme (s : Str) : Str :=
  "unknown theme \x60".toList ++ s ++ "\x60 (try: ".toList ++
    (", ".toList).intercalate (Theme.names.map String.toList) ++ ")".toList

/-- `parse_theme`. -/
def parseTheme (s : Str) : Except Str ThemeData :=
  match Theme.byName s with
  | some t => .ok t
  | none => .error (unknownTheme s)

/-! ## Bands -/

/-- Bounds in order, that fit a machine word: what `parse_band` accepts. -/
@[ext] structure Band where
  lo : ℕ
  hi : ℕ
  le : lo ≤ hi
  lt : hi < 2 ^ 64
  deriving DecidableEq

/-- `split_once`. -/
def splitOnce (c : Char) (s : Str) : Option (Str × Str) :=
  if c ∈ s then some (s.takeWhile (· != c), (s.dropWhile (· != c)).tail) else none

theorem parseUnsigned_lt {bound n : ℕ} {s : Str} (h : parseUnsigned bound s = some n) : n < bound :=
  of_decide_eq_true (Option.filter_eq_some_iff.1 h).2

/-- `parse_band`. -/
def parseBand (s : Str) : Except Str Band :=
  match splitOnce ':' s with
  | none => .error "expected min:max"
  | some (lo, hi) =>
    match parseUnsigned (2 ^ 64) lo with
    | none => .error "bad min"
    | some lo =>
      match h : parseUnsigned (2 ^ 64) hi with
      | none => .error "bad max"
      | some hi => if hle : lo ≤ hi then .ok ⟨lo, hi, hle, parseUnsigned_lt h⟩ else .error "min > max"

/-- The band as a pair of words. -/
def Band.words (band : Band) : UInt64 × UInt64 := (UInt64.ofNat band.lo, UInt64.ofNat band.hi)

/-- The delay that is drawn from a band. -/
def latencyMs (latencyMs : Band) (r : UInt64) : Option UInt64 := delayMs latencyMs.words r

/-! ## Options -/

/-- `Cli`, less the addresses of the listeners, the file of the rules and the subcommand. -/
structure Cli where
  seed : Option UInt64
  rows : Band
  theme : ThemeData
  crush : Bool
  crushRows : UInt64
  crushWarnOnly : Bool
  crushThreshold : CrushThreshold
  crushConcurrency : ℕ
  ghostLatency : ℚ
  ghostLatencyMs : Band
  ghostErrors : ℚ
  ghostDrops : ℚ
  fuzz : ℚ

/-- The options that are not given. -/
def Cli.default : Cli where
  seed := none
  rows := ⟨5, 20, by decide, by decide⟩
  theme := genericTheme
  crush := false
  crushRows := 5000000
  crushWarnOnly := false
  crushThreshold := .all3
  crushConcurrency := 4
  ghostLatency := 0
  ghostLatencyMs := ⟨50, 500, by decide, by decide⟩
  ghostErrors := 0
  ghostDrops := 0
  fuzz := 0

/-- The configuration that `main` builds. -/
def Cli.config (cli : Cli) (rules : Rules) : Config where
  seed := cli.seed
  rowsMin := cli.rows.lo
  rowsMax := cli.rows.hi
  crush := ⟨cli.crush, cli.crushRows.toNat, cli.crushWarnOnly, cli.crushThreshold⟩
  theme := cli.theme
  rules := rules
  ghosts := ⟨cli.ghostLatency, cli.ghostLatencyMs.words, cli.ghostErrors, cli.ghostDrops, cli.fuzz⟩

/-- What the listeners share. -/
def Cli.shared (cli : Cli) (rules : Rules) : Shared :=
  Shared.new (cli.config rules) (max cli.crushConcurrency 1)

end EtherealDb
