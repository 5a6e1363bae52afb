import EtherealDb.Text.Str

/-!
# Vocabulary of the value generators

The canned pools the generators draw from. A theme swaps three of them (`ThemeData`);
the rest are fixed. Every pool is non-empty, so a draw from one always gives a word.
-/

namespace EtherealDb

/-- `ThemeData`. The generators unwrap a draw from `statuses` and from `kinds`, so these
are non-empty. -/
structure ThemeData where
  name : String
  statuses : List String
  kinds : List String
  nouns : List String
  statuses_ne : statuses ≠ []
  kinds_ne : kinds ≠ []

/-- `GENERIC`: the default theme. -/
def genericTheme : ThemeData where
  name := "generic"
  statuses := ["active", "pending", "inactive", "archived", "suspended", "expired"]
  kinds := ["standard", "premium", "basic", "trial", "enterprise", "legacy"]
  nouns := ["widget", "record", "entry", "item", "node", "object", "unit", "batch"]
  statuses_ne := by decide
  kinds_ne := by decide

/-- `NASTY`: strings that break naive decoders of any type. -/
def nasty : List String :=
  ["", " ", "\t\n\r", "NULL", "null", "undefined", "NaN", "Infinity", "-0", "0x1F", "1e400",
   "9999999999999999999999999999", "-9223372036854775809", "'; DROP TABLE users; --",
   "\"\x7d\x7b[]", "\\x00\\x01\\x02", "../../etc/passwd", "Ω≈ç√∫˜µ≤≥÷", "👻🦇💀 ʇxǝʇ",
   "\u202etxet desrever", "🇯🇵🇧🇷", "line1\nline2\x00embedded-nul"]

/-- `FIRST_NAMES`. -/
def firstNames : List String :=
  ["Alice", "Marcus", "Yuki", "Priya", "Omar", "Ingrid", "Chen", "Fatima", "Diego", "Astrid",
   "Kofi", "Elena", "Hiro", "Zara", "Lars", "Amara", "Felix", "Noor", "Mateo", "Sigrid", "Ravi",
   "Lucia", "Emeka", "Hannah", "Tomas", "Mei", "Andrei", "Leila", "Bjorn", "Carmen", "Dmitri",
   "Aisha", "Pablo", "Greta", "Kenji", "Rosa", "Viktor", "Nadia", "Sven", "Imani"]

/-- `LAST_NAMES`. -/
def lastNames : List String :=
  ["Okafor", "Lindqvist", "Tanaka", "Petrov", "Garcia", "Nguyen", "Schmidt", "Rossi", "Kowalski",
   "Andersson", "Yamamoto", "Silva", "Novak", "Haddad", "Eriksen", "Moreau", "Castillo", "Weber",
   "Ivanova", "Fernandez", "Larsen", "Dubois", "Hoffmann", "Marino", "Sato", "Virtanen", "Costa",
   "Bergström", "Olawale", "Kimura", "Vasquez", "Lehmann", "Romano", "Park", "Almeida", "Fischer"]

/-- `COMPANY_STEMS`. -/
def companyStems : List String :=
  ["Lumen", "Vexel", "Quark", "Nimbus", "Apex", "Zephyr", "Onyx", "Fathom", "Strato", "Ember",
   "Cobalt", "Drift", "Pulse", "Vertex", "Halcyon", "Mosaic", "Tundra", "Cinder", "Meridian",
   "Flux"]

/-- `COMPANY_SUFFIXES`. -/
def companySuffixes : List String :=
  ["Labs", "Systems", "Dynamics", "Industries", "Works", "Forge", "Analytics", "Logic", "Networks",
   "Holdings", "Collective", "Technologies", "Group", "Co."]

/-- `CITIES`. -/
def cities : List String :=
  ["Portland", "Osaka", "Helsinki", "Marseille", "Cartagena", "Tbilisi", "Brisbane", "Kraków",
   "Valparaíso", "Tampere", "Da Nang", "Leipzig", "Galway", "Kumasi", "Bologna", "Sapporo",
   "Rotterdam", "Antwerp", "Curitiba", "Ljubljana", "Wellington", "Porto", "Gdańsk", "Bandung"]

/-- `COUNTRIES`. -/
def countries : List String :=
  ["Japan", "Brazil", "Finland", "Ghana", "Portugal", "New Zealand", "Poland", "Chile", "Vietnam",
   "Germany", "Ireland", "Georgia", "Australia", "Netherlands", "Slovenia", "Indonesia", "Italy",
   "Belgium", "Canada", "Morocco", "Estonia", "Uruguay"]

/-- `COUNTRY_CODES`. -/
def countryCodes : List String :=
  ["JP", "BR", "FI", "GH", "PT", "NZ", "PL", "CL", "VN", "DE", "IE", "GE", "AU", "NL", "SI", "ID",
   "IT", "BE", "CA", "MA", "EE", "UY"]

/-- `STREET_NAMES`. -/
def streetNames : List String :=
  ["Maple", "Harbor", "Juniper", "Birchwood", "Cedar", "Foxglove", "Larkspur", "Willow", "Granite",
   "Meadow", "Alder", "Bayview", "Clover", "Driftwood", "Elm", "Hazel"]

/-- `STREET_TYPES`. -/
def streetTypes : List String :=
  ["St", "Ave", "Blvd", "Lane", "Way", "Court", "Drive", "Terrace"]

/-- `COLORS`. -/
def colors : List String :=
  ["crimson", "teal", "ochre", "violet", "chartreuse", "indigo", "coral", "slate", "amber",
   "fuchsia", "olive", "cerulean", "maroon", "mint", "lavender", "rust"]

/-- `DOMAINS`. -/
def domains : List String :=
  ["lumenforge.io", "vexel.dev", "quarkmail.com", "nimbus.net", "fathom.app", "stratolabs.io",
   "embermail.org", "cobalt.systems", "driftbox.com", "pulsewire.net"]

/-- `WORDS`. -/
def words : List String :=
  ["ambient", "brisk", "cobalt", "drift", "ember", "fathom", "glint", "hollow", "iris", "junction",
   "keel", "lattice", "moss", "nimble", "orbit", "plume", "quill", "ripple", "sable", "tide",
   "umber", "vesper", "wisp", "yonder", "zenith", "arc", "bloom", "cairn", "delta", "echo", "fern",
   "grove", "haze", "inlet", "knoll", "loom", "mirth", "north", "opal", "pith"]

/-- `CURRENCY_CODES`. -/
def currencyCodes : List String :=
  ["USD", "EUR", "JPY", "GBP", "BRL", "PLN", "AUD", "CAD", "CHF", "SEK"]

/-- `LANGUAGE_CODES`. -/
def languageCodes : List String :=
  ["en", "ja", "pt", "fi", "pl", "de", "es", "vi", "it", "nl", "fr", "ko"]

/-- `MIME_TYPES`. -/
def mimeTypes : List String :=
  ["application/json", "text/html", "image/png", "image/jpeg", "application/pdf", "text/csv",
   "audio/mpeg", "video/mp4", "application/zip", "text/plain"]

/-- `USER_AGENTS`. -/
def userAgents : List String :=

   ["Mozilla/5.0 (Windows NT 10.0; Win64; x64) AppleWebKit/537.36 (KHTML, like Gecko) Chrome/126.0.0.0 Safari/537.36",
   "Mozilla/5.0 (Macintosh; Intel Mac OS X 14_5) AppleWebKit/605.1.15 (KHTML, like Gecko) Version/17.5 Safari/605.1.15",
   "Mozilla/5.0 (X11; Linux x86_64; rv:127.0) Gecko/20100101 Firefox/127.0",
   "Mozilla/5.0 (iPhone; CPU iPhone OS 17_5 like Mac OS X) AppleWebKit/605.1.15 (KHTML, like Gecko) Mobile/15E148"]

/-- The letters of a `PasswordHash`. -/
def hashChars : List Char :=
  "./ABCDEFGHIJKLMNOPQRSTUVWXYZabcdefghijklmnopqrstuvwxyz0123456789".toList

/-- The letters of a `ShortCode`. -/
def codeChars : List Char := "ABCDEFGHJKLMNPQRSTUVWXYZ23456789".toList

end EtherealDb
