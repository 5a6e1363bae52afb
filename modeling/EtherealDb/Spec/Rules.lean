import EtherealDb.Spec.Infer
import EtherealDb.Text.Lines
import EtherealDb.Text.Num

/-!
# Rules files

One rule a line: a match kind, a pattern and a semantic type. What stands from a `#` on is
a comment. `Rules.parse` stops at the first line that is none of this, and names it.
-/

namespace EtherealDb

open Str

/-- One name of a semantic type. -/
def typeName (name : String) (st : SemanticType) : Str × SemanticType := (name, st)

/-- The names of the semantic types, with their aliases. -/
def typeNames : List (Str × SemanticType) :=
  [typeName "id_int" .idInt, typeName "id" .idInt, typeName "id_uuid" .idUuid,
   typeName "uuid" .idUuid, typeName "guid" .idUuid, typeName "fk_int" .fkInt,
   typeName "fk" .fkInt, typeName "bool" .bool, typeName "boolean" .bool,
   typeName "int_small" .intSmall, typeName "int" .intSmall, typeName "integer" .intSmall,
   typeName "int_big" .intBig, typeName "bigint" .intBig, typeName "long" .intBig,
   typeName "float" .float, typeName "double" .float, typeName "money" .money,
   typeName "decimal" .money, typeName "currency_amount" .money, typeName "percent" .percent,
   typeName "percentage" .percent, typeName "timestamp" .timestamp,
   typeName "datetime" .timestamp, typeName "date" .date, typeName "time" .time,
   typeName "email" .email, typeName "phone" .phone, typeName "url" .url, typeName "uri" .url,
   typeName "ip" .ip, typeName "ip_address" .ip, typeName "first_name" .firstName,
   typeName "last_name" .lastName, typeName "full_name" .fullName, typeName "name" .fullName,
   typeName "username" .username, typeName "handle" .username, typeName "company" .company,
   typeName "city" .city, typeName "country" .country, typeName "country_code" .countryCode,
   typeName "street_address" .streetAddress, typeName "address" .streetAddress,
   typeName "zipcode" .zipcode, typeName "zip" .zipcode, typeName "color" .color,
   typeName "colour" .color, typeName "hex_color" .hexColor, typeName "lat" .lat,
   typeName "latitude" .lat, typeName "lng" .lng, typeName "longitude" .lng,
   typeName "status_enum" .statusEnum, typeName "status" .statusEnum,
   typeName "kind_enum" .kindEnum, typeName "kind" .kindEnum, typeName "type" .kindEnum,
   typeName "slug" .slug, typeName "password_hash" .passwordHash, typeName "hash" .passwordHash,
   typeName "password" .passwordHash, typeName "json" .json, typeName "jsonb" .json,
   typeName "lorem_short" .loremShort, typeName "text" .loremShort, typeName "lorem" .loremShort,
   typeName "lorem_long" .loremLong, typeName "paragraph" .loremLong,
   typeName "currency_code" .currencyCode, typeName "language_code" .languageCode,
   typeName "locale" .languageCode, typeName "mime_type" .mimeType,
   typeName "user_agent" .userAgent, typeName "credit_card" .creditCard,
   typeName "file_size" .fileSize, typeName "short_code" .shortCode, typeName "code" .shortCode,
   typeName "version" .version]

/-- `semantic_from_str`: the type that a name means, in any case. -/
def semanticFromStr (s : Str) : Option SemanticType :=
  (typeNames.find? fun e => e.1 == lower s).map Prod.snd

/-- The word for a match kind in a rules file. -/
def MatchKind.keyword : MatchKind → Str
  | .exact => "exact"
  | .suffix => "suffix"
  | .prefixed => "prefix"
  | .token => "token"

/-- The match kind of a lowercased word. -/
def matchKindFromStr (s : Str) : Option MatchKind :=
  [MatchKind.exact, .suffix, .prefixed, .token].find? fun k => k.keyword == s

namespace Rules

/-- The part of a line before the first `#`. -/
def beforeComment (raw : Str) : Str := raw.takeWhile (· != '#')

/-- An error of the line with index `i`. -/
def lineError (i : ℕ) (what : Str) : Str := "line ".toList ++ decimal (i + 1) ++ ": ".toList ++ what

/-- The body of the loop of `Rules::parse`: the rule that a line adds, if it adds one. -/
def parseLine (i : ℕ) (raw : Str) : Except Str (Option Rule) :=
  let line := trim (beforeComment raw)
  if line = [] then .ok none
  else match splitWhitespace line with
    | kind :: pat :: ty :: more =>
      if more ≠ [] then .error (lineError i "too many fields")
      else match matchKindFromStr (lower kind) with
        | none => .error (lineError i
            ("unknown match kind `".toList ++ lower kind ++ "` (exact|suffix|prefix|token)".toList))
        | some k => match semanticFromStr ty with
          | none => .error (lineError i ("unknown semantic type `".toList ++ ty ++ ['`']))
          | some st => .ok (some ⟨k, normalize pat, st⟩)
    | _ => .error (lineError i "expected `<kind> <pattern> <type>`")

/-- The loop of `Rules::parse`, at the line with index `i`. -/
def parseLines : ℕ → List Str → List Rule → Except Str (List Rule)
  | _, [], rules => .ok rules
  | i, raw :: rest, rules =>
    match parseLine i raw with
    | .error e => .error e
    | .ok none => parseLines (i + 1) rest rules
    | .ok (some r) => parseLines (i + 1) rest (rules ++ [r])

/-- `Rules::parse`. -/
def parse (text : Str) : Except Str Rules :=
  match parseLines 0 (lines text) [] with
  | .error e => .error e
  | .ok rules => .ok ⟨rules⟩

end Rules

end EtherealDb
