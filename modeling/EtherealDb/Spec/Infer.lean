import EtherealDb.Text.Str

/-!
# The inference engine: column name to semantic type

First match wins: exact names, then suffixes, then prefixes, then the words of the
name, then short lorem (`infer`). User rules go first (`inferWith`). The tables are
the program's own; `normalize` lets one table serve `userId` and `user_id`.
-/

namespace EtherealDb

open Str

/-- What a column's values mean: which generator fills it. -/
inductive SemanticType where
  | idInt | idUuid | fkInt | bool | intSmall | intBig | float | money | percent | timestamp | date
  | time | email | phone | url | ip | firstName | lastName | fullName | username | company | city
  | country | countryCode | streetAddress | zipcode | color | hexColor | lat | lng | statusEnum
  | kindEnum | slug | passwordHash | json | loremShort | loremLong | currencyCode | languageCode
  | mimeType | userAgent | creditCard | fileSize | shortCode | version
  deriving DecidableEq, Repr

/-- Dialect-agnostic wire types; each frontend maps them to its own identifiers. -/
inductive WireType where
  | bool | int4 | int8 | float8 | numeric | text | date | time | timestamp | uuid | json
  deriving DecidableEq, Repr

/-- `wire_type`. -/
def wireType : SemanticType → WireType
  | .idInt | .fkInt | .intBig | .fileSize => .int8
  | .intSmall => .int4
  | .bool => .bool
  | .float | .lat | .lng => .float8
  | .money | .percent => .numeric
  | .timestamp => .timestamp
  | .date => .date
  | .time => .time
  | .idUuid => .uuid
  | .json => .json
  | _ => .text

/-- `generic_for`: the generator of a wire type, for a cast that contradicts the name. -/
def genericFor : WireType → SemanticType
  | .bool => .bool
  | .int4 => .intSmall
  | .int8 => .intBig
  | .float8 => .float
  | .numeric => .money
  | .date => .date
  | .time => .time
  | .timestamp => .timestamp
  | .uuid => .idUuid
  | .json => .json
  | .text => .loremShort

/-- A cast's generic generator fills a column of the cast's type. -/
@[simp] theorem wireType_genericFor (wt : WireType) : wireType (genericFor wt) = wt := by
  cases wt <;> rfl

/-- Only the `bool` generator fills a boolean column. -/
theorem wireType_eq_bool {st : SemanticType} : wireType st = .bool ↔ st = .bool := by
  cases st <;> simp [wireType]

/-- One SQL type name. -/
def sqlType (name : String) (wt : WireType) : Str × WireType := (name, wt)

/-- The SQL type names a cast may use, with their wire types. -/
def sqlTypes : List (Str × WireType) :=
  [sqlType "bool" .bool, sqlType "boolean" .bool, sqlType "int" .int4, sqlType "integer" .int4,
   sqlType "int4" .int4, sqlType "smallint" .int4, sqlType "int2" .int4, sqlType "bigint" .int8,
   sqlType "int8" .int8, sqlType "serial8" .int8, sqlType "bigserial" .int8,
   sqlType "float" .float8, sqlType "float4" .float8, sqlType "float8" .float8,
   sqlType "real" .float8, sqlType "double" .float8, sqlType "numeric" .numeric,
   sqlType "decimal" .numeric, sqlType "money" .numeric, sqlType "text" .text,
   sqlType "varchar" .text, sqlType "char" .text, sqlType "bpchar" .text, sqlType "citext" .text,
   sqlType "string" .text, sqlType "date" .date, sqlType "time" .time, sqlType "timetz" .time,
   sqlType "timestamp" .timestamp, sqlType "timestamptz" .timestamp, sqlType "datetime" .timestamp,
   sqlType "uuid" .uuid, sqlType "json" .json, sqlType "jsonb" .json]

/-- `wire_type_from_sql`: the wire type of a SQL type name, in any case. -/
def wireTypeFromSql (name : Str) : Option WireType :=
  (sqlTypes.find? fun e => e.1 == lower name).map Prod.snd

/-- One line of a rule table. -/
def entry (pat : String) (st : SemanticType) : Str × SemanticType := (pat, st)

/-- `EXACT`: names with a type of their own. -/
def exactTable : List (Str × SemanticType) :=
  [entry "id" .idInt, entry "pk" .idInt, entry "uuid" .idUuid, entry "guid" .idUuid,
   entry "email" .email, entry "mail" .email, entry "phone" .phone, entry "tel" .phone,
   entry "mobile" .phone, entry "age" .intSmall, entry "count" .intBig, entry "sum" .money,
   entry "avg" .float, entry "min" .float, entry "max" .float, entry "total" .money,
   entry "lat" .lat, entry "latitude" .lat, entry "lng" .lng, entry "lon" .lng,
   entry "longitude" .lng, entry "status" .statusEnum, entry "state" .statusEnum,
   entry "type" .kindEnum, entry "kind" .kindEnum, entry "category" .kindEnum,
   entry "tier" .kindEnum, entry "plan" .kindEnum, entry "password" .passwordHash,
   entry "secret" .passwordHash, entry "token" .passwordHash, entry "hash" .passwordHash,
   entry "checksum" .passwordHash, entry "slug" .slug, entry "url" .url, entry "uri" .url,
   entry "link" .url, entry "website" .url, entry "homepage" .url, entry "ip" .ip,
   entry "name" .fullName, entry "firstname" .firstName, entry "givenname" .firstName,
   entry "lastname" .lastName, entry "surname" .lastName, entry "familyname" .lastName,
   entry "username" .username, entry "login" .username, entry "handle" .username,
   entry "nickname" .username, entry "company" .company, entry "employer" .company,
   entry "organization" .company, entry "vendor" .company, entry "city" .city, entry "town" .city,
   entry "country" .country, entry "zip" .zipcode, entry "zipcode" .zipcode,
   entry "postcode" .zipcode, entry "address" .streetAddress, entry "street" .streetAddress,
   entry "color" .color, entry "colour" .color, entry "currency" .currencyCode,
   entry "locale" .languageCode, entry "language" .languageCode, entry "lang" .languageCode,
   entry "description" .loremLong, entry "summary" .loremLong, entry "bio" .loremLong,
   entry "notes" .loremLong, entry "note" .loremLong, entry "comment" .loremLong,
   entry "body" .loremLong, entry "content" .loremLong, entry "message" .loremLong,
   entry "title" .loremShort, entry "label" .loremShort, entry "subject" .loremShort,
   entry "price" .money, entry "cost" .money, entry "amount" .money, entry "balance" .money,
   entry "fee" .money, entry "salary" .money, entry "revenue" .money, entry "quantity" .intSmall,
   entry "qty" .intSmall, entry "stock" .intSmall, entry "rating" .float, entry "score" .float,
   entry "weight" .float, entry "height" .float, entry "width" .float, entry "percent" .percent,
   entry "percentage" .percent, entry "discount" .percent, entry "timestamp" .timestamp,
   entry "date" .date, entry "birthday" .date, entry "dob" .date, entry "time" .time,
   entry "active" .bool, entry "enabled" .bool, entry "disabled" .bool, entry "deleted" .bool,
   entry "verified" .bool, entry "confirmed" .bool, entry "public" .bool, entry "visible" .bool,
   entry "archived" .bool, entry "json" .json, entry "data" .json, entry "payload" .json,
   entry "metadata" .json, entry "settings" .json, entry "config" .json, entry "preferences" .json,
   entry "useragent" .userAgent, entry "mime" .mimeType, entry "mimetype" .mimeType,
   entry "contenttype" .mimeType, entry "size" .fileSize, entry "filesize" .fileSize,
   entry "bytes" .fileSize, entry "sku" .shortCode, entry "code" .shortCode,
   entry "version" .version, entry "creditcard" .creditCard, entry "cardnumber" .creditCard]

/-- `SUFFIX`: name endings. -/
def suffixTable : List (Str × SemanticType) :=
  [entry "_id" .fkInt, entry "_ids" .fkInt, entry "_uuid" .idUuid, entry "_guid" .idUuid,
   entry "_at" .timestamp, entry "_timestamp" .timestamp, entry "_date" .date, entry "_day" .date,
   entry "_time" .time, entry "_count" .intSmall, entry "_qty" .intSmall,
   entry "_quantity" .intSmall, entry "_num" .intSmall, entry "_number" .intSmall,
   entry "_url" .url, entry "_uri" .url, entry "_link" .url, entry "_email" .email,
   entry "_phone" .phone, entry "_price" .money, entry "_cost" .money, entry "_amount" .money,
   entry "_total" .money, entry "_fee" .money, entry "_balance" .money, entry "_pct" .percent,
   entry "_percent" .percent, entry "_rate" .percent, entry "_ratio" .percent, entry "_ip" .ip,
   entry "_hash" .passwordHash, entry "_token" .passwordHash, entry "_secret" .passwordHash,
   entry "_key" .passwordHash, entry "_code" .shortCode, entry "_city" .city,
   entry "_country" .country, entry "_zip" .zipcode, entry "_postcode" .zipcode,
   entry "_slug" .slug, entry "_json" .json, entry "_size" .fileSize, entry "_bytes" .fileSize,
   entry "_version" .version, entry "_color" .color, entry "_lat" .lat, entry "_lng" .lng,
   entry "_lon" .lng, entry "_username" .username, entry "_address" .streetAddress,
   entry "_status" .statusEnum, entry "_state" .statusEnum, entry "_type" .kindEnum,
   entry "_kind" .kindEnum, entry "_category" .kindEnum, entry "_name" .loremShort,
   entry "_title" .loremShort, entry "_text" .loremLong, entry "_description" .loremLong]

/-- `PREFIX`: name beginnings. -/
def prefixTable : List (Str × SemanticType) :=
  [entry "is_" .bool, entry "has_" .bool, entry "can_" .bool, entry "should_" .bool,
   entry "was_" .bool, entry "did_" .bool, entry "allow_" .bool, entry "num_" .intSmall,
   entry "count_" .intSmall, entry "total_" .intSmall, entry "max_" .intSmall,
   entry "min_" .intSmall, entry "avg_" .float]

/-- `TOKEN`: words of a name. -/
def tokenTable : List (Str × SemanticType) :=
  [entry "uuid" .idUuid, entry "email" .email, entry "phone" .phone, entry "ip" .ip,
   entry "url" .url, entry "price" .money, entry "cost" .money, entry "amount" .money,
   entry "salary" .money, entry "lat" .lat, entry "lng" .lng, entry "lon" .lng, entry "city" .city,
   entry "country" .country, entry "zip" .zipcode, entry "address" .streetAddress,
   entry "color" .color, entry "colour" .color, entry "status" .statusEnum, entry "date" .date,
   entry "time" .timestamp, entry "timestamp" .timestamp, entry "age" .intSmall,
   entry "year" .intSmall, entry "password" .passwordHash, entry "token" .passwordHash,
   entry "currency" .currencyCode, entry "username" .username, entry "company" .company,
   entry "description" .loremLong, entry "comment" .loremLong, entry "title" .loremShort,
   entry "name" .fullName, entry "slug" .slug, entry "version" .version, entry "json" .json,
   entry "size" .fileSize, entry "count" .intSmall, entry "percent" .percent, entry "rate" .percent,
   entry "score" .float, entry "rating" .float]

/-- The loop of `normalize`; `prev` says that the last character was a lowercase
letter or a digit. -/
def normalizeFrom : Bool → Str → Str
  | _, [] => []
  | prev, c :: s =>
    if c.isUpper then
      -- an uppercase letter after another begins no word
      if prev then '_' :: c.toLower :: normalizeFrom false s
      else c.toLower :: normalizeFrom false s
    else c :: normalizeFrom (c.isLower || c.isDigit) s

/-- `normalize`: lowercase, and `camelCase` to `snake_case`. -/
def normalize (name : Str) : Str := normalizeFrom false name

/-- The forms in which a name meets a rule: normalized, without underscores, as words. -/
structure NameForms where
  n : Str
  squashed : Str
  tokens : List Str

/-- The forms that `infer` and `Rules::infer` both compute. -/
def nameForms (name : Str) : NameForms :=
  let n := normalize (trimMatches '"' (trim name))
  { n := n
    squashed := n.filter (· != '_')
    tokens := (n.splitOnP fun c => c == '_' || c == '.' || c == ' ').filter (· ≠ []) }

/-- How a rule pattern is matched against a normalized column name. -/
inductive MatchKind where
  | exact | suffix | prefixed | token
  deriving DecidableEq, Repr

/-- Whether a pattern hits a name. -/
def MatchKind.hits (k : MatchKind) (f : NameForms) (pat : Str) : Bool :=
  match k with
  -- `firstName` and `first_name` both meet the pattern `firstname`
  | .exact => f.n == pat || f.squashed == pat
  | .suffix => pat.isSuffixOf f.n
  | .prefixed => pat.isPrefixOf f.n
  | .token => f.tokens.any (· == pat)

/-- `infer`: the built-in rules. -/
def infer (name : Str) : SemanticType :=
  let f := nameForms name
  let first (k : MatchKind) (t : List (Str × SemanticType)) :=
    (t.find? fun e => k.hits f e.1).map Prod.snd
  (first .exact exactTable <|> first .suffix suffixTable <|> first .prefixed prefixTable <|>
    first .token tokenTable).getD .loremShort

/-- A user rule; the pattern is normalized. -/
structure Rule where
  kind : MatchKind
  pat : Str
  st : SemanticType
  deriving DecidableEq, Repr

/-- User rules, in file order. -/
structure Rules where
  rules : List Rule
  deriving DecidableEq, Repr

/-- `Rules::infer`: exact, then suffix, then prefix, then token; within a kind, file
order. -/
def Rules.infer (r : Rules) (name : Str) : Option SemanticType :=
  if r.rules = [] then none
  else
    let f := nameForms name
    [MatchKind.exact, .suffix, .prefixed, .token].findSome? fun k =>
      ((r.rules.filter fun x => x.kind = k).find? fun x => k.hits f x.pat).map Rule.st

/-- `infer_with`: user rules first, then the built-ins. -/
def inferWith (name : Str) (rules : Rules) : SemanticType :=
  (rules.infer name).getD (infer name)

end EtherealDb
