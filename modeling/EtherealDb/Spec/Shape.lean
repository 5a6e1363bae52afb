import EtherealDb.Spec.Infer
import EtherealDb.Text.Num

/-!
# Query shapes

The scanner that learns from a statement's text just enough to fake a result: its
kind, columns, table, `LIMIT` and `WHERE` (`extract`). Three loops track quotes and
bracket depth in the same way (`Scan`): the splitter (`splitTopLevel`), the word
scanner (`scanWords`) and the search for casts (`findTopLevelCast`).

Offsets are byte offsets, and `none` is a panic: a slice that is out of range or
inside a character. The source counts depth in an `i32`; it takes two gigabytes of
brackets to overflow it, more than a message holds (`Scan.depth_fits`), so depth is an
integer here.
-/

namespace EtherealDb

open Str

/-! ## Shapes -/

inductive StmtKind where
  | select | insert | update | delete
  /-- Anything else, with the CommandComplete tag to send. -/
  | command (tag : Str)
  | empty
  deriving DecidableEq, Repr

/-- A column of the select list. -/
structure ColumnSpec where
  name : Str
  cast : Option WireType
  literal : Option (Str × WireType)
  aggregate : Bool
  deriving DecidableEq, Repr

/-- `ColumnSpec::named`. -/
def ColumnSpec.named (name : Str) : ColumnSpec := ⟨name, none, none, false⟩

/-- A column that echoes a literal. -/
def ColumnSpec.echo (name value : Str) (wt : WireType) : ColumnSpec :=
  ⟨name, none, some (value, wt), false⟩

structure ResultShape where
  kind : StmtKind
  columns : List ColumnSpec
  tableHint : Option Str
  limit : Option ℕ
  selectStar : Bool
  hasWhere : Bool
  forceEmpty : Bool
  deriving DecidableEq, Repr

/-- `ResultShape::default`. -/
def ResultShape.default : ResultShape := ⟨.empty, [], none, none, false, false, false⟩

/-- A shape of a given kind and table, with the other fields at their defaults. -/
def ResultShape.of (kind : StmtKind) (tableHint : Option Str) : ResultShape :=
  { ResultShape.default with kind := kind, tableHint := tableHint }

/-- `aggregate_only`. -/
def ResultShape.aggregateOnly (s : ResultShape) : Bool :=
  s.columns ≠ [] && s.columns.all ColumnSpec.aggregate

/-- Which combination of missing-safety signals trips crush mode. -/
inductive CrushThreshold where
  | star | where' | limit | any2 | all3
  deriving DecidableEq, Repr

/-- The signals that fired. -/
structure Signals where
  broad : Bool
  noWhere : Bool
  noLimit : Bool
  deriving DecidableEq, Repr

inductive CrushClass where
  | safe
  | warn (s : Signals)
  | crush (s : Signals)
  deriving DecidableEq, Repr

/-- `crush_class`. -/
def ResultShape.crushClass (s : ResultShape) (threshold : CrushThreshold) : CrushClass :=
  -- one row at most, or none
  if s.kind ≠ .select ∨ s.tableHint = none ∨ s.aggregateOnly ∨ s.forceEmpty then .safe
  else
    let sig : Signals := ⟨s.selectStar, !s.hasWhere, s.limit.isNone⟩
    let count := sig.broad.toNat + sig.noWhere.toNat + sig.noLimit.toNat
    let triggered : Bool := match threshold with
      | .star => sig.broad
      | .where' => sig.noWhere
      | .limit => sig.noLimit
      | .any2 => 2 ≤ count
      | .all3 => count = 3
    if triggered then .crush sig
    -- two signals are worth a notice, whatever the threshold
    else if 2 ≤ count then .warn sig
    else .safe

/-- `reasons`: the signals that fired, for logs and notices. -/
def CrushClass.reasons : CrushClass → Str
  | .safe => []
  | .warn s | .crush s =>
    List.intercalate (", " : Str)
      ((if s.broad then [("no column list" : Str)] else []) ++
        (if s.noWhere then [("no WHERE" : Str)] else []) ++
        (if s.noLimit then [("no LIMIT" : Str)] else []))

/-! ## Quotes and brackets -/

/-- The state the scanning loops share: bracket depth, and whether the scan is inside
single or double quotes. -/
structure Scan where
  depth : ℤ
  inSq : Bool
  inDq : Bool
  deriving DecidableEq, Repr

/-- The state at the start of a text. -/
def Scan.start : Scan := ⟨0, false, false⟩

/-- The quote and bracket arms of the loops' `match`; `none` when no arm applies. -/
def Scan.arm (σ : Scan) (c : Char) : Option Scan :=
  if c = '\'' ∧ !σ.inDq then some { σ with inSq := !σ.inSq }
  else if c = '"' ∧ !σ.inSq then some { σ with inDq := !σ.inDq }
  else if (c = '(' ∨ c = '[') ∧ !σ.inSq ∧ !σ.inDq then some { σ with depth := σ.depth + 1 }
  else if (c = ')' ∨ c = ']') ∧ !σ.inSq ∧ !σ.inDq then some { σ with depth := σ.depth - 1 }
  else none

/-- One character of a loop that has no other arm. -/
def Scan.step (σ : Scan) (c : Char) : Scan := (σ.arm c).getD σ

/-! ## Splitting -/

/-- The state of the loop in `split_top_level`. -/
structure Split where
  parts : List Str
  scan : Scan
  start : ℕ

/-- One iteration of the loop in `split_top_level`. -/
def Split.step (s : Str) (sep : Char) (st : Split) (ic : ℕ × Char) : Option Split :=
  match st.scan.arm ic.2 with
  | some σ => some { st with scan := σ }
  | none =>
    if ic.2 = sep ∧ st.scan.depth ≤ 0 ∧ !st.scan.inSq ∧ !st.scan.inDq then
      (slice s st.start ic.1).map fun part =>
        { st with parts := st.parts ++ [part], start := ic.1 + sep.utf8Size }
    else some st

/-- `split_top_level`: split on `sep` outside brackets and quotes; trim the pieces and
drop the blank ones. -/
def splitTopLevel (s : Str) (sep : Char) : Option (List Str) := do
  let st ← (charIndices s).foldlM (Split.step s sep) ⟨[], .start, 0⟩
  let last ← sliceFrom s st.start
  return ((st.parts ++ [last]).map trim).filter (· ≠ [])

/-- `split_statements`. -/
def splitStatements (sql : Str) : Option (List Str) := splitTopLevel sql ';'

/-! ## Words -/

/-- A word at top level: its text in lower case, and its byte offsets. -/
structure Word where
  text : Str
  start : ℕ
  stop : ℕ
  deriving DecidableEq, Repr

/-- `c.is_ascii_alphanumeric() || c == '_'`. -/
def isWordChar (c : Char) : Bool := c.isAlphanum || c == '_'

/-- The state of the loop in `scan_words`. -/
structure WordScan where
  out : List Word
  scan : Scan
  wordStart : Option ℕ

/-- Push the pending word, if any, with its end at `i`. -/
def WordScan.close (s : Str) (i : ℕ) (st : WordScan) : Option WordScan :=
  match st.wordStart with
  | none => some st
  | some ws => (slice s ws i).map fun w =>
      { st with out := st.out ++ [⟨lower w, ws, i⟩], wordStart := none }

/-- One iteration of the loop in `scan_words`. -/
def WordScan.step (s : Str) (st : WordScan) (ic : ℕ × Char) : Option WordScan := do
  let st' ←
    -- a word ends before the quote or the bracket is looked at
    if st.scan.inSq ∨ st.scan.inDq ∨ 0 < st.scan.depth then st.close s ic.1
    else if isWordChar ic.2 then some { st with wordStart := some (st.wordStart.getD ic.1) }
    else st.close s ic.1
  return { st' with scan := st'.scan.step ic.2 }

/-- `scan_words`: the words outside brackets and quotes. -/
def scanWords (s : Str) : Option (List Word) := do
  let st ← (charIndices s).foldlM (WordScan.step s) ⟨[], .start, none⟩
  let st ← st.close s (len s)
  return st.out

/-! ## Tables -/

/-- The characters that end the token after a keyword. -/
def isDelimiter (c : Char) : Bool :=
  isWhitespace c || c == ',' || c == ';' || c == '(' || c == ')'

/-- `raw_after`: the token following the first word `kw`. -/
def rawAfter (words : List Word) (stmt : Str) (kw : Str) : Option (Option Str) :=
  match words.find? (·.text = kw) with
  | none => some none
  | some w => do
    let after := trimStart (← sliceFrom stmt w.stop)
    let raw := trim (← sliceTo after ((find isDelimiter after).getD (len after)))
    return if raw = [] then none else some raw

/-- `word_after`: the last segment of that token, without quotes, in lower case. -/
def wordAfter (words : List Word) (stmt : Str) (kw : Str) : Option (Option Str) := do
  match ← rawAfter words stmt kw with
  | none => return none
  | some raw =>
    let name := trimMatches '"' (rsplitNext '.' raw)
    return if name = [] then none else some (lower name)

/-- `is_system_catalog`. -/
def isSystemCatalog (raw : Str) : Bool :=
  -- the quotes around the dot of `"a"."b"` are not at the ends, so they stay
  let low := trimMatches '"' (lower raw)
  let schema := splitNext '.' low
  let relation := rsplitNext '.' low
  schema == "pg_catalog".toList || schema == "information_schema".toList ||
    "pg_".toList.isPrefixOf relation

/-! ## Select lists -/

/-- `STAR_COLUMNS`: the columns of `SELECT *`. -/
def starColumns : List Str := ["id", "name", "email", "status", "created_at"]

/-- `LIST_END`: the words that end a select list. -/
def listEnd : List Str :=
  ["from", "where", "group", "order", "having", "limit", "offset", "union", "except", "intersect",
   "into", "for"]

/-- A projection that is a star: `*` or `t.*`. -/
def isStar (item : Str) : Bool := item == "*".toList || ".*".toList.isSuffixOf item

/-- The loop of `find_top_level_cast`, over the characters from offset `i` on. -/
def findCastFrom (σ : Scan) : ℕ → Str → Option ℕ → Option ℕ
  | _, [], found => found
  | i, c :: s, found =>
    match σ.arm c with
    | some σ' => findCastFrom σ' (i + c.utf8Size) s found
    | none =>
      if c = ':' ∧ σ.depth = 0 ∧ !σ.inSq ∧ !σ.inDq ∧ s.head? = some ':' then
        -- only the first colon is passed, so `:::` is found twice
        findCastFrom σ (i + c.utf8Size) s (some i)
      else findCastFrom σ (i + c.utf8Size) s found

/-- `find_top_level_cast`: the offset of the last `::` outside brackets and quotes. -/
def findTopLevelCast (s : Str) : Option ℕ := findCastFrom .start 0 s none

/-- One line of the introspection table. -/
def introspection (col value : String) (wt : WireType) : Str × Str × WireType := (col, value, wt)

/-- `scalar_introspection`: the column, value and type of the functions that GUI clients
call during connection setup. -/
def scalarIntrospection (name : Str) : Option (Str × Str × WireType) :=
  if name = ("version" : Str) then
    some (introspection "version" "PostgreSQL 16.3 (EtherealDB 0.2.0) on x86_64-pc-linux-gnu" .text)
  else if name = ("current_database" : Str) ∨ name = ("current_catalog" : Str) then
    some (introspection "current_database" "ethereal" .text)
  else if name = ("current_schema" : Str) then
    some (introspection "current_schema" "public" .text)
  else if name = ("current_user" : Str) ∨ name = ("current_role" : Str) ∨
      name = ("session_user" : Str) then
    some (introspection "current_user" "ghost" .text)
  else if name = ("pg_backend_pid" : Str) then
    some (introspection "pg_backend_pid" "12345" .int4)
  else if name = ("pg_postmaster_start_time" : Str) then
    some (introspection "pg_postmaster_start_time" "2026-01-01 00:00:00" .timestamp)
  else none

/-- The name of an expression that has none of its own. -/
def unnamed : Str := "?column?"

/-- The functions whose select yields one row. -/
def aggregates : List Str := ["count", "sum", "avg", "min", "max"]

/-- Whether a text is a numeric literal: digits and dots, an optional leading minus. -/
def isNumeric (expr : Str) : Bool :=
  expr ≠ [] &&
    (match expr with
      | [] => true
      | c :: r => (c.isDigit || c == '.' || c == '-') && r.all fun c => c.isDigit || c == '.') &&
    expr.any Char.isDigit

/-- `replace("''", "'")`. -/
def undouble : Str → Str
  | '\'' :: '\'' :: s => '\'' :: undouble s
  | c :: s => c :: undouble s
  | [] => []

/-- The function-call case of `classify_expr`; `none` when it falls through. -/
def classifyCall (expr : Str) (paren : ℕ) : Option (Option ColumnSpec) := do
  let fname := lower (trim (← sliceTo expr paren))
  let bare := rsplitNext '.' fname
  match scalarIntrospection bare with
  | some (col, value, wt) => return some (.echo col value wt)
  | none =>
    -- the whole name: a qualified function has a dot, and is none
    if fname ≠ [] ∧ fname.all isWordChar then
      return some { ColumnSpec.named bare with aggregate := aggregates.contains fname }
    else return none

/-- The identifier case of `classify_expr`, with the catch-all after it. -/
def classifyIdent (expr : Str) : ColumnSpec :=
  let name := trimMatches '"' (trim (rsplitNext '.' expr))
  if name ≠ [] ∧ name.all (fun c => isWordChar c || c == ' ') then
    match scalarIntrospection (lower name) with
    | some (col, value, wt) => .echo col value wt
    | none => .named name
  else .named unnamed

/-- `classify_expr`. -/
def classifyExpr (expr : Str) : Option ColumnSpec :=
  let expr := trim expr
  if isNumeric expr then
    some (.echo unnamed expr (if expr.contains '.' then .numeric else .int4))
  else if 2 ≤ len expr ∧ expr.head? = some '\'' ∧ expr.getLast? = some '\'' then
    (slice expr 1 (len expr - 1)).map fun inner => .echo unnamed (undouble inner) .text
  else
    match find (· == '(') expr with
    | some paren => (classifyCall expr paren).map fun o => o.getD (classifyIdent expr)
    | none => some (classifyIdent expr)

/-- The alias step of `parse_item`: the expression, and the alias after a top-level
`AS`. -/
def peelAlias (item : Str) : Option (Str × Option Str) := do
  match (← scanWords item).find? (·.text = ("as" : Str)) with
  | some w =>
    let name := trimMatches '"' (trim (← sliceFrom item w.stop))
    return (trim (← sliceTo item w.start), some name)
  | none => return (item, none)

/-- The cast step of `parse_item`: the expression, and the type after the last `::`. -/
def peelCast (expr : Str) : Option (Str × Option WireType) := do
  match findTopLevelCast expr with
  | some pos =>
    -- a type that is not known is dropped with its cast
    let ty := (trim (← sliceFrom expr (pos + 2))).takeWhile isWordChar
    return (trim (← sliceTo expr pos), wireTypeFromSql ty)
  | none => return (expr, none)

/-- `parse_item`: the columns of one item of the select list. -/
def parseItem (item : Str) : Option (List ColumnSpec) :=
  let item := trim item
  if item = [] then some []
  else if isStar item then some (starColumns.map .named)
  else do
    let (expr, asName) ← peelAlias item
    let (expr, cast) ← peelCast expr
    let spec ← classifyExpr expr
    let spec := { spec with name := asName.getD spec.name }
    return match cast with
      -- a literal keeps its text and takes the type of the cast
      | some t => [{ spec with cast := some t, literal := spec.literal.map fun l => (l.1, t) }]
      | none => [spec]

/-- The `DISTINCT`/`ALL` step of `extract_select`, for one of the two words. -/
def skipKeyword (kw cols : Str) : Option Str :=
  if kw.isPrefixOf (lower cols) then do
    let rest ← sliceFrom cols (len kw)
    return if rest.head?.any isWhitespace then trimStart rest else cols
  else some cols

/-- `extract_select`. -/
def extractSelect (stmt : Str) (words : List Word) : Option ResultShape := do
  let after := (words.dropWhile (·.text ≠ ("select" : Str)))
  match after with
  | [] => return .of (.command "SELECT") none
  | sel :: rest =>
    let stop := ((rest.find? fun w => w.text ∈ listEnd).map Word.start).getD (len stmt)
    let colsText := trim (← slice stmt sel.stop stop)
    let colsText ← skipKeyword "distinct" colsText
    let colsText ← skipKeyword "all" colsText
    let items ← splitTopLevel colsText ','
    let columns ← items.mapM parseItem
    -- the first `from` at top level, wherever it stands
    let tableHint ← wordAfter words stmt "from"
    let raw ← rawAfter words stmt "from"
    return {
      kind := .select
      columns := columns.flatten
      tableHint := tableHint
      limit := ((words.dropWhile (·.text ≠ ("limit" : Str)))[1]?).bind
        fun w => parseUnsigned (2 ^ 64) w.text
      selectStar := items.any fun item => isStar (trim item)
      hasWhere := words.any (·.text = ("where" : Str))
      forceEmpty := raw.any isSystemCatalog }

/-- The `SHOW` arm of `extract`: one column, one row. -/
def showShape (words : List Word) : ResultShape :=
  let param := (words[1]?.map Word.text).getD "setting"
  let value : Str :=
    if param = ("server_version" : Str) then "16.3 (EtherealDB 0.2.0)"
    else if param = ("server_encoding" : Str) ∨ param = ("client_encoding" : Str) then "UTF8"
    else if param = ("transaction_isolation" : Str) then "read committed"
    else "on"
  { ResultShape.of .select none with
    columns := [.echo param value .text]
    limit := some 1 }

/-- The tag of a statement that is only acknowledged. -/
def commandTag (first : Str) (words : List Word) : Str :=
  if first = ("create" : Str) ∨ first = ("drop" : Str) ∨ first = ("alter" : Str) ∨
      first = ("truncate" : Str) then
    match words[1]? with
    | some w => upper first ++ ' ' :: upper w.text
    | none => upper first
  else upper first

/-- The text `extract` works on: trimmed, without trailing semicolons. -/
def bareStmt (stmt : Str) : Str := trim (trimEndMatches ';' (trim stmt))

/-- `extract`: the shape of a statement. -/
def extract (stmt : Str) : Option ResultShape :=
  let stmt := bareStmt stmt
  if stmt = [] then some .default
  else do
    let words ← scanWords stmt
    let first := (words.head?.map Word.text).getD []
    if first = ("select" : Str) ∨ first = ("with" : Str) ∨ first = ("table" : Str) then
      extractSelect stmt words
    else if first = ("insert" : Str) then
      return .of .insert (← wordAfter words stmt "into")
    else if first = ("update" : Str) then
      return .of .update (← wordAfter words stmt "update")
    else if first = ("delete" : Str) then
      return .of .delete (← wordAfter words stmt "from")
    else if first = ("show" : Str) then return showShape words
    else return .of (.command (commandTag first words)) none

/-! ## Resolved columns -/

/-- A column with everything a frontend needs to describe and fill it. -/
structure Resolved where
  name : Str
  st : SemanticType
  wt : WireType
  literal : Option Str
  deriving DecidableEq, Repr

/-- `Resolved::from_spec`. -/
def Resolved.fromSpec (c : ColumnSpec) (rules : Rules) : Resolved :=
  match c.literal with
  | some (value, wt) => ⟨c.name, .loremShort, wt, some value⟩
  | none =>
    let st := inferWith c.name rules
    match c.cast with
    -- the name still picks the values, when the cast agrees with it
    | some cast => ⟨c.name, if wireType st ≠ cast then genericFor cast else st, cast, none⟩
    | none => ⟨c.name, st, wireType st, none⟩

/-- `Resolved::from_name`. -/
def Resolved.fromName (name : Str) (rules : Rules) : Resolved :=
  let st := inferWith name rules
  ⟨name, st, wireType st, none⟩

end EtherealDb
