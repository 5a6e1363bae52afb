import EtherealDb.Proof.Scan

/-!
# Queries

What the extractor is for: a grammar of select statements, the text of each
(`Query.render`) and the shape a client expects of it (`Query.shape`).

Well-formedness is part of the types: an identifier carries the proof that it is one
and that it is no keyword, a cast the type it names, a condition that it is balanced.
-/

namespace EtherealDb

open Str

/-- The words that cannot name anything in a query. -/
def reserved : List Str := "select" :: "distinct" :: "all" :: "as" :: listEnd

/-- `[A-Za-z_][A-Za-z0-9_]*`. -/
def isIdent : Str → Bool
  | [] => false
  | c :: r => (c.isAlpha || c == '_') && r.all isWordChar

/-- An identifier that is no keyword, in any case. -/
structure Ident where
  text : Str
  ident : isIdent text
  free : lower text ∉ reserved

/-- An identifier that does not name an introspection function. -/
structure PlainIdent extends Ident where
  plain : scalarIntrospection (lower text) = none

/-- An expression of the select list. -/
inductive Expr where
  /-- A column with its qualifiers. -/
  | column (quals : List Ident) (name : PlainIdent)
  /-- An integer literal: a sign and its digits. -/
  | int (neg : Bool) (digits : Str) (ne : digits ≠ []) (digit : digits.all Char.isDigit)
  /-- A string literal. -/
  | literal (s : Str)
  /-- A function call with its arguments as they are written. -/
  | call (f : PlainIdent) (args : Str) (balanced : Balanced args)

/-- A type name the server knows. -/
structure SqlType where
  text : Str
  wt : WireType
  known : wireTypeFromSql text = some wt

/-- The name after `AS`. -/
inductive Alias where
  | ident (a : Ident)
  | quoted (s : Str) (free : '"' ∉ s)

/-- An item of the select list. -/
inductive Item where
  | star
  | starOf (q : Ident)
  | expr (e : Expr) (cast : Option SqlType) (name : Option Alias)

inductive Quantifier where
  | distinct | all
  deriving DecidableEq, Repr

/-- The text after `WHERE`. -/
structure Cond where
  text : Str
  balanced : Balanced text
  noLimit : ∀ ws, scanWords text = some ws → ∀ w ∈ ws, w.text ≠ ("limit" : Str)

/-- A select statement. -/
structure Query where
  quantifier : Option Quantifier
  items : List Item
  items_ne : items ≠ []
  schema : Option Ident
  table : Ident
  cond : Option Cond
  limit : Option ℕ
  limit_lt : ∀ n ∈ limit, n < 2 ^ 64

/-- `SELECT … FROM t`. -/
def Query.ofItems (items : List Item) (items_ne : items ≠ []) : Query where
  quantifier := none
  items := items
  items_ne := items_ne
  schema := none
  table := ⟨"t", by decide, by decide⟩
  cond := none
  limit := none
  limit_lt := by rintro n ⟨⟩

/-! ## Texts -/

/-- A name after its qualifiers. -/
def qualified (quals : List Ident) (name : Str) : Str :=
  quals.foldr (fun q s => q.text ++ '.' :: s) name

def Expr.render : Expr → Str
  | .column quals name => qualified quals name.text
  | .int neg digits _ _ => if neg then '-' :: digits else digits
  | .literal s => quoted s
  | .call f args _ => f.text ++ group args

def Alias.render : Alias → Str
  | .ident a => a.text
  | .quoted s _ => dquoted s

/-- An expression with its cast. -/
def renderCast (e : Expr) : Option SqlType → Str
  | none => e.render
  | some t => e.render ++ ':' :: ':' :: t.text

def Item.render : Item → Str
  | .star => "*"
  | .starOf q => q.text ++ ".*".toList
  | .expr e cast none => renderCast e cast
  | .expr e cast (some a) => renderCast e cast ++ ' ' :: "AS".toList ++ ' ' :: a.render

/-- The items, separated by commas. -/
def renderItems : List Item → Str
  | [] => []
  | [i] => i.render
  | i :: j :: l => i.render ++ ',' :: ' ' :: renderItems (j :: l)

def Quantifier.render : Quantifier → Str
  | .distinct => "DISTINCT"
  | .all => "ALL"

/-- The select list with its quantifier. -/
def Query.renderList (q : Query) : Str :=
  match q.quantifier with
  | none => renderItems q.items
  | some k => k.render ++ ' ' :: renderItems q.items

/-- The table with its schema. -/
def Query.target (q : Query) : Str :=
  match q.schema with
  | none => q.table.text
  | some s => s.text ++ '.' :: q.table.text

/-- What follows the table. -/
def Query.renderTail (q : Query) : Str :=
  (match q.cond with
    | none => []
    | some c => ' ' :: "WHERE".toList ++ ' ' :: c.text) ++
  (match q.limit with
    | none => []
    | some n => ' ' :: "LIMIT".toList ++ ' ' :: decimal n)

/-- The text of a query. -/
def Query.render (q : Query) : Str :=
  "SELECT".toList ++ ' ' :: q.renderList ++ ' ' :: "FROM".toList ++ ' ' :: q.target ++
    q.renderTail

/-! ## Shapes -/

/-- The column an expression gives: its last segment, its function name or no name;
literals are echoed. -/
def Expr.spec : Expr → ColumnSpec
  | .column _ name => .named name.text
  | .int neg digits ne digit => .echo unnamed (Expr.int neg digits ne digit).render .int4
  | .literal s => .echo unnamed s .text
  | .call f _ _ =>
    { ColumnSpec.named (lower f.text) with aggregate := aggregates.contains (lower f.text) }

/-- The name an alias gives. -/
def Alias.name : Alias → Str
  | .ident a => a.text
  | .quoted s _ => s

/-- A column with an alias. -/
def ColumnSpec.rename (c : ColumnSpec) (a : Option Alias) : ColumnSpec :=
  { c with name := (a.map Alias.name).getD c.name }

/-- A column with a cast, which retypes its literal. -/
def ColumnSpec.retype (c : ColumnSpec) : Option SqlType → ColumnSpec
  | none => c
  | some t => { c with cast := some t.wt, literal := c.literal.map fun l => (l.1, t.wt) }

/-- The columns of an item. -/
def Item.columns : Item → List ColumnSpec
  | .star | .starOf _ => starColumns.map .named
  | .expr e cast a => [(e.spec.rename a).retype cast]

/-- Whether an item is a star. -/
def Item.isStar : Item → Bool
  | .star | .starOf _ => true
  | .expr .. => false

/-- Whether a query reads a system catalog: by its schema, which is the table itself when
there is none, or by a table name that begins with `pg_`. -/
def Query.readsCatalog (q : Query) : Bool :=
  let schema := lower (q.schema.getD q.table).text
  schema == "pg_catalog".toList || schema == "information_schema".toList ||
    "pg_".toList.isPrefixOf (lower q.table.text)

/-- **The shape a client expects.** -/
def Query.shape (q : Query) : ResultShape where
  kind := .select
  columns := q.items.flatMap Item.columns
  tableHint := some (lower q.table.text)
  limit := q.limit
  selectStar := q.items.any Item.isStar
  hasWhere := q.cond.isSome
  forceEmpty := q.readsCatalog

end EtherealDb
