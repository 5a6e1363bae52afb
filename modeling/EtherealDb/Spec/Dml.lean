import EtherealDb.Proof.Scan

/-!
# Statements that write

A grammar of the statements whose main verb is `INSERT`, `UPDATE` or `DELETE`: the verb, in
any case, is the first word, or it follows a `WITH` list. What follows the verb is free.
-/

namespace EtherealDb

open Str

/-- The verbs that write. -/
inductive Verb where
  | insert | update | delete
  deriving DecidableEq, Repr

def Verb.word : Verb → Str
  | .insert => "insert"
  | .update => "update"
  | .delete => "delete"

/-- The kind of statement a verb makes. -/
def Verb.kind : Verb → StmtKind
  | .insert => .insert
  | .update => .update
  | .delete => .delete

/-- A keyword in any case, with the blanks after it. -/
structure Keyword (kw : Str) where
  text : Str
  gap : Str
  spells : lower text = kw
  blank : gap.all isWhitespace

/-- An entry of a `WITH` list: its name, its columns and `AS` are the head, and its body
stands in brackets. -/
structure Cte where
  head : Str
  body : Str
  gap : Str
  headBalanced : Balanced head
  bodyBalanced : Balanced body
  blank : gap.all isWhitespace

/-- A `WITH` list. -/
structure WithList where
  keyword : Keyword "with"
  apart : keyword.gap ≠ []
  recursive : Option (Keyword "recursive")
  ctes : List Cte
  ctes_ne : ctes ≠ []

/-- A statement that writes. -/
structure Dml where
  lead : Str
  lead_blank : lead.all isWhitespace
  withs : Option WithList
  verb : Verb
  text : Str
  spells : lower text = verb.word
  tail : Str
  tail_breaks : ∀ c ∈ tail.head?, isWordChar c = false

/-! ## Texts -/

def Keyword.render {kw : Str} (k : Keyword kw) : Str := k.text ++ k.gap

def Cte.render (c : Cte) : Str := c.head ++ group c.body ++ c.gap

/-- The entries, separated by commas. -/
def renderCtes : List Cte → Str
  | [] => []
  | [c] => c.render
  | c :: d :: l => c.render ++ ',' :: renderCtes (d :: l)

/-- What follows the word `WITH`. -/
def WithList.renderRest (w : WithList) : Str :=
  w.keyword.gap ++ (w.recursive.map Keyword.render).getD [] ++ renderCtes w.ctes

/-- The text of a statement. -/
def Dml.render (d : Dml) : Str :=
  match d.withs with
  | none => d.lead ++ (d.text ++ d.tail)
  | some w => d.lead ++ (w.keyword.text ++ (w.renderRest ++ (d.text ++ d.tail)))

end EtherealDb
