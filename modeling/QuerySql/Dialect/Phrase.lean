import QuerySql.Dialect.Basic
import QuerySql.Fragment
import QuerySql.Query.Operation

/-!
# Phrases

The pieces of SQL that statements are made of, as fragments spelled by a
dialect: operators, aggregates, clauses, statement skeletons and the folding of
rows into JSON.
-/

set_option autoImplicit false

namespace QuerySql

structure JsonColumn where
  name : String
  nested : Bool
  deriving DecidableEq, Repr

namespace Dialect

open Fragment (sql list)

def column (d : Dialect) (tag : Alias) (name : String) : Fragment :=
  sql (tag.text ++ "." ++ d.quote name)

def table (d : Dialect) (name : String) (tag : Alias) : Fragment :=
  sql (d.quote name ++ " AS " ++ tag.text)

def aliased (d : Dialect) (expr : Fragment) (name : String) : Fragment :=
  expr ++ sql " AS " ++ sql (d.quote name)

/-- A single operand stands for itself; any other number is joined and
parenthesized, so that it composes under every operator. -/
def combine (operator : String) : List Fragment → Fragment
  | [operand] => operand
  | operands => (Fragment.join operator operands).parenthesized

def conjunction (operands : List Fragment) : Fragment := combine " AND " operands

def disjunction (operands : List Fragment) : Fragment := combine " OR " operands

def negation (operand : Fragment) : Fragment := sql "NOT (" ++ operand ++ sql ")"

def comparison (lhs : Fragment) (op : Comparison) (rhs : Fragment) : Fragment :=
  lhs ++ sql " " ++ sql op.text ++ sql " " ++ rhs

def nullTest (expr : Fragment) (negated : Bool) : Fragment :=
  expr ++ sql (if negated then " IS NOT NULL" else " IS NULL")

def membership (expr : Fragment) (items : List Fragment) (negated : Bool) : Fragment :=
  expr ++ sql (if negated then " NOT IN (" else " IN (") ++ list items ++ sql ")"

def like (d : Dialect) (expr pattern : Fragment) : Fragment :=
  expr ++ sql " LIKE " ++ pattern ++ sql (if d.statesLikeEscape then " ESCAPE '\\'" else "")

def truth (value : Bool) : Fragment := sql (if value then "TRUE" else "FALSE")

def foldCase (expr : Fragment) : Fragment := sql "LOWER(" ++ expr ++ sql ")"

def presence (subquery : Fragment) (negated : Bool) : Fragment :=
  sql (if negated then "NOT EXISTS (" else "EXISTS (") ++ subquery ++ sql ")"

def aggregateName : Aggregate → String
  | .count => "COUNT"
  | .sum => "SUM"
  | .avg => "AVG"
  | .min => "MIN"
  | .max => "MAX"

/-- Without a column every aggregate is the count of rows. -/
def aggregate (kind : Aggregate) : Option Fragment → Fragment
  | none => sql "COUNT(*)"
  | some column => sql (aggregateName kind) ++ sql "(" ++ column ++ sql ")"

/-- `lead` comes from `distinctOnList`. -/
def selectClause (projection : Fragment) (lead : Option Fragment) : Fragment :=
  sql "SELECT " ++ lead.getD Fragment.empty ++ projection

def distinctOnList (columns : List Fragment) : Fragment :=
  sql "DISTINCT ON (" ++ list columns ++ sql ") "

def fromClause (source : Fragment) : Fragment := sql "FROM " ++ source

def whereClause (predicate : Fragment) : Fragment := sql "WHERE " ++ predicate

def groupByClause (columns : List Fragment) : Fragment := sql "GROUP BY " ++ list columns

def havingClause (predicate : Fragment) : Fragment := sql "HAVING " ++ predicate

def orderByClause (items : List Fragment) : Fragment := sql "ORDER BY " ++ list items

def orderItem (expr : Fragment) (direction : Direction) (nulls : Option Nulls) : Fragment :=
  expr ++ sql " " ++ sql direction.text ++
    match nulls with
    | some nulls => sql (" " ++ nulls.text)
    | none => Fragment.empty

def derivedTable (subquery : Fragment) (tag : Alias) : Fragment :=
  sql "(" ++ subquery ++ sql ") AS " ++ sql tag.text

def selectFromDerived (projection subquery : Fragment) (tag : Alias) : Fragment :=
  selectClause projection none ++ sql " " ++ fromClause (derivedTable subquery tag)

def limitOffset (d : Dialect) : Option Nat → Option Nat → Option Fragment
  | none, none => none
  | some take, none => some (sql ("LIMIT " ++ toString take))
  | none, some skip =>
    match d.unlimited with
    | some unlimited => some (sql ("LIMIT " ++ unlimited ++ " OFFSET " ++ toString skip))
    | none => some (sql ("OFFSET " ++ toString skip))
  | some take, some skip =>
    some (sql ("LIMIT " ++ toString take ++ " OFFSET " ++ toString skip))

def insert (d : Dialect) (table : String) (columns : List String) (values : List Fragment) :
    Fragment :=
  if columns.isEmpty then sql ("INSERT INTO " ++ d.quote table ++ " " ++ d.emptyInsert)
  else
    sql ("INSERT INTO " ++ d.quote table ++ " (") ++ list (columns.map fun c => sql (d.quote c)) ++
      sql ") VALUES (" ++ list values ++ sql ")"

def update (d : Dialect) (table : String) (tag : Alias)
    (assignments : List (String × Fragment)) : Fragment :=
  sql "UPDATE " ++ d.table table tag ++ sql " SET " ++
    list (assignments.map fun (column, value) => sql (d.quote column) ++ sql " = " ++ value)

def delete (d : Dialect) (table : String) (tag : Alias) : Fragment :=
  sql (if d.deletesByAlias then "DELETE " ++ tag.text ++ " FROM " else "DELETE FROM ") ++
    d.table table tag

def jsonPair (d : Dialect) (tag : Alias) (reparsed : Bool) (c : JsonColumn) : Fragment :=
  let value := d.column tag c.name
  sql (d.stringLiteral c.name) ++ sql ", " ++
    if c.nested && reparsed then sql "json(" ++ value ++ sql ")" else value

def jsonObject (d : Dialect) (function : String) (reparsed : Bool) (tag : Alias)
    (columns : List JsonColumn) : Fragment :=
  sql (function ++ "(") ++ list (columns.map (d.jsonPair tag reparsed)) ++ sql ")"

def selectOver (expr subquery : Fragment) (tag : Alias) : Fragment :=
  sql "(SELECT " ++ expr ++ sql " FROM (" ++ subquery ++ sql ") AS " ++ sql tag.text ++ sql ")"

/-- The rows of the subquery as one JSON array, empty and never null when there
are none. -/
def jsonArray (d : Dialect) (subquery : Fragment) (tag : Alias) (columns : List JsonColumn) :
    Fragment :=
  match d.json with
  | .objects function arrayOpen arrayClose reparsed =>
    let object := d.jsonObject function reparsed tag columns
    selectOver (sql arrayOpen ++ object ++ sql arrayClose) subquery tag
  | .wholeRow expr => selectOver (sql expr) subquery tag

/-- The single row of the subquery as a JSON object, null when there is none. -/
def jsonRow (d : Dialect) (subquery : Fragment) (tag : Alias) (columns : List JsonColumn) :
    Fragment :=
  match d.json with
  | .objects function _ _ reparsed =>
    selectOver (d.jsonObject function reparsed tag columns) subquery tag
  | .wholeRow expr => selectOver (sql expr) subquery tag

end Dialect

end QuerySql
