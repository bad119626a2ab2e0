import QuerySql.Error.Basic
import QuerySql.Sql.Operator

/-!
# Dialects

A dialect is a record of decisions on spelling, and of the two features that
not every database has: `DISTINCT ON` and the placement of nulls. Whatever the
record does not decide is common to all dialects.
-/

set_option autoImplicit false

namespace QuerySql

namespace Dialect

/-- Identifiers stand between two delimiters; where the closing one is
`doubled`, it is written twice inside. -/
structure Quotes where
  opening : Char
  closing : Char
  doubled : Bool
  deriving DecidableEq, Repr

/-- A placeholder is a mark, followed by its number where they are numbered. -/
structure Placeholders where
  mark : String
  numbered : Bool
  deriving DecidableEq, Repr

inductive NullPlacement where
  | written
  | refused (product : String)
  deriving DecidableEq, Repr

/-- How the rows of a derived table are folded into JSON. -/
inductive JsonFold where
  /-- Rows become objects built by a function of key and value pairs; an array
  of rows is the object between `arrayOpen` and `arrayClose`. A nested document
  comes back as text and is `reparsed` in some dialects. -/
  | objects (function arrayOpen arrayClose : String) (reparsed : Bool)
  | wholeRow (expr : String)
  deriving DecidableEq, Repr

end Dialect

structure Dialect where
  name : String
  quotes : Dialect.Quotes
  placeholders : Dialect.Placeholders
  json : Dialect.JsonFold
  /-- A backslash in a string literal is written twice. -/
  backslashEscapes : Bool := false
  /-- The escape character of a pattern has to be stated. -/
  statesLikeEscape : Bool := false
  distinctOn : Bool := false
  nulls : Dialect.NullPlacement := .written
  /-- The limit that stands for none, where an offset needs one before it. -/
  unlimited : Option String := none
  emptyInsert : String := "DEFAULT VALUES"
  deletesByAlias : Bool := false
  deriving DecidableEq, Repr

namespace Dialect

def double (delimiter : Char) (s : String) : List Char :=
  s.toList.flatMap fun c => if c = delimiter then [c, c] else [c]

def quote (d : Dialect) (ident : String) : String :=
  let q := d.quotes
  let body := if q.doubled then double q.closing ident else ident.toList
  String.ofList (q.opening :: (body ++ [q.closing]))

def placeholder (d : Dialect) (n : Nat) : String :=
  if d.placeholders.numbered then d.placeholders.mark ++ toString n else d.placeholders.mark

def literalEscape (d : Dialect) (c : Char) : List Char :=
  if c = '\'' || (d.backslashEscapes && c = '\\') then [c, c] else [c]

/-- A literal for text that the schema defines, such as the keys of a JSON
object. Values of a query are always bound instead. -/
def stringLiteral (d : Dialect) (s : String) : String :=
  String.ofList ('\'' :: (s.toList.flatMap d.literalEscape ++ ['\'']))

def checkNulls (d : Dialect) (nulls : Option Nulls) : Except Error Unit :=
  match d.nulls, nulls with
  | .refused product, some _ => .error (.unsupported (.nullsOrdering product))
  | _, _ => .ok ()

def checkDistinctOn (d : Dialect) : Except Error Unit :=
  if d.distinctOn then .ok () else .error (.unsupported .distinctOn)

def postgresql : Dialect where
  name := "postgresql"
  quotes := ⟨'"', '"', true⟩
  placeholders := ⟨"$", true⟩
  json := .objects "json_build_object" "COALESCE(json_agg(" "), '[]'::json)" false
  distinctOn := true

def sqlite : Dialect where
  name := "sqlite"
  quotes := ⟨'"', '"', true⟩
  placeholders := ⟨"?", true⟩
  json := .objects "json_object" "json_group_array(" ")" true
  statesLikeEscape := true
  unlimited := some "-1"

def mysql : Dialect where
  name := "mysql"
  quotes := ⟨'`', '`', true⟩
  placeholders := ⟨"?", false⟩
  json := .objects "JSON_OBJECT" "COALESCE(JSON_ARRAYAGG(" "), JSON_ARRAY())" false
  backslashEscapes := true
  nulls := .refused "MySQL"
  unlimited := some "18446744073709551615"
  emptyInsert := "() VALUES ()"
  deletesByAlias := true

def bracketed : Dialect where
  name := "bracketed"
  quotes := ⟨'[', ']', false⟩
  placeholders := ⟨"@p", true⟩
  json := .wholeRow "JSON_ARRAY(*)"

end Dialect

inductive Engine where
  | postgresql
  | sqlite
  | mysql
  deriving DecidableEq, Repr

namespace Engine

def all : List Engine := [.postgresql, .sqlite, .mysql]

def dialect : Engine → Dialect
  | .postgresql => .postgresql
  | .sqlite => .sqlite
  | .mysql => .mysql

def name (e : Engine) : String := e.dialect.name

def ofName? (s : String) : Option Engine := all.find? fun e => e.name = s

end Engine

end QuerySql
