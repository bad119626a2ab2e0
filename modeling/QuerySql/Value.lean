import QuerySql.Json.Printer

/-!
# Bound values

The scalars a statement binds to its placeholders. Arrays and objects are no
scalars; an integer past the signed 64-bit range becomes the nearest double.
-/

set_option autoImplicit false

namespace QuerySql

inductive Value where
  | null
  | bool (value : Bool)
  | int (value : Int)
  | double (value : Double)
  | text (value : String)
  deriving DecidableEq, Repr, Inhabited

namespace Value

def ofInt (i : Int) : Value :=
  if -Int.pow 2 63 ≤ i && i < Int.pow 2 63 then .int i else .double (Double.ofInt i)

def ofJson? : Json → Option Value
  | .null => some .null
  | .bool b => some (.bool b)
  | .num (.int i) => some (ofInt i)
  | .num (.double d) => some (.double d)
  | .str s => some (.text s)
  | .arr _ => none
  | .obj _ => none

def toJson : Value → Json
  | .null => .null
  | .bool b => .bool b
  | .int i => .num (.int i)
  | .double d => .num (.double d)
  | .text s => .str s

def isNull : Value → Bool
  | .null => true
  | _ => false

def text? : Value → Option String
  | .text s => some s
  | _ => none

/-- Doubles are compared as numbers, all else as it stands. -/
def same : Value → Value → Bool
  | .double a, .double b => a.sameNumber b
  | a, b => a = b

def display : Value → String
  | .null => "NULL"
  | .bool true => "true"
  | .bool false => "false"
  | .int i => toString i
  | .double d => Layout.plain.write d
  | .text s => Text.quote Text.diagnosticEscape s

end Value

end QuerySql
