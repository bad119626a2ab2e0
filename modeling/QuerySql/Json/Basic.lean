import QuerySql.Double

/-!
# JSON values

Objects are lists of entries: the order of the keys is part of the value,
since filters, selections and payloads are processed in the order written.
A number is an integer of at most 64 bits or a double, never both.
-/

set_option autoImplicit false

namespace QuerySql

inductive Json.Number where
  | int (value : Int)
  | double (value : Double)
  deriving DecidableEq, Repr

inductive Json where
  | null
  | bool (value : Bool)
  | num (value : Json.Number)
  | str (value : String)
  | arr (items : List Json)
  | obj (entries : List (String × Json))
  deriving Inhabited

namespace Json

abbrev Entries := List (String × Json)

inductive Kind where
  | null
  | boolean
  | number
  | string
  | array
  | object
  deriving DecidableEq, Repr

def kind : Json → Kind
  | .null => .null
  | .bool _ => .boolean
  | .num _ => .number
  | .str _ => .string
  | .arr _ => .array
  | .obj _ => .object

def Kind.text : Kind → String
  | .null => "null"
  | .boolean => "a boolean"
  | .number => "a number"
  | .string => "a string"
  | .array => "an array"
  | .object => "an object"

def Entries.get? (entries : Entries) (key : String) : Option Json :=
  entries.lookup key

def Entries.keys (entries : Entries) : List String := entries.map (·.1)

/-- Writes one entry: a present key keeps its place and takes the new value, a
new key goes to the end. -/
def Entries.put : Entries → String → Json → Entries
  | [], key, value => [(key, value)]
  | (k, v) :: rest, key, value =>
    if k = key then (k, value) :: rest else (k, v) :: Entries.put rest key value

def get? (json : Json) (key : String) : Option Json :=
  match json with
  | .obj entries => Entries.get? entries key
  | _ => none

def nat? : Json → Option Nat
  | .num (.int (.ofNat n)) => some n
  | _ => none

def str? : Json → Option String
  | .str s => some s
  | _ => none

def entries? : Json → Option Entries
  | .obj entries => some entries
  | _ => none

def ofNat (n : Nat) : Json := .num (.int n)

end Json

end QuerySql
