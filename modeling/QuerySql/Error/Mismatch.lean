import QuerySql.Error.Fault

/-!
# Mismatches of decoded arguments

A mismatch says where a JSON value fails to have the shape that its reader
expects, before any schema is looked at.
-/

set_option autoImplicit false

namespace QuerySql

inductive Mismatch where
  | type (found : Json) (expected : String)
  | value (found : Json) (expected : String)
  | length (found : Nat) (expected : String)
  | unknownField (key : String) (known : List String)
  | unknownVariant (name : String) (known : List String)
  | duplicateField (key : String)
  | noAlternative (name : String)

namespace Mismatch

def found : Json → String
  | .null => "null"
  | .bool b => "boolean " ++ ticked (Json.bool b).text
  | .num (.int i) => "integer " ++ ticked (toString i)
  | .num (.double d) => "floating point " ++ ticked (Layout.json.write d)
  | .str s => "string " ++ Text.quote Text.diagnosticEscape s
  | .arr _ => "sequence"
  | .obj _ => "map"

def oneOf : List String → String
  | [] => "there are no alternatives"
  | [a] => "expected " ++ ticked a
  | [a, b] => "expected " ++ ticked a ++ " or " ++ ticked b
  | names => "expected one of " ++ ", ".intercalate (names.map ticked)

def text : Mismatch → String
  | .type json expected => "invalid type: " ++ found json ++ ", expected " ++ expected
  | .value json expected => "invalid value: " ++ found json ++ ", expected " ++ expected
  | .length n expected => "invalid length " ++ toString n ++ ", expected " ++ expected
  | .unknownField key known => "unknown field " ++ ticked key ++ ", " ++ oneOf known
  | .unknownVariant name known => "unknown variant " ++ ticked name ++ ", " ++ oneOf known
  | .duplicateField key => "duplicate field " ++ ticked key
  | .noAlternative name => "data did not match any variant of untagged enum " ++ name

end Mismatch

end QuerySql
