import QuerySql.Json.Basic
import QuerySql.Decimal.Layout
import QuerySql.Text.Quoted

/-!
# Compact JSON text

No blanks, keys in the order held, doubles by the fewest digits that read
back.
-/

set_option autoImplicit false

namespace QuerySql.Json

def Number.text : Number → String
  | .int i => toString i
  | .double d => Layout.json.write d

mutual

def text : Json → String
  | .null => "null"
  | .bool true => "true"
  | .bool false => "false"
  | .num n => n.text
  | .str s => Text.quote Text.jsonEscape s
  | .arr items => "[" ++ ",".intercalate (itemTexts items) ++ "]"
  | .obj entries => "\x7b" ++ ",".intercalate (entryTexts entries) ++ "\x7d"

def itemTexts : List Json → List String
  | [] => []
  | item :: items => text item :: itemTexts items

def entryTexts : List (String × Json) → List String
  | [] => []
  | (key, value) :: entries =>
    (Text.quote Text.jsonEscape key ++ ":" ++ text value) :: entryTexts entries

end

end QuerySql.Json
