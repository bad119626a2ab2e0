import QuerySql.Query.Args

/-!
# Decoding arguments and operations

Arguments come as an object, entry by entry in the order written, or as a list
with one place for every argument. `null` leaves an argument unset. The first
entry of a wrong shape is the one reported.
-/

set_option autoImplicit false

namespace QuerySql

namespace Decode

def entries : Json → Except Error Json.Entries
  | .obj entries => .ok entries
  | json => .error (.mismatch (.type json "a map"))

def natural (name : String) : Json → Except Error Nat
  | .num (.int (.ofNat n)) => .ok n
  | .num (.int (.negSucc n)) => .error (.mismatch (.value (.num (.int (.negSucc n))) name))
  | json => .error (.mismatch (.type json name))

def ordering? : Json → Option (List Json.Entries)
  | .obj entries => some [entries]
  | .arr items => items.mapM Json.entries?
  | _ => none

def ordering (json : Json) : Except Error (List Json.Entries) :=
  match ordering? json with
  | some entries => .ok entries
  | none => .error (.mismatch (.noAlternative "OrderByArg"))

def fieldNames? : Json → Option (List String)
  | .str name => some [name]
  | .arr items => items.mapM Json.str?
  | _ => none

def fieldNames (json : Json) : Except Error (List String) :=
  match fieldNames? json with
  | some names => .ok names
  | none => .error (.mismatch (.noAlternative "Fields"))

end Decode

namespace Args

def set (args : Args) (a : Argument) (json : Json) : Except Error Args :=
  match a with
  | .filter => return { args with filter := some (← Decode.entries json) }
  | .select => return { args with select := some (← Decode.entries json) }
  | .inclusion => return { args with inclusion := some (← Decode.entries json) }
  | .orderBy => return { args with orderBy := some (← Decode.ordering json) }
  | .take => return { args with take := some (← Decode.natural "u64" json) }
  | .skip => return { args with skip := some (← Decode.natural "u64" json) }
  | .cursor => return { args with cursor := some (← Decode.entries json) }
  | .distinct => return { args with distinct := some (← Decode.fieldNames json) }
  | .aggregate .count => .ok { args with count := some json }
  | .aggregate .sum => .ok { args with sum := some json }
  | .aggregate .avg => .ok { args with avg := some json }
  | .aggregate .min => .ok { args with min := some json }
  | .aggregate .max => .ok { args with max := some json }
  | .grouping => return { args with grouping := some (← Decode.fieldNames json) }
  | .having => return { args with having := some (← Decode.entries json) }
  | .data => return { args with data := some (← Decode.entries json) }

def read (args : Args) (a : Argument) : Json → Except Error Args
  | .null => .ok args
  | json => args.set a json

def readEntries (args : Args) : Json.Entries → Except Error Args
  | [] => .ok args
  | (key, value) :: rest =>
    match Argument.ofKey? key with
    | none => .error (.mismatch (.unknownField key (Argument.all.map Argument.key)))
    | some a => do
      let args ← args.read a value
      readEntries args rest

/-- Reads places in order; `count` is the length of the whole list. -/
def readPlaces (count : Nat) (args : Args) : List Argument → List Json → Except Error Args
  | [], [] => .ok args
  | [], _ :: _ => .error (.mismatch (.length count "fewer elements in array"))
  | _ :: _, [] => .error (.mismatch (.length count "struct QueryArgs with 16 elements"))
  | a :: places, value :: values => do
    let args ← args.read a value
    readPlaces count args places values

def ofJson : Json → Except Error Args
  | .obj entries => readEntries {} entries
  | .arr values => readPlaces values.length {} Argument.all values
  | json => .error (.mismatch (.type json "struct QueryArgs"))

end Args

namespace Operation

def ofName (name : String) : Except Error Operation :=
  match ofName? name with
  | some op => .ok op
  | none => .error (.validation (.unknownOperation name))

def variant (name : String) : Except Error Operation :=
  match ofName? name with
  | some op => .ok op
  | none => .error (.mismatch (.unknownVariant name (all.map Operation.name)))

/-- An operation as JSON: its name, or an object from its name to `null`. -/
def ofJson : Json → Except Error Operation
  | .str name => variant name
  | .obj [(name, payload)] => do
    let op ← variant name
    match payload with
    | .null => return op
    | _ => .error (.mismatch (.type payload "unit"))
  | .obj entries => .error (.mismatch (.value (.obj entries) "map with a single key"))
  | json => .error (.mismatch (.type json "string or map"))

end Operation

end QuerySql
