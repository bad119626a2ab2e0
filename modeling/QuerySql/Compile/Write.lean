import QuerySql.Compile.Filter

/-!
# Writes

The statements of `create`, `update` and `delete`. A payload assigns values to
fields in the order written, plainly or under `set`.
-/

set_option autoImplicit false

namespace QuerySql.Write

def setKey : String := "set"

/-- The value to be written: what `set` holds if it is the only key, or the
value itself, which is an object only for a document. -/
def payload (m : Model) (f : Field) : Json → Except Error Json
  | .obj [(op, value)] =>
    if op = setKey then .ok value
    else if f.type = .json then .ok (.obj [(op, value)])
    else .error (.unsupported (.updateOperators m.name f.name))
  | .obj entries =>
    if f.type = .json then .ok (.obj entries)
    else .error (.unsupported (.updateOperators m.name f.name))
  | json => .ok json

def value (m : Model) (f : Field) (json : Json) : Except Error Value :=
  match Value.ofJson? json with
  | some value =>
    if value.isNull && !f.nullable then .error (m.faultAt f.name .notNullable) else .ok value
  | none =>
    if f.type = .json then .ok (.text json.text)
    else .error (m.faultAt f.name (.scalarOnly f.type))

def assignments (m : Model) : List (String × Json) → Except Error (List (String × Value))
  | [] => .ok []
  | (key, json) :: rest => do
    if (m.relation? key).isSome then throw (.unsupported .relationWrites)
    match m.field? key with
    | none => throw (m.unknownMember key)
    | some f => do
      let json ← payload m f json
      let value ← value m f json
      let later ← assignments m rest
      return (f.name, value) :: later

def data (cx : Context) : Except Error Json.Entries :=
  match cx.mutation? with
  | some entries => .ok entries
  | none => .error (cx.model.fault (.missingData cx.operation))

def create (cx : Context) : Compile Statement := do
  let assignments ← assignments cx.model (← data cx)
  return .insert cx.model.tableName assignments

def update (s : Settings) (cx : Context) (args : Args) : Compile Statement := do
  let assignments ← assignments cx.model (← data cx)
  if assignments.isEmpty then throw (cx.model.fault .emptyUpdate)
  let filter ← Filter.compile? s cx args.filter
  return .update cx.model.tableName cx.tag assignments filter

def delete (s : Settings) (cx : Context) (args : Args) : Compile Statement := do
  let filter ← Filter.compile? s cx args.filter
  return .delete cx.model.tableName cx.tag filter

end QuerySql.Write
