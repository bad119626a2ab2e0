import QuerySql.Compile.Basic

/-!
# Aggregates and groups

The columns of `count`, `aggregate` and `groupBy`. An aggregate is asked for
by `true` (the count of rows) or by an object of fields with a flag each; its
column is named for the aggregate and the field.
-/

set_option autoImplicit false

namespace QuerySql.Aggregation

def rowsKey : String := "_all"

def field (m : Model) (kind : Aggregate) (name : String) : Except Error Field := do
  let f ← m.expectField name
  if kind.needsNumeric && !f.type.isNumeric then
    throw (m.faultAt name (.aggregateType kind name f.type))
  return f

def columnName (kind : Aggregate) (field : String) : String := kind.key ++ "_" ++ field

def fieldColumns (cx : Context) (kind : Aggregate) :
    List (String × Json) → Except Error (List Projection)
  | [] => .ok []
  | (name, value) :: rest => do
    let here ←
      if ← Compile.flag cx.model name value then
        if name = rowsKey && kind.isGlobal then
          pure [Projection.aggregate kind none (columnName kind name)]
        else do
          let f ← field cx.model kind name
          pure [Projection.aggregate kind (some (Compile.column cx f)) (columnName kind name)]
      else pure []
    let later ← fieldColumns cx kind rest
    return here ++ later

def payloadColumns (cx : Context) (kind : Aggregate) : Json → Except Error (List Projection)
  | .bool true =>
    if kind.isGlobal then .ok [.aggregate kind none kind.key]
    else .error (cx.model.fault (.aggregateNeedsFields kind))
  | .bool false => .ok []
  | .obj fields => fieldColumns cx kind fields
  | json => .error (cx.model.fault (.aggregateShape kind json.kind))

def columns (cx : Context) (args : Args) : List Aggregate → Except Error (List Projection)
  | [] => .ok []
  | kind :: rest => do
    let here ←
      match args.aggregate kind with
      | some payload => payloadColumns cx kind payload
      | none => pure []
    let later ← columns cx args rest
    return here ++ later

def countColumns (cx : Context) (args : Args) : Except Error (List Projection) := do
  let columns ← payloadColumns cx .count (args.count.getD (.bool true))
  if columns.isEmpty then throw (cx.model.fault .emptyCount)
  return columns

def aggregateColumns (cx : Context) (args : Args) : Except Error (List Projection) := do
  let columns ← columns cx args Aggregate.all
  if columns.isEmpty then throw (cx.model.fault .emptyAggregate)
  return columns

def grouping (m : Model) (names : Option (List String)) : Except Error (List Field) := do
  let names := names.getD []
  if names.isEmpty then throw (m.fault .emptyGrouping)
  names.mapM m.expectField

def groupColumns (cx : Context) (args : Args) : Except Error (List Projection) := do
  let fields ← grouping cx.model args.grouping
  let aggregates ← columns cx args Aggregate.all
  return fields.map (fun f => .column (Compile.column cx f)) ++ aggregates

/-- The field names that the payloads mention, set or not, whole rows apart. -/
def mentioned (args : Args) : List String :=
  Aggregate.all.flatMap fun kind =>
    match args.aggregate kind with
    | some (.obj fields) => (fields.map (·.1)).filter (· ≠ rowsKey)
    | _ => []

def mentionedFields (m : Model) (args : Args) : Except Error (List Field) := do
  let fields ← (mentioned args).mapM m.expectField
  return fields.foldl
    (fun kept f => if kept.any (·.name = f.name) then kept else kept ++ [f]) []

end QuerySql.Aggregation
