import QuerySql.Compile.Aggregation
import QuerySql.Compile.Filter

/-!
# Conditions on groups

A condition on groups has the connectives of a filter. A field's object mixes
conditions on aggregates of the field with conditions on the field itself; the
latter come last and need the field among those grouped by.
-/

set_option autoImplicit false

namespace QuerySql.Having

def checkOperand (m : Model) (c : Connective) : Json → Except Error Unit
  | .obj _ => .ok ()
  | .arr (item :: items) => c.checkItems m (item :: items)
  | json => .error (m.fault (.groupConnectiveShape c.key json.kind))

def aggregateConditions (cx : Context) (f : Field) :
    List (String × Json) → Except Error (List Pred)
  | [] => .ok []
  | (key, value) :: rest => do
    let here ←
      match Aggregate.ofKey? key with
      | some kind => do
        let f ← Aggregation.field cx.model kind f.name
        Condition.compile cx.model f (.aggregate kind (some (Compile.column cx f))) value
      | none => pure none
    let later ← aggregateConditions cx f rest
    return here.toList ++ later

/-- The entries under other keys, which speak of the field itself. -/
def plainEntries (entries : Json.Entries) : Json.Entries :=
  entries.filter fun e => (Aggregate.ofKey? e.1).isNone

def plainCondition (cx : Context) (f : Field) (grouped : List String) (entries : Json.Entries) :
    Except Error (Option Pred) :=
  if entries.isEmpty then .ok none
  else if grouped.contains f.name then
    Condition.compile cx.model f (.column (Compile.column cx f)) (.obj entries)
  else .error (cx.model.faultAt f.name .groupCondition)

def fieldConditions (cx : Context) (f : Field) (grouped : List String) :
    Json → Except Error (List Pred)
  | .obj entries => do
    let aggregates ← aggregateConditions cx f entries
    let plain ← plainCondition cx f grouped (plainEntries entries)
    return aggregates ++ plain.toList
  | json => do
    let plain ← plainCondition cx f grouped [("equals", json)]
    return plain.toList

mutual

def conditions (cx : Context) (grouped : List String) :
    List (String × Json) → Except Error (List Pred)
  | [] => .ok []
  | (key, value) :: rest => do
    let here ←
      match Connective.ofKey? key with
      | some c => (fun p => [p]) <$> connective cx grouped c value
      | none => do
        let f ← cx.model.expectField key
        fieldConditions cx f grouped value
    let later ← conditions cx grouped rest
    return here ++ later

def connective (cx : Context) (grouped : List String) (c : Connective) (value : Json) :
    Except Error Pred := do
  checkOperand cx.model c value
  let operands ←
    match value with
    | .obj entries => (fun ps => [Pred.all? ps]) <$> conditions cx grouped entries
    | .arr items => each cx grouped items
    | _ => pure []
  c.apply cx.model operands

def each (cx : Context) (grouped : List String) : List Json → Except Error (List (Option Pred))
  | [] => .ok []
  | .obj entries :: rest => do
    let here ← conditions cx grouped entries
    let later ← each cx grouped rest
    return Pred.all? here :: later
  | _ :: rest => each cx grouped rest

end

def compile? (cx : Context) (grouped : List String) :
    Option Json.Entries → Except Error (Option Pred)
  | some entries => Pred.all? <$> conditions cx grouped entries
  | none => .ok none

end QuerySql.Having
