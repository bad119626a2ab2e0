import QuerySql.Compile.Records
import QuerySql.Compile.Write

/-!
# The form of a query

The form of a query is the query with every literal replaced by a fixed one of
the same JSON type. Literals are the scalars other than null that stand where a
value is asked for: at a field or an operator of a filter, in the list of `in`
and `notIn`, in a cursor, and in the data of a write. Two queries are of one
form if they differ in nothing else.
-/

set_option autoImplicit false

namespace QuerySql

/-- The literal that stands for all of its type. -/
def Json.blank : Json → Json
  | .bool _ => .bool false
  | .num _ => .num (.int 0)
  | .str _ => .str ""
  | json => json

def Json.Entries.blank (entries : Json.Entries) : Json.Entries :=
  entries.map fun e => (e.1, e.2.blank)

def FieldOperator.takesLiteral : FieldOperator → Bool
  | .equals | .not | .compare _ | .pattern _ => true
  | .isIn _ | .unsupported _ => false

namespace Condition

mutual

def formOperators : List (String × Json) → List (String × Json)
  | [] => []
  | (key, value) :: rest => (key, formOperand key value) :: formOperators rest

def formOperand (key : String) : Json → Json
  | .obj nested => if key = "not" then .obj (formOperators nested) else .obj nested
  | .arr items =>
    match FieldOperator.ofKey? key with
    | some (.isIn _) => .arr (items.map Json.blank)
    | _ => .arr items
  | json => if (FieldOperator.ofKey? key).any FieldOperator.takesLiteral then json.blank else json

end

def form : Json → Json
  | .obj entries => .obj (formOperators entries)
  | json => json.blank

end Condition

namespace Filter

mutual

/-- What a key stands for is decided by the model: the values of fields are
conditions, those of connectives and relations are filters again. -/
def form (schema : Schema) (m : Model) : List (String × Json) → List (String × Json)
  | [] => []
  | (key, value) :: rest =>
    (key, match Connective.ofKey? key, m.field? key, m.relation? key with
      | some _, _, _ => formOperand schema m value
      | none, some _, _ => Condition.form value
      | none, none, some r => formRelation schema r value
      | none, none, none => value) :: form schema m rest

def formOperand (schema : Schema) (m : Model) : Json → Json
  | .obj entries => .obj (form schema m entries)
  | .arr items => .arr (formItems schema m items)
  | json => json

def formItems (schema : Schema) (m : Model) : List Json → List Json
  | [] => []
  | .obj entries :: rest => .obj (form schema m entries) :: formItems schema m rest
  | json :: rest => json :: formItems schema m rest

def formRelation (schema : Schema) (r : Relation) : Json → Json
  | .obj entries =>
    if Quantifier.count entries = 0 then
      match schema.model? r.target with
      | some target => .obj (form schema target entries)
      | none => .obj entries
    else .obj (formQuantifiers schema r entries)
  | json => json

def formQuantifiers (schema : Schema) (r : Relation) :
    List (String × Json) → List (String × Json)
  | [] => []
  | (key, value) :: rest => (key, formQuantified schema r value) :: formQuantifiers schema r rest

def formQuantified (schema : Schema) (r : Relation) : Json → Json
  | .obj entries =>
    match schema.model? r.target with
    | some target => .obj (form schema target entries)
    | none => .obj entries
  | json => json

end

end Filter

namespace Having

def formField : Json → Json
  | .obj entries => .obj (entries.map fun e =>
      (e.1, if (Aggregate.ofKey? e.1).isSome then Condition.form e.2
        else Condition.formOperand e.1 e.2))
  | json => json.blank

mutual

def form : List (String × Json) → List (String × Json)
  | [] => []
  | (key, value) :: rest =>
    (key, if (Connective.ofKey? key).isSome then formOperand value else formField value) ::
      form rest

def formOperand : Json → Json
  | .obj entries => .obj (form entries)
  | .arr items => .arr (formItems items)
  | json => json

def formItems : List Json → List Json
  | [] => []
  | .obj entries :: rest => .obj (form entries) :: formItems rest
  | json :: rest => json :: formItems rest

end

end Having

namespace Records

mutual

def form (schema : Schema) (m : Model) : List (String × Json) → List (String × Json)
  | [] => []
  | (key, value) :: rest =>
    (key, match m.field? key, m.relation? key with
      | none, some r => formRelation schema r value
      | _, _ => value) :: form schema m rest

def formRelation (schema : Schema) (r : Relation) : Json → Json
  | .obj entries =>
    match schema.model? r.target with
    | some target => .obj (formArgs schema target entries)
    | none => .obj entries
  | json => json

def formArgs (schema : Schema) (target : Model) : List (String × Json) → List (String × Json)
  | [] => []
  | (key, value) :: rest => (key, formArg schema target key value) :: formArgs schema target rest

def formArg (schema : Schema) (target : Model) (key : String) : Json → Json
  | .obj entries =>
    if key = "where" then .obj (Filter.form schema target entries)
    else if key = "select" || key = "include" then .obj (form schema target entries)
    else .obj entries
  | json => json

end

end Records

def Write.form : Json → Json
  | .obj [(op, value)] => if op = setKey then .obj [(op, value.blank)] else .obj [(op, value)]
  | json => json.blank

def Args.form (schema : Schema) (m : Model) (args : Args) : Args :=
  { args with
    filter := args.filter.map (Filter.form schema m)
    select := args.select.map (Records.form schema m)
    inclusion := args.inclusion.map (Records.form schema m)
    cursor := args.cursor.map Json.Entries.blank
    having := args.having.map Having.form
    data := args.data.map fun entries => entries.map fun e => (e.1, Write.form e.2) }

end QuerySql
