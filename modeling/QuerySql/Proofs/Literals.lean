import QuerySql.Compile.Keyset
import QuerySql.Compile.Records
import QuerySql.Compile.Write

/-!
# The literals of a query

The literals of a query in the order in which they are written, as the values
that they are bound as. A null is no literal outside a payload, nor are modes,
flags, orderings and pages.
-/

set_option autoImplicit false

namespace QuerySql

def Json.literals : Json → List Value
  | .null => []
  | json => (Value.ofJson? json).toList

def FieldOperator.literals : FieldOperator → Json → List Value
  | .pattern p, .str text => [.text (p.write text)]
  | .isIn _, .arr items => items.flatMap Json.literals
  | .equals, json | .not, json | .compare _, json => json.literals
  | _, _ => []

namespace Condition

mutual

def operatorLiterals : List (String × Json) → List Value
  | [] => []
  | (key, value) :: rest => entryLiterals key value ++ operatorLiterals rest

def entryLiterals (key : String) : Json → List Value
  | .obj nested => if key = "not" then operatorLiterals nested else []
  | json => ((FieldOperator.ofKey? key).map fun op => op.literals json).getD []

end

def literals : Json → List Value
  | .obj entries => operatorLiterals entries
  | json => json.literals

end Condition

namespace Filter

mutual

def literals (schema : Schema) (m : Model) : List (String × Json) → List Value
  | [] => []
  | (key, value) :: rest =>
    (match Connective.ofKey? key, m.field? key, m.relation? key with
      | some _, _, _ => operandLiterals schema m value
      | none, some _, _ => Condition.literals value
      | none, none, some r => relationLiterals schema r value
      | none, none, none => []) ++ literals schema m rest

def operandLiterals (schema : Schema) (m : Model) : Json → List Value
  | .obj entries => literals schema m entries
  | .arr items => itemLiterals schema m items
  | _ => []

def itemLiterals (schema : Schema) (m : Model) : List Json → List Value
  | [] => []
  | .obj entries :: rest => literals schema m entries ++ itemLiterals schema m rest
  | _ :: rest => itemLiterals schema m rest

def relationLiterals (schema : Schema) (r : Relation) : Json → List Value
  | .obj entries =>
    if Quantifier.count entries = 0 then
      match schema.model? r.target with
      | some target => literals schema target entries
      | none => []
    else quantifierLiterals schema r entries
  | _ => []

def quantifierLiterals (schema : Schema) (r : Relation) : List (String × Json) → List Value
  | [] => []
  | (_, value) :: rest => quantifiedLiterals schema r value ++ quantifierLiterals schema r rest

def quantifiedLiterals (schema : Schema) (r : Relation) : Json → List Value
  | .obj entries =>
    match schema.model? r.target with
    | some target => literals schema target entries
    | none => []
  | _ => []

end

end Filter

namespace Having

/-- Of one field the conditions on aggregates come first. -/
def fieldLiterals : Json → List Value
  | .obj entries =>
    (entries.flatMap fun e =>
      if (Aggregate.ofKey? e.1).isSome then Condition.literals e.2 else []) ++
    entries.flatMap fun e =>
      if (Aggregate.ofKey? e.1).isSome then [] else Condition.entryLiterals e.1 e.2
  | json => json.literals

mutual

def literals : List (String × Json) → List Value
  | [] => []
  | (key, value) :: rest =>
    (if (Connective.ofKey? key).isSome then operandLiterals value else fieldLiterals value) ++
      literals rest

def operandLiterals : Json → List Value
  | .obj entries => literals entries
  | .arr items => itemLiterals items
  | _ => []

def itemLiterals : List Json → List Value
  | [] => []
  | .obj entries :: rest => literals entries ++ itemLiterals rest
  | _ :: rest => itemLiterals rest

end

end Having

/-- The filter among a relation's arguments; the last one counts. -/
def RelationArgs.filterOf : List (String × Json) → Option Json.Entries
  | [] => none
  | (key, value) :: rest => (filterOf rest).or (if key = "where" then value.entries? else none)

namespace Records

mutual

def literals (schema : Schema) (m : Model) : List (String × Json) → List Value
  | [] => []
  | (key, value) :: rest =>
    (match m.field? key, m.relation? key with
      | none, some r => relationLiterals schema r value
      | _, _ => []) ++ literals schema m rest

/-- The literals of the relation's own selection come before those of its filter. -/
def relationLiterals (schema : Schema) (r : Relation) : Json → List Value
  | .obj args =>
    match schema.model? r.target with
    | some target => nestedLiterals schema target args ++
        Filter.literals schema target ((RelationArgs.filterOf args).getD [])
    | none => []
  | _ => []

def nestedLiterals (schema : Schema) (target : Model) : List (String × Json) → List Value
  | [] => []
  | (key, .obj entries) :: rest =>
    if key = "select" || key = "include" then literals schema target entries
    else nestedLiterals schema target rest
  | _ :: rest => nestedLiterals schema target rest

end

end Records

namespace Keyset

/-- The keys of a page: the fields named by the ordering, then the cursor's, each
where it is first named. -/
def pageKeys (orderBy : Option (List Json.Entries)) (cursor : Json.Entries) : List String :=
  ((orderBy.getD []).flatMap Json.Entries.keys ++ cursor.keys).eraseDups

def literals (orderBy : Option (List Json.Entries)) (cursor : Json.Entries) : List Value :=
  (pageKeys orderBy cursor).flatMap fun name => ((cursor.get? name).map Json.literals).getD []

end Keyset

namespace Write

def held : Json → Json
  | .obj [(op, value)] => if op = setKey then value else .obj [(op, value)]
  | json => json

def literal (json : Json) : Value := (Value.ofJson? (held json)).getD (.text (held json).text)

end Write

/-- The literals of a query on a model, in the order of its placeholders. -/
def Args.literals (schema : Schema) (m : Model) (args : Args) (op : Operation) : List Value :=
  let selection := Records.literals schema m (args.select.getD []) ++
    Records.literals schema m (args.inclusion.getD [])
  let filter := Filter.literals schema m (args.filter.getD [])
  let cursor := Keyset.literals args.orderBy (args.cursor.getD [])
  let data := (args.data.getD []).map fun e => Write.literal e.2
  match op with
  | .findMany | .findFirst | .findUnique => selection ++ filter ++ cursor
  | .count | .aggregate => filter ++ cursor
  | .groupBy => filter ++ Having.literals (args.having.getD [])
  | .create => data
  | .update => data ++ filter
  | .delete => filter

end QuerySql
