import QuerySql.Compile.Filter
import QuerySql.Compile.Ordering
import QuerySql.Query.Decode

/-!
# Records

The columns of a record read: the selected fields, all of them by default, and
the selected relations. A relation becomes a correlated subquery over the
related table with its own columns, filter, ordering and page.
-/

set_option autoImplicit false

namespace QuerySql

/-- The arguments of a selected relation. The entries of a nested selection are
read from the arguments themselves. -/
structure RelationArgs where
  select : Bool := false
  inclusion : Bool := false
  filter : Option Json.Entries := none
  orderBy : Option (List Json.Entries) := none
  take : Option Nat := none
  skip : Option Nat := none

namespace RelationArgs

def natural (m : Model) (r : Relation) (key : String) (json : Json) : Except Error Nat :=
  match json.nat? with
  | some n => .ok n
  | none => .error (m.faultAt r.name (.includeCount key json.kind))

def ordering (m : Model) (r : Relation) (json : Json) : Except Error (List Json.Entries) :=
  match Decode.ordering? json with
  | some entries => .ok entries
  | none => .error (m.faultAt r.name .includeOrdering)

def set (m : Model) (r : Relation) (args : RelationArgs) (key : String) (value : Json) :
    Except Error RelationArgs :=
  match key with
  | "select" => do
    let _ ← Compile.entries m key value
    return { args with select := true }
  | "include" => do
    let _ ← Compile.entries m key value
    return { args with inclusion := true }
  | "where" => return { args with filter := some (← Compile.entries m key value) }
  | "orderBy" => return { args with orderBy := some (← ordering m r value) }
  | "take" => return { args with take := some (← natural m r key value) }
  | "skip" => return { args with skip := some (← natural m r key value) }
  | _ => .error (m.faultAt r.name (.includeArgument key))

def read (m : Model) (r : Relation) (args : RelationArgs) :
    List (String × Json) → Except Error RelationArgs
  | [] => .ok args
  | (key, value) :: rest => do
    let args ← set m r args key value
    read m r args rest

end RelationArgs

namespace Link

/-- The pairs of a relation by referenced field: a field referenced again keeps
its place and takes the later local field. -/
def byReference (pairs : List (String × String)) : List (String × String) :=
  pairs.foldl (fun found (own, referenced) => put found referenced own) []
where
  put : List (String × String) → String → String → List (String × String)
    | [], referenced, own => [(referenced, own)]
    | (k, v) :: rest, referenced, own =>
      if k = referenced then (k, own) :: rest else (k, v) :: put rest referenced own

def equalities (parent child : Context) :
    List (String × String) → Except Error (List Pred)
  | [] => .ok []
  | (referenced, own) :: rest => do
    let _ ← child.model.expectField referenced
    let _ ← parent.model.expectField own
    let later ← equalities parent child rest
    return equality parent child own referenced :: later

/-- The equalities that refer a child row to its parent row. A relation that pairs no
fields, as none of a built schema does, is refused. -/
def references (parent child : Context) (pairs : List (String × String)) :
    Except Error (List Pred) :=
  if pairs.isEmpty then .error (child.model.fault .missingReference)
  else equalities parent child pairs

def correlation (r : Relation) (parent child : Context) : Compile (List Pred) :=
  match r.cardinality with
  | .manyToMany => do return [← junction r parent child]
  | _ => references parent child (byReference r.pairs)

end Link

namespace Records

def countKey : String := "_count"

def fieldColumns (cx : Context) : List Projection :=
  cx.model.fields.map fun f => .column (Compile.column cx f)

def nonempty (m : Model) (columns : List Projection) : Except Error (List Projection) :=
  if columns.isEmpty then .error (m.fault .emptySelection) else .ok columns

def included (m : Model) (key : String) : Except Error Relation :=
  if key = countKey then .error (.unsupported .relationCounts)
  else if (m.field? key).isSome then .error (m.faultAt key .includedField)
  else m.expectRelation key

def enter (s : Settings) (cx : Context) (r : Relation) (args : RelationArgs) :
    Compile Context := do
  if r.cardinality.isToOne && (args.take.isSome || args.skip.isSome) then
    throw (cx.model.faultAt r.name .includePage)
  let child ← Compile.descend s cx r
  let child := child.withPagination { take := args.take, skip := args.skip }
  if args.select && args.inclusion then throw (child.model.fault .selectionWithInclude)
  return child

/-- Closes the subquery: its filter and link, its ordering and page, and the
derived table that it is folded from. -/
def close (s : Settings) (cx child : Context) (r : Relation) (args : RelationArgs)
    (columns : List Projection) : Compile Projection := do
  let filter ←
    match args.filter with
    | some entries => do
      let p ← Filter.compile s child entries
      pure [← Connective.and.apply child.model [p]]
    | none => pure []
  let links ← Link.correlation r cx child
  let orderBy ← Ordering.compile s child args.orderBy none
  let fold ← Compile.fresh
  return .relation r.name r.cardinality.isToMany fold columns
    { table := child.model.tableName, tag := child.tag, filter := Pred.all? (filter ++ links),
      orderBy := orderBy, take := args.take, skip := args.skip }

mutual

def selected (s : Settings) (cx : Context) : List (String × Json) → Compile (List Projection)
  | [] => return []
  | (key, value) :: rest => do
    let here ←
      match cx.model.field? key, cx.model.relation? key with
      | some f, _ => do
        let flag ← Compile.flag cx.model key value
        pure (if flag then [Projection.column (Compile.column cx f)] else [])
      | none, some r => relation s cx r value
      | none, none =>
        if key = countKey then throw (.unsupported .relationCounts)
        else throw (cx.model.unknownMember key)
    let later ← selected s cx rest
    return here ++ later

/-- The columns of an inclusion, which names relations only. -/
def inclusions (s : Settings) (cx : Context) : List (String × Json) → Compile (List Projection)
  | [] => return []
  | (key, value) :: rest => do
    let r ← included cx.model key
    let here ← relation s cx r value
    let later ← inclusions s cx rest
    return here ++ later

def relation (s : Settings) (cx : Context) (r : Relation) (value : Json) :
    Compile (List Projection) :=
  match value with
  | .bool false => return []
  | .bool true => do
    let child ← enter s cx r {}
    return [← close s cx child r {} (fieldColumns child)]
  | .obj entries => do
    let args ← RelationArgs.read cx.model r {} entries
    let child ← enter s cx r args
    let columns ← nested s child entries
    return [← close s cx child r args columns]
  | json => throw (cx.model.faultAt r.name (.includeShape json.kind))

/-- The columns that a relation's arguments ask for: its selection, or all
fields and its inclusion. -/
def nested (s : Settings) (cx : Context) : List (String × Json) → Compile (List Projection)
  | [] => return fieldColumns cx
  | (key, value) :: rest =>
    match value with
    | .obj entries =>
      if key = "select" then do nonempty cx.model (← selected s cx entries)
      else if key = "include" then do return fieldColumns cx ++ (← inclusions s cx entries)
      else nested s cx rest
    | _ => nested s cx rest

end

def columns (s : Settings) (cx : Context) (select inclusion : Option Json.Entries) :
    Compile (List Projection) :=
  match select, inclusion with
  | some _, some _ => throw (cx.model.fault .selectionWithInclude)
  | some entries, none => do nonempty cx.model (← selected s cx entries)
  | none, some entries => do return fieldColumns cx ++ (← inclusions s cx entries)
  | none, none => return fieldColumns cx

end Records

end QuerySql
