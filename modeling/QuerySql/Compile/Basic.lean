import QuerySql.Config.Basic
import QuerySql.Context
import QuerySql.Sql.Statement

/-!
# Compilations

A compilation reads the schema and its settings, hands out aliases and may
fail. The supply of aliases is its only state, so each one starts at `t0`.
-/

set_option autoImplicit false

namespace QuerySql

structure Settings where
  schema : Schema
  dialect : Dialect
  maxDepth : Nat
  orderTiebreaker : Bool

abbrev Compile := StateT Aliases (Except Error)

namespace Compile

def fresh : Compile Alias := fun aliases => .ok aliases.next

/-- The context of a subquery over the target of a relation, within the limit
on nesting. -/
def descend (s : Settings) (cx : Context) (r : Relation) : Compile Context := do
  let target ← s.schema.target r
  if s.maxDepth ≤ cx.depth then
    throw (cx.model.faultAt r.name (.tooDeep s.maxDepth (cx.path ++ [target.name])))
  let tag ← fresh
  return cx.nested r target tag

/-- The root context of a query: reads carry their page, mutations their
payload. -/
def root (model : Model) (op : Operation) (args : Args) : Compile Context := do
  let tag ← fresh
  let cx : Context := { model := model, operation := op, tag := tag }
  if op.isMutation then
    match args.data with
    | some data => return cx.withMutation data
    | none => return cx
  else
    return cx.withPagination
      { take := args.take, skip := args.skip, cursor := args.cursor, distinct := args.distinct }

def scalar (m : Model) (key : String) (json : Json) : Except Error Value :=
  match Value.ofJson? json with
  | some value => .ok value
  | none => .error (m.faultAt key (.notScalar json.kind))

def flag (m : Model) (key : String) : Json → Except Error Bool
  | .bool value => .ok value
  | json => .error (m.faultAt key (.notFlag json.kind))

def entries (m : Model) (key : String) : Json → Except Error Json.Entries
  | .obj entries => .ok entries
  | json => .error (m.faultAt key (.notObject json.kind))

def column (cx : Context) (f : Field) : Column := ⟨cx.tag, f.name⟩

end Compile

end QuerySql
