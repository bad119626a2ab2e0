import QuerySql.Compile.Having
import QuerySql.Compile.Keyset
import QuerySql.Compile.Records

/-!
# Reads

The statements of the operations that read: records, aggregates and groups.
-/

set_option autoImplicit false

namespace QuerySql.Read

def columns (s : Settings) (cx : Context) (args : Args) : Compile (List Projection) :=
  match cx.operation with
  | .count => Aggregation.countColumns cx args
  | .aggregate => Aggregation.aggregateColumns cx args
  | .groupBy => Aggregation.groupColumns cx args
  | _ => Records.columns s cx args.select args.inclusion

/-- The filter and the cursor of a read. -/
def filter (s : Settings) (cx : Context) (args : Args) : Compile (Option Pred) := do
  let filter ← Filter.compile? s cx args.filter
  let cursor ←
    match cx.pagination?.bind (·.cursor) with
    | some cursor => some <$> Keyset.compile cx cursor args.orderBy
    | none => pure none
  return Pred.all? (filter.toList ++ cursor.toList)

/-- The entry sets a unique field to a scalar other than null, plainly or as
its only operator. -/
def pins (m : Model) (key : String) (value : Json) : Bool :=
  let value :=
    match value with
    | .obj [(op, operand)] => if op = "equals" then some operand else none
    | .obj _ => none
    | json => some json
  (m.field? key).any Field.isUnique &&
    match value with
    | none | some .null | some (.arr _) | some (.obj _) => false
    | some _ => true

/-- `findUnique` has to pin a unique field. -/
def checkUnique (m : Model) (args : Args) : Except Error Unit :=
  if (args.filter.getD []).any fun e => pins m e.1 e.2 then .ok ()
  else .error (m.fault (.notUnique ((m.fields.filter Field.isUnique).map (·.name))))

def distinct (s : Settings) (cx : Context) : Except Error (List Column) := do
  let fields ← Ordering.distinctFields cx
  if fields.isEmpty then return []
  if (cx.pagination?.bind (·.cursor)).isSome then throw (.unsupported .cursorWithDistinct)
  s.dialect.checkDistinctOn
  return fields.map (Compile.column cx)

/-- `findMany`, `findFirst` and `findUnique`; the latter two fetch one row. -/
def find (s : Settings) (cx : Context) (args : Args) : Compile Statement := do
  if cx.operation = .findUnique then checkUnique cx.model args
  let columns ← columns s cx args
  let distinct ← distinct s cx
  let filter ← filter s cx args
  let orderBy ← Ordering.compile s cx args.orderBy none
  let take := if cx.operation.isSingle then some 1 else args.take
  return .select columns distinct
    { table := cx.model.tableName, tag := cx.tag, filter := filter, orderBy := orderBy,
      take := take, skip := args.skip }

/-- The columns of the page that aggregates are taken over: the fields that they
mention, or the identifier. -/
def pageColumns (cx : Context) (args : Args) : Except Error (List Column) := do
  let fields ← Aggregation.mentionedFields cx.model args
  let fields := if fields.isEmpty then cx.model.identifiers else fields
  return fields.map (Compile.column cx)

/-- `count` and `aggregate`. A page picks the rows to aggregate, so it becomes a
derived table. Without one the ordering is only checked. -/
def aggregate (s : Settings) (cx : Context) (args : Args) : Compile Statement := do
  let filter ← filter s cx args
  let orderBy ← Ordering.compile s cx args.orderBy none
  let body : Body := { table := cx.model.tableName, tag := cx.tag, filter := filter }
  if args.take.isNone && args.skip.isNone then
    return .select (← columns s cx args) [] body
  else
    let page ← pageColumns cx args
    let tag ← Compile.fresh
    let columns ← columns s (cx.withTag tag) args
    return .overPage columns tag page
      { body with orderBy := orderBy, take := args.take, skip := args.skip }

def groupBy (s : Settings) (cx : Context) (args : Args) : Compile Statement := do
  let grouping ← Aggregation.grouping cx.model args.grouping
  let grouped := grouping.map (·.name)
  let columns ← columns s cx args
  let filter ← filter s cx args
  let having ← Having.compile? cx grouped args.having
  let orderBy ← Ordering.compile s cx args.orderBy (some grouped)
  return .select columns []
    { table := cx.model.tableName, tag := cx.tag, filter := filter,
      groupBy := grouping.map (Compile.column cx), having := having, orderBy := orderBy,
      take := args.take, skip := args.skip }

end QuerySql.Read
