import QuerySql.Compile.Read
import QuerySql.Compile.Write
import QuerySql.Sql.Render

/-!
# The compiler

A compiler is a schema with a dialect and a configuration. Every call is a
compilation of its own: it starts at the alias `t0` and leaves nothing behind.
-/

set_option autoImplicit false

namespace QuerySql

structure Compiler where
  schema : Schema
  dialect : Dialect
  config : Config

namespace Compiler

def ofConfig (schema : Schema) (config : Config) : Compiler :=
  ⟨schema, config.engine.dialect, config⟩

/-- A configuration under way, and a dialect that is none of the engines'. -/
structure Builder where
  config : Config := {}
  custom : Option Dialect := none

namespace Builder

/-- Choosing an engine discards a custom dialect. -/
def setEngine (b : Builder) (engine : Engine) : Builder :=
  { config := { b.config with engine := engine }, custom := none }

/-- A custom dialect leaves the configured engine alone. -/
def setDialect (b : Builder) (d : Dialect) : Builder := { b with custom := some d }

def setMaxDepth (b : Builder) (n : Nat) : Builder :=
  { b with config := { b.config with maxDepth := n } }

def setOrderTiebreaker (b : Builder) (enabled : Bool) : Builder :=
  { b with config := { b.config with orderTiebreaker := enabled } }

def build (b : Builder) (schema : Schema) : Compiler :=
  ⟨schema, b.custom.getD b.config.engine.dialect, b.config⟩

end Builder

def settings (c : Compiler) : Settings where
  schema := c.schema
  dialect := c.dialect
  maxDepth := c.config.maxDepth
  orderTiebreaker := c.config.orderTiebreaker

/-- Runs one compilation at the root of a model, and returns the aliases that it
used up as well. -/
def run {α : Type} (c : Compiler) (model : String) (op : Operation) (args : Args)
    (body : Context → Compile α) : Except Error (α × Aliases) := do
  let model ← c.schema.expectModel model
  (Compile.root model op args >>= body).run {}

def compileAt (s : Settings) (args : Args) (cx : Context) : Compile Statement :=
  match cx.operation with
  | .findMany | .findFirst | .findUnique => Read.find s cx args
  | .count | .aggregate => Read.aggregate s cx args
  | .groupBy => Read.groupBy s cx args
  | .create => Write.create cx
  | .update => Write.update s cx args
  | .delete => Write.delete s cx args

/-- The statement of one operation, with the aliases used up. Arguments that the
operation has no use for are refused. -/
def statement (c : Compiler) (model : String) (op : Operation) (args : Args) :
    Except Error (Statement × Aliases) := do
  let found ← c.schema.expectModel model
  args.check found.name op
  c.run model op args (compileAt c.settings args)

def compile (c : Compiler) (model : String) (op : Operation) (args : Args) :
    Except Error Prepared := do
  let (statement, _) ← c.statement model op args
  return (statement.render c.dialect).prepare c.dialect

/-- The predicate of a filter alone, with the model under `t0`. -/
def predicate (c : Compiler) (model : String) (filter : Json.Entries) :
    Except Error (Option Pred) :=
  Prod.fst <$> c.run model .findMany {} fun cx => Filter.compile c.settings cx filter

def filter (c : Compiler) (model : String) (filter : Json.Entries) :
    Except Error (Option Fragment) := do
  let p ← c.predicate model filter
  return p.map (·.render c.dialect)

def projections (c : Compiler) (model : String) (op : Operation) (args : Args) :
    Except Error (List Projection) :=
  Prod.fst <$> c.run model op args fun cx => Read.columns c.settings cx args

def columns (c : Compiler) (model : String) (op : Operation) (args : Args) :
    Except Error Fragment := do
  let columns ← c.projections model op args
  return renderColumns c.dialect columns

def sortItems (c : Compiler) (model : String) (op : Operation) (orderBy : List Json.Entries) :
    Except Error (List SortItem) :=
  Prod.fst <$> c.run model op {} fun cx => Ordering.compile c.settings cx (some orderBy) none

def orderBy (c : Compiler) (model : String) (op : Operation) (orderBy : List Json.Entries) :
    Except Error (Option Fragment) := do
  let items ← c.sortItems model op orderBy
  return renderOrderBy c.dialect items

def limit (c : Compiler) (model : String) (take skip : Option Nat) :
    Except Error (Option Fragment) := do
  let _ ← c.schema.expectModel model
  return c.dialect.limitOffset take skip

end Compiler

end QuerySql
