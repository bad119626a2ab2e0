import QuerySql.Sql.Expr

/-!
# Statements

The statements a query compiles to. A selected relation is a subquery of its
own whose rows are folded into one JSON column.
-/

set_option autoImplicit false

namespace QuerySql

structure SortItem where
  key : Scalar
  direction : Direction
  nulls : Option Nulls := none
  deriving DecidableEq, Repr

/-- All of a select but its columns. -/
structure Body where
  table : String
  tag : Alias
  filter : Option Pred := none
  groupBy : List Column := []
  having : Option Pred := none
  orderBy : List SortItem := []
  take : Option Nat := none
  skip : Option Nat := none

inductive Projection where
  | column (column : Column)
  | aggregate (kind : Aggregate) (column : Option Column) (name : String)
  /-- The rows of a related table as JSON; `fold` is the alias of the derived
  table that they are folded from. -/
  | relation (name : String) (toMany : Bool) (fold : Alias) (columns : List Projection)
      (body : Body)

namespace Projection

def name : Projection → String
  | .column c => c.name
  | .aggregate _ _ name => name
  | .relation name _ _ _ _ => name

def isRelation : Projection → Bool
  | .relation .. => true
  | _ => false

end Projection

inductive Statement where
  | select (columns : List Projection) (distinct : List Column) (body : Body)
  /-- Selects from a derived table that holds one page of another select. -/
  | overPage (columns : List Projection) (tag : Alias) (page : List Column) (body : Body)
  | insert (table : String) (assignments : List (String × Value))
  | update (table : String) (tag : Alias) (assignments : List (String × Value))
      (filter : Option Pred)
  | delete (table : String) (tag : Alias) (filter : Option Pred)

end QuerySql
