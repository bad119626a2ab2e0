import QuerySql.Alias
import QuerySql.Query.Operation
import QuerySql.Sql.Operator
import QuerySql.Value

/-!
# Scalar expressions and predicates

The predicates of `WHERE` and `HAVING` as trees. How a tree is spelled, and
where its parentheses go, is decided when it is written by a dialect.
-/

set_option autoImplicit false

namespace QuerySql

structure Column where
  tag : Alias
  name : String
  deriving DecidableEq, Repr

inductive Scalar where
  | column (column : Column)
  /-- Without a column, the count of rows. -/
  | aggregate (kind : Aggregate) (column : Option Column)
  | bound (value : Value)
  | folded (scalar : Scalar)
  deriving DecidableEq, Repr

inductive Pred where
  | truth (value : Bool)
  | compare (lhs : Scalar) (op : Comparison) (rhs : Scalar)
  /-- Compares two rows, column by column from the left. -/
  | compareRows (columns : List Column) (op : Comparison) (values : List Value)
  | isNull (scalar : Scalar) (negated : Bool)
  | isIn (scalar : Scalar) (items : List Scalar) (negated : Bool)
  | like (scalar pattern : Scalar)
  | and (operands : List Pred)
  | or (operands : List Pred)
  | not (operand : Pred)
  /-- Some row of the table satisfies all the conditions, or none does. -/
  | related (negated : Bool) (table : String) (tag : Alias) (conditions : List Pred)

namespace Pred

def all : List Pred → Pred
  | [p] => p
  | ps => .and ps

def any : List Pred → Pred
  | [p] => p
  | ps => .or ps

def all? : List Pred → Option Pred
  | [] => none
  | ps => some (all ps)

end Pred

end QuerySql
