import QuerySql.Dialect.Phrase
import QuerySql.Sql.Statement

/-!
# Writing statements

Each tree is written by a dialect as a fragment, and a whole fragment as text
with numbered placeholders. Writing never fails.
-/

set_option autoImplicit false

namespace QuerySql

def Column.render (d : Dialect) (c : Column) : Fragment := d.column c.tag c.name

def Scalar.render (d : Dialect) : Scalar → Fragment
  | .column c => c.render d
  | .aggregate kind c => Dialect.aggregate kind (c.map (·.render d))
  | .bound value => Fragment.bound value
  | .folded s => Dialect.foldCase (s.render d)

/-- A select in the order of its clauses; `lead` stands before the columns. -/
def selectFragment (projection : Fragment) (lead : Option Fragment) (source : Fragment)
    (clauses : List (Option Fragment)) : Fragment :=
  Fragment.join " " (Dialect.selectClause projection lead :: Dialect.fromClause source ::
    clauses.filterMap id)

mutual

def Pred.render (d : Dialect) : Pred → Fragment
  | .truth value => Dialect.truth value
  | .compare lhs op rhs => Dialect.comparison (lhs.render d) op (rhs.render d)
  | .compareRows columns op values =>
    Dialect.comparison (Fragment.list (columns.map (·.render d))).parenthesized op
      (Fragment.list (values.map Fragment.bound)).parenthesized
  | .isNull s negated => Dialect.nullTest (s.render d) negated
  | .isIn s items negated => Dialect.membership (s.render d) (items.map (·.render d)) negated
  | .like s pattern => d.like (s.render d) (pattern.render d)
  | .and operands => Dialect.conjunction (Pred.renderAll d operands)
  | .or operands => Dialect.disjunction (Pred.renderAll d operands)
  | .not operand => Dialect.negation (operand.render d)
  | .related negated table tag conditions =>
    let filter :=
      match conditions with
      | [] => none
      | _ :: _ => some (Dialect.whereClause (Dialect.conjunction (Pred.renderAll d conditions)))
    Dialect.presence (selectFragment (Fragment.sql "1") none (d.table table tag) [filter]) negated

def Pred.renderAll (d : Dialect) : List Pred → List Fragment
  | [] => []
  | p :: ps => p.render d :: Pred.renderAll d ps

end

def SortItem.render (d : Dialect) (item : SortItem) : Fragment :=
  Dialect.orderItem (item.key.render d) item.direction item.nulls

def renderOrderBy (d : Dialect) : List SortItem → Option Fragment
  | [] => none
  | items => some (Dialect.orderByClause (items.map (·.render d)))

def renderGroupBy (d : Dialect) : List Column → Option Fragment
  | [] => none
  | columns => some (Dialect.groupByClause (columns.map (·.render d)))

def Body.render (d : Dialect) (projection : Fragment) (lead : Option Fragment) (b : Body) :
    Fragment :=
  selectFragment projection lead (d.table b.table b.tag)
    [b.filter.map fun p => Dialect.whereClause (p.render d),
      renderGroupBy d b.groupBy,
      b.having.map fun p => Dialect.havingClause (p.render d),
      renderOrderBy d b.orderBy,
      d.limitOffset b.take b.skip]

mutual

def Projection.render (d : Dialect) : Projection → Fragment
  | .column c => c.render d
  | .aggregate kind c name => d.aliased (Dialect.aggregate kind (c.map (·.render d))) name
  | .relation name toMany fold columns body =>
    let subquery := body.render d (Fragment.list (Projection.renderAll d columns)) none
    let keys := columns.map fun p => JsonColumn.mk p.name p.isRelation
    d.aliased (if toMany then d.jsonArray subquery fold keys else d.jsonRow subquery fold keys) name

def Projection.renderAll (d : Dialect) : List Projection → List Fragment
  | [] => []
  | p :: ps => p.render d :: Projection.renderAll d ps

end

def renderColumns (d : Dialect) (columns : List Projection) : Fragment :=
  Fragment.list (Projection.renderAll d columns)

def renderFilter (d : Dialect) (statement : Fragment) : Option Pred → Fragment
  | none => statement
  | some p => statement ++ Fragment.sql " " ++ Dialect.whereClause (p.render d)

def Statement.render (d : Dialect) : Statement → Fragment
  | .select columns distinct body =>
    let lead :=
      if distinct.isEmpty then none
      else some (Dialect.distinctOnList (distinct.map (·.render d)))
    body.render d (renderColumns d columns) lead
  | .overPage columns tag page body =>
    Dialect.selectFromDerived (renderColumns d columns)
      (body.render d (Fragment.list (page.map (·.render d))) none) tag
  | .insert table assignments =>
    d.insert table (assignments.map (·.1)) (assignments.map fun a => Fragment.bound a.2)
  | .update table tag assignments filter =>
    renderFilter d
      (d.update table tag (assignments.map fun a => (a.1, Fragment.bound a.2))) filter
  | .delete table tag filter => renderFilter d (d.delete table tag) filter

/-- SQL text and the values bound to its placeholders, in placeholder order. -/
structure Prepared where
  sql : String
  params : List Value
  deriving DecidableEq, Repr

def Fragment.prepareAfter (d : Dialect) (bound : List Value) (f : Fragment) : Prepared :=
  ⟨Fragment.textFrom d.placeholder bound.length f.parts, bound ++ f.bindings⟩

def Fragment.prepare (d : Dialect) (f : Fragment) : Prepared := f.prepareAfter d []

end QuerySql
