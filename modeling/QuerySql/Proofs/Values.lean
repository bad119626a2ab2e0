import QuerySql.Sql.Render

/-!
# The values of a statement

The values that a statement binds, read off its tree from left to right. A
dialect writes them in this order, whatever it puts between them.
-/

set_option autoImplicit false

namespace QuerySql

def Scalar.values : Scalar → List Value
  | .column _ | .aggregate _ _ => []
  | .bound value => [value]
  | .folded s => s.values

mutual

def Pred.values : Pred → List Value
  | .truth _ => []
  | .compare lhs _ rhs => lhs.values ++ rhs.values
  | .compareRows _ _ values => values
  | .isNull s _ => s.values
  | .isIn s items _ => s.values ++ items.flatMap Scalar.values
  | .like s pattern => s.values ++ pattern.values
  | .and operands => Pred.valuesAll operands
  | .or operands => Pred.valuesAll operands
  | .not operand => operand.values
  | .related _ _ _ conditions => Pred.valuesAll conditions

def Pred.valuesAll : List Pred → List Value
  | [] => []
  | p :: ps => p.values ++ Pred.valuesAll ps

end

def Pred.values? (p : Option Pred) : List Value := (p.map Pred.values).getD []

def Body.values (b : Body) : List Value :=
  Pred.values? b.filter ++ Pred.values? b.having ++ b.orderBy.flatMap fun it => it.key.values

mutual

def Projection.values : Projection → List Value
  | .column _ | .aggregate _ _ _ => []
  | .relation _ _ _ columns body => Projection.valuesAll columns ++ body.values

def Projection.valuesAll : List Projection → List Value
  | [] => []
  | p :: ps => p.values ++ Projection.valuesAll ps

end

def Statement.values : Statement → List Value
  | .select columns _ body => Projection.valuesAll columns ++ body.values
  | .overPage columns _ _ body => Projection.valuesAll columns ++ body.values
  | .insert _ assignments => assignments.map (·.2)
  | .update _ _ assignments filter => assignments.map (·.2) ++ Pred.values? filter
  | .delete _ _ filter => Pred.values? filter

theorem Pred.values_all_eq (ps : List Pred) : Pred.valuesAll ps = ps.flatMap Pred.values := by
  induction ps with
  | nil => rfl
  | cons p ps ih => rw [Pred.valuesAll, ih, List.flatMap_cons]

theorem Projection.values_all_eq (ps : List Projection) :
    Projection.valuesAll ps = ps.flatMap Projection.values := by
  induction ps with
  | nil => rfl
  | cons p ps ih => rw [Projection.valuesAll, ih, List.flatMap_cons]

section

variable (d : Dialect)

@[simp] theorem Column.bindings_render (c : Column) : (c.render d).bindings = [] := by
  simp [Column.render, Dialect.column]

@[simp] theorem Dialect.bindings_table (name : String) (tag : Alias) :
    (d.table name tag).bindings = [] := by
  simp [Dialect.table]

theorem Dialect.bindings_combine (operator : String) (fs : List Fragment) :
    (Dialect.combine operator fs).bindings = fs.flatMap Fragment.bindings := by
  unfold Dialect.combine
  split
  · simp
  · rw [Fragment.bindings_parenthesized, Fragment.bindings_join]

theorem Dialect.bindings_aggregate (kind : Aggregate) (c : Option Column) :
    (Dialect.aggregate kind (c.map (·.render d))).bindings = [] := by
  cases c <;> simp [Dialect.aggregate]

theorem Scalar.bindings_render (s : Scalar) : (s.render d).bindings = s.values := by
  induction s with
  | column c => simp [Scalar.render, Scalar.values]
  | aggregate kind c => simp [Scalar.render, Scalar.values, Dialect.bindings_aggregate]
  | bound value => rfl
  | folded s ih => simp [Scalar.render, Scalar.values, Dialect.foldCase, ih]

theorem bindings_select_fragment (projection : Fragment) (lead : Option Fragment)
    (source : Fragment) (clauses : List (Option Fragment)) :
    (selectFragment projection lead source clauses).bindings =
      (lead.map Fragment.bindings).getD [] ++ projection.bindings ++ source.bindings ++
        clauses.flatMap fun c => (c.map Fragment.bindings).getD [] := by
  have hclauses : (clauses.filterMap id).flatMap Fragment.bindings =
      clauses.flatMap fun c => (c.map Fragment.bindings).getD [] := by
    induction clauses with
    | nil => rfl
    | cons c clauses ih =>
      rw [List.flatMap_cons, ← ih]
      cases c <;> rfl
  rw [selectFragment, ← hclauses]
  generalize clauses.filterMap id = present
  cases lead <;> simp [Dialect.selectClause, Dialect.fromClause]

mutual

theorem Pred.bindings_render (p : Pred) : (p.render d).bindings = p.values := by
  match p with
  | .truth value => simp [Pred.render, Pred.values, Dialect.truth]
  | .compare lhs op rhs =>
    simp [Pred.render, Pred.values, Dialect.comparison, Scalar.bindings_render]
  | .compareRows columns op values =>
    simp [Pred.render, Pred.values, Dialect.comparison, List.flatMap_map]
  | .isNull s negated => simp [Pred.render, Pred.values, Dialect.nullTest, Scalar.bindings_render]
  | .isIn s items negated =>
    simp [Pred.render, Pred.values, Dialect.membership, Scalar.bindings_render, List.flatMap_map]
  | .like s pattern => simp [Pred.render, Pred.values, Dialect.like, Scalar.bindings_render]
  | .and operands =>
    rw [Pred.render, Pred.values, Dialect.conjunction, Dialect.bindings_combine,
      Pred.bindings_render_all operands]
  | .or operands =>
    rw [Pred.render, Pred.values, Dialect.disjunction, Dialect.bindings_combine,
      Pred.bindings_render_all operands]
  | .not operand =>
    simp [Pred.render, Pred.values, Dialect.negation, Pred.bindings_render operand]
  | .related negated table tag [] =>
    simp [Pred.render, Pred.values, Pred.valuesAll, Dialect.presence, bindings_select_fragment]
  | .related negated table tag (q :: qs) =>
    have hall := Pred.bindings_render_all (q :: qs)
    simp [Pred.render, Pred.values, Dialect.presence, bindings_select_fragment,
      Dialect.whereClause, Dialect.conjunction, Dialect.bindings_combine, hall]

theorem Pred.bindings_render_all (ps : List Pred) :
    (Pred.renderAll d ps).flatMap Fragment.bindings = Pred.valuesAll ps := by
  match ps with
  | [] => rfl
  | p :: ps =>
    rw [Pred.renderAll, List.flatMap_cons, Pred.bindings_render p, Pred.bindings_render_all ps,
      Pred.valuesAll]

end

theorem Body.bindings_render (projection : Fragment) (lead : Option Fragment) (b : Body) :
    (b.render d projection lead).bindings =
      (lead.map Fragment.bindings).getD [] ++ projection.bindings ++ b.values := by
  have hpred : ∀ (clause : Fragment → Fragment) (p : Option Pred),
      (∀ f, (clause f).bindings = f.bindings) →
        ((p.map fun q => clause (q.render d)).map Fragment.bindings).getD [] = Pred.values? p := by
    intro clause p hc
    cases p <;> simp [Pred.values?, hc, Pred.bindings_render]
  have hgroup : ((renderGroupBy d b.groupBy).map Fragment.bindings).getD [] = [] := by
    cases b.groupBy <;> simp [renderGroupBy, Dialect.groupByClause, List.flatMap_map]
  have horder : ((renderOrderBy d b.orderBy).map Fragment.bindings).getD [] =
      b.orderBy.flatMap fun it => it.key.values := by
    have hitem : ∀ it : SortItem, (it.render d).bindings = it.key.values := by
      intro it
      cases hn : it.nulls <;>
        simp [SortItem.render, Dialect.orderItem, Scalar.bindings_render, hn]
    cases b.orderBy <;> simp [renderOrderBy, Dialect.orderByClause, List.flatMap_map, hitem]
  have hlimit : ((d.limitOffset b.take b.skip).map Fragment.bindings).getD [] = [] := by
    cases b.take <;> cases b.skip <;> cases hu : d.unlimited <;> simp [Dialect.limitOffset, hu]
  rw [Body.render, bindings_select_fragment]
  simp only [List.flatMap_cons, List.flatMap_nil, hgroup, horder, hlimit, Dialect.bindings_table,
    hpred Dialect.whereClause b.filter (by simp [Dialect.whereClause]),
    hpred Dialect.havingClause b.having (by simp [Dialect.havingClause]), Body.values]
  simp

theorem Dialect.bindings_json_object (function : String) (reparsed : Bool) (tag : Alias)
    (columns : List JsonColumn) : (d.jsonObject function reparsed tag columns).bindings = [] := by
  have hpair : ∀ c, (d.jsonPair tag reparsed c).bindings = [] := by
    intro c
    unfold Dialect.jsonPair
    split <;> simp [Dialect.column]
  simp [Dialect.jsonObject, List.flatMap_map, hpair]

theorem Dialect.bindings_json (toMany : Bool) (subquery : Fragment) (tag : Alias)
    (columns : List JsonColumn) :
    (if toMany then d.jsonArray subquery tag columns else d.jsonRow subquery tag columns).bindings =
      subquery.bindings := by
  cases toMany <;> cases hj : d.json <;>
    simp [Dialect.jsonArray, Dialect.jsonRow, hj, Dialect.selectOver, Dialect.bindings_json_object]

mutual

theorem Projection.bindings_render (p : Projection) : (p.render d).bindings = p.values := by
  match p with
  | .column c => simp [Projection.render, Projection.values]
  | .aggregate kind c name =>
    simp [Projection.render, Projection.values, Dialect.aliased, Dialect.bindings_aggregate]
  | .relation name toMany fold columns body =>
    have hall := Projection.bindings_render_all columns
    simp [Projection.render, Projection.values, Dialect.aliased, Dialect.bindings_json,
      Body.bindings_render, hall]

theorem Projection.bindings_render_all (ps : List Projection) :
    (Projection.renderAll d ps).flatMap Fragment.bindings = Projection.valuesAll ps := by
  match ps with
  | [] => rfl
  | p :: ps =>
    rw [Projection.renderAll, List.flatMap_cons, Projection.bindings_render p,
      Projection.bindings_render_all ps, Projection.valuesAll]

end

theorem render_filter_bindings (statement : Fragment) (filter : Option Pred) :
    (renderFilter d statement filter).bindings = statement.bindings ++ Pred.values? filter := by
  cases filter <;> simp [renderFilter, Dialect.whereClause, Pred.bindings_render, Pred.values?]

theorem Statement.bindings_render (st : Statement) : (st.render d).bindings = st.values := by
  cases st with
  | select columns distinct body =>
    have hlead : ((if distinct.isEmpty then none
        else some (Dialect.distinctOnList (distinct.map (·.render d)))).map
          Fragment.bindings).getD [] = [] := by
      split <;> simp [Dialect.distinctOnList, List.flatMap_map]
    simp only [Statement.render, Statement.values, Body.bindings_render, hlead, renderColumns,
      Fragment.bindings_list, Projection.bindings_render_all, List.nil_append]
  | overPage columns tag page body =>
    simp [Statement.render, Statement.values, Dialect.selectFromDerived, Dialect.selectClause,
      Dialect.fromClause, Dialect.derivedTable, Body.bindings_render, renderColumns,
      Projection.bindings_render_all, List.flatMap_map]
  | insert table assignments =>
    have hnames : ∀ as : List (String × Value), as.flatMap (fun _ => ([] : List Value)) = [] := by
      simp
    cases assignments <;>
      simp [Statement.render, Statement.values, Dialect.insert, List.flatMap_map, hnames,
        ← List.map_eq_flatMap]
  | update table tag assignments filter =>
    simp [Statement.render, Statement.values, render_filter_bindings, Dialect.update,
      List.flatMap_map, ← List.map_eq_flatMap]
  | delete table tag filter =>
    simp [Statement.render, Statement.values, render_filter_bindings, Dialect.delete]

end

end QuerySql
