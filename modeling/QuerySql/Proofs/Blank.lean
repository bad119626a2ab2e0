import QuerySql.Proofs.Connectives
import QuerySql.Sql.Render

/-!
# Statements without their values

The blank of a statement is the statement with every bound value forgotten. A
statement is written the same way as its blank, so the text of a statement says
nothing about the values bound to it.
-/

set_option autoImplicit false

namespace QuerySql

def Part.blank : Part → Part
  | .sql text => .sql text
  | .bound _ => .bound .null

namespace Fragment

def blank (f : Fragment) : Fragment := ⟨f.parts.map Part.blank⟩

@[simp] theorem blank_empty : empty.blank = empty := rfl

@[simp] theorem blank_bound (value : Value) : (bound value).blank = bound .null := rfl

@[simp] theorem blank_sql (text : String) : (sql text).blank = sql text := by
  unfold sql
  split <;> rfl

theorem map_blank_push_text (text : String) (parts : List Part) :
    (pushText text parts).map Part.blank = pushText text (parts.map Part.blank) := by
  fun_induction pushText text parts with
  | case1 => rfl
  | case2 last => rfl
  | case3 part rest hlast ih =>
    rw [List.map_cons, ih, List.map_cons, pushText]
    intro last hp hr
    cases part with
    | sql text => exact hlast text rfl (List.map_eq_nil_iff.mp hr)
    | bound value => cases hp

@[simp] theorem blank_push_sql (f : Fragment) (text : String) :
    (f.pushSql text).blank = f.blank.pushSql text := by
  unfold pushSql
  split
  · rfl
  · exact congrArg Fragment.mk (map_blank_push_text text f.parts)

theorem blank_push (f : Fragment) (part : Part) :
    (f.push part).blank = f.blank.push part.blank := by
  cases part with
  | sql text => exact blank_push_sql f text
  | bound value => simp [push, pushBound, blank, Part.blank]

@[simp] theorem blank_append (f g : Fragment) : (f ++ g).blank = f.blank ++ g.blank := by
  change (g.parts.foldl push f).blank = (g.parts.map Part.blank).foldl push f.blank
  induction g.parts generalizing f with
  | nil => rfl
  | cons part parts ih => rw [List.foldl_cons, ih, blank_push, List.map_cons, List.foldl_cons]

theorem blank_join_from (separator : String) (f : Fragment) (fs : List Fragment) :
    (joinFrom separator f fs).blank = joinFrom separator f.blank (fs.map blank) := by
  induction fs generalizing f with
  | nil => rfl
  | cons g fs ih => rw [joinFrom, ih, blank_append, blank_push_sql, List.map_cons, joinFrom]

@[simp] theorem blank_join (separator : String) (fs : List Fragment) :
    (join separator fs).blank = join separator (fs.map blank) := by
  cases fs with
  | nil => rfl
  | cons f fs => rw [join, blank_join_from, blank_append, List.map_cons, join, blank_empty]

@[simp] theorem blank_list (fs : List Fragment) : (list fs).blank = list (fs.map blank) :=
  blank_join ", " fs

@[simp] theorem blank_parenthesized (f : Fragment) :
    f.parenthesized.blank = f.blank.parenthesized := by
  simp [parenthesized]

theorem text_from_blank (placeholder : Nat → String) (count : Nat) (parts : List Part) :
    textFrom placeholder count (parts.map Part.blank) = textFrom placeholder count parts := by
  induction parts generalizing count with
  | nil => rfl
  | cons part parts ih =>
    cases part with
    | sql text => simp only [List.map_cons, Part.blank, textFrom, ih]
    | bound value => simp only [List.map_cons, Part.blank, textFrom, ih]

theorem bindings_blank (f : Fragment) : f.blank.bindings = f.bindings.map fun _ => .null := by
  simp only [blank, bindings, List.filterMap_map, List.map_filterMap]
  congr 1
  funext part
  cases part <;> rfl

theorem prepare_of_blank {f g : Fragment} (d : Dialect) (h : f.blank = g.blank) :
    (f.prepare d).sql = (g.prepare d).sql ∧
      (f.prepare d).params.length = (g.prepare d).params.length := by
  have hparts : f.parts.map Part.blank = g.parts.map Part.blank := congrArg Fragment.parts h
  have hbound := congrArg List.length (congrArg bindings h)
  constructor
  · change textFrom d.placeholder 0 f.parts = textFrom d.placeholder 0 g.parts
    rw [← text_from_blank, hparts, text_from_blank]
  · simpa [bindings_blank, prepare, prepareAfter] using hbound

end Fragment

def Scalar.blank : Scalar → Scalar
  | .bound _ => .bound .null
  | .folded s => .folded s.blank
  | s => s

mutual

def Pred.blank : Pred → Pred
  | .compare lhs op rhs => .compare lhs.blank op rhs.blank
  | .compareRows columns op values => .compareRows columns op (values.map fun _ => .null)
  | .isNull s negated => .isNull s.blank negated
  | .isIn s items negated => .isIn s.blank (items.map Scalar.blank) negated
  | .like s pattern => .like s.blank pattern.blank
  | .and operands => .and (Pred.blankAll operands)
  | .or operands => .or (Pred.blankAll operands)
  | .not operand => .not operand.blank
  | .related negated table tag conditions => .related negated table tag (Pred.blankAll conditions)
  | .truth value => .truth value

def Pred.blankAll : List Pred → List Pred
  | [] => []
  | p :: ps => p.blank :: Pred.blankAll ps

end

def Body.blank (b : Body) : Body :=
  { b with filter := b.filter.map Pred.blank, having := b.having.map Pred.blank,
           orderBy := b.orderBy.map fun item => { item with key := item.key.blank } }

mutual

def Projection.blank : Projection → Projection
  | .relation name toMany fold columns body =>
    .relation name toMany fold (Projection.blankAll columns) body.blank
  | p => p

def Projection.blankAll : List Projection → List Projection
  | [] => []
  | p :: ps => p.blank :: Projection.blankAll ps

end

def Statement.blank : Statement → Statement
  | .select columns distinct body => .select (Projection.blankAll columns) distinct body.blank
  | .overPage columns tag page body =>
    .overPage (Projection.blankAll columns) tag page body.blank
  | .insert table assignments => .insert table (assignments.map fun a => (a.1, .null))
  | .update table tag assignments filter =>
    .update table tag (assignments.map fun a => (a.1, .null)) (filter.map Pred.blank)
  | .delete table tag filter => .delete table tag (filter.map Pred.blank)

theorem Pred.blank_all_eq_map (ps : List Pred) : Pred.blankAll ps = ps.map Pred.blank := by
  induction ps with
  | nil => rfl
  | cons p ps ih => rw [Pred.blankAll, ih, List.map_cons]

theorem Pred.blank_through : Pred.Through Pred.blank where
  truth _ := rfl
  and ps := congrArg Pred.and (Pred.blank_all_eq_map ps)
  or ps := congrArg Pred.or (Pred.blank_all_eq_map ps)
  not _ := rfl

theorem Pred.blank_not? (p : Option Pred) :
    (p.map .not).map Pred.blank = (p.map Pred.blank).map .not := by
  cases p <;> rfl

theorem Projection.blank_all_eq_map (ps : List Projection) :
    Projection.blankAll ps = ps.map Projection.blank := by
  induction ps with
  | nil => rfl
  | cons p ps ih => rw [Projection.blankAll, ih, List.map_cons]

section

variable (d : Dialect)

@[simp] theorem Column.blank_render (c : Column) : (c.render d).blank = c.render d := by
  simp [Column.render, Dialect.column]

@[simp] theorem Dialect.blank_table (name : String) (tag : Alias) :
    (d.table name tag).blank = d.table name tag := by
  simp [Dialect.table]

theorem Dialect.blank_combine (operator : String) (fs : List Fragment) :
    (Dialect.combine operator fs).blank = Dialect.combine operator (fs.map Fragment.blank) := by
  unfold Dialect.combine
  split
  · rfl
  · rename_i hne
    rw [Fragment.blank_parenthesized, Fragment.blank_join]
    split
    · rename_i f hf
      obtain ⟨g, rest, rfl, -, hrest⟩ := List.map_eq_cons_iff.mp hf
      exact (hne g (by rw [List.map_eq_nil_iff.mp hrest])).elim
    · rfl

theorem Dialect.blank_aggregate (kind : Aggregate) (c : Option Column) :
    (Dialect.aggregate kind (c.map (·.render d))).blank =
      Dialect.aggregate kind (c.map (·.render d)) := by
  cases c <;> simp [Dialect.aggregate]

theorem Scalar.render_blank (s : Scalar) : s.blank.render d = (s.render d).blank := by
  induction s with
  | column c => simp [Scalar.blank, Scalar.render]
  | aggregate kind c => simp [Scalar.blank, Scalar.render, Dialect.blank_aggregate]
  | bound value => rfl
  | folded s ih => simp [Scalar.blank, Scalar.render, Dialect.foldCase, ih]

theorem blank_select_fragment (projection : Fragment) (lead : Option Fragment) (source : Fragment)
    (clauses : List (Option Fragment)) :
    (selectFragment projection lead source clauses).blank =
      selectFragment projection.blank (lead.map Fragment.blank) source.blank
        (clauses.map (Option.map Fragment.blank)) := by
  have hclauses : (clauses.filterMap id).map Fragment.blank =
      (clauses.map (Option.map Fragment.blank)).filterMap id := by
    simp [List.map_filterMap, List.filterMap_map]
  rw [selectFragment, selectFragment, ← hclauses]
  generalize clauses.filterMap id = present
  cases lead <;> simp [Dialect.selectClause, Dialect.fromClause]

mutual

theorem Pred.render_blank (p : Pred) : p.blank.render d = (p.render d).blank := by
  match p with
  | .truth value => simp [Pred.blank, Pred.render, Dialect.truth]
  | .compare lhs op rhs =>
    simp [Pred.blank, Pred.render, Dialect.comparison, Scalar.render_blank]
  | .compareRows columns op values =>
    simp [Pred.blank, Pred.render, Dialect.comparison, Function.comp_def]
  | .isNull s negated => simp [Pred.blank, Pred.render, Dialect.nullTest, Scalar.render_blank]
  | .isIn s items negated =>
    simp [Pred.blank, Pred.render, Dialect.membership, Scalar.render_blank, Function.comp_def]
  | .like s pattern => simp [Pred.blank, Pred.render, Dialect.like, Scalar.render_blank]
  | .and operands =>
    rw [Pred.blank, Pred.render, Pred.render, Pred.render_all_blank operands,
      Dialect.conjunction, Dialect.conjunction, Dialect.blank_combine]
  | .or operands =>
    rw [Pred.blank, Pred.render, Pred.render, Pred.render_all_blank operands,
      Dialect.disjunction, Dialect.disjunction, Dialect.blank_combine]
  | .not operand =>
    simp [Pred.blank, Pred.render, Dialect.negation, Pred.render_blank operand]
  | .related negated table tag [] =>
    simp [Pred.blank, Pred.blankAll, Pred.render, Dialect.presence, blank_select_fragment]
  | .related negated table tag (q :: qs) =>
    have hall := Pred.render_all_blank (q :: qs)
    simp only [Pred.blankAll] at hall
    simp [Pred.blank, Pred.blankAll, Pred.render, Dialect.presence, blank_select_fragment, hall,
      Dialect.whereClause, Dialect.conjunction, Dialect.blank_combine]

theorem Pred.render_all_blank (ps : List Pred) :
    Pred.renderAll d (Pred.blankAll ps) = (Pred.renderAll d ps).map Fragment.blank := by
  match ps with
  | [] => rfl
  | p :: ps =>
    rw [Pred.blankAll, Pred.renderAll, Pred.render_blank p, Pred.render_all_blank ps,
      Pred.renderAll, List.map_cons]

end

theorem SortItem.render_blank (items : List SortItem) :
    renderOrderBy d (items.map fun item => { item with key := item.key.blank }) =
      (renderOrderBy d items).map Fragment.blank := by
  cases items with
  | nil => rfl
  | cons item items =>
    have hitem : ∀ item : SortItem, SortItem.render d { item with key := item.key.blank } =
        (item.render d).blank := by
      intro item
      cases hn : item.nulls <;>
        simp [SortItem.render, Dialect.orderItem, Scalar.render_blank, hn]
    simp [renderOrderBy, Dialect.orderByClause, hitem, Function.comp_def]

theorem Dialect.blank_limit_offset (take skip : Option Nat) :
    (d.limitOffset take skip).map Fragment.blank = d.limitOffset take skip := by
  unfold Dialect.limitOffset
  cases take <;> cases skip <;> cases d.unlimited <;> simp

theorem blank_render_group_by (columns : List Column) :
    (renderGroupBy d columns).map Fragment.blank = renderGroupBy d columns := by
  cases columns with
  | nil => rfl
  | cons c columns => simp [renderGroupBy, Dialect.groupByClause, Function.comp_def]

theorem Body.render_blank (projection : Fragment) (lead : Option Fragment) (b : Body) :
    b.blank.render d projection.blank (lead.map Fragment.blank) =
      (b.render d projection lead).blank := by
  have hclause : ∀ (clause : Fragment → Fragment) (p : Option Pred),
      (∀ f, (clause f).blank = clause f.blank) →
        (p.map Pred.blank).map (fun q => clause (q.render d)) =
          (p.map fun q => clause (q.render d)).map Fragment.blank := by
    intro clause p hc
    cases p <;> simp [Pred.render_blank, hc]
  rw [Body.render, Body.render, blank_select_fragment]
  simp only [Body.blank, List.map_cons, List.map_nil, SortItem.render_blank,
    Dialect.blank_limit_offset, blank_render_group_by, Dialect.blank_table]
  rw [hclause Dialect.whereClause b.filter (by simp [Dialect.whereClause]),
    hclause Dialect.havingClause b.having (by simp [Dialect.havingClause])]

theorem Dialect.blank_json_object (function : String) (reparsed : Bool) (tag : Alias)
    (columns : List JsonColumn) :
    (d.jsonObject function reparsed tag columns).blank =
      d.jsonObject function reparsed tag columns := by
  have hpair : ∀ c, (d.jsonPair tag reparsed c).blank = d.jsonPair tag reparsed c := by
    intro c
    unfold Dialect.jsonPair
    split <;> simp [Dialect.column]
  simp [Dialect.jsonObject, hpair, Function.comp_def]

theorem Dialect.blank_json_array (subquery : Fragment) (tag : Alias) (columns : List JsonColumn) :
    (d.jsonArray subquery tag columns).blank = d.jsonArray subquery.blank tag columns := by
  unfold Dialect.jsonArray
  split <;> simp [Dialect.selectOver, Dialect.blank_json_object]

theorem Dialect.blank_json_row (subquery : Fragment) (tag : Alias) (columns : List JsonColumn) :
    (d.jsonRow subquery tag columns).blank = d.jsonRow subquery.blank tag columns := by
  unfold Dialect.jsonRow
  split <;> simp [Dialect.selectOver, Dialect.blank_json_object]

theorem Projection.keys_blank (columns : List Projection) :
    (Projection.blankAll columns).map (fun p => JsonColumn.mk p.name p.isRelation) =
      columns.map fun p => JsonColumn.mk p.name p.isRelation := by
  rw [Projection.blank_all_eq_map, List.map_map]
  apply List.map_congr_left
  intro p _
  cases p <;> rfl

mutual

theorem Projection.render_blank (p : Projection) : p.blank.render d = (p.render d).blank := by
  match p with
  | .column c => simp [Projection.blank, Projection.render]
  | .aggregate kind c name =>
    simp [Projection.blank, Projection.render, Dialect.aliased, Dialect.blank_aggregate]
  | .relation name toMany fold columns body =>
    have hbody := Body.render_blank d (Fragment.list (Projection.renderAll d columns)) none body
    rw [Option.map_none, Fragment.blank_list, ← Projection.render_all_blank columns] at hbody
    simp only [Projection.blank, Projection.render, hbody, Projection.keys_blank, Dialect.aliased]
    cases toMany <;> simp [Dialect.blank_json_array, Dialect.blank_json_row]

theorem Projection.render_all_blank (ps : List Projection) :
    Projection.renderAll d (Projection.blankAll ps) =
      (Projection.renderAll d ps).map Fragment.blank := by
  match ps with
  | [] => rfl
  | p :: ps =>
    rw [Projection.blankAll, Projection.renderAll, Projection.render_blank p,
      Projection.render_all_blank ps, Projection.renderAll, List.map_cons]

end

theorem render_columns_blank (columns : List Projection) :
    renderColumns d (Projection.blankAll columns) = (renderColumns d columns).blank := by
  rw [renderColumns, renderColumns, Projection.render_all_blank, Fragment.blank_list]

theorem render_filter_blank (statement : Fragment) (filter : Option Pred) :
    renderFilter d statement.blank (filter.map Pred.blank) =
      (renderFilter d statement filter).blank := by
  cases filter <;> simp [renderFilter, Dialect.whereClause, Pred.render_blank]

theorem Statement.render_blank (st : Statement) : st.blank.render d = (st.render d).blank := by
  cases st with
  | select columns distinct body =>
    have hlead : (if distinct.isEmpty then none
        else some (Dialect.distinctOnList (distinct.map (·.render d)))).map Fragment.blank =
          if distinct.isEmpty then none
            else some (Dialect.distinctOnList (distinct.map (·.render d))) := by
      split <;> simp [Dialect.distinctOnList, Function.comp_def]
    simp only [Statement.blank, Statement.render, render_columns_blank]
    rw [← Body.render_blank, hlead]
  | overPage columns tag page body =>
    have hbody := Body.render_blank d (Fragment.list (page.map (·.render d))) none body
    rw [Option.map_none] at hbody
    simp only [Statement.blank, Statement.render, render_columns_blank, Dialect.selectFromDerived,
      Dialect.selectClause, Dialect.fromClause, Dialect.derivedTable, Fragment.blank_append,
      Fragment.blank_sql, ← hbody]
    simp [Function.comp_def]
  | insert table assignments =>
    cases assignments <;>
      simp [Statement.blank, Statement.render, Dialect.insert, Function.comp_def]
  | update table tag assignments filter =>
    simp only [Statement.blank, Statement.render, ← render_filter_blank]
    simp [Dialect.update, Function.comp_def]
  | delete table tag filter =>
    simp only [Statement.blank, Statement.render, ← render_filter_blank]
    simp [Dialect.delete]

theorem Statement.prepare_of_blank {st st' : Statement} (h : st.blank = st'.blank) :
    ((st.render d).prepare d).sql = ((st'.render d).prepare d).sql ∧
      ((st.render d).prepare d).params.length = ((st'.render d).prepare d).params.length := by
  apply Fragment.prepare_of_blank d
  rw [← Statement.render_blank, h, Statement.render_blank]

end

end QuerySql
