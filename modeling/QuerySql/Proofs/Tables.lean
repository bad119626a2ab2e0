import QuerySql.Proofs.Alike
import QuerySql.Proofs.Building
import QuerySql.Proofs.Success.Statement
import QuerySql.Proofs.Values

/-!
# Tables under a text

A schema can be built with a text put before the names of its tables. What compiles
then is what compiles without, and to the same statement but for the tables of the
models: each stands under the text wherever it is named, in the statement itself, in the
subqueries of its filters and in those of its selections. The table of a junction belongs
to no model and keeps its name.
-/

set_option autoImplicit false

namespace QuerySql

def Model.tableUnder (text : String) (m : Model) : Option String := some (text ++ m.tableName)

def Schema.junctions (schema : Schema) : List String :=
  (schema.models.flatMap (·.relations)).filterMap fun r => r.through.map (·.table)

def Pred.isComparison : Pred → Bool
  | .compare .. => true
  | _ => false

/-- The rows asked for are those of a junction, which are found by comparing their
columns and nothing else. -/
def Schema.joins (schema : Schema) (table : String) (conditions : List Pred) : Bool :=
  schema.junctions.contains table && conditions.all Pred.isComparison

section

variable (schema : Schema) (text : String)

mutual

/-- The predicate with the text put before the tables that it asks for rows of, but not
before those of junctions. -/
def Pred.under : Pred → Pred
  | .truth value => .truth value
  | .compare lhs op rhs => .compare lhs op rhs
  | .compareRows columns op values => .compareRows columns op values
  | .isNull s negated => .isNull s negated
  | .isIn s items negated => .isIn s items negated
  | .like s pattern => .like s pattern
  | .and operands => .and (Pred.underAll operands)
  | .or operands => .or (Pred.underAll operands)
  | .not operand => .not operand.under
  | .related negated table tag conditions =>
    .related negated (if schema.joins table conditions then table else text ++ table) tag
      (Pred.underAll conditions)

def Pred.underAll : List Pred → List Pred
  | [] => []
  | p :: ps => p.under :: Pred.underAll ps

end

def Body.under (b : Body) : Body :=
  { b with table := text ++ b.table, filter := b.filter.map (Pred.under schema text) }

mutual

def Projection.under : Projection → Projection
  | .column c => .column c
  | .aggregate kind c name => .aggregate kind c name
  | .relation name toMany fold columns body =>
    .relation name toMany fold (Projection.underAll columns) (body.under schema text)

def Projection.underAll : List Projection → List Projection
  | [] => []
  | p :: ps => p.under :: Projection.underAll ps

end

/-- The statement with the text put before the tables of models, wherever it reads or
writes them. -/
def Statement.under : Statement → Statement
  | .select columns distinct body =>
    .select (columns.map (Projection.under schema text)) distinct (body.under schema text)
  | .overPage columns tag page body => .overPage columns tag page (body.under schema text)
  | .insert table assignments => .insert (text ++ table) assignments
  | .update table tag assignments filter =>
    .update (text ++ table) tag assignments (filter.map (Pred.under schema text))
  | .delete table tag filter => .delete (text ++ table) tag (filter.map (Pred.under schema text))

theorem Pred.under_all_eq (ps : List Pred) :
    Pred.underAll schema text ps = ps.map (Pred.under schema text) := by
  induction ps with
  | nil => rfl
  | cons p ps ih => rw [Pred.underAll, ih, List.map_cons]

theorem Projection.under_all_eq (ps : List Projection) :
    Projection.underAll schema text ps = ps.map (Projection.under schema text) := by
  induction ps with
  | nil => rfl
  | cons p ps ih => rw [Projection.underAll, ih, List.map_cons]

theorem Pred.under_through : Pred.Through (Pred.under schema text) where
  truth _ := rfl
  and ps := congrArg Pred.and (Pred.under_all_eq schema text ps)
  or ps := congrArg Pred.or (Pred.under_all_eq schema text ps)
  not _ := rfl

mutual

theorem Pred.values_under (p : Pred) : (p.under schema text).values = p.values := by
  match p with
  | .truth _ | .compare _ _ _ | .compareRows _ _ _ | .isNull _ _ | .isIn _ _ _ | .like _ _ => rfl
  | .and operands | .or operands => exact Pred.values_under_all operands
  | .not operand => exact Pred.values_under operand
  | .related _ _ _ conditions => exact Pred.values_under_all conditions

theorem Pred.values_under_all (ps : List Pred) :
    Pred.valuesAll (Pred.underAll schema text ps) = Pred.valuesAll ps := by
  match ps with
  | [] => rfl
  | p :: ps =>
    rw [Pred.underAll, Pred.valuesAll, Pred.valuesAll, Pred.values_under p,
      Pred.values_under_all ps]

end

theorem Pred.values_under_optional (p : Option Pred) :
    Pred.values? (p.map (Pred.under schema text)) = Pred.values? p := by
  cases p with
  | none => rfl
  | some p => exact Pred.values_under schema text p

theorem Body.values_under (b : Body) : (b.under schema text).values = b.values := by
  simp only [Body.values, Body.under, Pred.values_under_optional]

mutual

theorem Projection.values_under (p : Projection) : (p.under schema text).values = p.values := by
  match p with
  | .column _ | .aggregate _ _ _ => rfl
  | .relation _ _ _ columns body =>
    rw [Projection.under, Projection.values, Projection.values, Body.values_under,
      Projection.values_under_all columns]

theorem Projection.values_under_all (ps : List Projection) :
    Projection.valuesAll (Projection.underAll schema text ps) = Projection.valuesAll ps := by
  match ps with
  | [] => rfl
  | p :: ps =>
    rw [Projection.underAll, Projection.valuesAll, Projection.valuesAll,
      Projection.values_under p, Projection.values_under_all ps]

end

theorem Statement.values_under (st : Statement) : (st.under schema text).values = st.values := by
  cases st with
  | select columns distinct body =>
    rw [under, values, values, Body.values_under, ← Projection.under_all_eq,
      Projection.values_under_all]
  | overPage columns tag page body => rw [under, values, values, Body.values_under]
  | insert table assignments => rfl
  | update table tag assignments filter => simp only [under, values, Pred.values_under_optional]
  | delete table tag filter => simp only [under, values, Pred.values_under_optional]

end

namespace Condition

variable (schema : Schema) (text : String) {m : Model} {f : Field} {lhs : Scalar} {mode : Mode}

theorem runs_under {entries : Json.Entries} {ps : List Pred} (h : Runs m f lhs mode entries ps) :
    ps.map (Pred.under schema text) = ps := by
  induction h with
  | nil => rfl
  | mode _ ih => exact ih
  | @negation _ _ _ _ qs _ _ _ _ ih ihl =>
    have hoptional := (Pred.under_through schema text).map_optional qs
    rw [ih] at hoptional
    rw [List.map_append, ihl]
    cases hq : Pred.all? qs with
    | none => rfl
    | some q =>
      rw [hq] at hoptional
      simp [Pred.under, Option.some.inj hoptional]
  | operator _ _ here _ ih =>
    rw [List.map_cons, ih]
    cases here <;> rfl

theorem compiles_under {json : Json} {p : Pred} (h : Compiles m f lhs json (some p)) :
    p.under schema text = p := by
  generalize ho : some p = o at h
  cases h with
  | null =>
    cases ho
    rfl
  | scalar _ =>
    cases ho
    rfl
  | @operators _ _ ps _ here =>
    have hoptional := (Pred.under_through schema text).map_optional ps
    rw [runs_under schema text here, ← ho] at hoptional
    exact Option.some.inj hoptional

end Condition

structure Context.Retabled (schema : Schema) (t : Model → Option String) (cx cx' : Context) :
    Prop where
  member : cx.model ∈ schema.models
  eq : cx' = cx.retable t

section

variable {s s' : Settings} {t : Model → Option String}

theorem Compile.descend_alike (hs : s.Retabled t s') (cx : Context) (r : Relation) :
    Alike (Context.Retabled s.schema t) (descend s cx r) (descend s' (cx.retable t) r) := by
  have htarget : QuerySql.Alike (fun m m' => m ∈ s.schema.models ∧ m' = m.retable t)
      (s.schema.target r) (s'.schema.target r) := by
    rw [hs.schema, Schema.target_retable]
    cases htarget : s.schema.target r with
    | error e => exact .error e
    | ok m => exact .ok ⟨Schema.model_mem (Schema.target_ok.mp htarget), rfl⟩
  simp only [descend, hs.maxDepth]
  refine (Alike.lift htarget).bind fun m m' ⟨hm, hm'⟩ => ?_
  subst hm'
  have hdepth : (cx.retable t).depth = cx.depth := rfl
  rw [hdepth]
  split
  · exact .throw_bind
  · exact .after_step fun _ tag _ _ => .of_pure ⟨hm, rfl⟩

theorem Records.enter_alike (hs : s.Retabled t s') (cx : Context) (r : Relation)
    (args : RelationArgs) :
    Compile.Alike (Context.Retabled s.schema t) (enter s cx r args)
      (enter s' (cx.retable t) r args) := by
  unfold enter
  by_cases hpage : (r.cardinality.isToOne && (args.take.isSome || args.skip.isSome)) = true
  · rw [if_pos hpage, if_pos hpage]
    exact .throw_bind
  · rw [if_neg hpage, if_neg hpage]
    refine (Compile.descend_alike hs cx r).bind fun child child' ⟨hm, hchild⟩ => ?_
    subst hchild
    simp only
    split
    · exact .throw_bind
    · exact .of_pure ⟨hm, rfl⟩

end

namespace Link

variable {schema : Schema} (text : String) {r : Relation} {parent child : Context}

theorem junction_row_under (hm : parent.model ∈ schema.models)
    (hr : r ∈ parent.model.relations) {j : Junction} (hj : r.through = some j) (tag : Alias)
    (own referenced : String) : (junctionRow j tag parent child own referenced).under schema text =
      junctionRow j tag parent child own referenced := by
  have hknown : j.table ∈ schema.junctions :=
    List.mem_filterMap.mpr ⟨r, List.mem_flatMap.mpr ⟨_, hm, hr⟩, by rw [hj]; rfl⟩
  simp [junctionRow, Pred.under, Pred.underAll, Schema.joins, Pred.isComparison, hknown]

theorem guard_under (schema : Schema) (r : Relation) (parent child : Context)
    (own referenced : String) :
    (guard r parent child own referenced).under schema text =
        guard r parent child own referenced ∧
      (guard r parent child own referenced).isComparison = false := by
  unfold guard
  split <;> exact ⟨rfl, rfl⟩

theorem joins_under (hm : parent.model ∈ schema.models) (hr : r ∈ parent.model.relations)
    (hpairs : r.pairs ≠ []) {links : List Pred} {a b : Aliases}
    (h : Joins r parent child links a b) :
    links.map (Pred.under schema text) = links ∧ links.all Pred.isComparison = false := by
  cases h with
  | keys _ =>
    obtain ⟨p, rest, hp⟩ := List.exists_cons_of_ne_nil hpairs
    have hguard := guard_under text schema r parent child
    refine ⟨?_, ?_⟩
    · simp [Function.comp_def, equality, Pred.under, (hguard _ _).1]
    · simp [hp, (hguard _ _).2]
  | junction _ hj _ =>
    refine ⟨?_, rfl⟩
    rw [List.map_singleton, junction_row_under text hm hr hj]

end Link

structure Settings.Under (text : String) (s s' : Settings) : Prop
    extends Settings.Retabled (Model.tableUnder text) s s' where
  paired : ∀ m ∈ s.schema.models, ∀ r ∈ m.relations, r.pairs ≠ []

section

variable {s s' : Settings} {text : String}

namespace Filter

theorem linked_under {cx child : Context} {r : Relation} (hm : cx.model ∈ s.schema.models)
    (hr : r ∈ cx.model.relations) (hpairs : r.pairs ≠ []) (negated : Bool) (ps : List Pred) :
    Compile.Alike (fun p q => p.under s.schema text = q) (linked r cx child negated ps)
      (linked r (cx.retable (Model.tableUnder text)) (child.retable (Model.tableUnder text)) negated
        (ps.map (Pred.under s.schema text))) := by
  refine .after_step fun a links b hlinks => .of_pure ?_
  -- what is asked of the row itself may be comparisons alone, but its links are not
  obtain ⟨hsame, hmore⟩ := Link.joins_under text hm hr hpairs (Link.conditions_ok hlinks)
  have hjoins : s.schema.joins child.model.tableName (ps ++ links) = false := by
    rw [Schema.joins, List.all_append, hmore, Bool.and_false, Bool.and_false]
  rw [Pred.under, hjoins, Pred.under_all_eq, List.map_append, hsame]
  rfl

theorem under_simulation (hs : s.Under text s') :
    Simulation s s' (Model.tableUnder text) (fun cx => cx.model ∈ s.schema.models)
      (fun p q => p.under s.schema text = q) where
  toCongruence := (Pred.under_through s.schema text).congruence
  condition _ _ _ _ h := Condition.compiles_under s.schema text h
  subquery := by
    intro cx r negated own own' hm hr hown
    have hr : r ∈ cx.model.relations := List.mem_of_find?_eq_some hr
    refine (Compile.descend_alike hs.toRetabled cx r).bind fun child _ ⟨hchild, heq⟩ => ?_
    subst heq
    refine (hown child hchild).bind fun ps qs hps => ?_
    obtain rfl := forall₂_eq_map_iff.mp hps
    exact linked_under hm hr (hs.paired _ hm r hr) negated ps

end Filter

namespace Link

theorem correlates_under (text : String) {schema : Schema} {r : Relation} {parent child : Context}
    (hm : parent.model ∈ schema.models) (hr : r ∈ parent.model.relations) {links : List Pred}
    {a b : Aliases} (h : Correlates r parent child links a b) :
    links.map (Pred.under schema text) = links := by
  cases h with
  | keys _ _ => simp [Function.comp_def, equality, Pred.under]
  | junction hj _ _ => rw [List.map_singleton, junction_row_under text hm hr hj]

theorem correlation_retable (t : Model → Option String) (r : Relation) (parent child : Context) :
    correlation r (parent.retable t) (child.retable t) = correlation r parent child := by
  unfold correlation
  split
  · rfl
  · rw [references, references, equalities_retable]
    rfl

end Link

namespace Records

theorem close_over_under (hs : s.Under text s') {cx child : Context}
    {r : Relation} (hm : cx.model ∈ s.schema.models) (hr : r ∈ cx.model.relations)
    (args : RelationArgs) (columns : List Projection) (filter : List Pred) :
    Compile.Alike (fun p q => p.under s.schema text = q)
      (closeOver s cx child r args columns filter)
      (closeOver s' (cx.retable (Model.tableUnder text)) (child.retable (Model.tableUnder text)) r
        args (columns.map (Projection.under s.schema text))
        (filter.map (Pred.under s.schema text))) := by
  rw [closeOver, closeOver, Link.correlation_retable,
    Ordering.compile_retable _ child hs.dialect hs.orderTiebreaker]
  refine .after_step fun a links b hlinks => .after rfl fun orderBy _ => ?_
  refine .after_step fun _ fold _ _ => .of_pure ?_
  have hsame := Link.correlates_under text hm hr (Link.correlation_ok hlinks)
  rw [Projection.under, Projection.under_all_eq, Body.under,
    (Pred.under_through s.schema text).map_optional, List.map_append, hsame]
  rfl

theorem under_simulation (hs : s.Under text s') :
    Simulation s s' (Model.tableUnder text) (fun cx => cx.model ∈ s.schema.models)
      (fun _ p q => p.under s.schema text = q) where
  column _ _ := rfl
  subquery := by
    intro cx r args own own' hm hr hown
    have hr : r ∈ cx.model.relations := List.mem_of_find?_eq_some hr
    refine (enter_alike hs.toRetabled cx r args).bind fun child _ ⟨hchild, heq⟩ => ?_
    subst heq
    refine (hown child hchild).bind fun ps qs hps => ?_
    obtain rfl := forall₂_eq_map_iff.mp hps
    rw [close_over, close_over]
    cases args.filter with
    | none => exact close_over_under hs hm hr args ps []
    | some entries =>
      have hfilter := Filter.under_simulation hs
      refine (hfilter.compile_alike hchild entries).bind fun p q hp => ?_
      refine (Compile.Alike.lift (hfilter.apply child.model .and (.cons hp .nil))).bind
        fun p q hp => ?_
      subst hp
      exact close_over_under hs hm hr args ps [p]

end Records

namespace Read

theorem keyset_under (schema : Schema) (text : String) {cx : Context} {cursor : Json.Entries}
    {orderBy : Option (List Json.Entries)} {p : Pred}
    (h : Keyset.compile cx cursor orderBy = .ok p) : p.under schema text = p := by
  obtain ⟨_, _, bounds, _, _, _, rfl, _⟩ := Keyset.compile_ok h
  match bounds with
  | [] | [_] | _ :: _ :: _ => rfl

theorem distinct_retable (t : Model → Option String) (hs : s'.dialect = s.dialect) (cx : Context) :
    distinct s' (cx.retable t) = distinct s cx := by
  rw [distinct, distinct, hs]
  rfl

theorem columns_aggregate_retable (t : Model → Option String) (cx : Context) (args : Args)
    (hop : cx.operation.isAggregate = true) :
    columns s' (cx.retable t) args = columns s cx args := by
  have hsame : (cx.retable t).operation = cx.operation := rfl
  unfold columns
  rw [hsame]
  cases hcx : cx.operation <;>
    simp [hcx, Operation.isAggregate, Aggregation.count_columns_retable,
      Aggregation.aggregate_columns_retable, Aggregation.group_columns_retable] at hop ⊢

theorem reads_under (schema : Schema) (text : String) {cx : Context} {ps : List Projection}
    (h : ∀ p ∈ ps, p.Reads cx) : ps.map (Projection.under schema text) = ps := by
  have hsame : ∀ p ∈ ps, p.under schema text = id p := by
    intro p hp
    match p, h p hp with
    | .column _, _ | .aggregate _ _ _, _ => rfl
  rw [List.map_congr_left hsame, List.map_id]

end Read

section

variable (hs : s.Under text s')
include hs

namespace Read

theorem filter_under (cx : Context) (hm : cx.model ∈ s.schema.models) (args : Args) :
    Compile.Alike (fun p q => p.map (Pred.under s.schema text) = q) (filter s cx args)
      (filter s' (cx.retable (Model.tableUnder text)) args) := by
  have hcursor : ∀ p cursor : Option Pred, (∀ q ∈ cursor, q.under s.schema text = q) →
      (Pred.all? (p.toList ++ cursor.toList)).map (Pred.under s.schema text) =
        Pred.all? ((p.map (Pred.under s.schema text)).toList ++ cursor.toList) := by
    intro p cursor hsame
    have hcursor : cursor.toList.map (Pred.under s.schema text) = cursor.toList := by
      cases cursor with
      | none => rfl
      | some q => exact congrArg ([·]) (hsame q rfl)
    rw [(Pred.under_through s.schema text).map_optional, List.map_append, hcursor,
      Option.toList_map]
  unfold filter
  refine ((Filter.under_simulation hs).optional_alike hm args.filter).bind fun p q hp => ?_
  obtain rfl := option_rel_eq_map_iff.mp hp
  have hpagination : (cx.retable (Model.tableUnder text)).pagination? = cx.pagination? := rfl
  rw [hpagination]
  cases cx.pagination?.bind (·.cursor) with
  | none => exact .of_pure (hcursor p none fun _ hq => nomatch hq)
  | some cursor =>
    simp only [Keyset.compile_retable, bind_map_left]
    refine .after rfl fun q hq => .of_pure (hcursor p (some q) fun _ hsome => ?_)
    rw [← Option.some.inj hsome]
    exact keyset_under s.schema text hq

theorem find_rows_under (cx : Context) (hm : cx.model ∈ s.schema.models)
    (hop : cx.operation.isRead = true) (args : Args) :
    Compile.Alike (fun st st' => st.under s.schema text = st') (findRows s cx args)
      (findRows s' (cx.retable (Model.tableUnder text)) args) := by
  have hop' : (cx.retable (Model.tableUnder text)).operation.isRead = true := hop
  rw [findRows, findRows, columns_of_read s args hop, columns_of_read s' args hop',
    distinct_retable _ hs.dialect, Ordering.compile_retable _ cx hs.dialect hs.orderTiebreaker]
  refine ((Records.under_simulation hs).columns_alike hm args.select args.inclusion).bind
    fun ps qs hps => .after rfl fun distinct _ => ?_
  refine (filter_under hs cx hm args).bind fun p q hp => .after rfl fun orderBy _ => ?_
  obtain rfl := forall₂_eq_map_iff.mp hps
  subst hp
  exact .of_pure rfl

theorem find_under (cx : Context) (hm : cx.model ∈ s.schema.models)
    (hop : cx.operation.isRead = true) (args : Args) :
    Compile.Alike (fun st st' => st.under s.schema text = st') (find s cx args)
      (find s' (cx.retable (Model.tableUnder text)) args) := by
  have hrows := find_rows_under hs cx hm hop args
  rw [find_rows, find_rows]
  split
  · rename_i hunique
    rw [if_pos (show (cx.retable (Model.tableUnder text)).operation = .findUnique from hunique)]
    exact .after rfl fun _ _ => hrows
  · rename_i hunique
    rw [if_neg (show ¬(cx.retable (Model.tableUnder text)).operation = .findUnique from hunique)]
    exact hrows

theorem aggregate_under (cx : Context) (hm : cx.model ∈ s.schema.models)
    (hop : cx.operation.isAggregate = true) (args : Args) :
    Compile.Alike (fun st st' => st.under s.schema text = st') (aggregate s cx args)
      (aggregate s' (cx.retable (Model.tableUnder text)) args) := by
  rw [aggregate, aggregate, Ordering.compile_retable _ cx hs.dialect hs.orderTiebreaker,
    columns_aggregate_retable (s := s) _ cx args hop]
  refine (filter_under hs cx hm args).bind fun p q hp => .after rfl fun orderBy _ => ?_
  subst hp
  split
  · refine .after_step fun a ps b hps => .of_pure ?_
    rw [Statement.under, reads_under _ _ (columns_aggregate_ok hop hps).1]
    rfl
  · refine .after rfl fun page _ => .after_step fun _ tag _ _ => ?_
    have hcolumns : columns s' ((cx.retable (Model.tableUnder text)).withTag tag) args =
        columns s (cx.withTag tag) args := columns_aggregate_retable _ (cx.withTag tag) args hop
    rw [hcolumns]
    exact .after_step fun _ ps _ _ => .of_pure rfl

theorem group_by_under (cx : Context) (hm : cx.model ∈ s.schema.models)
    (hop : cx.operation.isAggregate = true) (args : Args) :
    Compile.Alike (fun st st' => st.under s.schema text = st') (groupBy s cx args)
      (groupBy s' (cx.retable (Model.tableUnder text)) args) := by
  rw [groupBy, groupBy, columns_aggregate_retable (s := s) _ cx args hop]
  refine .after rfl fun grouping _ => .after_step fun a ps b hps => ?_
  refine (filter_under hs cx hm args).bind fun p q hp => ?_
  rw [Having.compile_retable, Ordering.compile_retable _ cx hs.dialect hs.orderTiebreaker]
  refine .after rfl fun having _ => .after rfl fun orderBy _ => .of_pure ?_
  subst hp
  rw [Statement.under, reads_under _ _ (columns_aggregate_ok hop hps).1]
  rfl

end Read

namespace Write

theorem update_under (cx : Context) (hm : cx.model ∈ s.schema.models) (args : Args) :
    Compile.Alike (fun st st' => st.under s.schema text = st') (update s cx args)
      (update s' (cx.retable (Model.tableUnder text)) args) := by
  unfold update
  refine .after rfl fun entries _ => .after (assignments_retable _ cx.model entries) fun set _ => ?_
  split
  · exact .throw_bind
  · refine ((Filter.under_simulation hs).optional_alike hm args.filter).bind
      fun p q hp => ?_
    obtain rfl := option_rel_eq_map_iff.mp hp
    exact .of_pure rfl

theorem delete_under (cx : Context) (hm : cx.model ∈ s.schema.models) (args : Args) :
    Compile.Alike (fun st st' => st.under s.schema text = st') (delete s cx args)
      (delete s' (cx.retable (Model.tableUnder text)) args) := by
  refine ((Filter.under_simulation hs).optional_alike hm args.filter).bind fun p q hp => ?_
  obtain rfl := option_rel_eq_map_iff.mp hp
  exact .of_pure rfl

end Write

end

theorem Write.create_under (schema : Schema) (text : String) (cx : Context) :
    Compile.Alike (fun st st' => st.under schema text = st') (create cx)
      (create (cx.retable (Model.tableUnder text))) := by
  unfold create
  refine .after rfl fun entries _ => .after (assignments_retable _ cx.model entries) fun _ _ => ?_
  exact .of_pure rfl

namespace Compiler

theorem compile_at_under (hs : s.Under text s') (cx : Context)
    (hm : cx.model ∈ s.schema.models) (args : Args) :
    Compile.Alike (fun st st' => st.under s.schema text = st') (compileAt s args cx)
      (compileAt s' args (cx.retable (Model.tableUnder text))) := by
  have hsame : (cx.retable (Model.tableUnder text)).operation = cx.operation := rfl
  rw [compileAt, compileAt, hsame]
  have hread := Read.find_under hs cx hm
  have haggregate := Read.aggregate_under hs cx hm
  have hgroup := Read.group_by_under hs cx hm
  cases hop : cx.operation with
  | findMany | findFirst | findUnique => exact hread (by rw [hop]; rfl) args
  | count | aggregate => exact haggregate (by rw [hop]; rfl) args
  | groupBy => exact hgroup (by rw [hop]; rfl) args
  | create => exact Write.create_under s.schema text cx
  | update => exact Write.update_under hs cx hm args
  | delete => exact Write.delete_under hs cx hm args

/-- A compiler over models under a text gives the statement that one over the models
alone gives, under the text, or fails as it does. -/
theorem statement_under {c c' : Compiler} (hs : c.settings.Under text c'.settings)
    (model : String) (op : Operation) (args : Args) : c'.statement model op args =
      Prod.map (Statement.under c.schema text) id <$> c.statement model op args := by
  have hschema : c'.schema = c.schema.retable (Model.tableUnder text) := hs.schema
  refine Alike.eq_map ?_
  cases hm : c.schema.expectModel model with
  | error e =>
    rw [statement, statement, hschema, Schema.expect_model_retable, hm]
    exact .error e
  | ok m =>
    have hm' : c'.schema.expectModel model = .ok (m.retable (Model.tableUnder text)) := by
      rw [hschema, Schema.expect_model_retable, hm]
      rfl
    rw [statement, statement, hm, hm']
    rw [Schema.expect_model_ok] at hm hm'
    rw [run_at hm, run_at hm']
    refine Alike.bind (R := fun found found' => found' = found.retable (Model.tableUnder text))
      (.ok rfl) fun found _ hfound => ?_
    subst hfound
    refine Alike.after rfl fun _ _ => ?_
    have hroot := compile_at_under hs (Context.atRoot m op args) (Schema.model_mem hm) args ⟨1⟩
    exact hroot.mono fun _ _ h => Prod.ext h.1 h.2.symm

end Compiler

end

namespace Schema.Builder

theorem build_under {models : List Model} {schema : Schema}
    (h : (build ⟨none, models⟩).1 = .ok schema) (text : String) :
    (build ⟨some text, models⟩).1 = .ok (schema.retable (Model.tableUnder text)) := by
  have hmodels : schema.models = models := (build_ok h).1.trans (List.map_id models)
  have hsound : Schema.Sound models := by
    rcases build_decides ⟨none, models⟩ with ⟨hsound, -⟩ | ⟨-, flaw, hflaw⟩
    · exact hsound
    · rw [h] at hflaw
      cases hflaw
  rcases of_models_decides (models.map (placed ⟨some text, models⟩)) with ⟨-, hbuild⟩ | ⟨hflawed, -⟩
  · rw [build, hbuild, Schema.retable, hmodels]
    rfl
  · exact absurd ((placed_sound_iff _ models).mpr hsound) hflawed

end Schema.Builder

/-- Models that can be built can be built under any text, and what is compiled then fails
as it does without, or gives the same statement with the same parameters, but for the
text before the tables of models. -/
theorem models_stand_under_text (models : List Model) (schema : Schema) (text : String)
    (d : Dialect) (config : Config) (model : String) (op : Operation) (args : Args)
    (h : (Schema.Builder.build ⟨none, models⟩).1 = .ok schema) :
    ∃ schema', (Schema.Builder.build ⟨some text, models⟩).1 = .ok schema' ∧
      ((∃ e, Compiler.compile ⟨schema, d, config⟩ model op args = .error e ∧
          Compiler.compile ⟨schema', d, config⟩ model op args = .error e) ∨
        ∃ st as prepared prepared',
          Compiler.statement ⟨schema, d, config⟩ model op args = .ok (st, as) ∧
          Compiler.statement ⟨schema', d, config⟩ model op args = .ok (st.under schema text, as) ∧
          Compiler.compile ⟨schema, d, config⟩ model op args = .ok prepared ∧
          Compiler.compile ⟨schema', d, config⟩ model op args = .ok prepared' ∧
          prepared = (st.render d).prepare d ∧
          prepared' = ((st.under schema text).render d).prepare d ∧
          prepared'.params = prepared.params) := by
  refine ⟨_, Schema.Builder.build_under h text, ?_⟩
  have hpaired : ∀ m ∈ schema.models, ∀ r ∈ m.relations, r.pairs ≠ [] := fun m hm r hr =>
    (((Schema.build_ok h).2 m hm).linkable r hr).paired
  have hs : (Compiler.settings ⟨schema, d, config⟩).Under text
      (Compiler.settings ⟨schema.retable (Model.tableUnder text), d, config⟩) :=
    ⟨⟨rfl, rfl, rfl, rfl⟩, hpaired⟩
  have hstatement := Compiler.statement_under hs model op args
  rw [Compiler.compile, Compiler.compile]
  cases hst : Compiler.statement ⟨schema, d, config⟩ model op args with
  | error e =>
    rw [hst] at hstatement
    rw [hstatement]
    exact .inl ⟨e, rfl, rfl⟩
  | ok p =>
    obtain ⟨st, as⟩ := p
    rw [hst] at hstatement
    rw [hstatement]
    refine .inr ⟨st, as, _, _, rfl, rfl, rfl, rfl, rfl, rfl, ?_⟩
    have hparams (st : Statement) : ((st.render d).prepare d).params = st.values :=
      (List.nil_append _).trans (Statement.bindings_render d st)
    rw [hparams, hparams, Statement.values_under]

namespace Sample

def underApp : Schema := schema.retable (Model.tableUnder "app_")

def tagged : Args where
  filter := some [("tags", .obj [("some", .obj [])])]

def linkRow (table : String) : Pred :=
  .related false table ⟨2⟩
    [.compare (.column ⟨⟨2⟩, "tagId"⟩) .eq (.column ⟨⟨1⟩, "id"⟩),
      .compare (.column ⟨⟨2⟩, "postId"⟩) .eq (.column ⟨⟨0⟩, "id"⟩)]

end Sample

theorem sample_models_stand_under_text :
    (Schema.Builder.build ⟨none, Sample.schema.models⟩).1 = .ok Sample.schema ∧
    ∃ schema', (Schema.Builder.build ⟨some "app_", Sample.schema.models⟩).1 = .ok schema' ∧
      ∃ st as prepared prepared',
        (Sample.compiler .sqlite).statement "User" .findMany Sample.page = .ok (st, as) ∧
        (Compiler.ofConfig schema' { engine := .sqlite }).statement "User" .findMany Sample.page =
          .ok (st.under Sample.schema "app_", as) ∧
        (Sample.compiler .sqlite).compile "User" .findMany Sample.page = .ok prepared ∧
        (Compiler.ofConfig schema' { engine := .sqlite }).compile "User" .findMany Sample.page =
          .ok prepared' ∧
        prepared = (st.render .sqlite).prepare .sqlite ∧
        prepared' = ((st.under Sample.schema "app_").render .sqlite).prepare .sqlite ∧
        prepared'.params = prepared.params := by
  have hbuild : (Schema.Builder.build ⟨none, Sample.schema.models⟩).1 = .ok Sample.schema := rfl
  refine ⟨hbuild, ?_⟩
  obtain ⟨schema', hschema', hcompile⟩ := models_stand_under_text Sample.schema.models
    Sample.schema "app_" .sqlite { engine := .sqlite } "User" .findMany Sample.page hbuild
  obtain ⟨prepared, hc⟩ := Sample.page_compiles
  rcases hcompile with ⟨e, he, -⟩ | hstatement
  · exact nomatch hc.symm.trans he
  · exact ⟨schema', hschema', hstatement⟩

/-- The tables of the models stand under the text, and that of the junction between them
does not. -/
theorem junction_keeps_its_name :
    (Schema.Builder.build ⟨none, Sample.schema.models⟩).1 = .ok Sample.schema ∧
    (Schema.Builder.build ⟨some "app_", Sample.schema.models⟩).1 = .ok Sample.underApp ∧
    Compiler.statement (.ofConfig Sample.schema { engine := .sqlite }) "Post" .delete
        Sample.tagged =
      .ok (.delete "Post" ⟨0⟩ (some (.related false "Tag" ⟨1⟩ [Sample.linkRow "_PostToTag"])),
        ⟨3⟩) ∧
    Compiler.statement (.ofConfig Sample.underApp { engine := .sqlite }) "Post" .delete
        Sample.tagged =
      .ok (.delete "app_Post" ⟨0⟩
        (some (.related false "app_Tag" ⟨1⟩ [Sample.linkRow "_PostToTag"])), ⟨3⟩) ∧
    "_PostToTag" ≠ "app_" ++ "_PostToTag" :=
  ⟨rfl, rfl, rfl, rfl, by decide⟩

end QuerySql
