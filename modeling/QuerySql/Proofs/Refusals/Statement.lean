import QuerySql.Proofs.Built
import QuerySql.Proofs.Refusals.Clauses
import QuerySql.Proofs.Success.Statement

/-!
# Refusals of whole queries

Over a schema that was built, what remains of a compilation cannot fail but with
a documented error either: every relation that it follows can be linked.
-/

set_option autoImplicit false

namespace QuerySql

/-- The relations of every model have what it takes to link rows. -/
def Schema.Linkable (schema : Schema) : Prop :=
  ∀ m ∈ schema.models, ∀ r ∈ m.relations, r.Linkable

namespace Link

variable {r : Relation} (parent child : Context)

theorem junction_orderly (hr : r.Linkable) (hmany : r.cardinality = .manyToMany) :
    (junction r parent child).Orderly := by
  obtain ⟨j, hj⟩ := hr.joined hmany
  obtain ⟨⟨own, referenced⟩, rest, hpairs⟩ := List.exists_cons_of_ne_nil hr.paired
  simp only [junction, hj, hpairs]
  exact Compile.fresh_orderly.after fun _ => Compile.orderly_pure _

theorem conditions_orderly (hr : r.Linkable) : (conditions r parent child).Orderly := by
  unfold conditions
  split
  · rename_i hmany
    exact (junction_orderly parent child hr hmany).after fun _ => Compile.orderly_pure _
  · exact Compile.orderly_pure _

@[simp] theorem equalities_orderly (pairs : List (String × String)) :
    Orderly (equalities parent child pairs) := by
  induction pairs with
  | nil => simp [equalities]
  | cons p rest ih => simp [equalities, ih]

theorem correlation_orderly (hr : r.Linkable) : (correlation r parent child).Orderly := by
  unfold correlation
  split
  · rename_i hmany
    exact (junction_orderly parent child hr hmany).after fun _ => Compile.orderly_pure _
  · have hne : (byReference r.pairs).isEmpty = false := by
      simpa using by_reference_ne_nil hr.paired
    rw [references, hne]
    exact Compile.orderly_lift.mpr (equalities_orderly parent child _)

end Link

namespace Filter

theorem linked_orderly {r : Relation} (hr : r.Linkable) (parent child : Context) (negated : Bool)
    (ps : List Pred) : (linked r parent child negated ps).Orderly :=
  (Link.conditions_orderly parent child hr).after fun _ => Compile.orderly_pure _

theorem unfiltered_orderly (s : Settings) {r : Relation} (hr : r.Linkable) (cx : Context)
    (negated : Bool) : (unfiltered s cx r negated).Orderly :=
  (Compile.descend_orderly s cx r).after fun child => linked_orderly hr cx child negated []

end Filter

variable {s : Settings}

namespace Filter

theorem subquery_orderly {r : Relation} (hr : r.Linkable) (cx : Context) (c : Connective)
    (negated : Bool) {entries : Json.Entries}
    (h : ∀ child : Context, child.model ∈ s.schema.models → (conditions s child entries).Orderly) :
    Compile.Orderly (do
      let child ← Compile.descend s cx r
      let nested ← conditions s child entries
      let p ← c.apply child.model [Pred.all? nested]
      linked r cx child negated [p]) := by
  refine (Compile.descend_orderly s cx r).bind fun child a b hchild => ?_
  obtain ⟨target, htarget, _, rfl, _⟩ := Compile.descend_ok.mp hchild
  refine (h _ (Schema.model_mem htarget)).after fun nested => ?_
  exact .after_lift (by simp) fun p _ => linked_orderly hr _ _ _ _

mutual

theorem conditions_orderly (hs : s.schema.Linkable) {cx : Context}
    (hcx : cx.model ∈ s.schema.models) (entries : List (String × Json)) :
    (conditions s cx entries).Orderly := by
  match entries with
  | [] => simp [conditions]
  | (key, value) :: rest =>
    have hrest : ∀ here : Option Pred, Compile.Orderly (do
        let later ← conditions s cx rest
        return here.toList ++ later) :=
      fun here => (conditions_orderly hs hcx rest).after fun _ => Compile.orderly_pure _
    simp only [conditions]
    refine .after_lift (by simp) fun k hk => ?_
    rcases FilterKey.resolve_ok hk with ⟨c, _, rfl⟩ | ⟨_, f, _, rfl⟩ | ⟨_, _, r, hr, rfl⟩
    · exact ((connective_orderly hs hcx c value).map some).after hrest
    · exact .after_lift (by simp) fun here _ => hrest here
    · have hlinkable := hs _ hcx r (Model.relation_mem hr)
      exact ((relation_orderly hs cx hlinkable value).map some).after hrest

theorem connective_orderly (hs : s.schema.Linkable) {cx : Context}
    (hcx : cx.model ∈ s.schema.models) (c : Connective) (value : Json) :
    (connective s cx c value).Orderly := by
  have happly : ∀ filters, Compile.Orderly (liftM (c.apply cx.model filters) : Compile Pred) :=
    fun filters => Compile.orderly_lift.mpr (by simp)
  match value with
  | .obj entries =>
    simp only [connective]
    refine .after_lift (by simp) fun _ _ => ?_
    exact ((conditions_orderly hs hcx entries).map _).after happly
  | .arr items =>
    simp only [connective]
    exact .after_lift (by simp) fun _ _ => (each_orderly hs hcx items).after happly
  | .null | .bool _ | .num _ | .str _ =>
    simp only [connective]
    exact .after_lift (by simp) fun _ _ => .after (Compile.orderly_pure _) happly

theorem each_orderly (hs : s.schema.Linkable) {cx : Context}
    (hcx : cx.model ∈ s.schema.models) (items : List Json) :
    (each s cx items).Orderly := by
  match items with
  | [] => simp [each]
  | .obj entries :: rest =>
    simp only [each]
    refine (conditions_orderly hs hcx entries).after fun here => ?_
    exact (each_orderly hs hcx rest).after fun _ => Compile.orderly_pure _
  | .null :: rest | .bool _ :: rest | .num _ :: rest | .str _ :: rest | .arr _ :: rest =>
    simp only [each]
    exact each_orderly hs hcx rest

theorem relation_orderly (hs : s.schema.Linkable) (cx : Context) {r : Relation}
    (hr : r.Linkable) (value : Json) : (relation s cx r value).Orderly := by
  match value with
  | .null =>
    simp only [relation]
    split
    · exact unfiltered_orderly s hr cx true
    · simp
  | .obj entries =>
    simp only [relation]
    repeat' split
    · exact unfiltered_orderly s hr cx false
    · exact subquery_orderly hr cx .and false fun child hchild =>
        conditions_orderly hs hchild entries
    · simp
    · exact (quantifiers_orderly hs cx hr entries).map _
  | .bool _ | .num _ | .str _ | .arr _ => simp [relation]

theorem quantifiers_orderly (hs : s.schema.Linkable) (cx : Context) {r : Relation}
    (hr : r.Linkable) (entries : List (String × Json)) :
    (quantifiers s cx r entries).Orderly := by
  match entries with
  | [] => simp [quantifiers]
  | (key, value) :: rest =>
    have hrest : ∀ here : List Pred, Compile.Orderly (do
        let later ← quantifiers s cx r rest
        return here ++ later) :=
      fun here => (quantifiers_orderly hs cx hr rest).after fun _ => Compile.orderly_pure _
    simp only [quantifiers]
    split
    · exact ((quantified_orderly hs cx hr _ value).map _).after hrest
    · exact .after (Compile.orderly_pure _) hrest

theorem quantified_orderly (hs : s.schema.Linkable) (cx : Context) {r : Relation}
    (hr : r.Linkable) (q : Quantifier) (value : Json) : (quantified s cx r q value).Orderly := by
  simp only [quantified.eq_def]
  split
  · simp
  · match value with
    | .obj entries =>
      simp only
      repeat' split
      · exact Compile.orderly_pure _
      · exact unfiltered_orderly s hr cx _
      · exact subquery_orderly hr cx _ _ fun child hchild =>
          conditions_orderly hs hchild entries
      · exact subquery_orderly hr cx _ _ fun child hchild =>
          conditions_orderly hs hchild entries
    | .null =>
      simp only
      split
      · simp
      · exact unfiltered_orderly s hr cx _
    | .bool _ | .num _ | .str _ | .arr _ => simp

end

theorem compile_orderly (hs : s.schema.Linkable) {cx : Context} (hcx : cx.model ∈ s.schema.models)
    (entries : Json.Entries) : (compile s cx entries).Orderly :=
  (conditions_orderly hs hcx entries).map _

theorem optional_orderly (hs : s.schema.Linkable) {cx : Context} (hcx : cx.model ∈ s.schema.models)
    (filter : Option Json.Entries) : (compile? s cx filter).Orderly := by
  cases filter with
  | none => exact Compile.orderly_pure _
  | some entries => exact compile_orderly hs hcx entries

end Filter

/-! ## Records -/

namespace Records

theorem included_orderly (m : Model) (key : String) : Orderly (included m key) := by
  unfold included
  repeat' split
  all_goals simp

theorem nonempty_orderly (m : Model) (columns : List Projection) :
    Orderly (nonempty m columns) := by
  unfold nonempty
  split <;> simp

theorem enter_orderly (s : Settings) (cx : Context) (r : Relation) (args : RelationArgs) :
    (enter s cx r args).Orderly := by
  simp only [enter]
  split
  · exact .after (by simp) fun _ => .after (Compile.descend_orderly s cx r) fun _ => by
      split
      · exact .after (by simp) fun _ => by simp
      · simp
  · refine .after (Compile.descend_orderly s cx r) fun child => ?_
    split
    · exact .after (by simp) fun _ => by simp
    · simp

theorem close_over_orderly (s : Settings) (cx child : Context) {r : Relation} (hr : r.Linkable)
    (args : RelationArgs) (columns : List Projection) (filter : List Pred) :
    (closeOver s cx child r args columns filter).Orderly := by
  refine (Link.correlation_orderly cx child hr).after fun links => ?_
  refine .after_lift (by simp) fun orderBy _ => ?_
  exact Compile.fresh_orderly.after fun _ => Compile.orderly_pure _

theorem close_orderly (hs : s.schema.Linkable) (cx : Context) {child : Context}
    (hchild : child.model ∈ s.schema.models) {r : Relation} (hr : r.Linkable)
    (args : RelationArgs) (columns : List Projection) :
    (close s cx child r args columns).Orderly := by
  rw [close_over]
  split
  · refine (Filter.compile_orderly hs hchild _).after fun p => ?_
    exact .after_lift (by simp) fun q _ => close_over_orderly s cx child hr args columns [q]
  · exact close_over_orderly s cx child hr args columns []

theorem column_orderly (hs : s.schema.Linkable) (cx : Context) {r : Relation} (hr : r.Linkable)
    (args : RelationArgs) (columns : Context → Compile (List Projection))
    (h : ∀ child : Context, child.model ∈ s.schema.models → (columns child).Orderly) :
    Compile.Orderly (do
      let child ← enter s cx r args
      let columns ← columns child
      return [← close s cx child r args columns]) := by
  refine (enter_orderly s cx r args).bind fun child a b hchild => ?_
  obtain ⟨target, htarget, rfl, _⟩ := enter_ok hchild
  have hmem := Schema.model_mem htarget
  refine (h _ hmem).after fun columns => ?_
  exact (close_orderly hs cx hmem hr args columns).after fun _ => Compile.orderly_pure _

mutual

theorem selected_orderly (hs : s.schema.Linkable) {cx : Context}
    (hcx : cx.model ∈ s.schema.models) (entries : List (String × Json)) :
    (selected s cx entries).Orderly := by
  match entries with
  | [] => simp [selected]
  | (key, value) :: rest =>
    have hrest : ∀ here : List Projection, Compile.Orderly (do
        let later ← selected s cx rest
        return here ++ later) :=
      fun here => (selected_orderly hs hcx rest).after fun _ => Compile.orderly_pure _
    simp only [selected]
    split
    · exact .after_lift (by simp) fun flag _ => .after (Compile.orderly_pure _) hrest
    · rename_i r _ hr
      have hlinkable := hs _ hcx r (Model.relation_mem hr)
      exact (relation_orderly hs cx hlinkable value).after hrest
    · split
      · exact .after (by simp) hrest
      · exact .after (by simp) hrest

theorem inclusions_orderly (hs : s.schema.Linkable) {cx : Context}
    (hcx : cx.model ∈ s.schema.models) (entries : List (String × Json)) :
    (inclusions s cx entries).Orderly := by
  match entries with
  | [] => simp [inclusions]
  | (key, value) :: rest =>
    simp only [inclusions]
    refine .after_lift (included_orderly _ _) fun r hr => ?_
    have hlinkable := hs _ hcx r (Model.relation_mem (included_ok hr).2)
    refine (relation_orderly hs cx hlinkable value).after fun here => ?_
    exact (inclusions_orderly hs hcx rest).after fun _ => Compile.orderly_pure _

theorem relation_orderly (hs : s.schema.Linkable) (cx : Context) {r : Relation}
    (hr : r.Linkable) (value : Json) : (relation s cx r value).Orderly := by
  match value with
  | .bool false => simp [relation]
  | .bool true =>
    simp only [relation]
    exact column_orderly hs cx hr {} (fun child => pure (fieldColumns child))
      fun _ _ => Compile.orderly_pure _
  | .obj entries =>
    simp only [relation]
    refine .after_lift (by simp) fun args _ => ?_
    exact column_orderly hs cx hr args _ fun child hchild => nested_orderly hs hchild entries
  | .null | .num _ | .str _ | .arr _ => simp [relation]

theorem nested_orderly (hs : s.schema.Linkable) {cx : Context}
    (hcx : cx.model ∈ s.schema.models) (entries : List (String × Json)) :
    (nested s cx entries).Orderly := by
  match entries with
  | [] => simp [nested]
  | (key, .obj entries) :: rest =>
    simp only [nested]
    split
    · refine (selected_orderly hs hcx entries).after fun columns => ?_
      exact Compile.orderly_lift.mpr (nonempty_orderly _ _)
    · split
      · exact (inclusions_orderly hs hcx entries).after fun _ => Compile.orderly_pure _
      · exact nested_orderly hs hcx rest
  | (_, .null) :: rest | (_, .bool _) :: rest | (_, .num _) :: rest | (_, .str _) :: rest
  | (_, .arr _) :: rest =>
    simp only [nested]
    exact nested_orderly hs hcx rest

end

theorem columns_orderly (hs : s.schema.Linkable) {cx : Context}
    (hcx : cx.model ∈ s.schema.models) (select inclusion : Option Json.Entries) :
    (columns s cx select inclusion).Orderly := by
  match select, inclusion with
  | some _, some _ => simp [columns]
  | some entries, none =>
    refine (selected_orderly hs hcx entries).after fun columns => ?_
    exact Compile.orderly_lift.mpr (nonempty_orderly _ _)
  | none, some entries =>
    exact (inclusions_orderly hs hcx entries).after fun _ => Compile.orderly_pure _
  | none, none => exact Compile.orderly_pure _

end Records

/-! ## Operations -/

namespace Read

theorem columns_orderly (hs : s.schema.Linkable) {cx : Context}
    (hcx : cx.model ∈ s.schema.models) (args : Args) : (columns s cx args).Orderly := by
  unfold columns
  split
  · simp
  · simp
  · simp
  · exact Records.columns_orderly hs hcx args.select args.inclusion

theorem filter_orderly (hs : s.schema.Linkable) {cx : Context}
    (hcx : cx.model ∈ s.schema.models) (args : Args) : (filter s cx args).Orderly := by
  simp only [filter]
  refine (Filter.optional_orderly hs hcx args.filter).after fun p => ?_
  split
  · exact .after (.map (by simp) some) fun _ => Compile.orderly_pure _
  · exact .after (Compile.orderly_pure _) fun _ => Compile.orderly_pure _

theorem check_unique_orderly (m : Model) (args : Args) : Orderly (checkUnique m args) := by
  unfold checkUnique
  split <;> simp

theorem distinct_orderly (s : Settings) (cx : Context) : Orderly (distinct s cx) := by
  simp only [distinct, orderly_bind, Ordering.distinct_fields_orderly, true_and]
  intro fields _
  repeat' split
  all_goals simp

theorem page_columns_orderly (cx : Context) (args : Args) : Orderly (pageColumns cx args) := by
  simp [pageColumns]

theorem find_orderly (hs : s.schema.Linkable) {cx : Context}
    (hcx : cx.model ∈ s.schema.models) (args : Args) : (find s cx args).Orderly := by
  have hrows : (findRows s cx args).Orderly := by
    refine (columns_orderly hs hcx args).after fun columns => ?_
    refine .after_lift (distinct_orderly s cx) fun distinct _ => ?_
    refine (filter_orderly hs hcx args).after fun p => ?_
    exact .after_lift (by simp) fun _ _ => Compile.orderly_pure _
  rw [find_rows]
  split
  · exact .after_lift (check_unique_orderly _ _) fun _ _ => hrows
  · exact hrows

theorem aggregate_orderly (hs : s.schema.Linkable) {cx : Context}
    (hcx : cx.model ∈ s.schema.models) (args : Args) : (aggregate s cx args).Orderly := by
  refine (filter_orderly hs hcx args).after fun p => ?_
  refine .after_lift (by simp) fun orderBy _ => ?_
  split
  · exact (columns_orderly hs hcx args).after fun _ => Compile.orderly_pure _
  · refine .after_lift (page_columns_orderly cx args) fun page _ => ?_
    refine Compile.fresh_orderly.after fun tag => ?_
    have houter : (cx.withTag tag).model ∈ s.schema.models := hcx
    exact (columns_orderly hs houter args).after fun _ => Compile.orderly_pure _

theorem group_by_orderly (hs : s.schema.Linkable) {cx : Context}
    (hcx : cx.model ∈ s.schema.models) (args : Args) : (groupBy s cx args).Orderly := by
  refine .after_lift (by simp) fun grouping _ => ?_
  refine (columns_orderly hs hcx args).after fun columns => ?_
  refine (filter_orderly hs hcx args).after fun p => ?_
  refine .after_lift (by simp) fun having _ => ?_
  exact .after_lift (by simp) fun orderBy _ => Compile.orderly_pure _

end Read

namespace Write

theorem create_orderly (cx : Context) : (create cx).Orderly := by
  refine .after_lift (by simp) fun data _ => ?_
  exact .after_lift (by simp) fun _ _ => Compile.orderly_pure _

theorem update_orderly (hs : s.schema.Linkable) {cx : Context}
    (hcx : cx.model ∈ s.schema.models) (args : Args) : (update s cx args).Orderly := by
  have hfilter : ∀ assigned : List (String × Value), Compile.Orderly (do
      let filter ← Filter.compile? s cx args.filter
      return Statement.update cx.model.tableName cx.tag assigned filter) :=
    fun _ => (Filter.optional_orderly hs hcx args.filter).after fun _ => Compile.orderly_pure _
  simp only [update]
  refine .after_lift (by simp) fun data _ => .after_lift (by simp) fun assigned _ => ?_
  split
  · exact .after (by simp) fun _ => hfilter assigned
  · exact hfilter assigned

theorem delete_orderly (hs : s.schema.Linkable) {cx : Context}
    (hcx : cx.model ∈ s.schema.models) (args : Args) : (delete s cx args).Orderly :=
  (Filter.optional_orderly hs hcx args.filter).after fun _ => Compile.orderly_pure _

end Write

namespace Compiler

theorem compile_at_orderly (hs : s.schema.Linkable) {cx : Context}
    (hcx : cx.model ∈ s.schema.models) (args : Args) : (compileAt s args cx).Orderly := by
  unfold compileAt
  split
  · exact Read.find_orderly hs hcx args
  · exact Read.find_orderly hs hcx args
  · exact Read.find_orderly hs hcx args
  · exact Read.aggregate_orderly hs hcx args
  · exact Read.aggregate_orderly hs hcx args
  · exact Read.group_by_orderly hs hcx args
  · exact Write.create_orderly cx
  · exact Write.update_orderly hs hcx args
  · exact Write.delete_orderly hs hcx args

variable {α : Type} {c : Compiler}

theorem run_orderly (model : String) (op : Operation) (args : Args)
    {body : Context → Compile α}
    (h : ∀ cx : Context, cx.model ∈ c.schema.models → (body cx).Orderly) :
    Orderly (c.run model op args body) := by
  rcases hm : c.schema.expectModel model with e | m
  · rw [run, hm]
    exact orderly_error.mpr (Schema.expect_model_orderly c.schema model e hm)
  · rw [Schema.expect_model_ok] at hm
    rw [run_at hm]
    exact h (Context.atRoot m op args) (Schema.model_mem hm) ⟨1⟩

theorem statement_orderly (hc : c.schema.Linkable) (model : String) (op : Operation)
    (args : Args) : Orderly (c.statement model op args) := by
  simp only [statement, orderly_bind, Schema.expect_model_orderly, Args.check_orderly, true_and]
  intro m _ _ _
  exact run_orderly model op args fun cx hcx => compile_at_orderly (s := c.settings) hc hcx args

theorem compile_orderly (hc : c.schema.Linkable) (model : String) (op : Operation)
    (args : Args) : Orderly (c.compile model op args) := by
  simp [compile, statement_orderly hc]

theorem filter_orderly (hc : c.schema.Linkable) (model : String) (filter : Json.Entries) :
    Orderly (c.filter model filter) := by
  have hrun := run_orderly (c := c) model .findMany {} fun cx hcx =>
    Filter.compile_orderly (s := c.settings) hc hcx filter
  simp [Compiler.filter, predicate, hrun]

theorem columns_orderly (hc : c.schema.Linkable) (model : String) (op : Operation)
    (args : Args) : Orderly (c.columns model op args) := by
  have hrun := run_orderly (c := c) model op args fun cx hcx =>
    Read.columns_orderly (s := c.settings) hc hcx args
  simp [columns, projections, hrun]

theorem order_by_orderly (c : Compiler) (model : String) (op : Operation)
    (orderBy : List Json.Entries) : Orderly (c.orderBy model op orderBy) := by
  have hrun := run_orderly (c := c) model op {} fun cx _ =>
    Compile.orderly_lift.mpr (Ordering.compile_orderly c.settings cx (some orderBy) none)
  simp [Compiler.orderBy, sortItems, hrun]

theorem limit_orderly (c : Compiler) (model : String) (take skip : Option Nat) :
    Orderly (c.limit model take skip) := by
  simp [limit]

end Compiler

end QuerySql
