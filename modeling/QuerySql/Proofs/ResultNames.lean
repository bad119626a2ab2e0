import Mathlib.Data.List.Nodup
import QuerySql.Proofs.Columns
import QuerySql.Proofs.Derived
import QuerySql.Proofs.Keyed

/-!
# The names of groups and aggregates

The columns of a query for aggregates are named by what it asks for alone. The names of
the aggregates are told apart by the aggregate and then by the field; those of a grouping
are the names of its fields as they are, so it takes a repeated or an ill-named field for
two columns to share a name.
-/

set_option autoImplicit false

namespace QuerySql

namespace Aggregation

def isSet : Json → Bool
  | .bool true => true
  | _ => false

def payloadNames (kind : Aggregate) : Json → List String
  | .bool true => [kind.key]
  | .obj fields => (Json.Entries.keys (fields.filter (isSet ·.2))).map (columnName kind)
  | _ => []

def names (args : Args) (kinds : List Aggregate) : List String :=
  kinds.flatMap fun kind => ((args.aggregate kind).map (payloadNames kind)).getD []

end Aggregation

/-- The names of the result columns. A count is one of rows unless it asks for fields. -/
def Args.resultNames (args : Args) : Operation → List String
  | .count => Aggregation.payloadNames .count (args.count.getD (.bool true))
  | .groupBy => args.grouping.getD [] ++ Aggregation.names args Aggregate.all
  | _ => Aggregation.names args Aggregate.all

namespace Aggregation

theorem key_append_injective {k l : Aggregate} {s t : String} (h : k.key ++ s = l.key ++ t) :
    k = l := by
  have hchars := congrArg String.toList h
  rw [String.toList_append, String.toList_append] at hchars
  cases k <;> cases l <;> first | rfl | simp [Aggregate.key] at hchars

theorem column_name_injective (kind : Aggregate) : Function.Injective (columnName kind) := by
  intro f g h
  have hchars := congrArg String.toList h
  simp only [columnName, String.toList_append] at hchars
  exact String.toList_injective (List.append_cancel_left hchars)

theorem payload_name {kind : Aggregate} {payload : Json} {name : String}
    (h : name ∈ payloadNames kind payload) : ∃ s, name = kind.key ++ s := by
  unfold payloadNames at h
  split at h
  · exact ⟨"", by rw [List.mem_singleton.mp h, String.append_empty]⟩
  · obtain ⟨field, -, rfl⟩ := List.mem_map.mp h
    exact ⟨"_" ++ field, String.append_assoc⟩
  · cases h

theorem payload_names_nodup {kind : Aggregate} {payload : Json} (h : payload.keyed = true) :
    (payloadNames kind payload).Nodup := by
  unfold payloadNames
  split
  · exact List.nodup_singleton _
  · have hkeys := (Json.keyed_obj.mp h).1
    exact (hkeys.sublist (List.filter_sublist.map _)).map (column_name_injective kind)
  · exact List.nodup_nil

theorem names_nodup {args : Args} (hkeyed : args.payloadsKeyed) :
    (names args Aggregate.all).Nodup := by
  refine List.nodup_flatMap.mpr ⟨fun kind _ => ?_, ?_⟩
  · cases hpayload : args.aggregate kind with
    | none => exact List.nodup_nil
    | some payload => exact payload_names_nodup (hkeyed kind payload hpayload)
  · have hkinds : Aggregate.all.Nodup := by decide
    have hprefix : ∀ kind, ∀ name ∈ ((args.aggregate kind).map (payloadNames kind)).getD [],
        ∃ s, name = kind.key ++ s := by
      intro kind name hname
      cases hpayload : args.aggregate kind with
      | none =>
        rw [hpayload] at hname
        cases hname
      | some payload =>
        rw [hpayload] at hname
        exact payload_name hname
    refine hkinds.imp fun hne name hk hl => hne ?_
    obtain ⟨s, rfl⟩ := hprefix _ name hk
    obtain ⟨t, heq⟩ := hprefix _ _ hl
    exact key_append_injective heq

variable {cx : Context} {args : Args} {kind : Aggregate} {ps : List Projection}

theorem field_columns_names {fields : Json.Entries} (h : fieldColumns cx kind fields = .ok ps) :
    ps.map (·.name) = payloadNames kind (.obj fields) := by
  induction fields generalizing ps with
  | nil =>
    cases h
    rfl
  | cons e rest ih =>
    obtain ⟨name, value⟩ := e
    obtain ⟨set, here, later, rfl, hl, rfl, hhere, -⟩ := field_columns_cons h
    rw [List.map_append, hhere, ih hl]
    cases set <;> rfl

theorem payload_columns_names {payload : Json} (h : payloadColumns cx kind payload = .ok ps) :
    ps.map (·.name) = payloadNames kind payload := by
  cases payload with
  | obj fields => exact field_columns_names h
  | bool set =>
    cases set with
    | false =>
      cases h
      rfl
    | true =>
      simp only [payloadColumns] at h
      split at h
      · cases h
        rfl
      · cases h
  | null | num _ | str _ | arr _ => cases h

theorem columns_names {kinds : List Aggregate} (h : columns cx args kinds = .ok ps) :
    ps.map (·.name) = names args kinds := by
  induction kinds generalizing ps with
  | nil =>
    cases h
    rfl
  | cons kind rest ih =>
    rw [columns] at h
    rw [names, List.flatMap_cons, ← names]
    cases hpayload : args.aggregate kind with
    | none =>
      simp only [hpayload, except_bind_ok, except_pure_ok] at h
      obtain ⟨_, rfl, later, hl, rfl⟩ := h
      exact ih hl
    | some payload =>
      simp only [hpayload, except_bind_ok, except_pure_ok] at h
      obtain ⟨here, hh, later, hl, rfl⟩ := h
      rw [List.map_append, payload_columns_names hh, ih hl]
      rfl

theorem count_columns_names (h : countColumns cx args = .ok ps) :
    ps.map (·.name) = args.resultNames .count := by
  simp only [countColumns, except_bind_ok] at h
  obtain ⟨columns, hc, h⟩ := h
  split at h
  · simp only [except_bind_ok, except_throw_ok, false_and, exists_false] at h
  · cases h
    exact payload_columns_names hc

theorem aggregate_columns_names (h : aggregateColumns cx args = .ok ps) :
    ps.map (·.name) = args.resultNames .aggregate := by
  simp only [aggregateColumns, except_bind_ok] at h
  obtain ⟨columns, hc, h⟩ := h
  split at h
  · simp only [except_bind_ok, except_throw_ok, false_and, exists_false] at h
  · cases h
    exact columns_names hc

theorem group_columns_names (h : groupColumns cx args = .ok ps) :
    ps.map (·.name) = args.resultNames .groupBy := by
  simp only [groupColumns, except_bind_ok, except_pure_ok] at h
  obtain ⟨fields, hf, aggregates, ha, rfl⟩ := h
  have hgrouping : fields.map (·.name) = args.grouping.getD [] := by
    simp only [grouping] at hf
    split at hf
    · simp only [except_bind_ok, except_throw_ok, false_and, exists_false] at hf
    · exact (Model.expect_fields_ok hf).1
  rw [List.map_append, columns_names ha, List.map_map, Args.resultNames, ← hgrouping]
  rfl

end Aggregation

def Statement.columns : Statement → List Projection
  | .select columns _ _ => columns
  | .overPage columns _ _ _ => columns
  | .insert _ _ | .update _ _ _ _ | .delete _ _ _ => []

theorem Projection.results_plain (e : Engine) {cx : Context} {ps : List Projection}
    (h : ∀ p ∈ ps, p.Reads cx) :
    Projection.results e ps = (ps.map (·.name)).map ResultColumn.plain := by
  rw [Projection.results_eq, List.map_map]
  refine List.map_congr_left fun p hp => ?_
  cases p with
  | column _ | aggregate _ _ _ => rfl
  | relation _ _ _ _ _ => cases h _ hp

section

variable {s : Settings} {cx : Context} {args : Args} {st : Statement}

theorem Read.columns_names {ps : List Projection} {a b : Aliases}
    (hop : cx.operation.isAggregate = true) (h : Read.columns s cx args a = .ok (ps, b)) :
    ps.map (·.name) = args.resultNames cx.operation := by
  unfold Read.columns at h
  cases hcx : cx.operation <;> simp [hcx, Operation.isAggregate, Compile.lift_ok] at hop h
  · exact Aggregation.count_columns_names h.1
  · exact Aggregation.aggregate_columns_names h.1
  · exact Aggregation.group_columns_names h.1

/-- What is shown of a statement: plain columns under the names asked for, in its tree
and in its text. -/
structure Statement.Shows (st : Statement) (names : List String) : Prop where
  tree : st.columns.map (·.name) = names
  text : ∀ e : Engine, ((st.render e.dialect).prepare e.dialect).columns e =
    some (names.map ResultColumn.plain)

theorem Statement.shows_select {ps : List Projection} {body : Body} {names : List String}
    (hnames : ps.map (·.name) = names) (hreads : ∀ p ∈ ps, p.Reads cx) :
    (Statement.select ps [] body).Shows names where
  tree := hnames
  text e := by rw [Statement.columns_read, Projection.results_plain e hreads, hnames]

theorem Statement.shows_page {ps : List Projection} {tag : Alias} {page : List Column}
    {body : Body} {names : List String} (hnames : ps.map (·.name) = names)
    (hreads : ∀ p ∈ ps, p.Reads cx) : (Statement.overPage ps tag page body).Shows names where
  tree := hnames
  text e := by
    rw [Statement.prepared_columns, Statement.page_columns_read, Projection.results_plain e hreads,
      hnames]

theorem Read.aggregate_shows {a b : Aliases} (hop : cx.operation.isAggregate = true)
    (h : Read.aggregate s cx args a = .ok (st, b)) : st.Shows (args.resultNames cx.operation) := by
  simp only [Read.aggregate, Compile.bind_ok, Compile.lift_ok] at h
  obtain ⟨p, _, -, orderBy, _, ⟨-, rfl⟩, h⟩ := h
  by_cases hpage : (args.take.isNone && args.skip.isNone) = true
  · simp only [if_pos hpage, Compile.bind_ok, Compile.pure_ok] at h
    obtain ⟨ps, _, hps, rfl, rfl⟩ := h
    exact Statement.shows_select (Read.columns_names hop hps) (columns_aggregate_ok hop hps).1
  · simp only [if_neg hpage, Compile.bind_ok, Compile.lift_ok, Compile.fresh_ok,
      Compile.pure_ok] at h
    obtain ⟨page, _, -, tag, _, -, ps, _, hps, rfl, rfl⟩ := h
    have houter : (cx.withTag tag).operation.isAggregate = true := hop
    have hnames : ps.map (·.name) = args.resultNames (cx.withTag tag).operation :=
      Read.columns_names houter hps
    exact Statement.shows_page hnames (columns_aggregate_ok houter hps).1

theorem Read.group_by_shows {a b : Aliases} (hop : cx.operation.isAggregate = true)
    (h : Read.groupBy s cx args a = .ok (st, b)) : st.Shows (args.resultNames cx.operation) := by
  simp only [Read.groupBy, Compile.bind_ok, Compile.lift_ok, Compile.pure_ok] at h
  obtain ⟨grouping, _, -, ps, _, hps, p, _, -, having, _, -, orderBy, _, -, rfl, rfl⟩ := h
  exact Statement.shows_select (Read.columns_names hop hps) (columns_aggregate_ok hop hps).1

theorem Compiler.compile_at_shows (cx : Context) {a b : Aliases}
    (hop : cx.operation.isAggregate = true) (h : compileAt s args cx a = .ok (st, b)) :
    st.Shows (args.resultNames cx.operation) := by
  unfold compileAt at h
  cases hcx : cx.operation <;> simp only [hcx, Operation.isAggregate] at hop h
  case count | aggregate => exact hcx ▸ Read.aggregate_shows (hcx ▸ rfl) h
  case groupBy => exact hcx ▸ Read.group_by_shows (hcx ▸ rfl) h
  all_goals cases hop

theorem Compiler.compile_shows {c : Compiler} {model : String} {op : Operation}
    {prepared : Prepared} (hop : op.isAggregate = true)
    (h : c.compile model op args = .ok prepared) : ∃ st as,
      c.statement model op args = .ok (st, as) ∧ st.Shows (args.resultNames op) ∧
        prepared = (st.render c.dialect).prepare c.dialect := by
  obtain ⟨st, as, hst, rfl⟩ := Compiler.compile_ok h
  obtain ⟨m, -, -, hcompiles⟩ := Compiler.statement_iff.mp hst
  exact ⟨st, as, hst, Compiler.compile_at_shows (Context.atRoot m op args) hop hcompiles, rfl⟩

theorem Args.result_names_nodup {op : Operation} (hop : op.isAggregate = true)
    (hkeyed : args.payloadsKeyed) : (args.resultNames op).Nodup ↔ (op = .groupBy →
      (args.grouping.getD []).Nodup ∧
        ∀ name ∈ args.grouping.getD [], name ∉ Aggregation.names args Aggregate.all) := by
  have hnames := Aggregation.names_nodup hkeyed
  cases op with
  | groupBy =>
    simp only [Args.resultNames, List.nodup_append, hnames, true_and, forall_const]
    exact and_congr_right' ⟨fun h name hb ha => h name hb name ha rfl,
      fun h name hb other ha heq => h name hb (heq ▸ ha)⟩
  | aggregate => simpa [Args.resultNames] using hnames
  | count =>
    have hpayload : (args.count.getD (.bool true)).keyed = true := by
      cases hcount : args.count with
      | none => rfl
      | some payload => exact hkeyed .count payload hcount
    simpa [Args.resultNames] using Aggregation.payload_names_nodup hpayload
  | _ => cases hop

end

/-- The columns of a query for aggregates are found under the names that it asks for, in
its text as it is read by the engine too. The names are distinct, unless a grouping
repeats a field or has a field that is named as one of the aggregates. The payloads of the
aggregates are taken to have distinct keys, and those that are read from text have. -/
theorem results_are_found_by_name (c : Compiler) (model : String) (op : Operation)
    (hop : op.isAggregate = true) (args : Args) (hkeyed : args.payloadsKeyed)
    (prepared : Prepared) (h : c.compile model op args = .ok prepared) :
    (∃ st as, c.statement model op args = .ok (st, as) ∧
      st.columns.map (·.name) = args.resultNames op) ∧
    (∀ e : Engine, c.dialect = e.dialect →
      prepared.columns e = some ((args.resultNames op).map ResultColumn.plain)) ∧
    ((args.resultNames op).Nodup ↔ (op = .groupBy → (args.grouping.getD []).Nodup ∧
      ∀ name ∈ args.grouping.getD [], name ∉ Aggregation.names args Aggregate.all)) ∧
    ∀ text json args, Json.parse? text = some json → Args.ofJson json = .ok args →
      args.payloadsKeyed := by
  obtain ⟨st, as, hst, hshows, rfl⟩ := Compiler.compile_shows hop h
  refine ⟨⟨st, as, hst, hshows.tree⟩, fun e hd => ?_, Args.result_names_nodup hop hkeyed,
    fun text json args => Args.decoded_payloads_keyed⟩
  rw [hd]
  exact hshows.text e

namespace Sample

def namesakes : Args where
  grouping := some ["name"]
  count := some (.obj [("_all", .bool true), ("id", .bool false), ("age", .bool true)])
  max := some (.obj [("age", .bool true)])

theorem namesakes_keyed : namesakes.payloadsKeyed := by
  intro kind payload h
  cases kind <;> cases h <;> rfl

theorem namesakes_compile : ∃ prepared,
    (compiler .postgresql).compile "User" .groupBy namesakes = .ok prepared := by
  have hparams : (((compiler .postgresql).compile "User" .groupBy namesakes).map
      (·.params)).toOption = some [] := by
    decide +kernel
  obtain ⟨prepared, hc, -⟩ := except_ok_of_read hparams
  exact ⟨prepared, hc⟩

end Sample

theorem sample_results_are_found_by_name : ∃ prepared,
    (Sample.compiler .postgresql).compile "User" .groupBy Sample.namesakes = .ok prepared ∧
      prepared.columns .postgresql =
        some [.plain "name", .plain "_count__all", .plain "_count_age", .plain "_max_age"] ∧
      (Sample.namesakes.resultNames .groupBy).Nodup := by
  obtain ⟨prepared, hc⟩ := Sample.namesakes_compile
  obtain ⟨-, htext, hnodup, -⟩ := results_are_found_by_name (Sample.compiler .postgresql) "User"
    .groupBy rfl Sample.namesakes Sample.namesakes_keyed prepared hc
  exact ⟨prepared, hc, htext .postgresql rfl, hnodup.mpr fun _ => by decide⟩

namespace Sample

def twiceByName : Args where
  grouping := some ["name", "name"]

def tally : Model where
  name := "Tally"
  fields := [Field.asId ⟨"id", .bigInt, false, false, false⟩, { name := "_count", type := .int }]

def tallies : Compiler := .ofConfig ⟨[tally]⟩ { engine := .postgresql }

def tallyCounts : Args where
  grouping := some ["_count"]
  count := some (.bool true)

end Sample

/-- Two columns share a name in schemas that were built: where a grouping repeats a field,
and where a field is named as an aggregate. -/
theorem group_shares_name :
    (Schema.Builder.build ⟨none, Sample.schema.models⟩).1 =
      .ok (Sample.compiler .postgresql).schema ∧
    (∃ prepared,
      (Sample.compiler .postgresql).compile "User" .groupBy Sample.twiceByName = .ok prepared ∧
        prepared.columns .postgresql = some [.plain "name", .plain "name"]) ∧
    (Schema.Builder.build ⟨none, [Sample.tally]⟩).1 = .ok Sample.tallies.schema ∧
    (∃ prepared, Sample.tallies.compile "Tally" .groupBy Sample.tallyCounts = .ok prepared ∧
      prepared.columns .postgresql = some [.plain "_count", .plain "_count"]) := by
  have hread : ∀ {c : Compiler} {model : String} {args : Args},
      c.dialect = Engine.postgresql.dialect →
        ((c.compile model .groupBy args).map (·.params)).toOption = some [] →
          ∃ prepared, c.compile model .groupBy args = .ok prepared ∧
            prepared.columns .postgresql = some ((args.resultNames .groupBy).map .plain) := by
    intro c model args hd hparams
    obtain ⟨prepared, hc, -⟩ := except_ok_of_read hparams
    obtain ⟨st, as, -, hshows, rfl⟩ := Compiler.compile_shows rfl hc
    exact ⟨_, hc, hd ▸ hshows.text .postgresql⟩
  exact ⟨rfl, hread rfl (by decide +kernel), rfl, hread rfl (by decide +kernel)⟩

end QuerySql
