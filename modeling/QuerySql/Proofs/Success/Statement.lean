import QuerySql.Compiler
import QuerySql.Proofs.Success.Records
import QuerySql.Schema.Builder

/-!
# Successful compilations of a query

A compilation starts at the root: the model is looked up and `t0` goes to its
table, so every clause is compiled in one known context.
-/

set_option autoImplicit false

namespace QuerySql

def Context.atRoot (m : Model) (op : Operation) (args : Args) : Context where
  model := m
  operation := op
  tag := ⟨0⟩
  extension :=
    if op.isMutation then args.data.elim .none .mutation
    else .pagination
      { take := args.take, skip := args.skip, cursor := args.cursor, distinct := args.distinct }

theorem Compile.root_start (m : Model) (op : Operation) (args : Args) :
    Compile.root m op args {} = .ok (Context.atRoot m op args, ⟨1⟩) := by
  cases hop : op.isMutation with
  | false => simp only [Compile.root, Context.atRoot, hop]; rfl
  | true =>
    cases hd : args.data with
    | none => simp only [Compile.root, Context.atRoot, hop, hd]; rfl
    | some data => simp only [Compile.root, Context.atRoot, hop, hd]; rfl

namespace Compiler

theorem run_at {β : Type} {c : Compiler} {model : String} {op : Operation} {args : Args}
    {body : Context → Compile β} {m : Model} (hm : c.schema.model? model = some m) :
    c.run model op args body = body (Context.atRoot m op args) ⟨1⟩ := by
  have hstart : (Compile.root m op args >>= body) {} =
      Compile.root m op args {} >>= fun p => body p.1 p.2 := rfl
  rw [run, Schema.expect_model_ok.mpr hm]
  change (Compile.root m op args >>= body) {} = _
  rw [hstart, Compile.root_start]
  rfl

theorem run_ok {β : Type} {c : Compiler} {model : String} {op : Operation} {args : Args}
    {body : Context → Compile β} {y : β} {b : Aliases}
    (h : c.run model op args body = .ok (y, b)) : ∃ m, c.schema.model? model = some m ∧
      body (Context.atRoot m op args) ⟨1⟩ = .ok (y, b) := by
  have hrun := h
  rw [run, except_bind_ok] at hrun
  obtain ⟨m, hm, -⟩ := hrun
  rw [Schema.expect_model_ok] at hm
  rw [run_at hm] at h
  exact ⟨m, hm, h⟩

theorem filter_ok {c : Compiler} {model : String} {entries : Json.Entries} {p : Option Fragment}
    (h : c.filter model entries = .ok p) : ∃ m ps b,
      c.schema.model? model = some m ∧
        Filter.Runs c.settings (.conditions (Context.atRoot m .findMany {}) entries ps) ⟨1⟩ b ∧
          p = (Pred.all? ps).map (·.render c.dialect) := by
  simp only [filter, predicate, except_bind_ok, except_map_ok, except_pure_ok] at h
  obtain ⟨_, ⟨⟨q, b⟩, hrun, rfl⟩, rfl⟩ := h
  obtain ⟨m, hm, hq⟩ := run_ok hrun
  obtain ⟨ps, hps, rfl⟩ := Filter.compile_runs hq
  exact ⟨m, ps, b, hm, hps, rfl⟩

theorem filter_failed {c : Compiler} {model : String} {m : Model} {entries : Json.Entries}
    {e : Error} (hm : c.schema.model? model = some m)
    (h : Filter.compile c.settings (Context.atRoot m .findMany {}) entries ⟨1⟩ = .error e) :
    c.filter model entries = .error e := by
  rw [filter, predicate, run_at hm, h]
  rfl

end Compiler

namespace Keyset

inductive Past (cx : Context) (orderBy : Option (List Json.Entries)) :
    Option Json.Entries → List Pred → Prop
  | none : Past cx orderBy none []
  | some {cursor : Json.Entries} {ks : List Key} {direction : Direction}
      {bounds : List (Column × Value)} (hne : cursor ≠ [])
      (hkeys : keys cx.model cursor orderBy = .ok ks)
      (hsame : ∀ k ∈ ks, k.direction = direction)
      (hbounds : List.Forall₂ (fun k b => boundary cx k = .ok b) ks bounds) :
      Past cx orderBy (some cursor) [row (pastOp direction) bounds]

end Keyset

namespace Read

/-- The filter of a read and the condition of its cursor. -/
inductive Filtered (s : Settings) (cx : Context) (args : Args) :
    Option Pred → Aliases → Aliases → Prop
  | mk {ps qs : List Pred} {a b : Aliases}
      (conditions : Filter.Runs s (.conditions cx (args.filter.getD []) ps) a b)
      (past : Keyset.Past cx args.orderBy (cx.pagination?.bind (·.cursor)) qs) :
      Filtered s cx args (Pred.all? ((Pred.all? ps).toList ++ qs)) a b

end Read

theorem Filter.optional_runs {s : Settings} {cx : Context} {filter : Option Json.Entries}
    {p : Option Pred} {a b : Aliases} (h : Filter.compile? s cx filter a = .ok (p, b)) :
    ∃ ps, Filter.Runs s (.conditions cx (filter.getD []) ps) a b ∧ p = Pred.all? ps := by
  cases filter with
  | none =>
    obtain ⟨rfl, rfl⟩ := Compile.pure_ok.mp h
    exact ⟨[], .nil, rfl⟩
  | some entries => exact Filter.compile_runs h

theorem Read.filter_ok {s : Settings} {cx : Context} {args : Args} {p : Option Pred}
    {a b : Aliases} (h : Read.filter s cx args a = .ok (p, b)) :
    Read.Filtered s cx args p a b := by
  rw [Read.filter, Compile.bind_ok] at h
  obtain ⟨_, _, hf, h⟩ := h
  obtain ⟨ps, hps, rfl⟩ := Filter.optional_runs hf
  cases hc : cx.pagination?.bind (·.cursor) with
  | none =>
    simp only [hc, Compile.bind_ok, Compile.pure_ok] at h
    obtain ⟨_, _, ⟨rfl, rfl⟩, rfl, rfl⟩ := h
    exact .mk hps (hc ▸ .none)
  | some cursor =>
    simp only [hc, Compile.bind_ok, Compile.map_ok, Compile.lift_ok, Compile.pure_ok] at h
    obtain ⟨_, _, ⟨q, ⟨hq, rfl⟩, rfl⟩, rfl, rfl⟩ := h
    obtain ⟨ks, direction, bounds, hne, hks, hsame, rfl, hb⟩ := Keyset.compile_ok hq
    exact .mk hps (hc ▸ .some hne hks hsame hb)

/-- The statements that an operation compiles to, by the operation. Reads and
mutations alike start at the root, with one alias handed out. -/
inductive Statement.Runs (s : Settings) (cx : Context) (args : Args) :
    Operation → Statement → Aliases → Prop
  | find {op : Operation} {ps : List Projection} {distinct : List Column} {p : Option Pred}
      {orderBy : List SortItem} {take : Option Nat} {b d : Aliases} (hop : op.isRead = true)
      (columns : Records.columns s cx args.select args.inclusion ⟨1⟩ = .ok (ps, b))
      (hdistinct : Read.distinct s cx = .ok distinct) (filter : Read.Filtered s cx args p b d)
      (order : Ordering.compile s cx args.orderBy none = .ok orderBy) :
      Runs s cx args op (.select ps distinct
        { table := cx.model.tableName, tag := cx.tag, filter := p, orderBy := orderBy,
          take := take, skip := args.skip }) d
  | aggregate {op : Operation} {ps : List Projection} {p : Option Pred} {b : Aliases}
      (hop : op = .count ∨ op = .aggregate) (filter : Read.Filtered s cx args p ⟨1⟩ b)
      (columns : ∀ q ∈ ps, q.Reads cx)
      (unpaged : (args.take.isNone && args.skip.isNone) = true) :
      Runs s cx args op (.select ps []
        { table := cx.model.tableName, tag := cx.tag, filter := p }) b
  | overPage {op : Operation} {ps : List Projection} {page : List Column} {p : Option Pred}
      {orderBy : List SortItem} {b : Aliases} (hop : op = .count ∨ op = .aggregate)
      (filter : Read.Filtered s cx args p ⟨1⟩ b) (hpage : Read.pageColumns cx args = .ok page)
      (columns : ∀ q ∈ ps, q.Reads (cx.withTag ⟨b.used⟩))
      (order : Ordering.compile s cx args.orderBy none = .ok orderBy) :
      Runs s cx args op (.overPage ps ⟨b.used⟩ page
        { table := cx.model.tableName, tag := cx.tag, filter := p, orderBy := orderBy,
          take := args.take, skip := args.skip }) ⟨b.used + 1⟩
  | groupBy {ps : List Projection} {grouping : List Field} {p : Option Pred} {qs : List Pred}
      {orderBy : List SortItem} {b : Aliases} (columns : ∀ q ∈ ps, q.Reads cx)
      (filter : Read.Filtered s cx args p ⟨1⟩ b)
      (having : Having.Runs cx (.conditions (args.having.getD []) qs))
      (hgrouping : Aggregation.grouping cx.model args.grouping = .ok grouping)
      (order : Ordering.compile s cx args.orderBy (some (grouping.map (·.name))) = .ok orderBy) :
      Runs s cx args .groupBy (.select ps []
        { table := cx.model.tableName, tag := cx.tag, filter := p,
          groupBy := grouping.map (Compile.column cx),
          having := Pred.all? qs, orderBy := orderBy, take := args.take, skip := args.skip }) b
  | create {data : Json.Entries} {assigned : List (String × Value)}
      (hdata : cx.mutation? = some data)
      (written : Write.assignments cx.model data = .ok assigned) :
      Runs s cx args .create (.insert cx.model.tableName assigned) ⟨1⟩
  | update {data : Json.Entries} {assigned : List (String × Value)} {ps : List Pred} {b : Aliases}
      (hdata : cx.mutation? = some data)
      (written : Write.assignments cx.model data = .ok assigned)
      (conditions : Filter.Runs s (.conditions cx (args.filter.getD []) ps) ⟨1⟩ b) :
      Runs s cx args .update (.update cx.model.tableName cx.tag assigned (Pred.all? ps)) b
  | delete {ps : List Pred} {b : Aliases}
      (conditions : Filter.Runs s (.conditions cx (args.filter.getD []) ps) ⟨1⟩ b) :
      Runs s cx args .delete (.delete cx.model.tableName cx.tag (Pred.all? ps)) b

namespace Read

variable {s : Settings} {cx : Context} {args : Args} {st : Statement} {b : Aliases}

theorem distinct_ok {columns : List Column} (h : distinct s cx = .ok columns) :
    ∀ c ∈ columns, c.Reads cx := by
  simp only [distinct, except_bind_ok] at h
  obtain ⟨fields, hfields, h⟩ := h
  split at h
  · cases h
    simp
  · split at h
    · simp only [except_bind_ok, except_throw_ok, false_and, exists_false] at h
    · simp only [except_bind_ok, except_pure_ok] at h
      obtain ⟨_, _, rfl⟩ := h
      intro c hc
      obtain ⟨f, hf, rfl⟩ := List.mem_map.mp hc
      exact ⟨f, Ordering.distinct_fields_ok hfields f hf, rfl⟩

theorem page_columns_ok {columns : List Column} (h : pageColumns cx args = .ok columns) :
    ∀ c ∈ columns, c.Reads cx := by
  simp only [pageColumns, except_bind_ok, except_pure_ok] at h
  obtain ⟨fields, hfields, rfl⟩ := h
  intro c hc
  obtain ⟨f, hf, rfl⟩ := List.mem_map.mp hc
  refine ⟨f, ?_, rfl⟩
  split at hf
  · exact (List.mem_filter.mp hf).1
  · exact Aggregation.mentioned_fields_ok hfields f hf

theorem columns_aggregate_ok {ps : List Projection} {a d : Aliases}
    (hop : cx.operation.isAggregate = true) (h : columns s cx args a = .ok (ps, d)) :
    (∀ p ∈ ps, p.Reads cx) ∧ d = a := by
  unfold columns at h
  cases hcx : cx.operation <;> simp [hcx, Operation.isAggregate, Compile.lift_ok] at hop h
  · exact ⟨Aggregation.count_columns_ok h.1, h.2⟩
  · exact ⟨Aggregation.aggregate_columns_ok h.1, h.2⟩
  · exact ⟨Aggregation.group_columns_ok h.1, h.2⟩

def findRows (s : Settings) (cx : Context) (args : Args) : Compile Statement := do
  let columns ← columns s cx args
  let distinct ← distinct s cx
  let filter ← filter s cx args
  let orderBy ← Ordering.compile s cx args.orderBy none
  return .select columns distinct
    { table := cx.model.tableName, tag := cx.tag, filter := filter, orderBy := orderBy,
      take := if cx.operation.isSingle then some 1 else args.take, skip := args.skip }

theorem find_rows (s : Settings) (cx : Context) (args : Args) :
    find s cx args =
      if cx.operation = .findUnique then do
        let _ ← (checkUnique cx.model args : Compile Unit)
        findRows s cx args
      else findRows s cx args := rfl

theorem columns_of_read (s : Settings) {cx : Context} (args : Args)
    (hop : cx.operation.isRead = true) :
    columns s cx args = Records.columns s cx args.select args.inclusion := by
  unfold columns
  cases hcx : cx.operation <;> simp [hcx, Operation.isRead] at hop ⊢

theorem find_ok (hop : cx.operation.isRead = true) (h : find s cx args ⟨1⟩ = .ok (st, b)) :
    Statement.Runs s cx args cx.operation st b := by
  have hcolumns := columns_of_read s args hop
  have hrows : ∀ {c : Aliases}, c = ⟨1⟩ → findRows s cx args c = .ok (st, b) →
      Statement.Runs s cx args cx.operation st b := by
    rintro _ rfl h
    simp only [findRows, hcolumns, Compile.bind_ok, Compile.lift_ok, Compile.pure_ok] at h
    obtain ⟨ps, _, hps, distinct, _, ⟨hd, rfl⟩, p, _, hp, orderBy, _, ⟨ho, rfl⟩, rfl, rfl⟩ := h
    exact .find hop hps hd (filter_ok hp) ho
  rw [find_rows] at h
  by_cases hu : cx.operation = .findUnique
  · rw [if_pos hu, Compile.bind_ok] at h
    obtain ⟨_, _, hunique, h⟩ := h
    exact hrows (Compile.lift_ok.mp hunique).2 h
  · rw [if_neg hu] at h
    exact hrows rfl h

theorem aggregate_ok (hop : cx.operation = .count ∨ cx.operation = .aggregate)
    (h : aggregate s cx args ⟨1⟩ = .ok (st, b)) :
    Statement.Runs s cx args cx.operation st b := by
  have hagg : cx.operation.isAggregate = true := by
    rcases hop with hop | hop <;> rw [hop] <;> rfl
  simp only [aggregate, Compile.bind_ok, Compile.lift_ok] at h
  obtain ⟨p, _, hp, orderBy, _, ⟨ho, rfl⟩, h⟩ := h
  by_cases hpage : (args.take.isNone && args.skip.isNone) = true
  · simp only [if_pos hpage, Compile.bind_ok, Compile.pure_ok] at h
    obtain ⟨ps, _, hps, rfl, rfl⟩ := h
    obtain ⟨hreads, rfl⟩ := columns_aggregate_ok hagg hps
    exact .aggregate hop (filter_ok hp) hreads hpage
  · simp only [if_neg hpage, Compile.bind_ok, Compile.lift_ok, Compile.fresh_ok,
      Compile.pure_ok] at h
    obtain ⟨page, _, ⟨hpg, rfl⟩, _, _, ⟨rfl, rfl⟩, ps, _, hps, rfl, rfl⟩ := h
    have houter : ∀ tag, (cx.withTag tag).operation.isAggregate = true := fun _ => hagg
    obtain ⟨hreads, rfl⟩ := columns_aggregate_ok (houter _) hps
    exact .overPage hop (filter_ok hp) hpg hreads ho

theorem group_by_ok (hop : cx.operation = .groupBy) (h : groupBy s cx args ⟨1⟩ = .ok (st, b)) :
    Statement.Runs s cx args cx.operation st b := by
  simp only [groupBy, Compile.bind_ok, Compile.lift_ok, Compile.pure_ok] at h
  obtain ⟨grouping, _, ⟨hg, rfl⟩, ps, _, hps, p, _, hp, having, _, ⟨hh, rfl⟩, orderBy, _,
    ⟨ho, rfl⟩, rfl, rfl⟩ := h
  obtain ⟨hreads, rfl⟩ := columns_aggregate_ok (by rw [hop]; rfl) hps
  obtain ⟨qs, hqs, rfl⟩ := Having.compile_runs hh
  rw [hop]
  exact .groupBy hreads (filter_ok hp) hqs hg ho

end Read

namespace Write

variable {s : Settings} {cx : Context} {args : Args} {st : Statement} {b : Aliases}

theorem data_ok {data : Json.Entries} (h : Write.data cx = .ok data) :
    cx.mutation? = some data := by
  unfold Write.data at h
  split at h
  · cases h
    assumption
  · cases h

theorem assignments_declared {m : Model} {entries : Json.Entries}
    {assigned : List (String × Value)} (h : assignments m entries = .ok assigned) :
    ∀ x ∈ assigned, x.1 ∈ m.fieldNames := by
  induction entries generalizing assigned with
  | nil =>
    cases h
    exact List.forall_mem_nil _
  | cons e rest ih =>
    obtain ⟨key, json⟩ := e
    rw [assignments] at h
    split at h
    · simp only [except_bind_ok, except_throw_ok, false_and, exists_false] at h
    · split at h
      · cases h
      · rename_i f hf
        simp only [except_bind_ok, except_pure_ok] at h
        obtain ⟨_, _, v, _, later, hl, rfl⟩ := h
        exact List.forall_mem_cons.mpr
          ⟨List.mem_map.mpr ⟨f, (Model.field_mem hf).1, rfl⟩, ih hl⟩

theorem create_ok (h : create cx ⟨1⟩ = .ok (st, b)) :
    Statement.Runs s cx args .create st b := by
  simp only [create, Compile.bind_ok, Compile.lift_ok, Compile.pure_ok] at h
  obtain ⟨data, _, ⟨hd, rfl⟩, assigned, _, ⟨ha, rfl⟩, rfl, rfl⟩ := h
  exact .create (data_ok hd) ha

theorem update_ok (h : update s cx args ⟨1⟩ = .ok (st, b)) :
    Statement.Runs s cx args .update st b := by
  simp only [update, Compile.bind_ok, Compile.lift_ok] at h
  obtain ⟨data, _, ⟨hd, rfl⟩, assigned, _, ⟨ha, rfl⟩, h⟩ := h
  by_cases hempty : assigned.isEmpty = true
  · simp only [if_pos hempty, Compile.bind_ok, Compile.throw_ok, false_and, exists_false] at h
  · simp only [if_neg hempty, Compile.bind_ok, Compile.pure_ok] at h
    obtain ⟨p, _, hp, rfl, rfl⟩ := h
    obtain ⟨ps, hps, rfl⟩ := Filter.optional_runs hp
    exact .update (data_ok hd) ha hps

theorem delete_ok (h : delete s cx args ⟨1⟩ = .ok (st, b)) :
    Statement.Runs s cx args .delete st b := by
  simp only [delete, Compile.bind_ok, Compile.pure_ok] at h
  obtain ⟨p, _, hp, rfl, rfl⟩ := h
  obtain ⟨ps, hps, rfl⟩ := Filter.optional_runs hp
  exact .delete hps

end Write

namespace Compiler

theorem compile_at_ok {s : Settings} {cx : Context} {args : Args} {st : Statement} {b : Aliases}
    (h : compileAt s args cx ⟨1⟩ = .ok (st, b)) : Statement.Runs s cx args cx.operation st b := by
  unfold compileAt at h
  cases hop : cx.operation with
  | findMany | findFirst | findUnique =>
    simp only [hop] at h
    exact hop ▸ Read.find_ok (by rw [hop]; rfl) h
  | count =>
    simp only [hop] at h
    exact hop ▸ Read.aggregate_ok (.inl hop) h
  | aggregate =>
    simp only [hop] at h
    exact hop ▸ Read.aggregate_ok (.inr hop) h
  | groupBy =>
    simp only [hop] at h
    exact hop ▸ Read.group_by_ok hop h
  | create =>
    simp only [hop] at h
    exact Write.create_ok h
  | update =>
    simp only [hop] at h
    exact Write.update_ok h
  | delete =>
    simp only [hop] at h
    exact Write.delete_ok h

/-- A statement is what compiles at the root of its model, with arguments that it has a
use for. -/
theorem statement_iff {c : Compiler} {model : String} {op : Operation} {args : Args}
    {st : Statement} {b : Aliases} :
    c.statement model op args = .ok (st, b) ↔ ∃ m, c.schema.model? model = some m ∧
      args.check m.name op = .ok () ∧
        compileAt c.settings args (Context.atRoot m op args) ⟨1⟩ = .ok (st, b) := by
  simp only [statement, except_bind_ok, Schema.expect_model_ok]
  constructor
  · rintro ⟨m, hm, _, hcheck, h⟩
    rw [run_at hm] at h
    exact ⟨m, hm, hcheck, h⟩
  · rintro ⟨m, hm, hcheck, h⟩
    exact ⟨m, hm, (), hcheck, (run_at hm).trans h⟩

theorem statement_at {c : Compiler} {model : String} {m : Model} {op : Operation} {args : Args}
    (hm : c.schema.model? model = some m) (hcheck : args.check m.name op = .ok ()) :
    c.statement model op args =
      compileAt c.settings args (Context.atRoot m op args) ⟨1⟩ := by
  rw [statement, Schema.expect_model_ok.mpr hm]
  change (args.check m.name op >>= fun _ => _) = _
  rw [hcheck]
  exact run_at hm

theorem statement_ok {c : Compiler} {model : String} {op : Operation} {args : Args}
    {st : Statement} {b : Aliases} (h : c.statement model op args = .ok (st, b)) : ∃ m,
      c.schema.model? model = some m ∧ args.check m.name op = .ok () ∧
        Statement.Runs c.settings (Context.atRoot m op args) args op st b := by
  obtain ⟨m, hm, hcheck, h⟩ := statement_iff.mp h
  exact ⟨m, hm, hcheck, compile_at_ok h⟩

theorem compile_ok {c : Compiler} {model : String} {op : Operation} {args : Args}
    {prepared : Prepared} (h : c.compile model op args = .ok prepared) : ∃ st as,
      c.statement model op args = .ok (st, as) ∧
        prepared = (st.render c.dialect).prepare c.dialect := by
  simp only [compile, except_bind_ok, except_pure_ok] at h
  obtain ⟨⟨st, as⟩, hst, rfl⟩ := h
  exact ⟨st, as, hst, rfl⟩

theorem compile_at {c : Compiler} {model : String} {m : Model} {op : Operation} {args : Args}
    {st : Statement} {b : Aliases} (hm : c.schema.model? model = some m)
    (hcheck : args.check m.name op = .ok ())
    (h : compileAt c.settings args (Context.atRoot m op args) ⟨1⟩ = .ok (st, b)) :
    c.compile model op args = .ok ((st.render c.dialect).prepare c.dialect) := by
  rw [compile, statement_at hm hcheck, h]
  rfl

theorem compile_failed {c : Compiler} {model : String} {m : Model} {op : Operation} {args : Args}
    {e : Error} (hm : c.schema.model? model = some m) (hcheck : args.check m.name op = .ok ())
    (h : compileAt c.settings args (Context.atRoot m op args) ⟨1⟩ = .error e) :
    c.compile model op args = .error e := by
  rw [compile, statement_at hm hcheck, h]
  rfl

end Compiler

namespace Sample

/-! A small schema with each kind of link, for statements about one query. -/

def user : Model where
  name := "User"
  table := some "users"
  fields := [Field.asId ⟨"id", .bigInt, false, false, false⟩, { name := "name", type := .string },
    { name := "age", type := .int, nullable := true }]
  relations := [
    { name := "posts", cardinality := .oneToMany, target := "Post", fields := ["id"],
      references := ["authorId"] }]

def post : Model where
  name := "Post"
  fields := [Field.asId ⟨"id", .bigInt, false, false, false⟩, { name := "title", type := .string },
    { name := "authorId", type := .bigInt, nullable := true }]
  relations := [
    { name := "author", cardinality := .manyToOne, target := "User", fields := ["authorId"],
      references := ["id"] },
    { name := "tags", cardinality := .manyToMany, target := "Tag", fields := ["id"],
      references := ["id"], through := some ⟨"_PostToTag", "postId", "tagId"⟩ }]

def tag : Model where
  name := "Tag"
  fields := [Field.asId ⟨"id", .bigInt, false, false, false⟩, { name := "label", type := .string }]

def schema : Schema := ⟨[user, post, tag]⟩

def compiler (engine : Engine) : Compiler := .ofConfig schema { engine := engine }

example : Schema.ofModels schema.models = .ok schema := rfl

def page : Args where
  filter := some [("age", .obj [("not", .null), ("gte", .num (.int 18))]),
    ("posts", .obj [("some", .obj [("title", .obj [("startsWith", .str "a_")])])])]
  inclusion := some [("posts", .obj [
    ("where", .obj [("title", .obj [("in", .arr [.str "x", .str "y"])])]),
    ("include", .obj [("tags", .obj [("where", .obj [("label", .str "z")])])])])]
  orderBy := some [[("id", .str "desc")]]
  cursor := some [("id", .num (.int 7))]

theorem page_compiles : ∃ prepared,
    (compiler .sqlite).compile "User" .findMany page = .ok prepared := by
  have hcount : (((compiler .sqlite).compile "User" .findMany page).map
      (·.params.length)).toOption = some 6 := by
    decide +kernel
  obtain ⟨prepared, hc, _⟩ := except_ok_of_read hcount
  exact ⟨prepared, hc⟩

end Sample

end QuerySql
