import QuerySql.Proofs.Alike
import QuerySql.Proofs.Dialects
import QuerySql.Proofs.Paging

/-!
# Ties

A page is stable if no two of its rows are tied in its ordering, or tied rows are one
and the same. With the tie-breaker the identifier of the model follows what a page of
records is sorted by anyway, so that tied rows agree on the identifier. Pages of other
operations are as they would be without it.
-/

set_option autoImplicit false

namespace QuerySql

section

variable {α : Type} [LinearOrder α]

theorem SortItem.before_or_before (nullsLow : Bool) (it : SortItem) {x y : Cell α} (h : x ≠ y) :
    it.Before nullsLow x y ∨ it.Before nullsLow y x := by
  match x, y with
  | none, none => exact absurd rfl h
  | none, some _ | some _, none => cases hfirst : it.nullsFirst nullsLow <;> simp [Before, hfirst]
  | some x, some y =>
    have hne : x ≠ y := fun heq => h (congrArg some heq)
    exact or_iff_not_imp_left.mpr fun hnot => (it.direction.less_of_ne hne).mpr hnot

theorem Ordering.eval_eq_of_tied (db : Database α) (nullsLow : Bool) {σ τ : Scope α}
    {items : List SortItem} (h : ¬Before db nullsLow σ τ items)
    (h' : ¬Before db nullsLow τ σ items) : ∀ it ∈ items, it.key.eval db σ = it.key.eval db τ := by
  induction items with
  | nil => exact List.forall_mem_nil _
  | cons it rest ih =>
    have heq : it.key.eval db σ = it.key.eval db τ := by
      by_contra hne
      rw [before_of_ne db nullsLow hne] at h
      rw [before_of_ne db nullsLow (Ne.symm hne)] at h'
      exact (it.before_or_before nullsLow hne).elim h h'
    rw [before_of_eq db nullsLow heq] at h
    rw [before_of_eq db nullsLow heq.symm] at h'
    exact List.forall_mem_cons.mpr ⟨heq, ih h h'⟩

end

def Context.isPaged (cx : Context) : Bool :=
  cx.pagination?.any fun p => p.take.isSome || p.skip.isSome

structure Settings.Steadies (s s' : Settings) : Prop extends s.SameReach s' where
  dialect : s'.dialect = s.dialect
  off : s.orderTiebreaker = false
  on : s'.orderTiebreaker = true

namespace Ordering

variable {s s' : Settings} {cx : Context}

/-- The identifiers of a model that an ordering does not sort by. -/
def missing (m : Model) (tag : Alias) (asked : List SortItem) : List String :=
  (m.identifiers.map (·.name)).filter fun name =>
    Scalar.column ⟨tag, name⟩ ∉ asked.map (·.key)

/-- The ordering sorts as asked for first, and then by the identifiers that are left, so
that rows which are tied in all of it have one identifier. -/
structure BreaksTies (m : Model) (tag : Alias) (asked items : List SortItem) : Prop where
  items_eq : items = asked ++
    (missing m tag asked).map fun name => { key := .column ⟨tag, name⟩, direction := .asc }
  sorted : ∀ f ∈ m.identifiers, Scalar.column ⟨tag, f.name⟩ ∈ items.map (·.key)
  tied : ∀ (α : Type) [LinearOrder α] (db : Database α) (nullsLow : Bool) (σ τ : Scope α),
    ¬Before db nullsLow σ τ items → ¬Before db nullsLow τ σ items →
      ∀ f ∈ m.identifiers, σ.cell ⟨tag, f.name⟩ = τ.cell ⟨tag, f.name⟩

theorem breaks_ties_append (m : Model) (tag : Alias) (asked : List SortItem) :
    BreaksTies m tag asked (asked ++ (missing m tag asked).map fun name =>
      { key := .column ⟨tag, name⟩, direction := .asc }) := by
  have hsorted : ∀ f ∈ m.identifiers, Scalar.column ⟨tag, f.name⟩ ∈
      (asked ++ (missing m tag asked).map fun name =>
        ({ key := .column ⟨tag, name⟩, direction := .asc } : SortItem)).map (·.key) := by
    intro f hf
    rw [List.map_append, List.mem_append]
    by_cases hasked : Scalar.column ⟨tag, f.name⟩ ∈ asked.map (·.key)
    · exact .inl hasked
    · refine .inr (List.mem_map.mpr ⟨_, List.mem_map.mpr ⟨f.name, ?_, rfl⟩, rfl⟩)
      exact List.mem_filter.mpr ⟨List.mem_map_of_mem hf, by simpa using hasked⟩
  refine ⟨rfl, hsorted, ?_⟩
  intro α _ db nullsLow σ τ h h' f hf
  obtain ⟨it, hit, hkey⟩ := List.mem_map.mp (hsorted f hf)
  have heq := eval_eq_of_tied db nullsLow h h' it hit
  rwa [hkey] at heq

def Named (tag : Alias) (ms : List Mention) : Prop :=
  ∀ m ∈ ms, ∃ name, m.field = some name ∧ m.item.key = .column ⟨tag, name⟩

theorem key_mentions_named {grouped : Option (List String)} {key : String} {value : Json}
    {ms : List Mention} (hop : cx.operation.isAggregate = false)
    (h : keyMentions s cx grouped key value = .ok ms) : Named cx.tag ms := by
  unfold keyMentions at h
  split at h
  · simp only [aggregateMentions, hop, Bool.not_false, if_true, except_bind_ok, except_throw_ok,
      false_and, exists_false] at h
  · split at h
    · rename_i f _
      split at h
      · simp only [except_bind_ok, except_throw_ok, false_and, exists_false] at h
      · simp only [except_bind_ok, except_pure_ok] at h
        obtain ⟨⟨direction, nulls⟩, _, it, hit, rfl⟩ := h
        exact List.forall_mem_singleton.mpr ⟨f.name, rfl, item_ok hit⟩
    · split at h <;> cases h

theorem mentions_named {grouped : Option (List String)} {orderBy : List Json.Entries}
    {ms : List Mention} (hop : cx.operation.isAggregate = false)
    (h : mentions s cx grouped orderBy = .ok ms) : Named cx.tag ms := by
  have hentry : ∀ (entries : Json.Entries) (ms : List Mention),
      entryMentions s cx grouped entries = .ok ms → Named cx.tag ms := by
    intro entries
    induction entries with
    | nil =>
      rintro _ ⟨⟩
      exact List.forall_mem_nil _
    | cons e rest ih =>
      intro ms h
      simp only [entryMentions, except_bind_ok, except_pure_ok] at h
      obtain ⟨here, hh, later, hl, rfl⟩ := h
      exact List.forall_mem_append.mpr ⟨key_mentions_named hop hh, ih later hl⟩
  induction orderBy generalizing ms with
  | nil =>
    cases h
    exact List.forall_mem_nil _
  | cons entry rest ih =>
    rw [mentions] at h
    split at h
    · simp only [except_bind_ok, except_throw_ok, false_and, exists_false] at h
    · simp only [except_bind_ok, except_pure_ok] at h
      obtain ⟨here, hh, later, hl, rfl⟩ := h
      exact List.forall_mem_append.mpr ⟨hentry entry here hh, ih hl⟩

theorem lead_items_keys {ms : List Mention} (hms : Named cx.tag ms) (seen lead : List String) :
    (leadItems cx ms seen lead).map (·.key) = lead.map fun name => .column ⟨cx.tag, name⟩ := by
  have hlead : ∀ name, (leadItem cx ms name).key = .column ⟨cx.tag, name⟩ := by
    intro name
    unfold leadItem
    split
    · rename_i mention hfound
      obtain ⟨field, hfield, hkey⟩ :=
        hms mention (List.mem_reverse.mp (List.mem_of_find?_eq_some hfound))
      have hname : mention.field = some name := by simpa using List.find?_some hfound
      rw [hfield, Option.some.injEq] at hname
      rw [hkey, hname]
    · rfl
  induction lead generalizing seen with
  | nil => rfl
  | cons name rest ih =>
    rw [leadItems, List.map_cons, List.map_cons, ih]
    split
    · rfl
    · rw [hlead]

theorem sorted_iff_seen {ms : List Mention} (hms : Named cx.tag ms) (lead rest : List String)
    (name : String) :
    Scalar.column ⟨cx.tag, name⟩ ∈ ((leadItems cx ms [] lead ++
      (ms.filter fun m => !(m.field.any lead.contains)).map (·.item)) ++
        rest.map (ascending cx)).map (·.key) ↔
      name ∈ (lead ++ ms.filterMap (·.field)) ++ rest := by
  have hrest : Scalar.column ⟨cx.tag, name⟩ ∈ (rest.map (ascending cx)).map (·.key) ↔
      name ∈ rest := by
    simp [ascending]
  have hlead : Scalar.column ⟨cx.tag, name⟩ ∈ (leadItems cx ms [] lead).map (·.key) ↔
      name ∈ lead := by
    simp [lead_items_keys hms]
  have hmentioned : name ∈ ms.filterMap (·.field) ↔
      ∃ m ∈ ms, m.field = some name ∧ m.item.key = .column ⟨cx.tag, name⟩ := by
    rw [List.mem_filterMap]
    refine exists_congr fun m => and_congr_right fun hm => ?_
    obtain ⟨field, hfield, hkey⟩ := hms m hm
    rw [hfield, hkey]
    simp
  have hothers : Scalar.column ⟨cx.tag, name⟩ ∈
      ((ms.filter fun m => !(m.field.any lead.contains)).map (·.item)).map (·.key) ↔
        name ∈ ms.filterMap (·.field) ∧ name ∉ lead := by
    rw [hmentioned]
    simp only [List.map_map, List.mem_map, List.mem_filter, Function.comp_apply]
    constructor
    · rintro ⟨m, ⟨hm, hother⟩, hkey⟩
      obtain ⟨field, hfield, hcolumn⟩ := hms m hm
      obtain rfl : field = name := by simpa [hcolumn] using hkey
      exact ⟨⟨m, hm, hfield, hcolumn⟩, by simpa [hfield] using hother⟩
    · rintro ⟨⟨m, hm, hfield, hkey⟩, hother⟩
      exact ⟨m, ⟨hm, by simpa [hfield] using hother⟩, hkey⟩
  rw [List.map_append, List.map_append, List.mem_append, List.mem_append, hlead, hothers, hrest,
    List.mem_append, List.mem_append]
  by_cases hin : name ∈ lead <;> simp [hin]

theorem missing_eq_unseen (m : Model) {tag : Alias} {page : List SortItem} {seen : List String}
    (h : ∀ name, Scalar.column ⟨tag, name⟩ ∈ page.map (·.key) ↔ name ∈ seen) :
    missing m tag page = unseen seen (m.identifiers.map (·.name)) := by
  simp only [missing, unseen, h, List.contains_eq_mem, decide_not]

theorem compile_steadied (hs : s.Steadies s') (hop : cx.operation.isRead = true)
    (orderBy : Option (List Json.Entries)) :
    Alike (fun asked items => (cx.isPaged = false → items = asked) ∧
        (cx.isPaged = true → BreaksTies cx.model cx.tag asked items))
      (compile s cx orderBy none) (compile s' cx orderBy none) := by
  have hagg : cx.operation.isAggregate = false := by
    cases hcx : cx.operation <;> first | rfl | (rw [hcx] at hop; cases hop)
  have hoff : breaksTies s cx = false := by simp [breaksTies, hs.off]
  have hon : breaksTies s' cx = cx.isPaged := by simp [breaksTies, hs.on, hop, Context.isPaged]
  have hmentions := mentions_retable Model.table cx hs.dialect none
  rw [Context.retable_table] at hmentions
  simp only [compile, hoff, hon, hmentions]
  refine Alike.after rfl fun fields _ => .after rfl fun ms hms => .after rfl fun cursor _ => ?_
  refine .ok ⟨fun hpage => by simp [hpage], fun hpage => ?_⟩
  have hseen := sorted_iff_seen (mentions_named hagg hms) (fields.map (·.name))
    (unseen (fields.map (·.name) ++ ms.filterMap (·.field)) (cursor.map (·.name)))
  simp only [hpage, if_true, Bool.false_eq_true, if_false, List.append_nil, List.map_append]
  rw [← List.append_assoc, ← missing_eq_unseen cx.model hseen]
  exact breaks_ties_append cx.model cx.tag _

theorem compile_unsteadied (hs : s.Steadies s') (hop : cx.operation.isRead = false)
    (orderBy : Option (List Json.Entries)) (grouped : Option (List String)) :
    compile s' cx orderBy grouped = compile s cx orderBy grouped := by
  have hoff : ∀ s : Settings, breaksTies s cx = false := fun s => by simp [breaksTies, hop]
  have hmentions := mentions_retable Model.table cx hs.dialect grouped
  rw [Context.retable_table] at hmentions
  simp only [compile, hoff, hmentions]

end Ordering

/-- The rows of a model without the tie-breaker and with it: their ordering differs only
if they are a page. -/
structure Body.Steadied (m : Model) (page : Bool) (b b' : Body) : Prop where
  table : b.table = m.tableName
  rest : b' = { b with orderBy := b'.orderBy }
  unpaged : page = false → b'.orderBy = b.orderBy
  paged : page = true → Ordering.BreaksTies m b.tag b.orderBy b'.orderBy

/-- The columns selected of a model without the tie-breaker and with it. The rows of a
relation are a page if its own arguments take or skip some. -/
inductive Projection.Steadied (schema : Schema) : Model → Projection → Projection → Prop
  | column {m : Model} (c : Column) : Steadied schema m (.column c) (.column c)
  | relation {m target : Model} {r : Relation} {fold : Alias} {ps ps' : List Projection}
      {b b' : Body} (hr : m.relation? r.name = some r)
      (ht : schema.model? r.target = some target)
      (same : ps.length = ps'.length)
      (columns : ∀ p p', (p, p') ∈ ps.zip ps' → Steadied schema target p p')
      (body : b.Steadied target (b.take.isSome || b.skip.isSome) b') :
      Steadied schema m (.relation r.name r.cardinality.isToMany fold ps b)
        (.relation r.name r.cardinality.isToMany fold ps' b')

/-- The statement of an operation without the tie-breaker and with it. The records found
are a page if the arguments take or skip some. -/
inductive Statement.Steadied (schema : Schema) (m : Model) (op : Operation) (args : Args) :
    Statement → Statement → Prop
  | find {ps ps' : List Projection} {distinct : List Column} {b b' : Body}
      (hop : op.isRead = true) (columns : List.Forall₂ (Projection.Steadied schema m) ps ps')
      (body : b.Steadied m (args.take.isSome || args.skip.isSome) b') :
      Steadied schema m op args (.select ps distinct b) (.select ps' distinct b')
  | other {st : Statement} (hop : op.isRead = false) : Steadied schema m op args st st

section

variable {s s' : Settings}

namespace Records

theorem close_over_steadied (hs : s.Steadies s') {cx child : Context} {r : Relation}
    {target : Model} {args : RelationArgs} {ps ps' : List Projection} (filter : List Pred)
    (hop : child.operation.isRead = true) (hr : cx.model.relation? r.name = some r)
    (ht : s.schema.model? r.target = some target) (hmodel : child.model = target)
    (hpage : child.isPaged = (args.take.isSome || args.skip.isSome))
    (columns : List.Forall₂ (Projection.Steadied s.schema target) ps ps') :
    Compile.Alike (Projection.Steadied s.schema cx.model)
      (closeOver s cx child r args ps filter) (closeOver s' cx child r args ps' filter) := by
  refine .after_step fun _ links _ _ => ?_
  refine (Compile.Alike.lift (Ordering.compile_steadied hs hop args.orderBy)).bind
    fun asked items hitems => ?_
  obtain ⟨hunpaged, hpaged⟩ := hitems
  refine .after_step fun _ fold _ _ => ?_
  subst hmodel
  rw [hpage] at hunpaged hpaged
  obtain ⟨hsame, hcolumns⟩ := List.forall₂_iff_zip.mp columns
  exact .of_pure (.relation hr ht hsame (fun _ _ => hcolumns) ⟨rfl, rfl, hunpaged, hpaged⟩)

theorem steadied_simulation (hs : s.Steadies s') :
    Simulation s s' Model.table (fun cx => cx.operation.isRead = true)
      (fun cx => Projection.Steadied s.schema cx.model) where
  column _ c := .column c
  subquery := by
    intro cx r args own own' hop hr hown
    simp only [Context.retable_table, enter_same hs.toSameReach] at hown ⊢
    refine .after_step fun a _ _ henter => ?_
    obtain ⟨target, ht, rfl, -⟩ := enter_ok henter
    refine (hown (child cx r target args a) hop).bind fun ps ps' columns => ?_
    have hover : ∀ filter, Compile.Alike (Projection.Steadied s.schema cx.model)
        (closeOver s cx (child cx r target args a) r args ps filter)
        (closeOver s' cx (child cx r target args a) r args ps' filter) :=
      fun filter => close_over_steadied hs filter hop hr ht rfl rfl columns
    rw [close_over, close_over]
    cases args.filter with
    | none => exact hover []
    | some entries =>
      simp only [Filter.compile_same hs.toSameReach]
      exact .after_step fun _ p _ _ => .after rfl fun q _ => hover [q]

end Records

namespace Read

variable (m : Model) {op : Operation} (args : Args)

theorem find_rows_steadied (hs : s.Steadies s') (hop : op.isRead = true) :
    Compile.Alike (Statement.Steadied s.schema m op args)
      (findRows s (Context.atRoot m op args) args)
      (findRows s' (Context.atRoot m op args) args) := by
  have hpage : (Context.atRoot m op args).isPaged = (args.take.isSome || args.skip.isSome) := by
    cases op <;> first | rfl | cases hop
  have hread : (Context.atRoot m op args).operation.isRead = true := hop
  have hcolumns :=
    (Records.steadied_simulation hs).columns_alike hread args.select args.inclusion
  have hdistinct : distinct s' (Context.atRoot m op args) =
      distinct s (Context.atRoot m op args) := by
    simp only [distinct, hs.dialect]
  rw [Context.retable_table] at hcolumns
  simp only [findRows, columns_of_read s args hread, columns_of_read s' args hread,
    filter_same hs.toSameReach, hdistinct]
  refine hcolumns.bind fun ps ps' columns => .after rfl fun distinct _ => ?_
  refine .after_step fun _ filter _ _ => ?_
  refine (Compile.Alike.lift (Ordering.compile_steadied hs hread args.orderBy)).bind
    fun asked items hitems => ?_
  obtain ⟨hunpaged, hpaged⟩ := hitems
  rw [hpage] at hunpaged hpaged
  exact .of_pure (.find hop columns ⟨rfl, rfl, hunpaged, hpaged⟩)

theorem find_steadied (hs : s.Steadies s') (hop : op.isRead = true) :
    Compile.Alike (Statement.Steadied s.schema m op args)
      (find s (Context.atRoot m op args) args) (find s' (Context.atRoot m op args) args) := by
  have hrows := find_rows_steadied m args hs hop
  rw [find_rows, find_rows]
  split
  · exact .after rfl fun _ _ => hrows
  · exact hrows

theorem columns_unsteadied {cx : Context} (hop : cx.operation.isAggregate = true) :
    columns s' cx args = columns s cx args := by
  unfold columns
  cases hcx : cx.operation <;> simp [hcx, Operation.isAggregate] at hop ⊢

theorem aggregate_unsteadied (hs : s.Steadies s') {cx : Context}
    (hop : cx.operation = .count ∨ cx.operation = .aggregate) :
    aggregate s' cx args = aggregate s cx args := by
  have hagg : cx.operation.isAggregate = true := by
    rcases hop with hop | hop <;> rw [hop] <;> rfl
  have hread : cx.operation.isRead = false := by
    rcases hop with hop | hop <;> rw [hop] <;> rfl
  have hcolumns : ∀ tag, columns s' (cx.withTag tag) args = columns s (cx.withTag tag) args :=
    fun _ => columns_unsteadied args hagg
  simp only [aggregate, filter_same hs.toSameReach, Ordering.compile_unsteadied hs hread,
    columns_unsteadied (s := s) args hagg, hcolumns]

theorem group_by_unsteadied (hs : s.Steadies s') {cx : Context}
    (hop : cx.operation = .groupBy) : groupBy s' cx args = groupBy s cx args := by
  have hagg : cx.operation.isAggregate = true := by rw [hop]; rfl
  have hread : cx.operation.isRead = false := by rw [hop]; rfl
  simp only [groupBy, filter_same hs.toSameReach, Ordering.compile_unsteadied hs hread,
    columns_unsteadied (s := s) args hagg]

end Read

namespace Compiler

theorem compile_at_steadied (hs : s.Steadies s') (m : Model) (op : Operation) (args : Args) :
    Compile.Alike (Statement.Steadied s.schema m op args)
      (compileAt s args (Context.atRoot m op args))
      (compileAt s' args (Context.atRoot m op args)) := by
  have hother : op.isRead = false → ∀ {x y : Compile Statement}, y = x →
      Compile.Alike (Statement.Steadied s.schema m op args) x y := by
    intro hop x y h
    refine Compile.Alike.mono (.of_eq h) fun st _ hst => ?_
    subst hst
    exact .other hop
  cases op with
  | findMany | findFirst | findUnique => exact Read.find_steadied m args hs rfl
  | count => exact hother rfl (Read.aggregate_unsteadied args hs (.inl rfl))
  | aggregate => exact hother rfl (Read.aggregate_unsteadied args hs (.inr rfl))
  | groupBy => exact hother rfl (Read.group_by_unsteadied args hs rfl)
  | create => exact hother rfl rfl
  | update => exact hother rfl (Write.update_same hs.toSameReach _ args)
  | delete => exact hother rfl (Write.delete_same hs.toSameReach _ args)

/-- The compiler with the tie-breaker turned off. -/
def leavingTies (c : Compiler) : Compiler :=
  { c with config := { c.config with orderTiebreaker := false } }

theorem statement_steadied {c : Compiler} (hties : c.config.orderTiebreaker = true)
    {model : String} {op : Operation} {args : Args} {m : Model}
    (hm : c.schema.model? model = some m) :
    Alike (fun p q => Statement.Steadied c.schema m op args p.1 q.1 ∧ q.2 = p.2)
      (c.leavingTies.statement model op args) (c.statement model op args) := by
  have hs : c.leavingTies.settings.Steadies c.settings := ⟨⟨rfl, rfl⟩, rfl, rfl, hties⟩
  have hm' : c.leavingTies.schema.model? model = some m := hm
  have hexpect : c.schema.expectModel model = .ok m := Schema.expect_model_ok.mpr hm
  rw [statement, statement, run_at hm, run_at hm']
  refine Alike.after rfl fun found hfound => .after rfl fun _ _ => ?_
  exact compile_at_steadied hs m op args ⟨1⟩

end Compiler

end

/-- With the tie-breaker a statement differs from the one without it in the ordering of
pages of records alone, of the records found and of those of each relation selected. It
sorts a page as asked for first, and then by the identifiers that are left, so rows of
the page that are tied have one identifier. -/
theorem ties_are_broken (c : Compiler) (model : String) (op : Operation) (args : Args)
    (prepared : Prepared) (hties : c.config.orderTiebreaker = true)
    (h : c.compile model op args = .ok prepared) :
    ∃ m st st' as, c.schema.model? model = some m ∧
      c.leavingTies.statement model op args = .ok (st, as) ∧
      c.statement model op args = .ok (st', as) ∧
      prepared = (st'.render c.dialect).prepare c.dialect ∧
      Statement.Steadied c.schema m op args st st' := by
  obtain ⟨st', as, hst', rfl⟩ := Compiler.compile_ok h
  obtain ⟨m, hm, -, -⟩ := Compiler.statement_ok hst'
  obtain ⟨⟨st, as'⟩, hst, hsteadied, rfl⟩ :=
    (Compiler.statement_steadied hties hm).ok_of_ok hst'
  exact ⟨m, st, st', as, hm, hst, hst', rfl, hsteadied⟩

namespace Sample

def steady : Compiler := .ofConfig schema { engine := .sqlite, orderTiebreaker := true }

def pages : Args where
  orderBy := some [[("name", .str "asc")]]
  take := some 5
  inclusion := some [("posts", .obj [("skip", .num (.int 3))])]

def counted : Args where
  orderBy := some [[("name", .str "asc")]]
  take := some 5

def countedRows : Body where
  table := "users"
  tag := ⟨0⟩
  orderBy := [{ key := .column ⟨⟨0⟩, "name"⟩, direction := .asc }]
  take := some 5

theorem pages_compile : ∃ prepared, steady.compile "User" .findMany pages = .ok prepared := by
  have hcount : ((steady.compile "User" .findMany pages).map (·.params.length)).toOption =
      some 0 := by
    decide +kernel
  obtain ⟨prepared, hc, _⟩ := except_ok_of_read hcount
  exact ⟨prepared, hc⟩

end Sample

theorem sample_ties_are_broken :
    ∃ (prepared : Prepared) (ps ps' : List Projection) (distinct : List Column) (b b' : Body),
    Sample.steady.config.orderTiebreaker = true ∧
    Sample.steady.compile "User" .findMany Sample.pages = .ok prepared ∧
    prepared = ((Statement.select ps' distinct b').render Dialect.sqlite).prepare
      Dialect.sqlite ∧
    List.Forall₂ (Projection.Steadied Sample.schema Sample.user) ps ps' ∧
    Ordering.BreaksTies Sample.user b.tag b.orderBy b'.orderBy := by
  obtain ⟨prepared, hc⟩ := Sample.pages_compile
  obtain ⟨m, st, st', as, hm, -, -, hprepared, hsteadied⟩ :=
    ties_are_broken Sample.steady "User" .findMany Sample.pages prepared rfl hc
  obtain rfl : m = Sample.user := (Option.some.inj hm).symm
  cases hsteadied with
  | find _ columns body =>
    exact ⟨prepared, _, _, _, _, _, rfl, hc, hprepared, columns, body.paged rfl⟩
  | other hop => cases hop

/-- A page that rows are only counted over keeps its ties: two users of one name may
stand on either side of its end. -/
theorem counted_page_keeps_ties : Sample.steady.config.orderTiebreaker = true ∧
    (Schema.Builder.build ⟨none, Sample.schema.models⟩).1 = .ok Sample.steady.schema ∧
    Sample.steady.statement "User" .count Sample.counted =
      .ok (.overPage [.aggregate .count none "_count"] ⟨1⟩ [⟨⟨0⟩, "id"⟩] Sample.countedRows,
        ⟨2⟩) ∧
    Sample.countedRows.take = Sample.counted.take ∧
    (∃ f ∈ Sample.user.identifiers, f.name = "id") ∧
    Scalar.column ⟨Sample.countedRows.tag, "id"⟩ ∉ Sample.countedRows.orderBy.map (·.key) ∧
    ∀ σ : Scope Int, ∃ row row' : Row Int, row "id" ≠ row' "id" ∧
      ¬Ordering.Before Sample.integers true (σ.bind ⟨0⟩ row) (σ.bind ⟨0⟩ row')
        Sample.countedRows.orderBy ∧
      ¬Ordering.Before Sample.integers true (σ.bind ⟨0⟩ row') (σ.bind ⟨0⟩ row)
        Sample.countedRows.orderBy := by
  refine ⟨rfl, rfl, by with_unfolding_all rfl, rfl, by decide, by decide, fun σ => ?_⟩
  refine ⟨fun name => if name = "id" then some 1 else some 0,
    fun name => if name = "id" then some 2 else some 0, by decide, ?_, ?_⟩
  · simp [Sample.countedRows, Ordering.Before, Scalar.eval, Scope.cell, SortItem.Before,
      Direction.Less]
  · simp [Sample.countedRows, Ordering.Before, Scalar.eval, Scope.cell, SortItem.Before,
      Direction.Less]

end QuerySql
