import QuerySql.Proofs.Built
import QuerySql.Proofs.WellFormed

/-!
# Columns and their tables

Each alias of a statement stands for a table of the schema: that of a model, or
the junction of a relation. The columns that a statement refers to are judged
against these tables, as the variables of a term are against a context.

A schema is built without a look at the targets of its relations, so a relation
may refer to a field that its target does not declare. A selection looks such a
field up and is refused; a filter and a junction write it as it stands. Every
other column is declared.
-/

set_option autoImplicit false

namespace QuerySql

inductive Source where
  | model (m : Model)
  | junction (j : Junction)

namespace Source

def table : Source → String
  | .model m => m.tableName
  | .junction j => j.table

def Declares : Source → String → Prop
  | .model m, name => name ∈ m.fieldNames
  | .junction j, name => name = j.source ∨ name = j.target

end Source

namespace Schema

/-- The tables of the models and of the junctions of their relations. -/
inductive Stores (schema : Schema) : Source → Prop
  | model {m : Model} (hm : m ∈ schema.models) : Stores schema (.model m)
  | junction {m : Model} {r : Relation} {j : Junction} (hm : m ∈ schema.models)
      (hr : r ∈ m.relations) (hj : r.through = some j) : Stores schema (.junction j)

/-- Some relation refers to the name as a field of the model that it leads to. -/
inductive Refers (schema : Schema) : Source → String → Prop
  | relation {m target : Model} {r : Relation} {name : String} (hm : m ∈ schema.models)
      (hr : r ∈ m.relations) (ht : schema.model? r.target = some target)
      (hn : name ∈ r.references) : Refers schema (.model target) name

/-- The local fields of every relation are declared. -/
def LinksOwnFields (schema : Schema) : Prop :=
  ∀ m ∈ schema.models, ∀ r ∈ m.relations, ∀ name ∈ r.fields, name ∈ m.fieldNames

/-- The fields that relations refer to are declared, where their targets are there. -/
def LinksDeclared (schema : Schema) : Prop :=
  ∀ m ∈ schema.models, ∀ r ∈ m.relations, ∀ target ∈ schema.model? r.target,
    ∀ name ∈ r.references, name ∈ target.fieldNames

instance (schema : Schema) : Decidable schema.LinksDeclared :=
  inferInstanceAs (Decidable (∀ m ∈ schema.models, ∀ r ∈ m.relations,
    ∀ target ∈ schema.model? r.target, ∀ name ∈ r.references, name ∈ target.fieldNames))

theorem declares_of_refers {schema : Schema} (h : schema.LinksDeclared) {src : Source}
    {name : String} (hr : schema.Refers src name) : src.Declares name := by
  cases hr with
  | relation hm hr ht hn => exact h _ hm _ hr _ ht _ hn

theorem build_links_own_fields {b : Builder} {schema : Schema} (h : b.build.1 = .ok schema) :
    schema.LinksOwnFields :=
  fun m hm => ((build_ok h).2 m hm).declared

end Schema

abbrev Columns := Source → String → Prop

abbrev Tables := Alias → Option Source

namespace Tables

def bind (T : Tables) (tag : Alias) (src : Source) : Tables :=
  fun other => if other = tag then some src else T other

def only (tag : Alias) (src : Source) : Tables := bind (fun _ => none) tag src

@[simp] theorem bind_self (T : Tables) (tag : Alias) (src : Source) :
    T.bind tag src tag = some src :=
  if_pos rfl

theorem bind_older {T : Tables} {tag : Alias} {a : Aliases} (src : Source)
    (h : tag.index < a.used) : T.bind ⟨a.used⟩ src tag = T tag := by
  refine if_neg ?_
  rintro rfl
  exact Nat.lt_irrefl _ h

end Tables

def Column.From (C : Columns) (T : Tables) (c : Column) : Prop :=
  ∃ src, T c.tag = some src ∧ C src c.name

def Scalar.From (C : Columns) (T : Tables) : Scalar → Prop
  | .column c => c.From C T
  | .aggregate _ c => ∀ x ∈ c, x.From C T
  | .bound _ => True
  | .folded s => s.From C T

/-- The columns of a predicate come from the tables of their aliases: its own from
those of `C`, and those of its subqueries from those of `L`. -/
inductive Pred.Sourced (schema : Schema) (L : Columns) : Columns → Tables → Pred → Prop
  | truth {C : Columns} {T : Tables} {value : Bool} : Sourced schema L C T (.truth value)
  | compare {C : Columns} {T : Tables} {lhs rhs : Scalar} {op : Comparison}
      (left : lhs.From C T) (right : rhs.From C T) : Sourced schema L C T (.compare lhs op rhs)
  | compareRows {C : Columns} {T : Tables} {columns : List Column} {op : Comparison}
      {values : List Value} (row : ∀ c ∈ columns, c.From C T) :
      Sourced schema L C T (.compareRows columns op values)
  | isNull {C : Columns} {T : Tables} {s : Scalar} {negated : Bool} (operand : s.From C T) :
      Sourced schema L C T (.isNull s negated)
  | isIn {C : Columns} {T : Tables} {s : Scalar} {items : List Scalar} {negated : Bool}
      (operand : s.From C T) (listed : ∀ item ∈ items, item.From C T) :
      Sourced schema L C T (.isIn s items negated)
  | like {C : Columns} {T : Tables} {s pattern : Scalar} (operand : s.From C T)
      (right : pattern.From C T) : Sourced schema L C T (.like s pattern)
  | and {C : Columns} {T : Tables} {operands : List Pred}
      (all : ∀ p ∈ operands, Sourced schema L C T p) : Sourced schema L C T (.and operands)
  | or {C : Columns} {T : Tables} {operands : List Pred}
      (all : ∀ p ∈ operands, Sourced schema L C T p) : Sourced schema L C T (.or operands)
  | not {C : Columns} {T : Tables} {operand : Pred} (inner : Sourced schema L C T operand) :
      Sourced schema L C T (.not operand)
  | related {C : Columns} {T : Tables} {negated : Bool} {table : String} {tag : Alias}
      {conditions : List Pred} {src : Source} (stored : schema.Stores src)
      (named : src.table = table)
      (all : ∀ p ∈ conditions, Sourced schema L L (T.bind tag src) p) :
      Sourced schema L C T (.related negated table tag conditions)

structure Body.Sourced (schema : Schema) (L : Columns) (T : Tables) (b : Body) : Prop where
  filter : ∀ p ∈ b.filter, p.Sourced schema L Source.Declares T
  groupBy : ∀ c ∈ b.groupBy, c.From Source.Declares T
  having : ∀ p ∈ b.having, p.Sourced schema L Source.Declares T
  orderBy : ∀ it ∈ b.orderBy, it.key.From Source.Declares T

inductive Projection.Sourced (schema : Schema) (L : Columns) : Tables → Projection → Prop
  | column {T : Tables} {c : Column} (known : c.From Source.Declares T) :
      Sourced schema L T (.column c)
  | aggregate {T : Tables} {kind : Aggregate} {c : Option Column} {name : String}
      (known : ∀ x ∈ c, x.From Source.Declares T) : Sourced schema L T (.aggregate kind c name)
  | relation {T : Tables} {name : String} {toMany : Bool} {fold : Alias}
      {columns : List Projection} {body : Body} {src : Source} (stored : schema.Stores src)
      (named : src.table = body.table)
      (own : ∀ p ∈ columns, Sourced schema L (T.bind body.tag src) p)
      (rows : body.Sourced schema L (T.bind body.tag src)) :
      Sourced schema L T (.relation name toMany fold columns body)

/-- The columns of a statement over `src` come from the tables of their aliases. Those
of its own clauses are declared, those in subqueries of its predicates are of `L`. -/
inductive Statement.Sourced (schema : Schema) (L : Columns) (src : Source) : Statement → Prop
  | select {columns : List Projection} {distinct : List Column} {body : Body}
      (named : src.table = body.table)
      (own : ∀ p ∈ columns, p.Sourced schema L (.only body.tag src))
      (lead : ∀ c ∈ distinct, c.From Source.Declares (.only body.tag src))
      (rows : body.Sourced schema L (.only body.tag src)) :
      Sourced schema L src (.select columns distinct body)
  | overPage {columns : List Projection} {tag : Alias} {page : List Column} {body : Body}
      (named : src.table = body.table)
      (own : ∀ p ∈ columns, p.Sourced schema L (.only tag src))
      (inner : ∀ c ∈ page, c.From Source.Declares (.only body.tag src))
      (rows : body.Sourced schema L (.only body.tag src)) :
      Sourced schema L src (.overPage columns tag page body)
  | insert {assignments : List (String × Value)}
      (assigned : ∀ x ∈ assignments, src.Declares x.1) :
      Sourced schema L src (.insert src.table assignments)
  | update {tag : Alias} {assignments : List (String × Value)} {filter : Option Pred}
      (assigned : ∀ x ∈ assignments, src.Declares x.1)
      (rows : ∀ p ∈ filter, p.Sourced schema L Source.Declares (.only tag src)) :
      Sourced schema L src (.update src.table tag assignments filter)
  | delete {tag : Alias} {filter : Option Pred}
      (rows : ∀ p ∈ filter, p.Sourced schema L Source.Declares (.only tag src)) :
      Sourced schema L src (.delete src.table tag filter)

section

variable {schema : Schema} {C L : Columns} {T : Tables}

namespace Pred.Sourced

variable {ps : List Pred}

theorem conjunction (h : ∀ p ∈ ps, p.Sourced schema L C T) :
    (Pred.all ps).Sourced schema L C T := by
  match ps with
  | [p] => exact h p List.mem_cons_self
  | [] | _ :: _ :: _ => exact .and h

theorem disjunction (h : ∀ p ∈ ps, p.Sourced schema L C T) :
    (Pred.any ps).Sourced schema L C T := by
  match ps with
  | [p] => exact h p List.mem_cons_self
  | [] | _ :: _ :: _ => exact .or h

theorem optional (h : ∀ p ∈ ps, p.Sourced schema L C T) :
    ∀ p ∈ Pred.all? ps, p.Sourced schema L C T := by
  cases ps with
  | nil => exact fun p hp => nomatch hp
  | cons p ps =>
    rintro _ ⟨⟩
    exact conjunction h

theorem present {o : Option Pred} (h : ∀ p ∈ o, p.Sourced schema L C T) :
    (o.getD (.truth true)).Sourced schema L C T := by
  cases o with
  | none => exact .truth
  | some p => exact h p rfl

end Pred.Sourced

theorem Connective.apply_sourced {m : Model} {c : Connective} {os : List (Option Pred)} {p : Pred}
    (hp : c.apply m os = .ok p) (h : ∀ o ∈ os, ∀ q ∈ o, q.Sourced schema L C T) :
    p.Sourced schema L C T := by
  have hpresent : ∀ q ∈ os.filterMap id, q.Sourced schema L C T := by
    intro q hq
    obtain ⟨o, ho, hq⟩ := List.mem_filterMap.mp hq
    exact h o ho q hq
  cases c with
  | and =>
    cases hp
    exact .present (.optional hpresent)
  | or =>
    cases hp
    refine .disjunction fun q hq => ?_
    obtain ⟨o, ho, rfl⟩ := List.mem_map.mp hq
    exact .present (h o ho)
  | not =>
    rw [apply] at hp
    split at hp
    · rename_i q hq
      cases hp
      exact .not (hpresent q (hq ▸ List.mem_cons_self))
    · cases hp

namespace Condition

variable {m : Model} {f : Field} {lhs : Scalar}

theorem fold_from {mode : Mode} {s : Scalar} (h : s.From C T) : (mode.fold s).From C T := by
  cases mode <;> exact h

theorem operates_sourced {mode : Mode} {op : FieldOperator} {json : Json} {p : Pred}
    (h : Operates f lhs mode op json p) (hl : lhs.From C T) : p.Sourced schema L C T := by
  have hbound : ∀ v, (mode.fold (.bound v)).From C T := fun v => fold_from trivial
  cases h with
  | isNull | isNotNull => exact .isNull hl
  | compare _ _ => exact .compare (fold_from hl) (hbound _)
  | noItems => exact .truth
  | isIn _ _ =>
    refine .isIn (fold_from hl) fun item hi => ?_
    obtain ⟨v, _, rfl⟩ := List.mem_map.mp hi
    exact hbound v
  | pattern _ => exact .like (fold_from hl) (hbound _)

theorem runs_sourced {mode : Mode} {entries : Json.Entries} {ps : List Pred}
    (h : Runs m f lhs mode entries ps) (hl : lhs.From C T) :
    ∀ p ∈ ps, p.Sourced schema L C T := by
  induction h with
  | nil => exact List.forall_mem_nil _
  | mode _ ih => exact ih
  | negation _ _ _ ih ihl =>
    refine List.forall_mem_append.mpr ⟨?_, ihl⟩
    intro p hp
    obtain ⟨q, hq, rfl⟩ := Option.map_eq_some_iff.mp (Option.mem_toList.mp hp)
    exact .not (Pred.Sourced.optional ih q hq)
  | operator _ _ here _ ih => exact List.forall_mem_cons.mpr ⟨operates_sourced here hl, ih⟩

theorem compiles_sourced {json : Json} {p : Option Pred} (h : Compiles m f lhs json p)
    (hl : lhs.From C T) : ∀ q ∈ p, q.Sourced schema L C T := by
  cases h with
  | null =>
    rintro _ ⟨⟩
    exact .isNull hl
  | scalar _ =>
    rintro _ ⟨⟩
    exact .compare hl trivial
  | operators _ here => exact .optional (runs_sourced here hl)

end Condition

end

structure Context.Stands (T : Tables) (a : Aliases) (cx : Context) : Prop where
  table : T cx.tag = some (.model cx.model)
  older : cx.tag.index < a.used

namespace Context.Stands

variable {T : Tables} {a b : Aliases} {cx : Context}

theorem mono (h : cx.Stands T a) (hab : a.used ≤ b.used) : cx.Stands T b :=
  ⟨h.table, Nat.lt_of_lt_of_le h.older hab⟩

theorem under (h : cx.Stands T a) (src : Source) : cx.Stands (T.bind ⟨a.used⟩ src) ⟨a.used + 1⟩ :=
  ⟨(Tables.bind_older src h.older).trans h.table, Nat.lt_succ_of_lt h.older⟩

theorem nested (T : Tables) (a : Aliases) (cx : Context) (r : Relation) (target : Model) :
    (cx.nested r target ⟨a.used⟩).Stands (T.bind ⟨a.used⟩ (.model target)) ⟨a.used + 1⟩ :=
  ⟨Tables.bind_self _ _ _, Nat.lt_succ_self _⟩

theorem selected (T : Tables) (a : Aliases) (cx : Context) (r : Relation) (target : Model)
    (args : RelationArgs) : (Records.child cx r target args a).Stands
      (T.bind ⟨a.used⟩ (.model target)) ⟨a.used + 1⟩ :=
  ⟨Tables.bind_self _ _ _, Nat.lt_succ_self _⟩

end Context.Stands

section

variable {schema : Schema} {C L : Columns} {T : Tables} {cx : Context}

theorem Column.from_of_field (hC : ∀ src name, src.Declares name → C src name)
    (ht : T cx.tag = some (.model cx.model)) {f : Field} (hf : f ∈ cx.model.fields) :
    (Compile.column cx f).From C T :=
  ⟨_, ht, hC _ _ (List.mem_map.mpr ⟨f, hf, rfl⟩)⟩

theorem Column.from_of_reads {c : Column} (h : c.Reads cx)
    (ht : T cx.tag = some (.model cx.model)) : c.From Source.Declares T := by
  obtain ⟨f, hf, rfl⟩ := h
  exact Column.from_of_field (fun _ _ => id) ht hf

theorem Scalar.from_of_reads {s : Scalar} (h : s.Reads cx)
    (ht : T cx.tag = some (.model cx.model)) : s.From Source.Declares T := by
  cases s with
  | column c => exact Column.from_of_reads h ht
  | aggregate kind c => exact fun x hx => Column.from_of_reads (h x hx) ht
  | bound _ | folded _ => exact h.elim

theorem Projection.sourced_of_reads {p : Projection} (h : p.Reads cx)
    (ht : T cx.tag = some (.model cx.model)) : p.Sourced schema L T := by
  cases p with
  | column c => exact .column (Column.from_of_reads h ht)
  | aggregate kind c name => exact .aggregate fun x hx => Column.from_of_reads (h.1 x hx) ht
  | relation => exact h.elim

end

structure Schema.Connects (schema : Schema) (r : Relation) (parent child : Model) : Prop where
  declaring : parent ∈ schema.models
  declared : r ∈ parent.relations
  target : schema.model? r.target = some child
  own : ∀ name ∈ r.fields, name ∈ parent.fieldNames

namespace Link

variable {schema : Schema} {C L : Columns} {T : Tables} {r : Relation} {parent child : Context}
  {ps : List Pred} {a b : Aliases}

theorem equality_sourced {own referenced : String} (hown : Column.From C T ⟨parent.tag, own⟩)
    (href : Column.From C T ⟨child.tag, referenced⟩) :
    (equality parent child own referenced).Sourced schema L C T :=
  .compare href hown

theorem guard_sourced {own referenced : String} (hown : Column.From C T ⟨parent.tag, own⟩)
    (href : Column.From C T ⟨child.tag, referenced⟩) :
    (guard r parent child own referenced).Sourced schema L C T := by
  unfold guard
  split
  · exact .isNull href
  · exact .isNull hown

section

variable (hdeclared : ∀ src name, src.Declares name → L src name)
  (hrefers : ∀ src name, schema.Refers src name → L src name)
  (hr : schema.Connects r parent.model child.model)
include hdeclared hrefers hr

theorem pair_from (hp : T parent.tag = some (.model parent.model))
    (hc : T child.tag = some (.model child.model)) {p : String × String} (h : p ∈ r.pairs) :
    Column.From L T ⟨parent.tag, p.1⟩ ∧ Column.From L T ⟨child.tag, p.2⟩ := by
  obtain ⟨hown, href⟩ := Relation.pair_mem h
  refine ⟨⟨_, hp, hdeclared _ _ (hr.own _ hown)⟩, ⟨_, hc, hrefers _ _ ?_⟩⟩
  exact .relation hr.declaring hr.declared hr.target href

theorem junction_sourced {j : Junction} {own referenced : String} (hp : parent.Stands T a)
    (hc : child.Stands T a) (hj : r.through = some j) (h : (own, referenced) ∈ r.pairs) :
    (junctionRow j ⟨a.used⟩ parent child own referenced).Sourced schema L C T := by
  have hself : ∀ name, name = j.source ∨ name = j.target →
      Column.From L (T.bind ⟨a.used⟩ (.junction j)) ⟨⟨a.used⟩, name⟩ :=
    fun name hname => ⟨_, Tables.bind_self _ _ _, hdeclared _ _ hname⟩
  obtain ⟨hown, href⟩ := pair_from hdeclared hrefers hr (hp.under (.junction j)).table
    (hc.under (.junction j)).table h
  refine .related (.junction hr.declaring hr.declared hj) rfl (List.forall_mem_cons.mpr
    ⟨?_, List.forall_mem_singleton.mpr ?_⟩)
  · exact .compare (hself _ (.inr rfl)) href
  · exact .compare (hself _ (.inl rfl)) hown

theorem joins_sourced (h : Joins r parent child ps a b) (hp : parent.Stands T a)
    (hc : child.Stands T a) : ∀ p ∈ ps, p.Sourced schema L L T := by
  cases h with
  | keys _ =>
    refine List.forall_mem_append.mpr ⟨fun p h => ?_, fun p h => ?_⟩
    · obtain ⟨pair, hpair, rfl⟩ := List.mem_map.mp h
      obtain ⟨hown, href⟩ := pair_from hdeclared hrefers hr hp.table hc.table hpair
      exact equality_sourced hown href
    · obtain ⟨pair, hpair, rfl⟩ := List.mem_map.mp h
      obtain ⟨hown, href⟩ := pair_from hdeclared hrefers hr hp.table hc.table hpair
      exact guard_sourced hown href
  | junction _ hj hpairs =>
    exact List.forall_mem_singleton.mpr
      (junction_sourced hdeclared hrefers hr hp hc hj (hpairs ▸ List.mem_cons_self))

theorem correlates_sourced (h : Correlates r parent child ps a b) (hp : parent.Stands T a)
    (hc : child.Stands T a) : ∀ p ∈ ps, p.Sourced schema L Source.Declares T := by
  cases h with
  | keys _ hkeys =>
    intro p h
    obtain ⟨pair, hpair, rfl⟩ := List.mem_map.mp h
    obtain ⟨href, hown⟩ := hkeys pair hpair
    exact equality_sourced ⟨_, hp.table, hown⟩ ⟨_, hc.table, href⟩
  | junction hj hpairs _ =>
    exact List.forall_mem_singleton.mpr
      (junction_sourced hdeclared hrefers hr hp hc hj (hpairs ▸ List.mem_cons_self))

end

end Link

section

variable {schema : Schema} {L : Columns} {T : Tables} {cx : Context}

namespace Having

theorem aggregates_sourced {f : Field} {entries : Json.Entries} {ps : List Pred}
    (h : Aggregates cx f entries ps) (ht : T cx.tag = some (.model cx.model)) :
    ∀ p ∈ ps, p.Sourced schema L Source.Declares T := by
  induction h with
  | nil => exact List.forall_mem_nil _
  | other _ _ ih => exact ih
  | aggregate _ hg here _ ih =>
    refine List.forall_mem_append.mpr ⟨fun p hp => ?_, ih⟩
    have hcolumn := Column.from_of_reads ⟨_, (Aggregation.field_ok hg).1, rfl⟩ ht
    refine Condition.compiles_sourced here ?_ p (Option.mem_toList.mp hp)
    rintro _ ⟨⟩
    exact hcolumn

theorem field_sourced {f : Field} {value : Json} {ps : List Pred} (h : FieldRuns cx f value ps)
    (ht : T cx.tag = some (.model cx.model)) (hf : f ∈ cx.model.fields) :
    ∀ p ∈ ps, p.Sourced schema L Source.Declares T := by
  have hcolumn := Column.from_of_reads ⟨f, hf, rfl⟩ ht
  cases h with
  | entries aggregates plain =>
    refine List.forall_mem_append.mpr ⟨aggregates_sourced aggregates ht, fun p hp => ?_⟩
    exact Condition.compiles_sourced plain hcolumn p (Option.mem_toList.mp hp)
  | literal _ plain =>
    exact fun p hp => Condition.compiles_sourced plain hcolumn p (Option.mem_toList.mp hp)

theorem runs_sourced {o : Outcome} (h : Runs cx o) (ht : T cx.tag = some (.model cx.model)) :
    ∀ p ∈ o.preds, p.Sourced schema L Source.Declares T := by
  induction h with
  | nil | noItem => exact List.forall_mem_nil _
  | connectiveEntry _ _ _ ih ihl => exact List.forall_mem_append.mpr ⟨ih, ihl⟩
  | fieldEntry _ hf here _ ih =>
    exact List.forall_mem_append.mpr ⟨field_sourced here ht (Model.expect_field_ok hf).1, ih⟩
  | object _ hp ih =>
    exact List.forall_mem_singleton.mpr
      (Connective.apply_sourced hp (List.forall_mem_singleton.mpr (.optional ih)))
  | array _ _ hp ih =>
    refine List.forall_mem_singleton.mpr (Connective.apply_sourced hp fun o ho q hq => ?_)
    exact ih q (List.mem_filterMap.mpr ⟨o, ho, hq⟩)
  | item _ _ ih ihl =>
    rw [Outcome.preds, Connective.operand_cons]
    refine List.forall_mem_append.mpr ⟨fun p hp => ?_, ihl⟩
    exact Pred.Sourced.optional ih p (Option.mem_toList.mp hp)

end Having

theorem Keyset.past_sourced {orderBy : Option (List Json.Entries)} {cursor : Option Json.Entries}
    {qs : List Pred} (h : Keyset.Past cx orderBy cursor qs)
    (ht : T cx.tag = some (.model cx.model)) : ∀ q ∈ qs, q.Sourced schema L Source.Declares T := by
  cases h with
  | none => exact List.forall_mem_nil _
  | @some _ ks direction bounds _ _ _ hbounds =>
    have hcolumns : ∀ b ∈ bounds, b.1.From Source.Declares T :=
      fun b hb => Column.from_of_reads (Keyset.bounds_read hbounds b hb) ht
    refine List.forall_mem_singleton.mpr ?_
    unfold Keyset.row
    split
    · exact .compare (hcolumns _ List.mem_cons_self) trivial
    · refine .compareRows fun c hc => ?_
      obtain ⟨b, hb, rfl⟩ := List.mem_map.mp hc
      exact hcolumns b hb

end

section

variable {s : Settings} {L : Columns} (hs : s.schema.LinksOwnFields)
  (hdeclared : ∀ src name, src.Declares name → L src name)
  (hrefers : ∀ src name, s.schema.Refers src name → L src name)
include hs hdeclared hrefers

/-- The columns of a filter are declared, and those of its subqueries declared or
referred to by a relation. -/
theorem Filter.runs_sourced {o : Outcome} {a b : Aliases} (h : Runs s o a b) :
    o.Known s.schema → ∀ (C : Columns) (T : Tables), (∀ src name, src.Declares name → C src name) →
      o.context.Stands T a → ∀ p ∈ o.preds, p.Sourced s.schema L C T := by
  -- a subquery may refer to more than the query around it, so the columns vary with the tables
  induction h with
  | nil | noItem | noQuantifier => exact fun _ _ _ _ _ => List.forall_mem_nil _
  | connectiveEntry _ here _ ih ihl =>
    intro hm C T hC hcx
    exact List.forall_mem_append.mpr
      ⟨ih hm C T hC hcx, ihl hm C T hC (hcx.mono (runs_used here))⟩
  | relationEntry _ _ hr here _ ih ihl =>
    intro hm C T hC hcx
    exact List.forall_mem_append.mpr
      ⟨ih ⟨hm, Model.relation_mem hr⟩ C T hC hcx, ihl hm C T hC (hcx.mono (runs_used here))⟩
  | quantifier _ here _ ih ihl =>
    intro hk C T hC hcx
    exact List.forall_mem_append.mpr
      ⟨ih hk C T hC hcx, ihl hk C T hC (hcx.mono (runs_used here))⟩
  | fieldEntry _ hf here _ ih =>
    intro hm C T hC hcx
    refine List.forall_mem_append.mpr ⟨fun p hp => ?_, ih hm C T hC hcx⟩
    have hcolumn := Column.from_of_field hC hcx.table (Model.field_mem hf).1
    exact Condition.compiles_sourced here hcolumn p (Option.mem_toList.mp hp)
  | object _ hp ih =>
    intro hm C T hC hcx
    exact List.forall_mem_singleton.mpr (Connective.apply_sourced hp
      (List.forall_mem_singleton.mpr (.optional (ih hm C T hC hcx))))
  | array _ _ hp ih =>
    intro hm C T hC hcx
    refine List.forall_mem_singleton.mpr (Connective.apply_sourced hp fun o ho q hq => ?_)
    exact ih hm C T hC hcx q (List.mem_filterMap.mpr ⟨o, ho, hq⟩)
  | item here _ ih ihl =>
    intro hm C T hC hcx
    rw [Outcome.preds, Connective.operand_cons]
    refine List.forall_mem_append.mpr ⟨fun p hp => ?_, ihl hm C T hC (hcx.mono (runs_used here))⟩
    exact Pred.Sourced.optional (ih hm C T hC hcx) p (Option.mem_toList.mp hp)
  | absent _ _ ih | bare _ _ ih | matching _ _ _ ih | presence _ _ _ ih => exact ih
  | keywords _ _ _ ih =>
    intro hk C T hC hcx
    exact List.forall_mem_singleton.mpr (.conjunction (ih hk C T hC hcx))
  | everyRecord _ => exact fun _ _ _ _ _ => List.forall_mem_singleton.mpr .truth
  | @unfiltered cx r _ target _ a _ ht _ link =>
    intro hk C T hC hcx
    have hlinks := Link.joins_sourced hdeclared hrefers ⟨hk.1, hk.2, ht, hs _ hk.1 _ hk.2⟩ link
      (hcx.under (.model target)) (.nested T a cx r target)
    exact List.forall_mem_singleton.mpr (.related (.model (Schema.model_mem ht)) rfl hlinks)
  | @filtered cx r _ _ _ target _ _ _ a _ _ ht _ nested hp link ih =>
    intro hk C T hC hcx
    have hchild := Context.Stands.nested T a cx r target
    have hused := runs_used nested
    have hlinks := Link.joins_sourced hdeclared hrefers ⟨hk.1, hk.2, ht, hs _ hk.1 _ hk.2⟩ link
      ((hcx.under (.model target)).mono hused) (hchild.mono hused)
    refine List.forall_mem_singleton.mpr (.related (.model (Schema.model_mem ht)) rfl
      (List.forall_mem_cons.mpr ⟨Connective.apply_sourced hp ?_, hlinks⟩))
    exact List.forall_mem_singleton.mpr
      (.optional (ih (Schema.model_mem ht) L _ hdeclared hchild))

theorem Read.filtered_sourced {cx : Context} {args : Args} {p : Option Pred} {T : Tables}
    {a b : Aliases} (h : Read.Filtered s cx args p a b) (hm : cx.model ∈ s.schema.models)
    (hcx : cx.Stands T a) : ∀ q ∈ p, q.Sourced s.schema L Source.Declares T := by
  cases h with
  | mk conditions past =>
    have hconditions := Pred.Sourced.optional (Filter.runs_sourced hs hdeclared hrefers conditions
      hm Source.Declares T (fun _ _ => id) hcx)
    refine .optional (List.forall_mem_append.mpr ⟨fun q hq => ?_,
      Keyset.past_sourced past hcx.table⟩)
    exact hconditions q (Option.mem_toList.mp hq)

namespace Records

theorem filtered_sourced {child : Context} {filter : Option Json.Entries} {ps : List Pred}
    {T : Tables} {a b : Aliases} (h : Filtered s child filter ps a b)
    (hm : child.model ∈ s.schema.models) (hcx : child.Stands T a) :
    ∀ p ∈ ps, p.Sourced s.schema L Source.Declares T := by
  cases h with
  | none => exact List.forall_mem_nil _
  | some conditions =>
    exact List.forall_mem_singleton.mpr (.present (.optional (Filter.runs_sourced hs hdeclared
      hrefers conditions hm Source.Declares T (fun _ _ => id) hcx)))

theorem closes_sourced {cx child : Context} {r : Relation} {args : RelationArgs}
    {columns : List Projection} {p : Projection} {T : Tables} {a b : Aliases}
    (h : Closes s cx child r args columns p a b)
    (hr : s.schema.Connects r cx.model child.model)
    (hcx : cx.Stands (T.bind child.tag (.model child.model)) a)
    (hchild : child.Stands (T.bind child.tag (.model child.model)) a)
    (hc : ∀ q ∈ columns, q.Sourced s.schema L (T.bind child.tag (.model child.model))) :
    p.Sourced s.schema L T := by
  have hm : child.model ∈ s.schema.models := Schema.model_mem hr.target
  cases h with
  | mk filter link order =>
    have hused := filtered_used filter
    have hfilter := filtered_sourced hs hdeclared hrefers filter hm hchild
    have hlinks := Link.correlates_sourced hdeclared hrefers hr link (hcx.mono hused)
      (hchild.mono hused)
    have hrows := Pred.Sourced.optional (List.forall_mem_append.mpr ⟨hfilter, hlinks⟩)
    have horder := fun it hit =>
      Scalar.from_of_reads (Ordering.compile_ok order it hit) hchild.table
    exact .relation (.model hm) rfl hc ⟨hrows, List.forall_mem_nil _, nofun, horder⟩

theorem runs_sourced {o : Outcome} {a b : Aliases} (h : Runs s o a b) :
    o.Known s.schema → ∀ T : Tables, o.context.Stands T a →
      ∀ p ∈ o.columns, p.Sourced s.schema L T := by
  induction h with
  | noSelected | noInclusion | omitted => exact fun _ _ _ => List.forall_mem_nil _
  | @fieldEntry cx _ flag _ f _ _ _ hf _ ih =>
    intro hm T hcx
    refine List.forall_mem_append.mpr ⟨?_, ih hm T hcx⟩
    cases flag with
    | false => exact List.forall_mem_nil _
    | true =>
      have hreads : (Projection.column (Compile.column cx f)).Reads cx :=
        ⟨f, (Model.field_mem hf).1, rfl⟩
      exact List.forall_mem_singleton.mpr (Projection.sourced_of_reads hreads hcx.table)
  | relationEntry _ hr here _ ih ihl | inclusionEntry _ hr here _ ih ihl =>
    intro hm T hcx
    exact List.forall_mem_append.mpr
      ⟨ih ⟨hm, Model.relation_mem hr⟩ T hcx, ihl hm T (hcx.mono (runs_used here))⟩
  | @flagged cx r target _ a _ ht closing =>
    intro hk T hcx
    have hchild := Context.Stands.selected T a cx r target {}
    refine List.forall_mem_singleton.mpr (closes_sourced hs hdeclared hrefers closing
      ⟨hk.1, hk.2, ht, hs _ hk.1 _ hk.2⟩ (hcx.under _) hchild ?_)
    exact fun q hq => Projection.sourced_of_reads (field_columns_read _ q hq) hchild.table
  | @arguments cx r _ args target _ _ a _ _ ht _ own closing ih =>
    intro hk T hcx
    have hchild := Context.Stands.selected T a cx r target args
    have hused := runs_used own
    exact List.forall_mem_singleton.mpr (closes_sourced hs hdeclared hrefers closing
      ⟨hk.1, hk.2, ht, hs _ hk.1 _ hk.2⟩ ((hcx.under _).mono hused) (hchild.mono hused)
      (ih (Schema.model_mem ht) _ hchild))
  | allFields =>
    exact fun _ _ hcx q hq => Projection.sourced_of_reads (field_columns_read _ q hq) hcx.table
  | nestedSelection _ ih => exact ih
  | nestedInclusion _ ih =>
    intro hm T hcx
    refine List.forall_mem_append.mpr ⟨fun q hq => ?_, ih hm T hcx⟩
    exact Projection.sourced_of_reads (field_columns_read _ q hq) hcx.table
  | otherArgument _ _ ih => exact ih

theorem columns_sourced {cx : Context} {select inclusion : Option Json.Entries}
    {ps : List Projection} {T : Tables} {a b : Aliases}
    (h : columns s cx select inclusion a = .ok (ps, b)) (hm : cx.model ∈ s.schema.models)
    (hcx : cx.Stands T a) : ∀ p ∈ ps, p.Sourced s.schema L T := by
  rcases columns_ok h with ⟨entries, _, _, hrun⟩ | ⟨qs, _, rfl, hrun⟩
  · exact runs_sourced hs hdeclared hrefers hrun hm T hcx
  · refine List.forall_mem_append.mpr ⟨fun q hq => ?_,
      runs_sourced hs hdeclared hrefers hrun hm T hcx⟩
    exact Projection.sourced_of_reads (field_columns_read cx q hq) hcx.table

end Records

/-- Whatever statement a query compiles to takes its columns from the tables of the
schema. -/
theorem Statement.runs_sourced {cx : Context} {args : Args} {op : Operation} {st : Statement}
    {b : Aliases} (h : Statement.Runs s cx args op st b) (hm : cx.model ∈ s.schema.models)
    (ht : cx.tag = ⟨0⟩) : st.Sourced s.schema L (.model cx.model) := by
  have hself : ∀ tag, Tables.only tag (.model cx.model) tag = some (.model cx.model) :=
    fun tag => Tables.bind_self _ _ _
  have hcx : cx.Stands (.only cx.tag (.model cx.model)) ⟨1⟩ := ⟨hself _, ht ▸ Nat.one_pos⟩
  have hfiltered : ∀ {p : Option Pred} {a d : Aliases}, 1 ≤ a.used →
      Read.Filtered s cx args p a d →
        ∀ q ∈ p, q.Sourced s.schema L Source.Declares (.only cx.tag (.model cx.model)) :=
    fun ha hp => Read.filtered_sourced hs hdeclared hrefers hp hm (hcx.mono ha)
  have hconditions : ∀ {entries : Json.Entries} {ps : List Pred} {d : Aliases},
      Filter.Runs s (.conditions cx entries ps) ⟨1⟩ d → ∀ q ∈ Pred.all? ps,
        q.Sourced s.schema L Source.Declares (.only cx.tag (.model cx.model)) :=
    fun hps => .optional (Filter.runs_sourced hs hdeclared hrefers hps hm _ _ (fun _ _ => id) hcx)
  have horder : ∀ {orderBy : Option (List Json.Entries)} {grouped : Option (List String)}
      {items : List SortItem}, Ordering.compile s cx orderBy grouped = .ok items →
        ∀ it ∈ items, it.key.From Source.Declares (.only cx.tag (.model cx.model)) :=
    fun ho it hit => Scalar.from_of_reads (Ordering.compile_ok ho it hit) hcx.table
  cases h with
  | find _ columns hdistinct filter order =>
    have hlead := fun c hc => Column.from_of_reads (Read.distinct_ok hdistinct c hc) hcx.table
    exact .select rfl (Records.columns_sourced hs hdeclared hrefers columns hm hcx) hlead
      ⟨hfiltered (Records.columns_used columns) filter, List.forall_mem_nil _, nofun,
        horder order⟩
  | aggregate _ filter columns _ =>
    exact .select rfl (fun q hq => Projection.sourced_of_reads (columns q hq) hcx.table)
      (List.forall_mem_nil _) ⟨hfiltered (Nat.le_refl 1) filter, List.forall_mem_nil _, nofun,
        List.forall_mem_nil _⟩
  | overPage _ filter hpage columns order =>
    have hpaged := fun c hc => Column.from_of_reads (Read.page_columns_ok hpage c hc) hcx.table
    exact .overPage rfl
      (fun q hq => Projection.sourced_of_reads (columns q hq) (hself _)) hpaged
      ⟨hfiltered (Nat.le_refl 1) filter, List.forall_mem_nil _, nofun, horder order⟩
  | groupBy columns filter having hgrouping order =>
    have hgroups := fun c hc =>
      Column.from_of_reads (Aggregation.grouping_reads hgrouping c hc) hcx.table
    exact .select rfl (fun q hq => Projection.sourced_of_reads (columns q hq) hcx.table)
      (List.forall_mem_nil _) ⟨hfiltered (Nat.le_refl 1) filter, hgroups,
        .optional (Having.runs_sourced having hcx.table), horder order⟩
  | create _ written => exact .insert (Write.assignments_declared written)
  | update _ written conditions =>
    exact .update (Write.assignments_declared written) (hconditions conditions)
  | delete conditions => exact .delete (hconditions conditions)

end

/-- On a schema that was built, the columns of a compiled query come from the tables
of their aliases. Those of its own clauses and of its selections are declared, those in
subqueries of its predicates are declared or referred to by a relation. So all of them
are declared if relations refer to declared fields only. -/
theorem columns_are_declared (b : Schema.Builder) (c : Compiler) (model : String) (op : Operation)
    (args : Args) (prepared : Prepared) (hb : b.build.1 = .ok c.schema)
    (h : c.compile model op args = .ok prepared) :
    ∃ m st as, c.schema.model? model = some m ∧ c.statement model op args = .ok (st, as) ∧
      prepared = (st.render c.dialect).prepare c.dialect ∧
      st.Sourced c.schema (fun src name => src.Declares name ∨ c.schema.Refers src name)
        (.model m) ∧
      (c.schema.LinksDeclared → st.Sourced c.schema Source.Declares (.model m)) := by
  obtain ⟨st, as, hst, rfl⟩ := Compiler.compile_ok h
  obtain ⟨m, hm, _, hruns⟩ := Compiler.statement_ok hst
  have hown : c.settings.schema.LinksOwnFields := Schema.build_links_own_fields hb
  have hmem : m ∈ c.settings.schema.models := Schema.model_mem hm
  refine ⟨m, st, as, hm, hst, rfl, ?_, fun hlinks => ?_⟩
  · exact Statement.runs_sourced hown (fun _ _ => .inl) (fun _ _ => .inr) hruns hmem rfl
  · exact Statement.runs_sourced hown (fun _ _ => id)
      (fun _ _ => Schema.declares_of_refers hlinks) hruns hmem rfl

theorem sample_columns_are_declared : Sample.schema.LinksDeclared ∧
    (Schema.Builder.build ⟨none, Sample.schema.models⟩).1 = .ok Sample.schema ∧
    ∃ prepared, (Sample.compiler .sqlite).compile "User" .findMany Sample.page = .ok prepared ∧
      ∃ st as, (Sample.compiler .sqlite).statement "User" .findMany Sample.page = .ok (st, as) ∧
        st.Sourced Sample.schema Source.Declares (.model Sample.user) := by
  obtain ⟨prepared, hc⟩ := Sample.page_compiles
  have hlinks : Sample.schema.LinksDeclared := by decide
  obtain ⟨m, st, as, hm, hst, -, -, hall⟩ :=
    columns_are_declared ⟨none, Sample.schema.models⟩ _ _ _ _ _ rfl hc
  cases hm
  exact ⟨hlinks, rfl, prepared, hc, st, as, hst, hall hlinks⟩

namespace Sample

def visit : Model where
  name := "Visit"
  fields := [Field.asId ⟨"id", .int, false, false, false⟩, { name := "room", type := .int }]
  relations := [
    { name := "place", cardinality := .manyToOne, target := "Room", fields := ["room"],
      references := ["number"] }]

def room : Model where
  name := "Room"
  fields := [Field.asId ⟨"id", .int, false, false, false⟩]

def visits : Compiler := .ofConfig ⟨[visit, room]⟩ {}

def placedVisits : Args where
  filter := some [("place", .obj [])]

def placedFilter : Pred :=
  .related false "Room" ⟨1⟩
    [.compare (.column ⟨⟨1⟩, "number"⟩) .eq (.column ⟨⟨0⟩, "room"⟩),
      .isNull (.column ⟨⟨0⟩, "room"⟩) true]

theorem number_undeclared {src : Source} (h : visits.schema.Stores src)
    (ht : src.table = "Room") : ¬ src.Declares "number" := by
  cases h with
  | junction hm hr hj =>
    -- no relation has a junction
    simp only [visits, Compiler.ofConfig, List.mem_cons, List.not_mem_nil, or_false] at hm
    rcases hm with rfl | rfl
    · cases List.mem_singleton.mp hr
      cases hj
    · cases hr
  | model hm =>
    simp only [visits, Compiler.ofConfig, List.mem_cons, List.not_mem_nil, or_false] at hm
    rcases hm with rfl | rfl
    · exact absurd ht (by decide)
    · exact show "number" ∉ room.fieldNames by decide

end Sample

/-- A filter on a relation refers to a column that its table does not declare, in a
schema that was built. A selection of the relation is refused. -/
theorem filter_refers_to_undeclared_column :
    (Schema.Builder.build ⟨none, [Sample.visit, Sample.room]⟩).1 = .ok Sample.visits.schema ∧
    (∃ prepared, Sample.visits.compile "Visit" .findMany Sample.placedVisits = .ok prepared) ∧
    (∃ columns body as, Sample.visits.statement "Visit" .findMany Sample.placedVisits =
        .ok (.select columns [] body, as) ∧ body.filter = some Sample.placedFilter ∧
      ¬ (Statement.select columns [] body).Sourced Sample.visits.schema Source.Declares
        (.model Sample.visit)) ∧
    Sample.visits.compile "Visit" .findMany { inclusion := some [("place", .bool true)] } =
      .error (.unknownField "Room" "number" ["id"]) := by
  refine ⟨rfl, ⟨_, rfl⟩, ⟨_, _, _, rfl, rfl, ?_⟩, rfl⟩
  rintro ⟨_, _, _, rows⟩
  have hfilter := rows.filter Sample.placedFilter rfl
  cases hfilter with
  | related stored named all =>
    cases all _ List.mem_cons_self with
    | compare left _ =>
      obtain ⟨src, hsrc, hdeclared⟩ := left
      cases hsrc
      exact Sample.number_undeclared stored named hdeclared

end QuerySql
