import QuerySql.Proofs.Aliasing
import QuerySql.Proofs.Parameters
import QuerySql.Proofs.Reader

/-!
# Well-formed queries

What every query that compiles has in common, whatever it asks for. No list in
a predicate is empty and no connective has a single operand; every table and
every column bears a name of the schema, and a result column the name of a
field, of a relation or of an aggregate.
-/

set_option autoImplicit false

namespace QuerySql

/-- The names that a schema consists of, those of its models apart that are
stored in a table of another name. -/
inductive Schema.Names (schema : Schema) : String → Prop
  | table {m : Model} (hm : m ∈ schema.models) : Names schema m.tableName
  | field {m : Model} {f : Field} (hm : m ∈ schema.models) (hf : f ∈ m.fields) :
      Names schema f.name
  | relation {m : Model} {r : Relation} (hm : m ∈ schema.models) (hr : r ∈ m.relations) :
      Names schema r.name
  | key {m : Model} {r : Relation} {name : String} (hm : m ∈ schema.models)
      (hr : r ∈ m.relations) (hn : name ∈ r.fields ∨ name ∈ r.references) : Names schema name
  | junction {m : Model} {r : Relation} {j : Junction} {name : String} (hm : m ∈ schema.models)
      (hr : r ∈ m.relations) (hj : r.through = some j)
      (hn : name = j.table ∨ name = j.source ∨ name = j.target) : Names schema name

/-- The names that a statement may use: those of the schema, and for its result
columns also those of aggregates. -/
def Schema.Vocabulary (schema : Schema) (name : String) : Prop :=
  schema.Names name ∨ ∃ m ∈ schema.models, Aggregation.Result m name

theorem Relation.pair_mem {r : Relation} {own referenced : String}
    (h : (own, referenced) ∈ r.pairs) : own ∈ r.fields ∧ referenced ∈ r.references :=
  ⟨(List.of_mem_zip h).1, (List.of_mem_zip h).2⟩

def Scalar.names : Scalar → List String
  | .column c => [c.name]
  | .aggregate _ c => c.toList.map (·.name)
  | .bound _ => []
  | .folded s => s.names

mutual

def Pred.names : Pred → List String
  | .truth _ => []
  | .compare lhs _ rhs => lhs.names ++ rhs.names
  | .compareRows columns _ _ => columns.map (·.name)
  | .isNull s _ => s.names
  | .isIn s items _ => s.names ++ items.flatMap Scalar.names
  | .like s pattern => s.names ++ pattern.names
  | .and operands | .or operands => Pred.namesAll operands
  | .not operand => operand.names
  | .related _ table _ conditions => table :: Pred.namesAll conditions

def Pred.namesAll : List Pred → List String
  | [] => []
  | p :: ps => p.names ++ Pred.namesAll ps

end

theorem Pred.names_all_eq (ps : List Pred) : Pred.namesAll ps = ps.flatMap Pred.names := by
  induction ps with
  | nil => rfl
  | cons p ps ih => rw [Pred.namesAll, ih, List.flatMap_cons]

theorem Pred.filled_all_iff {ps : List Pred} : Pred.FilledAll ps ↔ ∀ p ∈ ps, p.Filled := by
  induction ps with
  | nil => simp [Pred.FilledAll]
  | cons p ps ih => rw [Pred.FilledAll, ih, List.forall_mem_cons]

structure Scalar.WellFormed (N : String → Prop) (s : Scalar) : Prop where
  filled : s.Filled
  named : ∀ n ∈ s.names, N n

/-- The predicate has no empty part, and its names are of the given kind. -/
structure Pred.WellFormed (N : String → Prop) (p : Pred) : Prop where
  filled : p.Filled
  named : ∀ n ∈ p.names, N n

namespace Scalar.WellFormed

variable {N : String → Prop}

theorem column {c : Column} (h : N c.name) : (Scalar.column c).WellFormed N :=
  ⟨trivial, List.forall_mem_singleton.mpr h⟩

theorem bound (v : Value) : (Scalar.bound v).WellFormed N := ⟨trivial, List.forall_mem_nil _⟩

theorem fold (mode : Mode) {s : Scalar} (h : s.WellFormed N) : (mode.fold s).WellFormed N := by
  cases mode with
  | sensitive => exact h
  | insensitive => exact ⟨h.filled, h.named⟩

end Scalar.WellFormed

namespace Pred.WellFormed

variable {N : String → Prop} {ps : List Pred} {p : Pred}

theorem truth (value : Bool) : (Pred.truth value).WellFormed N :=
  ⟨trivial, List.forall_mem_nil _⟩

theorem compare {lhs rhs : Scalar} (op : Comparison) (hl : lhs.WellFormed N)
    (hr : rhs.WellFormed N) : (Pred.compare lhs op rhs).WellFormed N :=
  ⟨⟨hl.filled, hr.filled⟩, List.forall_mem_append.mpr ⟨hl.named, hr.named⟩⟩

theorem is_null {s : Scalar} (negated : Bool) (h : s.WellFormed N) :
    (Pred.isNull s negated).WellFormed N :=
  ⟨h.filled, h.named⟩

theorem like {s pattern : Scalar} (h : s.WellFormed N) (hp : pattern.WellFormed N) :
    (Pred.like s pattern).WellFormed N :=
  ⟨⟨h.filled, hp.filled⟩, List.forall_mem_append.mpr ⟨h.named, hp.named⟩⟩

theorem is_in {s : Scalar} {items : List Scalar} (negated : Bool) (h : s.WellFormed N)
    (hne : items ≠ []) (hi : ∀ item ∈ items, item.WellFormed N) :
    (Pred.isIn s items negated).WellFormed N := by
  refine ⟨⟨h.filled, hne, fun item hitem => (hi item hitem).filled⟩,
    List.forall_mem_append.mpr ⟨h.named, ?_⟩⟩
  intro n hn
  obtain ⟨item, hitem, hn⟩ := List.mem_flatMap.mp hn
  exact (hi item hitem).named n hn

theorem negation (h : p.WellFormed N) : (Pred.not p).WellFormed N := ⟨h.filled, h.named⟩

theorem named_all (h : ∀ p ∈ ps, p.WellFormed N) : ∀ n ∈ Pred.namesAll ps, N n := by
  rw [Pred.names_all_eq]
  intro n hn
  obtain ⟨p, hp, hn⟩ := List.mem_flatMap.mp hn
  exact (h p hp).named n hn

theorem filled_all (h : ∀ p ∈ ps, p.WellFormed N) : Pred.FilledAll ps :=
  Pred.filled_all_iff.mpr fun p hp => (h p hp).filled

theorem conjunction (hne : ps ≠ []) (h : ∀ p ∈ ps, p.WellFormed N) :
    (Pred.all ps).WellFormed N := by
  match ps with
  | [] => exact absurd rfl hne
  | [p] => exact h p List.mem_cons_self
  | p :: q :: ps => exact ⟨⟨by simp, filled_all h⟩, named_all h⟩

theorem disjunction (hne : ps ≠ []) (h : ∀ p ∈ ps, p.WellFormed N) :
    (Pred.any ps).WellFormed N := by
  match ps with
  | [] => exact absurd rfl hne
  | [p] => exact h p List.mem_cons_self
  | p :: q :: ps => exact ⟨⟨by simp, filled_all h⟩, named_all h⟩

theorem optional (h : ∀ p ∈ ps, p.WellFormed N) :
    ∀ p ∈ (Pred.all? ps).toList, p.WellFormed N := by
  cases ps with
  | nil => exact List.forall_mem_nil _
  | cons p ps => exact List.forall_mem_singleton.mpr (conjunction (List.cons_ne_nil p ps) h)

theorem present {o : Option Pred} (h : ∀ p ∈ o.toList, p.WellFormed N) :
    (o.getD (.truth true)).WellFormed N := by
  cases o with
  | none => exact truth true
  | some p => exact h p List.mem_cons_self

theorem related (negated : Bool) {table : String} (tag : Alias) (ht : N table)
    (h : ∀ p ∈ ps, p.WellFormed N) : (Pred.related negated table tag ps).WellFormed N :=
  ⟨filled_all h, List.forall_mem_cons.mpr ⟨ht, named_all h⟩⟩

end Pred.WellFormed

theorem Connective.apply_well_formed {N : String → Prop} {m : Model} {c : Connective}
    {os : List (Option Pred)} {p : Pred} (hp : c.apply m os = .ok p) (hne : os ≠ [])
    (h : ∀ q ∈ os.filterMap id, q.WellFormed N) : p.WellFormed N := by
  cases c with
  | and =>
    cases hp
    exact .present (.optional h)
  | or =>
    cases hp
    refine .disjunction (by simpa using hne) ?_
    intro q hq
    obtain ⟨o, ho, rfl⟩ := List.mem_map.mp hq
    refine .present fun q hq => h q (List.mem_filterMap.mpr ⟨o, ho, ?_⟩)
    exact Option.mem_toList.mp hq
  | not =>
    rw [apply] at hp
    split at hp
    · rename_i q hq
      cases hp
      exact .negation (h q (hq ▸ List.mem_cons_self))
    · cases hp

namespace Condition

variable {N : String → Prop} {m : Model} {f : Field} {lhs : Scalar}

theorem operates_well_formed {mode : Mode} {op : FieldOperator} {json : Json} {p : Pred}
    (h : Operates f lhs mode op json p) (hl : lhs.WellFormed N) : p.WellFormed N := by
  cases h with
  | isNull | isNotNull => exact .is_null _ hl
  | compare _ _ => exact .compare _ (.fold mode hl) (.fold mode (.bound _))
  | noItems => exact .truth _
  | @isIn _ _ vs hne hvs =>
    have hitems : vs ≠ [] := by
      rintro rfl
      exact hne (List.forall₂_nil_right_iff.mp hvs)
    refine .is_in _ (.fold mode hl) (by simpa using hitems) fun item hitem => ?_
    obtain ⟨v, _, rfl⟩ := List.mem_map.mp hitem
    exact .fold mode (.bound v)
  | pattern _ => exact .like (.fold mode hl) (.fold mode (.bound _))

theorem runs_well_formed {mode : Mode} {entries : Json.Entries} {ps : List Pred}
    (h : Runs m f lhs mode entries ps) (hl : lhs.WellFormed N) : ∀ p ∈ ps, p.WellFormed N := by
  induction h with
  | nil => exact List.forall_mem_nil _
  | mode _ ih => exact ih
  | negation _ _ _ ih ihl =>
    refine List.forall_mem_append.mpr ⟨?_, ihl⟩
    intro p hp
    obtain ⟨q, hq, rfl⟩ := Option.map_eq_some_iff.mp (Option.mem_toList.mp hp)
    exact .negation (Pred.WellFormed.optional ih q (Option.mem_toList.mpr hq))
  | operator _ _ here _ ih =>
    exact List.forall_mem_cons.mpr ⟨operates_well_formed here hl, ih⟩

theorem compiles_well_formed {json : Json} {p : Option Pred} (h : Compiles m f lhs json p)
    (hl : lhs.WellFormed N) : ∀ q ∈ p.toList, q.WellFormed N := by
  cases h with
  | null => exact List.forall_mem_singleton.mpr (.is_null false hl)
  | scalar _ => exact List.forall_mem_singleton.mpr (.compare .eq hl (.bound _))
  | operators _ here => exact .optional (runs_well_formed here hl)

end Condition

section

variable {schema : Schema}

namespace Link

variable {r : Relation} {parent child : Context} {ps : List Pred} {a b : Aliases}

theorem pair_named (hm : parent.model ∈ schema.models) (hr : r ∈ parent.model.relations)
    {own referenced : String} (h : (own, referenced) ∈ r.pairs) :
    schema.Names own ∧ schema.Names referenced :=
  ⟨.key hm hr (.inl (Relation.pair_mem h).1), .key hm hr (.inr (Relation.pair_mem h).2)⟩

theorem equality_well_formed {own referenced : String} (ho : schema.Names own)
    (hr : schema.Names referenced) :
    (equality parent child own referenced).WellFormed schema.Names :=
  .compare .eq (.column hr) (.column ho)

theorem guard_well_formed {own referenced : String} (ho : schema.Names own)
    (hr : schema.Names referenced) :
    (guard r parent child own referenced).WellFormed schema.Names := by
  unfold guard
  split
  · exact .is_null true (.column hr)
  · exact .is_null true (.column ho)

theorem junction_well_formed {j : Junction} {own referenced : String} {tag : Alias}
    (hm : parent.model ∈ schema.models) (hr : r ∈ parent.model.relations)
    (hj : r.through = some j) (hp : (own, referenced) ∈ r.pairs) :
    (junctionRow j tag parent child own referenced).WellFormed schema.Names := by
  obtain ⟨ho, href⟩ := pair_named hm hr hp
  have hnames : ∀ name, name = j.table ∨ name = j.source ∨ name = j.target → schema.Names name :=
    fun _ hn => .junction hm hr hj hn
  refine .related false tag (hnames _ (.inl rfl)) (List.forall_mem_cons.mpr ⟨?_,
    List.forall_mem_singleton.mpr ?_⟩)
  · exact .compare .eq (.column (hnames _ (.inr (.inr rfl)))) (.column href)
  · exact .compare .eq (.column (hnames _ (.inr (.inl rfl)))) (.column ho)

theorem joins_well_formed (h : Joins r parent child ps a b) (hm : parent.model ∈ schema.models)
    (hr : r ∈ parent.model.relations) : ∀ p ∈ ps, p.WellFormed schema.Names := by
  cases h with
  | keys _ =>
    refine List.forall_mem_append.mpr ⟨fun p hp => ?_, fun p hp => ?_⟩
    · obtain ⟨pair, hpair, rfl⟩ := List.mem_map.mp hp
      exact equality_well_formed (pair_named hm hr hpair).1 (pair_named hm hr hpair).2
    · obtain ⟨pair, hpair, rfl⟩ := List.mem_map.mp hp
      exact guard_well_formed (pair_named hm hr hpair).1 (pair_named hm hr hpair).2
  | junction _ hj hp =>
    exact List.forall_mem_singleton.mpr
      (junction_well_formed hm hr hj (hp ▸ List.mem_cons_self))

theorem correlates_well_formed (h : Correlates r parent child ps a b)
    (hm : parent.model ∈ schema.models) (hr : r ∈ parent.model.relations) :
    ∀ p ∈ ps, p.WellFormed schema.Names := by
  cases h with
  | keys =>
    intro p hp
    obtain ⟨pair, hpair, rfl⟩ := List.mem_map.mp hp
    have hnamed := pair_named hm hr (by_reference_mem hpair)
    exact equality_well_formed hnamed.1 hnamed.2
  | junction hj hp =>
    exact List.forall_mem_singleton.mpr
      (junction_well_formed hm hr hj (hp ▸ List.mem_cons_self))

end Link

namespace Filter

def Outcome.Known (schema : Schema) : Outcome → Prop
  | .conditions cx _ _ | .connective cx _ _ _ | .each cx _ _ => cx.model ∈ schema.models
  | .relation cx r _ _ | .quantifiers cx r _ _ | .quantified cx r _ _ _ | .subquery cx r _ _ _ =>
    cx.model ∈ schema.models ∧ r ∈ cx.model.relations

theorem each_nonempty {s : Settings} {cx : Context} {items : List Json}
    {os : List (Option Pred)} {a b : Aliases} (h : Runs s (.each cx items os) a b)
    (hne : items ≠ []) : os ≠ [] := by
  cases h with
  | noItem => exact absurd rfl hne
  | item _ _ => exact List.cons_ne_nil _ _

theorem quantifiers_nonempty {s : Settings} {cx : Context} {r : Relation}
    {entries : Json.Entries} {ps : List Pred} {a b : Aliases}
    (h : Runs s (.quantifiers cx r entries ps) a b) (hz : Quantifier.count entries ≠ 0) :
    ps ≠ [] := by
  cases h with
  | noQuantifier => exact absurd rfl hz
  | quantifier _ _ _ => exact List.cons_ne_nil _ _

theorem runs_well_formed {s : Settings} {o : Outcome} {a b : Aliases} (h : Runs s o a b) :
    o.Known s.schema → ∀ p ∈ o.preds, p.WellFormed s.schema.Names := by
  induction h with
  | nil | noItem | noQuantifier => exact fun _ => List.forall_mem_nil _
  | connectiveEntry _ _ _ ih ihl =>
    exact fun hm => List.forall_mem_append.mpr ⟨ih hm, ihl hm⟩
  | relationEntry _ _ hr _ _ ih ihl =>
    exact fun hm => List.forall_mem_append.mpr ⟨ih ⟨hm, Model.relation_mem hr⟩, ihl hm⟩
  | quantifier _ _ _ ih ihl => exact fun hk => List.forall_mem_append.mpr ⟨ih hk, ihl hk⟩
  | fieldEntry _ hf here _ ih =>
    intro hm
    have hcolumn := Schema.Names.field hm (Model.field_mem hf).1
    exact List.forall_mem_append.mpr
      ⟨Condition.compiles_well_formed here (.column hcolumn), ih hm⟩
  | @object _ _ _ ps _ _ _ _ hp ih =>
    intro hm
    refine List.forall_mem_singleton.mpr (Connective.apply_well_formed hp (by simp) ?_)
    rw [Connective.operand_single]
    exact .optional (ih hm)
  | array hne operands hp ih =>
    exact fun hm => List.forall_mem_singleton.mpr
      (Connective.apply_well_formed hp (each_nonempty operands hne) (ih hm))
  | item _ _ ih ihl =>
    intro hm
    rw [Outcome.preds, Connective.operand_cons]
    exact List.forall_mem_append.mpr ⟨.optional (ih hm), ihl hm⟩
  | absent _ _ ih | bare _ _ ih | matching _ _ _ ih | presence _ _ _ ih => exact ih
  | keywords hz _ all ih =>
    exact fun hk => List.forall_mem_singleton.mpr
      (.conjunction (quantifiers_nonempty all hz) (ih hk))
  | everyRecord _ => exact fun _ => List.forall_mem_singleton.mpr (.truth true)
  | unfiltered ht _ link =>
    exact fun hk => List.forall_mem_singleton.mpr (.related _ _ (.table (Schema.model_mem ht))
      (Link.joins_well_formed link hk.1 hk.2))
  | filtered ht _ _ hp link ih =>
    intro hk
    refine List.forall_mem_singleton.mpr (.related _ _ (.table (Schema.model_mem ht))
      (List.forall_mem_cons.mpr ⟨?_, Link.joins_well_formed link hk.1 hk.2⟩))
    refine Connective.apply_well_formed hp (by simp) ?_
    rw [Connective.operand_single]
    exact .optional (ih (Schema.model_mem ht))

end Filter

namespace Having

variable {cx : Context}

theorem aggregates_well_formed {f : Field} {entries : Json.Entries} {ps : List Pred}
    (h : Aggregates cx f entries ps) (hm : cx.model ∈ schema.models) :
    ∀ p ∈ ps, p.WellFormed schema.Names := by
  induction h with
  | nil => exact List.forall_mem_nil _
  | other _ _ ih => exact ih
  | @aggregate _ _ _ kind g _ _ _ hg here _ ih =>
    have hcolumn : schema.Names g.name := .field hm (Aggregation.field_ok hg).1
    have hlhs : (Scalar.aggregate kind (some (Compile.column cx g))).WellFormed schema.Names :=
      ⟨rfl, List.forall_mem_singleton.mpr hcolumn⟩
    exact List.forall_mem_append.mpr ⟨Condition.compiles_well_formed here hlhs, ih⟩

theorem field_well_formed {f : Field} {value : Json} {ps : List Pred}
    (h : FieldRuns cx f value ps) (hm : cx.model ∈ schema.models) (hf : f ∈ cx.model.fields) :
    ∀ p ∈ ps, p.WellFormed schema.Names := by
  have hcolumn : (Scalar.column (Compile.column cx f)).WellFormed schema.Names :=
    .column (.field hm hf)
  cases h with
  | entries aggregates plain =>
    exact List.forall_mem_append.mpr ⟨aggregates_well_formed aggregates hm,
      Condition.compiles_well_formed plain hcolumn⟩
  | literal _ plain => exact Condition.compiles_well_formed plain hcolumn

theorem each_nonempty {items : List Json} {os : List (Option Pred)}
    (h : Runs cx (.each items os)) (hne : items ≠ []) : os ≠ [] := by
  cases h with
  | noItem => exact absurd rfl hne
  | item _ _ => exact List.cons_ne_nil _ _

theorem runs_well_formed {o : Outcome} (h : Runs cx o) (hm : cx.model ∈ schema.models) :
    ∀ p ∈ o.preds, p.WellFormed schema.Names := by
  induction h with
  | nil | noItem => exact List.forall_mem_nil _
  | connectiveEntry _ _ _ ih ihl => exact List.forall_mem_append.mpr ⟨ih, ihl⟩
  | fieldEntry _ hf here _ ih =>
    exact List.forall_mem_append.mpr ⟨field_well_formed here hm (Model.expect_field_ok hf).1, ih⟩
  | @object _ _ ps _ _ hp ih =>
    refine List.forall_mem_singleton.mpr (Connective.apply_well_formed hp (by simp) ?_)
    rw [Connective.operand_single]
    exact .optional ih
  | array hne operands hp ih =>
    exact List.forall_mem_singleton.mpr
      (Connective.apply_well_formed hp (each_nonempty operands hne) ih)
  | item _ _ ih ihl =>
    rw [Outcome.preds, Connective.operand_cons]
    exact List.forall_mem_append.mpr ⟨.optional ih, ihl⟩

end Having

namespace Keyset

theorem keys_nonempty {m : Model} {cursor : Json.Entries} {orderBy : Option (List Json.Entries)}
    {ks : List Key} (h : keys m cursor orderBy = .ok ks) (hne : cursor ≠ []) : ks ≠ [] := by
  rintro rfl
  have hnames : pageKeys orderBy cursor = [] := (keys_hold h).1.symm
  obtain ⟨e, he⟩ := List.exists_mem_of_ne_nil cursor hne
  have hkey : e.1 ∈ pageKeys orderBy cursor :=
    List.mem_eraseDups.mpr (List.mem_append_right _ (List.mem_map.mpr ⟨e, he, rfl⟩))
  rw [hnames] at hkey
  exact List.not_mem_nil hkey

theorem row_well_formed {N : String → Prop} {bounds : List (Column × Value)} (op : Comparison)
    (hne : bounds ≠ []) (h : ∀ b ∈ bounds, N b.1.name) : (row op bounds).WellFormed N := by
  match bounds with
  | [] => exact absurd rfl hne
  | [(column, value)] => exact .compare op (.column (h _ List.mem_cons_self)) (.bound value)
  | b :: c :: rest =>
    refine ⟨⟨by simp, by simp⟩, fun n hn => ?_⟩
    obtain ⟨column, hcolumn, rfl⟩ := List.mem_map.mp hn
    obtain ⟨bound, hbound, rfl⟩ := List.mem_map.mp hcolumn
    exact h bound hbound

theorem past_well_formed {cx : Context} {orderBy : Option (List Json.Entries)}
    {cursor : Option Json.Entries} {qs : List Pred} (h : Past cx orderBy cursor qs)
    (hm : cx.model ∈ schema.models) : ∀ q ∈ qs, q.WellFormed schema.Names := by
  cases h with
  | none => exact List.forall_mem_nil _
  | @some _ ks direction bounds hne hkeys _ hbounds =>
    have hfound : bounds ≠ [] := by
      rintro rfl
      exact keys_nonempty hkeys hne (List.forall₂_nil_right_iff.mp hbounds)
    have hnamed : ∀ b ∈ bounds, schema.Names b.1.name := by
      intro b hb
      obtain ⟨f, hf, hcolumn⟩ := bounds_read hbounds b hb
      rw [hcolumn]
      exact .field hm hf
    exact List.forall_mem_singleton.mpr (row_well_formed _ hfound hnamed)

end Keyset

theorem Read.filtered_well_formed {s : Settings} {cx : Context} {args : Args} {p : Option Pred}
    {a b : Aliases} (h : Read.Filtered s cx args p a b) (hm : cx.model ∈ s.schema.models) :
    ∀ q ∈ p.toList, q.WellFormed s.schema.Names := by
  cases h with
  | mk conditions past =>
    exact .optional (List.forall_mem_append.mpr
      ⟨.optional (Filter.runs_well_formed conditions hm), Keyset.past_well_formed past hm⟩)

end

def Body.predicates (b : Body) : List Pred := b.filter.toList ++ b.having.toList

def Body.names (b : Body) : List String :=
  b.table :: b.predicates.flatMap Pred.names ++ b.groupBy.map (·.name) ++
    b.orderBy.flatMap fun it => it.key.names

mutual

def Projection.predicates : Projection → List Pred
  | .column _ | .aggregate _ _ _ => []
  | .relation _ _ _ columns body => Projection.predicatesAll columns ++ body.predicates

def Projection.predicatesAll : List Projection → List Pred
  | [] => []
  | p :: ps => p.predicates ++ Projection.predicatesAll ps

end

mutual

def Projection.names : Projection → List String
  | .column c => [c.name]
  | .aggregate _ c name => name :: c.toList.map (·.name)
  | .relation name _ _ columns body => name :: Projection.namesAll columns ++ body.names

def Projection.namesAll : List Projection → List String
  | [] => []
  | p :: ps => p.names ++ Projection.namesAll ps

end

def Statement.predicates : Statement → List Pred
  | .select columns _ body => Projection.predicatesAll columns ++ body.predicates
  | .overPage columns _ _ body => Projection.predicatesAll columns ++ body.predicates
  | .insert _ _ => []
  | .update _ _ _ filter => filter.toList
  | .delete _ _ filter => filter.toList

def Statement.names : Statement → List String
  | .select columns distinct body =>
    Projection.namesAll columns ++ distinct.map (·.name) ++ body.names
  | .overPage columns _ page body =>
    Projection.namesAll columns ++ page.map (·.name) ++ body.names
  | .insert table assignments => table :: assignments.map (·.1)
  | .update table _ assignments filter =>
    table :: assignments.map (·.1) ++ filter.toList.flatMap Pred.names
  | .delete table _ filter => table :: filter.toList.flatMap Pred.names

structure Body.WellFormed (N : String → Prop) (b : Body) : Prop where
  filled : ∀ p ∈ b.predicates, p.Filled
  named : ∀ n ∈ b.names, N n

structure Projection.WellFormed (N : String → Prop) (p : Projection) : Prop where
  filled : ∀ q ∈ p.predicates, q.Filled
  named : ∀ n ∈ p.names, N n

/-- The statement's predicates have no empty part, and its names are of the given
kind. -/
structure Statement.WellFormed (N : String → Prop) (st : Statement) : Prop where
  filled : ∀ p ∈ st.predicates, p.Filled
  named : ∀ n ∈ st.names, N n

section

variable {schema : Schema} {cx : Context}

theorem Column.named_of_reads {c : Column} (h : c.Reads cx) (hm : cx.model ∈ schema.models) :
    schema.Names c.name := by
  obtain ⟨f, hf, rfl⟩ := h
  exact .field hm hf

theorem Column.all_named {cs : List Column} (h : ∀ c ∈ cs, c.Reads cx)
    (hm : cx.model ∈ schema.models) : ∀ n ∈ cs.map (·.name), schema.Names n := by
  intro n hn
  obtain ⟨c, hc, rfl⟩ := List.mem_map.mp hn
  exact Column.named_of_reads (h c hc) hm

theorem Scalar.named_of_reads {s : Scalar} (h : s.Reads cx) (hm : cx.model ∈ schema.models) :
    ∀ n ∈ s.names, schema.Names n := by
  cases s with
  | column c => exact List.forall_mem_singleton.mpr (Column.named_of_reads h hm)
  | aggregate kind c => exact Column.all_named (fun x hx => h x (Option.mem_toList.mp hx)) hm
  | bound _ | folded _ => exact h.elim

theorem Body.well_formed {b : Body} (hm : cx.model ∈ schema.models)
    (ht : b.table = cx.model.tableName) (hp : ∀ p ∈ b.predicates, p.WellFormed schema.Names)
    (hg : ∀ c ∈ b.groupBy, c.Reads cx) (ho : ∀ it ∈ b.orderBy, it.key.Reads cx) :
    b.WellFormed schema.Names := by
  refine ⟨fun p hpred => (hp p hpred).filled, ?_⟩
  refine List.forall_mem_append.mpr ⟨List.forall_mem_append.mpr
    ⟨List.forall_mem_cons.mpr ⟨ht ▸ .table hm, ?_⟩, Column.all_named hg hm⟩, ?_⟩
  · intro n hn
    obtain ⟨p, hpred, hn⟩ := List.mem_flatMap.mp hn
    exact (hp p hpred).named n hn
  · intro n hn
    obtain ⟨it, hit, hn⟩ := List.mem_flatMap.mp hn
    exact Scalar.named_of_reads (ho it hit) hm n hn

theorem Body.well_formed_filtered (hm : cx.model ∈ schema.models) {p : Option Pred}
    (hp : ∀ q ∈ p.toList, q.WellFormed schema.Names) {orderBy : List SortItem}
    (ho : ∀ it ∈ orderBy, it.key.Reads cx) (take skip : Option Nat) :
    Body.WellFormed schema.Names
      { table := cx.model.tableName, tag := cx.tag, filter := p, orderBy := orderBy,
        take := take, skip := skip } := by
  apply Body.well_formed hm rfl
  · simpa [Body.predicates] using hp
  · exact List.forall_mem_nil _
  · exact ho

namespace Projection

variable {N : String → Prop} {ps : List Projection}

theorem filled_all (h : ∀ p ∈ ps, p.WellFormed N) : ∀ q ∈ predicatesAll ps, q.Filled := by
  induction ps with
  | nil => exact List.forall_mem_nil _
  | cons p ps ih =>
    rw [List.forall_mem_cons] at h
    exact List.forall_mem_append.mpr ⟨h.1.filled, ih h.2⟩

theorem named_all (h : ∀ p ∈ ps, p.WellFormed N) : ∀ n ∈ namesAll ps, N n := by
  induction ps with
  | nil => exact List.forall_mem_nil _
  | cons p ps ih =>
    rw [List.forall_mem_cons] at h
    exact List.forall_mem_append.mpr ⟨h.1.named, ih h.2⟩

theorem well_formed_of_reads {p : Projection} (h : p.Reads cx) (hm : cx.model ∈ schema.models) :
    p.WellFormed schema.Vocabulary := by
  cases p with
  | column c =>
    exact ⟨List.forall_mem_nil _, List.forall_mem_singleton.mpr
      (.inl (Column.named_of_reads h hm))⟩
  | aggregate kind c name =>
    have hcolumns := Column.all_named (fun x hx => h.1 x (Option.mem_toList.mp hx)) hm
    exact ⟨List.forall_mem_nil _, List.forall_mem_cons.mpr
      ⟨.inr ⟨cx.model, hm, h.2⟩, fun n hn => .inl (hcolumns n hn)⟩⟩
  | relation name toMany fold columns body => exact h.elim

end Projection

end

namespace Records

variable {s : Settings}

theorem filtered_well_formed {child : Context} {filter : Option Json.Entries} {ps : List Pred}
    {a b : Aliases} (h : Filtered s child filter ps a b) (hm : child.model ∈ s.schema.models) :
    ∀ p ∈ ps, p.WellFormed s.schema.Names := by
  cases h with
  | none => exact List.forall_mem_nil _
  | some conditions =>
    exact List.forall_mem_singleton.mpr
      (.present (.optional (Filter.runs_well_formed conditions hm)))

theorem closes_well_formed {cx child : Context} {r : Relation} {args : RelationArgs}
    {columns : List Projection} {p : Projection} {a b : Aliases}
    (h : Closes s cx child r args columns p a b) (hm : cx.model ∈ s.schema.models)
    (hr : r ∈ cx.model.relations) (hchild : child.model ∈ s.schema.models)
    (hc : ∀ q ∈ columns, q.WellFormed s.schema.Vocabulary) : p.WellFormed s.schema.Vocabulary := by
  cases h with
  | mk filter link order =>
    have hfilter := Pred.WellFormed.optional (List.forall_mem_append.mpr
      ⟨filtered_well_formed filter hchild, Link.correlates_well_formed link hm hr⟩)
    have hbody := Body.well_formed_filtered hchild hfilter (Ordering.compile_ok order)
      args.take args.skip
    exact ⟨List.forall_mem_append.mpr ⟨Projection.filled_all hc, hbody.filled⟩,
      List.forall_mem_append.mpr ⟨List.forall_mem_cons.mpr ⟨.inl (.relation hm hr),
        Projection.named_all hc⟩, fun n hn => .inl (hbody.named n hn)⟩⟩

def Outcome.Known (schema : Schema) : Outcome → Prop
  | .selected cx _ _ | .inclusions cx _ _ | .nested cx _ _ => cx.model ∈ schema.models
  | .relation cx r _ _ => cx.model ∈ schema.models ∧ r ∈ cx.model.relations

theorem field_columns_well_formed {cx : Context} (hm : cx.model ∈ s.schema.models) :
    ∀ p ∈ fieldColumns cx, p.WellFormed s.schema.Vocabulary :=
  fun p hp => Projection.well_formed_of_reads (field_columns_read cx p hp) hm

theorem runs_well_formed {o : Outcome} {a b : Aliases} (h : Runs s o a b) :
    o.Known s.schema → ∀ p ∈ o.columns, p.WellFormed s.schema.Vocabulary := by
  induction h with
  | noSelected | noInclusion | omitted => exact fun _ => List.forall_mem_nil _
  | @fieldEntry cx _ flag _ f _ _ _ hf _ ih =>
    intro hm
    refine List.forall_mem_append.mpr ⟨?_, ih hm⟩
    cases flag with
    | false => exact List.forall_mem_nil _
    | true =>
      have hreads : (Projection.column (Compile.column cx f)).Reads cx :=
        ⟨f, (Model.field_mem hf).1, rfl⟩
      exact List.forall_mem_singleton.mpr (Projection.well_formed_of_reads hreads hm)
  | relationEntry _ hr _ _ ih ihl | inclusionEntry _ hr _ _ ih ihl =>
    exact fun hm => List.forall_mem_append.mpr ⟨ih ⟨hm, Model.relation_mem hr⟩, ihl hm⟩
  | flagged ht closing =>
    intro hk
    have hchild := Schema.model_mem ht
    exact List.forall_mem_singleton.mpr (closes_well_formed closing hk.1 hk.2 hchild
      (field_columns_well_formed hchild))
  | arguments ht _ _ closing ih =>
    intro hk
    have hchild := Schema.model_mem ht
    exact List.forall_mem_singleton.mpr (closes_well_formed closing hk.1 hk.2 hchild (ih hchild))
  | allFields => exact field_columns_well_formed
  | nestedSelection _ ih => exact ih
  | nestedInclusion _ ih =>
    exact fun hm => List.forall_mem_append.mpr ⟨field_columns_well_formed hm, ih hm⟩
  | otherArgument _ _ ih => exact ih

theorem columns_well_formed {cx : Context} {select inclusion : Option Json.Entries}
    {ps : List Projection} {a b : Aliases} (h : columns s cx select inclusion a = .ok (ps, b))
    (hm : cx.model ∈ s.schema.models) : ∀ p ∈ ps, p.WellFormed s.schema.Vocabulary := by
  rcases columns_ok h with ⟨entries, _, _, hrun⟩ | ⟨qs, _, rfl, hrun⟩
  · exact runs_well_formed hrun hm
  · exact List.forall_mem_append.mpr ⟨field_columns_well_formed hm, runs_well_formed hrun hm⟩

end Records

theorem Write.assignments_named {schema : Schema} {m : Model} {entries : Json.Entries}
    {assigned : List (String × Value)} (h : Write.assignments m entries = .ok assigned)
    (hm : m ∈ schema.models) : ∀ n ∈ assigned.map (·.1), schema.Names n := by
  intro n hn
  obtain ⟨x, hx, rfl⟩ := List.mem_map.mp hn
  obtain ⟨f, hf, hname⟩ := List.mem_map.mp (Write.assignments_declared h x hx)
  exact hname ▸ .field hm hf

namespace Statement

variable {s : Settings} {cx : Context}

theorem well_formed_select {columns : List Projection} {distinct : List Column} {body : Body}
    (hm : cx.model ∈ s.schema.models) (hc : ∀ p ∈ columns, p.WellFormed s.schema.Vocabulary)
    (hd : ∀ c ∈ distinct, c.Reads cx) (hb : body.WellFormed s.schema.Names) :
    (Statement.select columns distinct body).WellFormed s.schema.Vocabulary where
  filled := List.forall_mem_append.mpr ⟨Projection.filled_all hc, hb.filled⟩
  named := List.forall_mem_append.mpr ⟨List.forall_mem_append.mpr ⟨Projection.named_all hc,
    fun n hn => .inl (Column.all_named hd hm n hn)⟩, fun n hn => .inl (hb.named n hn)⟩

theorem conditions_well_formed {ps : List Pred} (h : ∀ p ∈ ps, p.WellFormed s.schema.Names) :
    (∀ p ∈ (Pred.all? ps).toList, p.Filled) ∧
      ∀ n ∈ (Pred.all? ps).toList.flatMap Pred.names, s.schema.Vocabulary n := by
  have hall := Pred.WellFormed.optional h
  refine ⟨fun p hp => (hall p hp).filled, fun n hn => ?_⟩
  obtain ⟨p, hp, hn⟩ := List.mem_flatMap.mp hn
  exact .inl ((hall p hp).named n hn)

theorem runs_well_formed {args : Args} {op : Operation} {st : Statement} {b : Aliases}
    (h : Statement.Runs s cx args op st b) (hm : cx.model ∈ s.schema.models) :
    st.WellFormed s.schema.Vocabulary := by
  have htable : s.schema.Vocabulary cx.model.tableName := .inl (.table hm)
  have hread : ∀ {cx' : Context} {ps : List Projection}, (∀ q ∈ ps, q.Reads cx') →
      cx'.model ∈ s.schema.models → ∀ q ∈ ps, q.WellFormed s.schema.Vocabulary :=
    fun hps hm' q hq => Projection.well_formed_of_reads (hps q hq) hm'
  cases h with
  | @find _ _ _ _ _ take _ _ _ columns hdistinct filter order =>
    have hbody := Body.well_formed_filtered hm (Read.filtered_well_formed filter hm)
      (Ordering.compile_ok order) take args.skip
    exact well_formed_select hm (Records.columns_well_formed columns hm)
      (Read.distinct_ok hdistinct) hbody
  | aggregate _ filter columns _ =>
    have hbody := Body.well_formed_filtered hm (Read.filtered_well_formed filter hm)
      (List.forall_mem_nil _) none none
    exact well_formed_select hm (hread columns hm) (List.forall_mem_nil _) hbody
  | overPage _ filter hpage columns order =>
    have hbody := Body.well_formed_filtered hm (Read.filtered_well_formed filter hm)
      (Ordering.compile_ok order) args.take args.skip
    have hcolumns := hread columns hm
    have hnames := Column.all_named (Read.page_columns_ok hpage) hm
    exact ⟨List.forall_mem_append.mpr ⟨Projection.filled_all hcolumns, hbody.filled⟩,
      List.forall_mem_append.mpr ⟨List.forall_mem_append.mpr ⟨Projection.named_all hcolumns,
        fun n hn => .inl (hnames n hn)⟩, fun n hn => .inl (hbody.named n hn)⟩⟩
  | @groupBy _ grouping _ _ _ _ columns filter having hgrouping order =>
    refine well_formed_select hm (hread columns hm) (List.forall_mem_nil _)
      (Body.well_formed hm rfl ?_ ?_ (Ordering.compile_ok order))
    · exact List.forall_mem_append.mpr ⟨Read.filtered_well_formed filter hm,
        .optional (Having.runs_well_formed having hm)⟩
    · exact Aggregation.grouping_reads hgrouping
  | create _ written =>
    have hnames := Write.assignments_named written hm
    exact ⟨List.forall_mem_nil _,
      List.forall_mem_cons.mpr ⟨htable, fun n hn => .inl (hnames n hn)⟩⟩
  | update _ written conditions =>
    have hnames := Write.assignments_named written hm
    obtain ⟨hfilled, hnamed⟩ := conditions_well_formed (Filter.runs_well_formed conditions hm)
    exact ⟨hfilled, List.forall_mem_append.mpr
      ⟨List.forall_mem_cons.mpr ⟨htable, fun n hn => .inl (hnames n hn)⟩, hnamed⟩⟩
  | delete conditions =>
    obtain ⟨hfilled, hnamed⟩ := conditions_well_formed (Filter.runs_well_formed conditions hm)
    exact ⟨hfilled, List.forall_mem_cons.mpr ⟨htable, hnamed⟩⟩

end Statement

theorem Compiler.statement_well_formed {c : Compiler} {model : String} {op : Operation}
    {args : Args} {st : Statement} {as : Aliases} (h : c.statement model op args = .ok (st, as)) :
    st.WellFormed c.schema.Vocabulary := by
  obtain ⟨m, hm, _, hruns⟩ := Compiler.statement_ok h
  exact Statement.runs_well_formed hruns (Schema.model_mem hm)

end QuerySql
