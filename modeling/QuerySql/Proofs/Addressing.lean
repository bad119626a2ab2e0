import QuerySql.Proofs.Derived
import QuerySql.Proofs.WellFormed

/-!
# Addressing members

Each clause has words of its own and tries a key against them before it looks the key up
in the schema. A member of a schema that was built is reached in a clause under its name,
as long as the name is none of the clause's words.
-/

set_option autoImplicit false

namespace QuerySql

theorem find_of_nodup {α : Type} {key : α → String} {xs : List α} (h : (xs.map key).Nodup) {x : α}
    (hx : x ∈ xs) : xs.find? (fun y => key y = key x) = some x := by
  induction xs with
  | nil => cases hx
  | cons y ys ih =>
    obtain ⟨hnew, hrest⟩ := List.nodup_cons.mp h
    rcases List.mem_cons.mp hx with rfl | hx
    · exact List.find?_cons_of_pos (decide_eq_true rfl)
    · have hne : key y ≠ key x := fun heq => hnew (heq ▸ List.mem_map_of_mem hx)
      rw [List.find?_cons_of_neg (by simpa using hne)]
      exact ih hrest hx

/-- The members of a model are told apart by their names. -/
structure Model.Addressable (m : Model) : Prop where
  field : ∀ f ∈ m.fields, m.field? f.name = some f
  relation : ∀ r ∈ m.relations, m.field? r.name = none ∧ m.relation? r.name = some r

theorem Schema.addressable_of_build {b : Schema.Builder} {schema : Schema}
    (h : b.build.1 = .ok schema) (made : ∀ m ∈ b.models, m.Made) :
    ∀ m ∈ schema.models, schema.model? m.name = some m ∧ m.Addressable := by
  intro m hm
  obtain ⟨hfields, hrelations, -⟩ := List.nodup_append.mp (Schema.member_names_nodup h made m hm)
  refine ⟨find_of_nodup (Schema.sound_of_build h).distinct hm, fun f hf => ?_, fun r hr => ⟨?_, ?_⟩⟩
  · exact find_of_nodup hfields hf
  · exact ((Schema.build_ok h).2 m hm).apart r.name (List.mem_map_of_mem hr)
  · exact find_of_nodup hrelations hr

variable (s : Settings) (cx : Context) {f : Field} {r : Relation}

namespace Filter

def isFree (key : String) : Bool := (Connective.ofKey? key).isNone && !isReserved key

theorem compile_binds {m : Model} {lhs : Scalar} {json : Json} {v : Value}
    (h : Condition.Binds json v) :
    Condition.compile m f lhs json = .ok (some (.compare lhs .eq (.bound v))) := by
  obtain ⟨hnull, hv⟩ := h
  cases json with
  | null => exact absurd rfl hnull
  | arr _ | obj _ => cases hv
  | bool _ | num _ | str _ =>
    simp only [Condition.compile, Compile.scalar_ok.mpr hv]
    rfl

theorem compile_field {json : Json} {v : Value} (a : Aliases)
    (hf : cx.model.field? f.name = some f) (hfree : isFree f.name = true)
    (hv : Condition.Binds json v) :
    compile s cx [(f.name, json)] a =
      .ok (some (.compare (.column (Compile.column cx f)) .eq (.bound v)), a) := by
  simp only [isFree, Bool.and_eq_true, Option.isNone_iff_eq_none, Bool.not_eq_true'] at hfree
  have hresolve : FilterKey.resolve cx.model f.name = .ok (.field f) := by
    simp [FilterKey.resolve, hfree.1, hfree.2, hf]
  have hconditions : conditions s cx [(f.name, json)] a =
      .ok ([.compare (.column (Compile.column cx f)) .eq (.bound v)], a) := by
    rw [conditions, Compile.bind_ok]
    refine ⟨.field f, a, Compile.lift_ok.mpr ⟨hresolve, rfl⟩, ?_⟩
    simp only [Compile.bind_ok, Compile.lift_ok]
    exact ⟨_, a, ⟨compile_binds hv, rfl⟩, [], a, rfl, rfl⟩
  exact Compile.map_step hconditions

theorem compile_word {key : String} {json : Json} {v : Value} (a : Aliases)
    (hword : isFree key = false) (hv : Condition.Binds json v) :
    ∃ e, compile s cx [(key, json)] a = .error e := by
  suffices hfailed : ∃ e, conditions s cx [(key, json)] a = .error e by
    obtain ⟨e, he⟩ := hfailed
    exact ⟨e, Compile.map_failed he⟩
  cases hc : Connective.ofKey? key with
  | none =>
    have hreserved : isReserved key = true := by simpa [isFree, hc] using hword
    have hresolve : FilterKey.resolve cx.model key =
        .error (cx.model.faultAt key .reservedKey) := by
      simp [FilterKey.resolve, hc, hreserved]
    refine ⟨cx.model.faultAt key .reservedKey, ?_⟩
    rw [conditions, hresolve]
    rfl
  | some c =>
    have hresolve : FilterKey.resolve cx.model key = .ok (.connective c) := by
      simp [FilterKey.resolve, hc]
    have hoperand : c.checkOperand cx.model json =
        .error (cx.model.fault (.connectiveShape c.key json.kind)) := by
      obtain ⟨-, hv⟩ := hv
      cases json with
      | arr _ | obj _ => cases hv
      | null | bool _ | num _ | str _ => rfl
    refine ⟨cx.model.fault (.connectiveShape c.key json.kind), ?_⟩
    rw [conditions, hresolve, Compile.bind_step (Compile.lift_ok.mpr ⟨rfl, rfl⟩)]
    refine Compile.bind_failed (Compile.map_failed ?_)
    rw [connective, hoperand]
    rfl

end Filter

namespace Ordering

def isFree (key : String) : Bool := (Aggregate.ofKey? key).isNone

theorem check_no_nulls (d : Dialect) : d.checkNulls none = .ok () := by
  unfold Dialect.checkNulls
  split
  · rename_i h
    cases h
  · rfl

theorem compile_plain (orderBy : Option (List Json.Entries)) {ms : List Mention}
    (hpage : cx.pagination? = some {}) (h : mentions s cx none (orderBy.getD []) = .ok ms) :
    compile s cx orderBy none = .ok (ms.map (·.item)) := by
  have hlead : distinctFields cx = .ok [] := by simp [distinctFields, hpage]
  have hties : breaksTies s cx = false := by simp [breaksTies, hpage]
  have hfields : (((cx.pagination?.bind (·.cursor)).getD []).map (·.1)).mapM
      cx.model.expectField = .ok [] := by
    rw [hpage]
    rfl
  obtain ⟨items, hitems⟩ : ∃ items, compile s cx orderBy none = .ok items := by
    simp only [compile, hlead, except_bind_ok, except_pure_ok]
    exact ⟨_, [], rfl, ms, h, [], hfields, rfl⟩
  obtain ⟨ms', fields, hms, hnone, rfl⟩ := compile_unled hlead hitems
  obtain rfl : ms = ms' := Except.ok.inj (h.symm.trans hms)
  obtain rfl : [] = fields := Except.ok.inj (hfields.symm.trans hnone)
  rw [hitems]
  simp [hties, unseen]

theorem compile_absent (hpage : cx.pagination? = some {}) : compile s cx none none = .ok [] := by
  have hmentions : mentions s cx none [] = .ok [] := rfl
  exact compile_plain s cx none hpage hmentions

theorem key_mentions_field (hf : cx.model.field? f.name = some f) (hfree : isFree f.name = true) :
    keyMentions s cx none f.name (.str "asc") = .ok [⟨some f.name, ascending cx f.name⟩] := by
  have hkey : Aggregate.ofKey? f.name = none := Option.isNone_iff_eq_none.mp hfree
  have hasc : direction? "asc" = some .asc := by decide +kernel
  have horder : order cx.model f.name (.str "asc") = .ok (.asc, none) := by
    simp only [order, direction, hasc]
    rfl
  have hitem : item s (.column (Compile.column cx f)) .asc none = .ok (ascending cx f.name) := by
    rw [item, check_no_nulls]
    rfl
  simp only [keyMentions, hkey, hf, Option.any_none, Bool.false_eq_true, if_false,
    except_bind_ok, except_pure_ok]
  exact ⟨_, horder, _, hitem, rfl⟩

theorem compile_field (hpage : cx.pagination? = some {}) (hf : cx.model.field? f.name = some f)
    (hfree : isFree f.name = true) :
    compile s cx (some [[(f.name, .str "asc")]]) none = .ok [ascending cx f.name] := by
  have hmentions : mentions s cx none [[(f.name, .str "asc")]] =
      .ok [⟨some f.name, ascending cx f.name⟩] := by
    simp only [mentions, entryMentions, key_mentions_field s cx hf hfree]
    rfl
  exact compile_plain s cx (some [[(f.name, .str "asc")]]) hpage hmentions

theorem compile_word {key : String} (hop : cx.operation.isAggregate = false)
    (hpage : cx.pagination? = some {}) (hword : isFree key = false) (value : Json) :
    ∃ e, compile s cx (some [[(key, value)]]) none = .error e := by
  obtain ⟨kind, hkind⟩ : ∃ kind, Aggregate.ofKey? key = some kind := by
    simpa [isFree, Option.isSome_iff_exists] using hword
  have hlead : distinctFields cx = .ok [] := by simp [distinctFields, hpage]
  have hmentions : mentions s cx none [[(key, value)]] =
      .error (cx.model.faultAt kind.key .aggregateOrdering) := by
    simp only [mentions, entryMentions, keyMentions, hkind, aggregateMentions, hop]
    rfl
  refine ⟨cx.model.faultAt kind.key .aggregateOrdering, ?_⟩
  simp only [compile, hlead, Option.getD_some, hmentions]
  rfl

end Ordering

namespace Link

theorem equalities_of_declared (parent child : Context) {pairs : List (String × String)}
    (h : ∀ p ∈ pairs, p.1 ∈ child.model.fieldNames ∧ p.2 ∈ parent.model.fieldNames) :
    ∃ ps, equalities parent child pairs = .ok ps := by
  induction pairs with
  | nil => exact ⟨[], rfl⟩
  | cons p rest ih =>
    obtain ⟨⟨hreferenced, hown⟩, hrest⟩ := List.forall_mem_cons.mp h
    obtain ⟨later, hlater⟩ := ih hrest
    obtain ⟨f, hf, -⟩ := Model.field_of_declared hreferenced
    obtain ⟨g, hg, -⟩ := Model.field_of_declared hown
    refine ⟨equality parent child p.2 p.1 :: later, ?_⟩
    rw [equalities, Model.expectField, hf, Model.expectField, hg, hlater]
    rfl

theorem correlation_of_declared (parent child : Context) (hlinkable : r.Linkable)
    (hown : ∀ name ∈ r.fields, name ∈ parent.model.fieldNames)
    (hreferenced : ∀ name ∈ r.references, name ∈ child.model.fieldNames) (a : Aliases) :
    ∃ ps b, correlation r parent child a = .ok (ps, b) := by
  by_cases hmany : r.cardinality = .manyToMany
  · obtain ⟨j, hj⟩ := hlinkable.joined hmany
    obtain ⟨⟨own, referenced⟩, rest, hpairs⟩ := List.exists_cons_of_ne_nil hlinkable.paired
    simp only [correlation, hmany, junction, hj, hpairs]
    exact ⟨_, _, rfl⟩
  · have hpairs : ∀ p ∈ byReference r.pairs,
        p.1 ∈ child.model.fieldNames ∧ p.2 ∈ parent.model.fieldNames := by
      intro p hp
      have hpair := List.of_mem_zip (by_reference_mem hp)
      exact ⟨hreferenced _ hpair.2, hown _ hpair.1⟩
    obtain ⟨ps, hps⟩ := equalities_of_declared parent child hpairs
    have hne : byReference r.pairs ≠ [] := by_reference_ne_nil hlinkable.paired
    have hkeys : correlation r parent child =
        liftM (references parent child (byReference r.pairs)) := by
      unfold correlation
      split
      · rename_i hc
        exact absurd hc hmany
      · rfl
    rw [hkeys]
    exact ⟨ps, a, Compile.lift_ok.mpr ⟨references_ok.mpr ⟨hne, hps⟩, rfl⟩⟩

end Link

namespace Records

variable {target : Model}

theorem enter_target (ht : s.schema.model? r.target = some target) (hd : cx.depth < s.maxDepth)
    (a : Aliases) : enter s cx r {} a =
      .ok ((cx.nested r target ⟨a.used⟩).withPagination {}, ⟨a.used + 1⟩) := by
  have hpage : ¬(r.cardinality.isToOne &&
      ((none : Option Nat).isSome || (none : Option Nat).isSome)) = true := by simp
  unfold enter
  rw [if_neg hpage]
  exact (Compile.bind_step (Compile.descend_ok.mpr ⟨target, ht, hd, rfl, rfl⟩)).trans rfl

theorem close_plain {child : Context} {links : List Pred} {a b : Aliases}
    (hpage : child.pagination? = some {}) (hlinks : Link.correlation r cx child a = .ok (links, b))
    (columns : List Projection) :
    ∃ p d, close s cx child r {} columns a = .ok (p, d) ∧ p.name = r.name := by
  have horder := Ordering.compile_absent s child hpage
  rw [close_over]
  simp only [closeOver, Compile.bind_ok, Compile.lift_ok, Compile.fresh_ok, Compile.pure_ok]
  exact ⟨_, _, ⟨links, b, hlinks, [], b, ⟨horder, rfl⟩, _, _, ⟨rfl, rfl⟩, rfl, rfl⟩, rfl⟩

theorem relation_flagged (ht : s.schema.model? r.target = some target)
    (hd : cx.depth < s.maxDepth) (hlinkable : r.Linkable)
    (hown : ∀ name ∈ r.fields, name ∈ cx.model.fieldNames)
    (hreferenced : ∀ name ∈ r.references, name ∈ target.fieldNames) (a : Aliases) :
    ∃ p b, relation s cx r (.bool true) a = .ok ([p], b) ∧ p.name = r.name := by
  have henter := enter_target s cx ht hd a
  obtain ⟨links, b, hlinks⟩ := Link.correlation_of_declared cx
    ((cx.nested r target ⟨a.used⟩).withPagination {}) hlinkable hown hreferenced ⟨a.used + 1⟩
  obtain ⟨p, d, hclose, hname⟩ := close_plain s cx rfl hlinks
    (fieldColumns ((cx.nested r target ⟨a.used⟩).withPagination {}))
  refine ⟨p, d, ?_, hname⟩
  simp only [relation, Compile.bind_ok, Compile.pure_ok]
  exact ⟨_, _, henter, p, d, hclose, rfl, rfl⟩

variable {p : Projection} {a b : Aliases}

theorem columns_selected (hf : cx.model.field? r.name = none)
    (hr : cx.model.relation? r.name = some r)
    (h : relation s cx r (.bool true) a = .ok ([p], b)) :
    columns s cx (some [(r.name, .bool true)]) none a = .ok ([p], b) := by
  have hselected : selected s cx [(r.name, .bool true)] a = .ok ([p], b) := by
    simp only [selected, hf, hr, Compile.bind_ok, Compile.pure_ok]
    exact ⟨[p], b, h, [], b, ⟨rfl, rfl⟩, rfl, rfl⟩
  simp only [columns, Compile.bind_ok, Compile.lift_ok]
  exact ⟨[p], b, hselected, rfl, rfl⟩

theorem columns_included (hf : cx.model.field? r.name = none)
    (hr : cx.model.relation? r.name = some r) (hcount : r.name ≠ countKey)
    (h : relation s cx r (.bool true) a = .ok ([p], b)) :
    columns s cx none (some [(r.name, .bool true)]) a = .ok (fieldColumns cx ++ [p], b) := by
  have hincluded : included cx.model r.name = .ok r := by
    simp [included, hcount, hf, Model.expectRelation, hr]
  have hinclusions : inclusions s cx [(r.name, .bool true)] a = .ok ([p], b) := by
    simp only [inclusions, Compile.bind_ok, Compile.lift_ok, Compile.pure_ok]
    exact ⟨r, a, ⟨hincluded, rfl⟩, [p], b, h, [], b, ⟨rfl, rfl⟩, rfl, rfl⟩
  simp only [columns, Compile.bind_ok, Compile.pure_ok]
  exact ⟨[p], b, hinclusions, rfl, rfl⟩

end Records

theorem Read.find_columns {select inclusion : Option Json.Entries} {ps : List Projection}
    {a b : Aliases} (hop : cx.operation = .findMany) (hpage : cx.pagination? = some {})
    (h : Records.columns s cx select inclusion a = .ok (ps, b)) :
    Read.find s cx { select := select, inclusion := inclusion } a =
      .ok (.select ps [] { table := cx.model.tableName, tag := cx.tag }, b) := by
  have hcolumns : Read.columns s cx { select := select, inclusion := inclusion } a =
      .ok (ps, b) := by
    rw [Read.columns, hop]
    exact h
  have hlead : Ordering.distinctFields cx = .ok [] := by simp [Ordering.distinctFields, hpage]
  have hdistinct : Read.distinct s cx = .ok [] := by
    rw [Read.distinct, hlead]
    rfl
  have hfilter : Read.filter s cx { select := select, inclusion := inclusion } b =
      .ok (none, b) := by
    simp only [Read.filter, hpage]
    rfl
  have horder := Ordering.compile_absent s cx hpage
  rw [find_rows, if_neg (by simp [hop])]
  simp only [findRows, Compile.bind_ok, Compile.lift_ok, Compile.pure_ok]
  refine ⟨ps, b, hcolumns, [], b, ⟨hdistinct, rfl⟩, none, b, hfilter, [], b, ⟨horder, rfl⟩, ?_, rfl⟩
  simp [hop, Operation.isSingle]

namespace Compiler

variable {c : Compiler} {m : Model}

theorem filter_compiles {entries : Json.Entries} {p : Option Pred} {b : Aliases}
    (hm : c.schema.model? m.name = some m)
    (h : Filter.compile c.settings (Context.atRoot m .findMany {}) entries ⟨1⟩ = .ok (p, b)) :
    c.filter m.name entries = .ok (p.map (·.render c.dialect)) := by
  rw [filter, predicate, run_at hm, h]
  rfl

theorem order_compiles {orderBy : List Json.Entries} {items : List SortItem}
    (hm : c.schema.model? m.name = some m)
    (h : Ordering.compile c.settings (Context.atRoot m .findMany {}) (some orderBy) none =
      .ok items) : c.orderBy m.name .findMany orderBy = .ok (renderOrderBy c.dialect items) := by
  rw [Compiler.orderBy, sortItems, run_at hm, h]
  rfl

theorem order_failed {orderBy : List Json.Entries} {e : Error}
    (hm : c.schema.model? m.name = some m)
    (h : Ordering.compile c.settings (Context.atRoot m .findMany {}) (some orderBy) none =
      .error e) : c.orderBy m.name .findMany orderBy = .error e := by
  rw [Compiler.orderBy, sortItems, run_at hm, h]
  rfl

/-- The query of records compiles, to a statement with columns of these names. -/
def Selects (c : Compiler) (m : Model) (args : Args) (names : List String) : Prop :=
  ∃ prepared columns body as, c.compile m.name .findMany args = .ok prepared ∧
    c.statement m.name .findMany args = .ok (.select columns [] body, as) ∧
      columns.map (·.name) = names

theorem selects_of_columns {select inclusion : Option Json.Entries} {ps : List Projection}
    {b : Aliases} (hm : c.schema.model? m.name = some m)
    (h : Records.columns c.settings (Context.atRoot m .findMany {}) select inclusion ⟨1⟩ =
      .ok (ps, b)) :
    c.Selects m { select := select, inclusion := inclusion } (ps.map (·.name)) := by
  have hcheck : Args.check { select := select, inclusion := inclusion } m.name .findMany =
      .ok () := by
    refine Args.check_ok_iff.mpr fun a ha => ?_
    cases a with
    | aggregate kind => cases kind <;> cases ha
    | _ => first | rfl | cases ha
  have hfind := Read.find_columns c.settings (Context.atRoot m .findMany {}) rfl rfl h
  exact ⟨_, ps, _, b, compile_at hm hcheck hfind, (statement_at hm hcheck).trans hfind, rfl⟩

end Compiler

/-- Members of a schema that was built are reached under their names. A field is filtered
by a scalar, as one comparison with the value, unless its name is a word of filters, and
sorted by, as the one item, unless its name is a word of orderings; under a word of the
clause the scalar is refused. A relation to a model that declares its references can be
selected, and it can be included unless it is named as the count of relations. -/
theorem members_are_addressable (b : Schema.Builder) (c : Compiler)
    (hbuild : b.build.1 = .ok c.schema) (hmade : ∀ m ∈ b.models, m.Made) (m : Model)
    (hm : m ∈ c.schema.models) :
    (∀ f ∈ m.fields, ∀ json v, Condition.Binds json v →
      (Filter.isFree f.name = true → c.filter m.name [(f.name, json)] =
        .ok (some (Pred.render c.dialect (.compare (.column ⟨⟨0⟩, f.name⟩) .eq (.bound v))))) ∧
      (Filter.isFree f.name = false → ∃ e, c.filter m.name [(f.name, json)] = .error e)) ∧
    (∀ f ∈ m.fields,
      (Ordering.isFree f.name = true → c.orderBy m.name .findMany [[(f.name, .str "asc")]] =
        .ok (renderOrderBy c.dialect [{ key := .column ⟨⟨0⟩, f.name⟩, direction := .asc }])) ∧
      (Ordering.isFree f.name = false →
        ∃ e, c.orderBy m.name .findMany [[(f.name, .str "asc")]] = .error e)) ∧
    (∀ r ∈ m.relations, ∀ target, c.schema.target r = .ok target →
      (∀ name ∈ r.references, name ∈ target.fieldNames) → 1 ≤ c.config.maxDepth →
        c.Selects m { select := some [(r.name, .bool true)] } [r.name] ∧
        (r.name ≠ Records.countKey → c.Selects m { inclusion := some [(r.name, .bool true)] }
          (m.fieldNames ++ [r.name]))) := by
  obtain ⟨hmodel, hmembers⟩ := Schema.addressable_of_build hbuild hmade m hm
  have hchecked := (Schema.build_ok hbuild).2 m hm
  refine ⟨fun f hf json v hv => ⟨fun hfree => ?_, fun hword => ?_⟩,
    fun f hf => ⟨fun hfree => ?_, fun hword => ?_⟩, fun r hr target ht hdeclared hdepth => ?_⟩
  · exact Compiler.filter_compiles hmodel
      (Filter.compile_field _ _ ⟨1⟩ (hmembers.field f hf) hfree hv)
  · obtain ⟨e, he⟩ := Filter.compile_word c.settings (Context.atRoot m .findMany {}) ⟨1⟩ hword hv
    exact ⟨e, Compiler.filter_failed hmodel he⟩
  · exact Compiler.order_compiles hmodel
      (Ordering.compile_field _ _ rfl (hmembers.field f hf) hfree)
  · obtain ⟨e, he⟩ := Ordering.compile_word c.settings (Context.atRoot m .findMany {}) rfl rfl
      hword (.str "asc")
    exact ⟨e, Compiler.order_failed hmodel he⟩
  · obtain ⟨hfield, hrelation⟩ := hmembers.relation r hr
    obtain ⟨p, d, hp, hname⟩ := Records.relation_flagged c.settings
      (Context.atRoot m .findMany {}) (Schema.target_ok.mp ht) hdepth
      (hchecked.linkable r hr) (hchecked.declared r hr) hdeclared ⟨1⟩
    constructor
    · have hselects := Compiler.selects_of_columns hmodel
        (Records.columns_selected _ _ hfield hrelation hp)
      rwa [List.map_singleton, hname] at hselects
    · intro hcount
      have hincludes := Compiler.selects_of_columns hmodel
        (Records.columns_included _ _ hfield hrelation hcount hp)
      have hfields : (Records.fieldColumns (Context.atRoot m .findMany {})).map (·.name) =
          m.fieldNames := List.map_map
      rwa [List.map_append, hfields, List.map_singleton, hname] at hincludes

namespace Sample

def entry : Model where
  name := "Entry"
  fields := [Field.asId ⟨"id", .bigInt, false, false, false⟩, { name := "AND", type := .string },
    { name := "__note", type := .string }, { name := "_sum", type := .int }]
  relations := [
    { name := "previous", cardinality := .oneToOne, target := "Entry", fields := ["_sum"],
      references := ["id"] },
    { name := "_count", cardinality := .oneToMany, target := "Entry", fields := ["id"],
      references := ["_sum"] }]

def entries : Compiler := .ofConfig ⟨[entry]⟩ { engine := .postgresql }

theorem entries_made : ∀ m ∈ [entry], m.Made := by
  have hnames : ∀ m ∈ [entry], m.fieldNames.Nodup ∧ m.relationNames.Nodup := by decide
  exact fun m hm => m.made_of_nodup (hnames m hm).1 (hnames m hm).2

end Sample

theorem sample_members_are_addressable :
    Sample.entries.filter "Entry" [("_sum", .num (.int 3))] =
      .ok (some (Pred.render Sample.entries.dialect
        (.compare (.column ⟨⟨0⟩, "_sum"⟩) .eq (.bound (.int 3))))) ∧
    (∃ e, Sample.entries.filter "Entry" [("AND", .str "x")] = .error e) ∧
    Sample.entries.orderBy "Entry" .findMany [[("AND", .str "asc")]] =
      .ok (renderOrderBy Sample.entries.dialect
        [{ key := .column ⟨⟨0⟩, "AND"⟩, direction := .asc }]) ∧
    (∃ e, Sample.entries.orderBy "Entry" .findMany [[("_sum", .str "asc")]] = .error e) ∧
    Sample.entries.Selects Sample.entry { select := some [("_count", .bool true)] } ["_count"] ∧
    Sample.entries.Selects Sample.entry { inclusion := some [("previous", .bool true)] }
      ["id", "AND", "__note", "_sum", "previous"] := by
  obtain ⟨hfilter, horder, hrelation⟩ := members_are_addressable ⟨none, [Sample.entry]⟩
    Sample.entries rfl Sample.entries_made Sample.entry List.mem_cons_self
  have hsum := hfilter ⟨"_sum", .int, false, false, false⟩ (by decide) (.num (.int 3)) (.int 3)
    ⟨by simp, rfl⟩
  have hand := hfilter ⟨"AND", .string, false, false, false⟩ (by decide) (.str "x") (.text "x")
    ⟨by simp, rfl⟩
  refine ⟨hsum.1 (by decide), hand.2 (by decide),
    (horder ⟨"AND", .string, false, false, false⟩ (by decide)).1 (by decide),
    (horder ⟨"_sum", .int, false, false, false⟩ (by decide)).2 (by decide),
    (hrelation _ (.tail _ List.mem_cons_self) Sample.entry rfl (by decide) (by decide)).1, ?_⟩
  exact (hrelation _ List.mem_cons_self Sample.entry rfl (by decide) (by decide)).2 (by decide)

/-- A schema that was built may have members that a clause does not reach, since its own
words come first. -/
theorem words_hide_members :
    (Schema.Builder.build ⟨none, [Sample.entry]⟩).1 = .ok Sample.entries.schema ∧
    Sample.entries.filter "Entry" [("AND", .str "x")] =
      .error (.validationOn "Entry" none (.connectiveShape "AND" .string)) ∧
    Sample.entries.filter "Entry" [("__note", .str "x")] =
      .error (.validationOn "Entry" (some "__note") .reservedKey) ∧
    Sample.entries.orderBy "Entry" .findMany [[("_sum", .str "asc")]] =
      .error (.validationOn "Entry" (some "_sum") .aggregateOrdering) ∧
    Sample.entries.compile "Entry" .findMany { inclusion := some [("_count", .bool true)] } =
      .error (.unsupported .relationCounts) :=
  ⟨rfl, rfl, rfl, rfl, rfl⟩

end QuerySql
