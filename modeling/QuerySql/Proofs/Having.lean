import QuerySql.Proofs.Conjunction
import QuerySql.Proofs.Groups
import QuerySql.Proofs.Shifting

/-!
# Conditions on groups without aggregates

A condition on groups that speaks of no aggregate is a filter of the rows as well, and
the two compilers make one predicate of it. The filter refuses reserved keys, which the
other takes for the fields of that name.
-/

set_option autoImplicit false

namespace QuerySql

mutual

/-- The entries of a filter that are no connectives, at every depth of connectives. -/
def Filter.leaves : List (String × Json) → Json.Entries
  | [] => []
  | (key, value) :: rest =>
    (match Connective.ofKey? key with
      | some _ => Filter.operandLeaves value
      | none => [(key, value)]) ++ Filter.leaves rest

def Filter.operandLeaves : Json → Json.Entries
  | .obj entries => Filter.leaves entries
  | .arr items => Filter.itemLeaves items
  | _ => []

def Filter.itemLeaves : List Json → Json.Entries
  | [] => []
  | .obj entries :: rest => Filter.leaves entries ++ Filter.itemLeaves rest
  | _ :: rest => Filter.itemLeaves rest

end

def Json.Entries.Public (entries : Json.Entries) : Prop :=
  ∀ e ∈ entries, isReserved e.1 = false

namespace Having

def isOwn : Json → Bool
  | .obj entries => entries.all fun e => (Aggregate.ofKey? e.1).isNone
  | _ => true

/-- The entry is a condition on a declared field itself, that is grouped by. -/
structure Plain (m : Model) (grouped : List String) (e : String × Json) : Prop where
  grouped : e.1 ∈ grouped
  declared : e.1 ∈ m.fieldNames
  own : isOwn e.2 = true

instance (m : Model) (grouped : List String) (e : String × Json) : Decidable (Plain m grouped e) :=
  decidable_of_iff (e.1 ∈ grouped ∧ e.1 ∈ m.fieldNames ∧ isOwn e.2 = true)
    ⟨fun ⟨hin, hdeclared, hown⟩ => ⟨hin, hdeclared, hown⟩,
      fun h => ⟨h.grouped, h.declared, h.own⟩⟩

variable {grouped : List String}

theorem own_entries {entries : Json.Entries} (h : isOwn (.obj entries) = true) :
    plainEntries entries = entries := by
  simpa [plainEntries, isOwn] using h

theorem own_aggregates (cx : Context) (f : Field) {entries : Json.Entries}
    (h : isOwn (.obj entries) = true) : aggregateConditions cx f entries = .ok [] := by
  induction entries with
  | nil => rfl
  | cons e rest ih =>
    simp only [isOwn, List.all_cons, Bool.and_eq_true, Option.isNone_iff_eq_none] at h
    rw [aggregateConditions, h.1, ih h.2]
    rfl

theorem equals_condition (m : Model) (f : Field) (lhs : Scalar) {json : Json}
    (hlist : ∀ items, json ≠ .arr items) (hobject : ∀ entries, json ≠ .obj entries) :
    Condition.compile m f lhs (.obj [("equals", json)]) = Condition.compile m f lhs json := by
  have hmode : Condition.mode m f .sensitive [("equals", json)] = .ok .sensitive := rfl
  have hkey : ¬"equals" = Condition.modeKey := by decide
  have hop : FieldOperator.ofKey? "equals" = some .equals := rfl
  simp only [Condition.compile, Condition.operators, hmode, if_neg hkey]
  cases json with
  | arr items => exact absurd rfl (hlist items)
  | obj entries => exact absurd rfl (hobject entries)
  | null => rfl
  | bool _ | num _ | str _ =>
    simp only [Condition.entry, Condition.operator, hop, Condition.compare, Condition.operand]
    generalize Compile.scalar m f.name _ = scalar
    cases scalar <;> rfl

theorem plain_condition_own (cx : Context) {f : Field} (hgrouped : f.name ∈ grouped)
    (entries : Json.Entries) : plainCondition cx f grouped entries =
      Condition.compile cx.model f (.column (Compile.column cx f)) (.obj entries) := by
  rw [plainCondition, if_pos (List.contains_iff_mem.mpr hgrouped)]
  split
  · rename_i hempty
    rw [List.isEmpty_iff.mp hempty]
    rfl
  · rfl

theorem field_conditions_own (cx : Context) {f : Field} {value : Json} {ps : List Pred}
    (hown : isOwn value = true) (hgrouped : f.name ∈ grouped) :
    fieldConditions cx f grouped value = .ok ps ↔ ∃ p,
      Condition.compile cx.model f (.column (Compile.column cx f)) value = .ok p ∧
        ps = p.toList := by
  cases value with
  | obj entries =>
    simp only [fieldConditions, own_aggregates cx f hown, own_entries hown,
      plain_condition_own cx hgrouped, except_bind_ok, except_pure_ok, Except.ok.injEq,
      exists_eq_left', List.nil_append]
  | arr items =>
    -- a list is refused as an operand in the one place, and as a condition in the other
    have hlist : ∀ p, Condition.compile cx.model f (.column (Compile.column cx f))
        (.obj [("equals", .arr items)]) ≠ .ok p := fun p h => by cases h
    simp only [fieldConditions, plain_condition_own cx hgrouped, except_bind_ok, except_pure_ok,
      hlist, false_and, exists_false, false_iff]
    rintro ⟨p, h, -⟩
    cases h
  | null | bool _ | num _ | str _ =>
    simp only [fieldConditions, plain_condition_own cx hgrouped, except_bind_ok, except_pure_ok]
    rw [equals_condition cx.model f _ (by simp) (by simp)]

theorem check_operand_same (m : Model) (c : Connective) (value : Json) (u : Unit) :
    c.checkOperand m value = .ok u ↔ checkOperand m c value = .ok u := by
  cases value with
  | arr items =>
    cases items with
    | nil => exact iff_of_false (fun h => by cases h) (fun h => by cases h)
    | cons item rest => exact Iff.rfl
  | obj entries => exact Iff.rfl
  | null | bool _ | num _ | str _ =>
    exact iff_of_false (fun h => by cases h) (fun h => by cases h)

end Having

namespace FilterKey

variable {m : Model} {key : String}

theorem resolve_connective {c : Connective} (hk : Connective.ofKey? key = some c) :
    resolve m key = .ok (.connective c) := by
  rw [resolve, hk]

theorem resolve_field {f : Field} (hk : Connective.ofKey? key = none)
    (hpublic : isReserved key = false) (hf : m.field? key = some f) :
    resolve m key = .ok (.field f) := by
  simp only [resolve, hk, hpublic, hf, Bool.false_eq_true, if_false]

theorem resolve_reserved (hk : Connective.ofKey? key = none) (hreserved : isReserved key = true) :
    resolve m key = .error (m.faultAt key .reservedKey) := by
  simp only [resolve, hk, hreserved, if_true]

end FilterKey

section

variable (s : Settings) (cx : Context) (grouped : List String) {key : String} (value : Json)
  (rest : Json.Entries)

theorem Filter.conditions_connective {c : Connective} (hk : Connective.ofKey? key = some c) :
    conditions s cx ((key, value) :: rest) = do
      let p ← connective s cx c value
      let later ← conditions s cx rest
      return p :: later := by
  have hentry : entry s cx (key, value) = some <$> connective s cx c value := by
    rw [entry, FilterKey.resolve_connective hk]
    rfl
  rw [conditions_entry, hentry, bind_map_left]
  rfl

theorem Filter.conditions_field {f : Field} (hk : Connective.ofKey? key = none)
    (hpublic : isReserved key = false) (hf : cx.model.field? key = some f) :
    conditions s cx ((key, value) :: rest) = do
      let p ← (Condition.compile cx.model f (.column (Compile.column cx f)) value :
        Except Error (Option Pred))
      let later ← conditions s cx rest
      return p.toList ++ later := by
  rw [conditions_entry, entry, FilterKey.resolve_field hk hpublic hf]
  rfl

theorem Having.conditions_connective {c : Connective} (hk : Connective.ofKey? key = some c) :
    conditions cx grouped ((key, value) :: rest) = do
      let p ← connective cx grouped c value
      let later ← conditions cx grouped rest
      return p :: later := by
  simp only [conditions, hk, bind_map_left]
  rfl

theorem Having.conditions_field {f : Field} (hk : Connective.ofKey? key = none)
    (hf : cx.model.field? key = some f) :
    conditions cx grouped ((key, value) :: rest) = do
      let here ← fieldConditions cx f grouped value
      let later ← conditions cx grouped rest
      return here ++ later := by
  rw [conditions, hk, Model.expectField, hf]
  rfl

end

namespace Json.Entries

theorem public_append {xs ys : Json.Entries} :
    Public (xs ++ ys) ↔ Public xs ∧ Public ys :=
  List.forall_mem_append

theorem public_nil : Public [] := List.forall_mem_nil _

end Json.Entries

namespace Having

mutual

theorem conditions_plain (s : Settings) (cx : Context) (grouped : List String)
    (entries : List (String × Json))
    (hplain : ∀ e ∈ Filter.leaves entries, Plain cx.model grouped e) {ps : List Pred}
    {a b : Aliases} : Filter.conditions s cx entries a = .ok (ps, b) ↔
      (Filter.leaves entries).Public ∧ conditions cx grouped entries = .ok ps ∧ b = a := by
  match entries with
  | [] =>
    rw [Filter.conditions, Compile.pure_ok, conditions, Filter.leaves, Except.ok.injEq]
    exact ⟨fun ⟨hps, hb⟩ => ⟨Json.Entries.public_nil, hps.symm, hb⟩,
      fun ⟨_, hps, hb⟩ => ⟨hps.symm, hb⟩⟩
  | (key, value) :: rest =>
    cases hk : Connective.ofKey? key with
    | some c =>
      simp only [Filter.leaves, hk, List.forall_mem_append] at hplain
      rw [Filter.conditions_connective s cx value rest hk,
        conditions_connective cx grouped value rest hk]
      simp only [Filter.leaves, hk, Json.Entries.public_append, Compile.bind_ok, Compile.pure_ok,
        except_bind_ok, except_pure_ok, connective_plain s cx grouped c value hplain.1,
        conditions_plain s cx grouped rest hplain.2]
      constructor
      · rintro ⟨p, _, ⟨hhere, hp, rfl⟩, later, _, ⟨hrest, hl, rfl⟩, rfl, rfl⟩
        exact ⟨⟨hhere, hrest⟩, ⟨p, hp, later, hl, rfl⟩, rfl⟩
      · rintro ⟨⟨hhere, hrest⟩, ⟨p, hp, later, hl, rfl⟩, rfl⟩
        exact ⟨p, _, ⟨hhere, hp, rfl⟩, later, _, ⟨hrest, hl, rfl⟩, rfl, rfl⟩
    | none =>
      simp only [Filter.leaves, hk, List.forall_mem_append, List.forall_mem_singleton] at hplain
      obtain ⟨f, hf, hname⟩ := Model.field_of_declared hplain.1.declared
      have hgrouped : f.name ∈ grouped := hname ▸ hplain.1.grouped
      cases hreserved : isReserved key with
      | true =>
        refine iff_of_false (fun h => ?_) (fun h => ?_)
        · simp only [Filter.conditions, Compile.bind_ok, Compile.lift_ok,
            FilterKey.resolve_reserved hk hreserved, reduceCtorEq, false_and, exists_false] at h
        · have hpublic := h.1 (key, value) (by simp [Filter.leaves, hk])
          cases hreserved.symm.trans hpublic
      | false =>
        have hpublic : Json.Entries.Public [(key, value)] := List.forall_mem_singleton.mpr hreserved
        rw [Filter.conditions_field s cx value rest hk hreserved hf,
          conditions_field cx grouped value rest hk hf]
        simp only [Filter.leaves, hk, Json.Entries.public_append, hpublic, true_and,
          Compile.bind_ok, Compile.lift_ok, Compile.pure_ok, except_bind_ok, except_pure_ok,
          field_conditions_own cx hplain.1.own hgrouped,
          conditions_plain s cx grouped rest hplain.2]
        constructor
        · rintro ⟨p, _, ⟨hp, rfl⟩, later, _, ⟨hrest, hl, rfl⟩, rfl, rfl⟩
          exact ⟨hrest, ⟨_, ⟨p, hp, rfl⟩, later, hl, rfl⟩, rfl⟩
        · rintro ⟨hrest, ⟨_, ⟨p, hp, rfl⟩, later, hl, rfl⟩, rfl⟩
          exact ⟨p, _, ⟨hp, rfl⟩, later, _, ⟨hrest, hl, rfl⟩, rfl, rfl⟩

theorem connective_plain (s : Settings) (cx : Context) (grouped : List String) (c : Connective)
    (value : Json) (hplain : ∀ e ∈ Filter.operandLeaves value, Plain cx.model grouped e) {p : Pred}
    {a b : Aliases} : Filter.connective s cx c value a = .ok (p, b) ↔
      (Filter.operandLeaves value).Public ∧ connective cx grouped c value = .ok p ∧ b = a := by
  rw [Filter.connective, connective]
  match value with
  | .obj entries =>
    rw [Filter.operandLeaves] at hplain ⊢
    simp only [Compile.bind_ok, Compile.lift_ok, Compile.map_ok, except_bind_ok, except_map_ok,
      check_operand_same, conditions_plain s cx grouped entries hplain]
    constructor
    · rintro ⟨_, _, ⟨hcheck, rfl⟩, _, _, ⟨ps, ⟨hhere, hps, rfl⟩, rfl⟩, hp, rfl⟩
      exact ⟨hhere, ⟨_, hcheck, _, ⟨ps, hps, rfl⟩, hp⟩, rfl⟩
    · rintro ⟨hhere, ⟨_, hcheck, _, ⟨ps, hps, rfl⟩, hp⟩, rfl⟩
      exact ⟨_, _, ⟨hcheck, rfl⟩, _, _, ⟨ps, ⟨hhere, hps, rfl⟩, rfl⟩, hp, rfl⟩
  | .arr items =>
    rw [Filter.operandLeaves] at hplain ⊢
    simp only [Compile.bind_ok, Compile.lift_ok, except_bind_ok, check_operand_same,
      each_plain s cx grouped items hplain]
    constructor
    · rintro ⟨_, _, ⟨hcheck, rfl⟩, os, _, ⟨hhere, hos, rfl⟩, hp, rfl⟩
      exact ⟨hhere, ⟨_, hcheck, os, hos, hp⟩, rfl⟩
    · rintro ⟨hhere, ⟨_, hcheck, os, hos, hp⟩, rfl⟩
      exact ⟨_, _, ⟨hcheck, rfl⟩, os, _, ⟨hhere, hos, rfl⟩, hp, rfl⟩
  | .null | .bool _ | .num _ | .str _ =>
    refine iff_of_false (fun h => ?_) (fun h => ?_)
    · obtain ⟨_, _, hcheck, -⟩ := Compile.bind_ok.mp h
      cases (Compile.lift_ok.mp hcheck).1
    · obtain ⟨_, hcheck, -⟩ := except_bind_ok.mp h.2.1
      cases hcheck

theorem each_plain (s : Settings) (cx : Context) (grouped : List String) (items : List Json)
    (hplain : ∀ e ∈ Filter.itemLeaves items, Plain cx.model grouped e) {os : List (Option Pred)}
    {a b : Aliases} : Filter.each s cx items a = .ok (os, b) ↔
      (Filter.itemLeaves items).Public ∧ each cx grouped items = .ok os ∧ b = a := by
  match items with
  | [] =>
    rw [Filter.each, Compile.pure_ok, each, Filter.itemLeaves, Except.ok.injEq]
    exact ⟨fun ⟨hos, hb⟩ => ⟨Json.Entries.public_nil, hos.symm, hb⟩,
      fun ⟨_, hos, hb⟩ => ⟨hos.symm, hb⟩⟩
  | .obj entries :: rest =>
    rw [Filter.itemLeaves, List.forall_mem_append] at hplain
    rw [Filter.each, each, Filter.itemLeaves, Json.Entries.public_append]
    simp only [Compile.bind_ok, Compile.pure_ok, except_bind_ok, except_pure_ok,
      conditions_plain s cx grouped entries hplain.1, each_plain s cx grouped rest hplain.2]
    constructor
    · rintro ⟨ps, _, ⟨hhere, hps, rfl⟩, later, _, ⟨hrest, hl, rfl⟩, rfl, rfl⟩
      exact ⟨⟨hhere, hrest⟩, ⟨ps, hps, later, hl, rfl⟩, rfl⟩
    · rintro ⟨⟨hhere, hrest⟩, ⟨ps, hps, later, hl, rfl⟩, rfl⟩
      exact ⟨ps, _, ⟨hhere, hps, rfl⟩, later, _, ⟨hrest, hl, rfl⟩, rfl, rfl⟩
  | .null :: rest | .bool _ :: rest | .num _ :: rest | .str _ :: rest | .arr _ :: rest =>
    simp only [Filter.itemLeaves] at hplain ⊢
    simp only [Filter.each, each]
    exact each_plain s cx grouped rest hplain

end

end Having

namespace Compiler

variable {c : Compiler} {model : String} {m : Model} {args : Args}

def groupCondition (c : Compiler) (model : String) (args : Args) :
    Except Error (Option Fragment) := do
  let p ← Prod.fst <$> c.run model .groupBy args fun cx =>
    (Having.compile? cx (args.grouping.getD []) args.having : Compile (Option Pred))
  return p.map (·.render c.dialect)

theorem group_condition_iff (hm : c.schema.model? model = some m) {fragment : Option Fragment} :
    c.groupCondition model args = .ok fragment ↔ ∃ p,
      Having.compile? (Context.atRoot m .groupBy args) (args.grouping.getD []) args.having = .ok p ∧
        fragment = p.map (·.render c.dialect) := by
  simp only [groupCondition, run_at hm, except_bind_ok, except_map_ok, except_pure_ok, Prod.exists,
    Compile.lift_ok]
  constructor
  · rintro ⟨_, ⟨_, _, ⟨hp, -⟩, rfl⟩, rfl⟩
    exact ⟨_, hp, rfl⟩
  · rintro ⟨p, hp, rfl⟩
    exact ⟨p, ⟨p, _, ⟨hp, rfl⟩, rfl⟩, rfl⟩

theorem filter_iff (hm : c.schema.model? model = some m) {entries : Json.Entries}
    {fragment : Option Fragment} : c.filter model entries = .ok fragment ↔ ∃ p b,
      Filter.compile c.settings (Context.atRoot m .findMany {}) entries ⟨1⟩ = .ok (p, b) ∧
        fragment = p.map (·.render c.dialect) := by
  simp only [filter, predicate, run_at hm, except_bind_ok, except_map_ok, except_pure_ok,
    Prod.exists]
  constructor
  · rintro ⟨_, ⟨_, b, hp, rfl⟩, rfl⟩
    exact ⟨_, b, hp, rfl⟩
  · rintro ⟨p, b, hp, rfl⟩
    exact ⟨p, ⟨p, b, hp, rfl⟩, rfl⟩

theorem group_by_condition {prepared : Prepared}
    (h : c.compile model .groupBy args = .ok prepared) : ∃ columns body as,
      c.statement model .groupBy args = .ok (.select columns [] body, as) ∧
        prepared = ((Statement.select columns [] body).render c.dialect).prepare c.dialect ∧
          c.groupCondition model args = .ok (body.having.map (·.render c.dialect)) := by
  obtain ⟨st, as, hst, rfl⟩ := compile_ok h
  obtain ⟨m, hm, -, hread⟩ := statement_iff.mp hst
  have hgroup : Read.groupBy c.settings (Context.atRoot m .groupBy args) args ⟨1⟩ =
      .ok (st, as) := hread
  simp only [Read.groupBy, Compile.bind_ok, Compile.lift_ok, Compile.pure_ok] at hgroup
  obtain ⟨grouping, _, ⟨hg, rfl⟩, ps, _, _, p, _, _, having, _, ⟨hh, rfl⟩, orderBy, _, _, rfl,
    rfl⟩ := hgroup
  rw [(Aggregation.grouping_names hg).2] at hh
  exact ⟨ps, _, _, hst, rfl, (group_condition_iff hm).mpr ⟨having, hh, rfl⟩⟩

theorem group_condition_eq (hm : c.schema.model? model = some m) {conditions : Json.Entries}
    (hhaving : args.having = some conditions)
    (hplain : ∀ e ∈ Filter.leaves conditions, Having.Plain m (args.grouping.getD []) e)
    {fragment : Option Fragment} : c.filter model conditions = .ok fragment ↔
      (Filter.leaves conditions).Public ∧ c.groupCondition model args = .ok fragment := by
  have hplace : (Context.atRoot m .groupBy args).Shifted 0 0 (Context.atRoot m .findMany {}) :=
    ⟨rfl, rfl, rfl⟩
  rw [filter_iff hm, group_condition_iff hm, hhaving,
    Filter.compile_at_same ⟨rfl, rfl⟩ hplace conditions]
  simp only [Filter.compile, Having.compile?, Compile.map_ok, except_map_ok,
    Having.conditions_plain c.settings (Context.atRoot m .groupBy args) _ conditions hplain]
  constructor
  · rintro ⟨_, _, ⟨ps, ⟨hpublic, hps, rfl⟩, rfl⟩, rfl⟩
    exact ⟨hpublic, _, ⟨ps, hps, rfl⟩, rfl⟩
  · rintro ⟨hpublic, _, ⟨ps, hps, rfl⟩, rfl⟩
    exact ⟨_, _, ⟨ps, ⟨hpublic, hps, rfl⟩, rfl⟩, rfl⟩

end Compiler

/-- Conditions on groups that speak of grouped fields and of no aggregate agree with the
same conditions on rows. What the filter accepts is accepted of the groups, with the same
text and values, and without reserved keys the filter accepts all that is accepted of the
groups. The statement over groups has that predicate. -/
theorem group_conditions_agree_with_filters (c : Compiler) (model : String) (m : Model)
    (args : Args) (conditions : Json.Entries) (hm : c.schema.model? model = some m)
    (hhaving : args.having = some conditions)
    (hplain : ∀ e ∈ Filter.leaves conditions, Having.Plain m (args.grouping.getD []) e) :
    (∀ fragment, c.filter model conditions = .ok fragment →
      c.groupCondition model args = .ok fragment) ∧
    ((Filter.leaves conditions).Public → ∀ fragment,
      c.groupCondition model args = .ok fragment → c.filter model conditions = .ok fragment) ∧
    ∀ prepared, c.compile model .groupBy args = .ok prepared → ∃ columns body as,
      c.statement model .groupBy args = .ok (.select columns [] body, as) ∧
        prepared = ((Statement.select columns [] body).render c.dialect).prepare c.dialect ∧
          c.groupCondition model args = .ok (body.having.map (·.render c.dialect)) := by
  refine ⟨fun fragment h => ?_, fun hpublic fragment h => ?_, fun prepared h => ?_⟩
  · exact ((Compiler.group_condition_eq hm hhaving hplain).mp h).2
  · exact (Compiler.group_condition_eq hm hhaving hplain).mpr ⟨hpublic, h⟩
  · exact Compiler.group_by_condition h

namespace Sample

def plainConditions : Json.Entries :=
  [("OR", .arr [
      .obj [("name", .obj [("not", .obj [("startsWith", .str "a")])])],
      .obj [("NOT", .obj [("AND", .arr [.obj [("age", .num (.int 7))]])])]]),
    ("age", .obj [("mode", .str "default")]), ("name", .null)]

def plainGroups : Args where
  grouping := some ["name", "age"]
  count := some (.bool true)
  having := some plainConditions

theorem plain_conditions_filter : ∃ fragment,
    (compiler .mysql).filter "User" plainConditions = .ok (some fragment) ∧
      fragment.bindings = [.text "a%", .int 7] := by
  have hvalues : (((compiler .mysql).filter "User" plainConditions).map
      (·.map Fragment.bindings)).toOption = some (some [.text "a%", .int 7]) := by
    decide +kernel
  obtain ⟨fragment?, hfilter, hread⟩ := except_ok_of_read hvalues
  obtain ⟨fragment, rfl, hfragment⟩ := Option.map_eq_some_iff.mp hread
  exact ⟨fragment, hfilter, hfragment⟩

end Sample

theorem sample_group_conditions_agree_with_filters : ∃ fragment,
    (Sample.compiler .mysql).filter "User" Sample.plainConditions = .ok (some fragment) ∧
      (Sample.compiler .mysql).groupCondition "User" Sample.plainGroups = .ok (some fragment) ∧
        fragment.bindings = [.text "a%", .int 7] := by
  obtain ⟨fragment, hfilter, hvalues⟩ := Sample.plain_conditions_filter
  have hagree := group_conditions_agree_with_filters (Sample.compiler .mysql) "User" Sample.user
    Sample.plainGroups Sample.plainConditions rfl rfl (by decide +kernel)
  exact ⟨fragment, hfilter, hagree.1 _ hfilter, hvalues⟩

end QuerySql
