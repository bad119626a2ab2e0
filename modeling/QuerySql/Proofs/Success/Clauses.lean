import QuerySql.Compile.Having
import QuerySql.Compile.Keyset
import QuerySql.Proofs.Success.Filter

/-!
# Successful clauses

The clauses of a query other than its filter and its records: orderings and
aggregates, which read the table of their context and bind nothing, conditions
on groups, and cursors.
-/

set_option autoImplicit false

namespace QuerySql

def Column.Reads (cx : Context) (c : Column) : Prop :=
  ∃ f ∈ cx.model.fields, c = Compile.column cx f

/-- The scalar reads nothing but fields of the context's table, as they stand. -/
def Scalar.Reads (cx : Context) : Scalar → Prop
  | .column c => c.Reads cx
  | .aggregate _ c => ∀ x ∈ c, x.Reads cx
  | .bound _ | .folded _ => False

inductive Aggregation.Result (m : Model) : String → Prop
  | rows (kind : Aggregate) : Result m kind.key
  | allRows (kind : Aggregate) : Result m (columnName kind rowsKey)
  | field (kind : Aggregate) {f : Field} (hf : f ∈ m.fields) : Result m (columnName kind f.name)

/-- The column comes from the context's table, under its own name or that of an
aggregate, and is no subquery. -/
def Projection.Reads (cx : Context) : Projection → Prop
  | .column c => c.Reads cx
  | .aggregate _ c name => (∀ x ∈ c, x.Reads cx) ∧ Aggregation.Result cx.model name
  | .relation .. => False

theorem Column.tag_of_reads {cx : Context} {c : Column} (h : c.Reads cx) : c.tag = cx.tag := by
  obtain ⟨f, _, rfl⟩ := h
  rfl

theorem Aggregation.field_ok {m : Model} {kind : Aggregate} {name : String} {f : Field}
    (h : Aggregation.field m kind name = .ok f) : f ∈ m.fields ∧ f.name = name := by
  simp only [Aggregation.field, except_bind_ok] at h
  obtain ⟨g, hg, h⟩ := h
  split at h
  · simp only [except_bind_ok, except_throw_ok, false_and, exists_false] at h
  · cases h
    exact Model.expect_field_ok hg

namespace Ordering

variable {s : Settings} {cx : Context}

def Local (cx : Context) (ms : List Mention) : Prop := ∀ m ∈ ms, m.item.key.Reads cx

theorem item_ok {key : Scalar} {direction : Direction} {nulls : Option Nulls} {it : SortItem}
    (h : item s key direction nulls = .ok it) : it.key = key := by
  simp only [item, except_bind_ok, except_pure_ok] at h
  obtain ⟨_, _, rfl⟩ := h
  rfl

theorem aggregate_fields_ok {kind : Aggregate} {entries : Json.Entries} {ms : List Mention}
    (h : aggregateFields s cx kind entries = .ok ms) : Local cx ms := by
  induction entries generalizing ms with
  | nil =>
    cases h
    exact List.forall_mem_nil _
  | cons e rest ih =>
    obtain ⟨name, value⟩ := e
    by_cases hop : cx.operation = .groupBy
    · simp only [aggregateFields, if_pos hop, except_bind_ok, except_pure_ok] at h
      obtain ⟨f, hf, ⟨direction, nulls⟩, _, it, hit, _, rfl, later, hl, rfl⟩ := h
      refine List.forall_mem_append.mpr ⟨List.forall_mem_singleton.mpr ?_, ih hl⟩
      rw [item_ok hit]
      rintro x ⟨⟩
      exact ⟨f, (Aggregation.field_ok hf).1, rfl⟩
    · simp only [aggregateFields, if_neg hop, except_bind_ok, except_pure_ok] at h
      obtain ⟨f, _, ⟨direction, nulls⟩, _, _, rfl, later, hl, rfl⟩ := h
      exact ih hl

theorem aggregate_mentions_ok {kind : Aggregate} {value : Json} {ms : List Mention}
    (h : aggregateMentions s cx kind value = .ok ms) : Local cx ms := by
  have hagg : cx.operation.isAggregate = true := by
    by_contra hop
    simp only [aggregateMentions, Bool.not_eq_true] at h hop
    simp only [hop, Bool.not_false, if_true, except_bind_ok, except_throw_ok, false_and,
      exists_false] at h
  simp only [aggregateMentions, hagg, Bool.not_true, Bool.false_eq_true, if_false] at h
  cases value with
  | obj fields => exact aggregate_fields_ok h
  | str text =>
    simp only at h
    split at h
    · simp only [except_bind_ok] at h
      obtain ⟨⟨direction, nulls⟩, _, h⟩ := h
      simp only at h
      split at h
      · simp only [except_bind_ok, except_pure_ok] at h
        obtain ⟨it, hit, rfl⟩ := h
        refine List.forall_mem_singleton.mpr ?_
        rw [item_ok hit]
        exact fun x hx => absurd hx (by simp)
      · cases h
        exact List.forall_mem_nil _
    · cases h
  | null | bool _ | num _ | arr _ => cases h

theorem key_mentions_ok {grouped : Option (List String)} {key : String} {value : Json}
    {ms : List Mention} (h : keyMentions s cx grouped key value = .ok ms) : Local cx ms := by
  unfold keyMentions at h
  split at h
  · exact aggregate_mentions_ok h
  · split at h
    · rename_i f hf
      split at h
      · simp only [except_bind_ok, except_throw_ok, false_and, exists_false] at h
      · simp only [except_bind_ok, except_pure_ok] at h
        obtain ⟨⟨direction, nulls⟩, _, it, hit, rfl⟩ := h
        refine List.forall_mem_singleton.mpr ?_
        rw [item_ok hit]
        exact ⟨f, (Model.field_mem hf).1, rfl⟩
    · split at h <;> cases h

theorem entry_mentions_ok {grouped : Option (List String)} {entries : Json.Entries}
    {ms : List Mention} (h : entryMentions s cx grouped entries = .ok ms) : Local cx ms := by
  induction entries generalizing ms with
  | nil =>
    cases h
    exact List.forall_mem_nil _
  | cons e rest ih =>
    simp only [entryMentions, except_bind_ok, except_pure_ok] at h
    obtain ⟨here, hh, later, hl, rfl⟩ := h
    exact List.forall_mem_append.mpr ⟨key_mentions_ok hh, ih hl⟩

theorem mentions_ok {grouped : Option (List String)} {entries : List Json.Entries}
    {ms : List Mention} (h : mentions s cx grouped entries = .ok ms) : Local cx ms := by
  induction entries generalizing ms with
  | nil =>
    cases h
    exact List.forall_mem_nil _
  | cons e rest ih =>
    rw [mentions] at h
    split at h
    · simp only [except_bind_ok, except_throw_ok, false_and, exists_false] at h
    · simp only [except_bind_ok, except_pure_ok] at h
      obtain ⟨here, hh, later, hl, rfl⟩ := h
      exact List.forall_mem_append.mpr ⟨entry_mentions_ok hh, ih hl⟩

theorem ascending_reads {f : Field} (hf : f ∈ cx.model.fields) :
    (ascending cx f.name).key.Reads cx :=
  ⟨f, hf, rfl⟩

theorem lead_items_read {ms : List Mention} (hm : Local cx ms) (seen : List String)
    {fields : List Field} (hf : ∀ f ∈ fields, f ∈ cx.model.fields) :
    ∀ it ∈ leadItems cx ms seen (fields.map (·.name)), it.key.Reads cx := by
  have hlead : ∀ f ∈ cx.model.fields, (leadItem cx ms f.name).key.Reads cx := by
    intro f hf
    unfold leadItem
    split
    · rename_i mention hfound
      exact hm mention (List.mem_reverse.mp (List.mem_of_find?_eq_some hfound))
    · exact ascending_reads hf
  induction fields generalizing seen with
  | nil => exact fun it hit => absurd hit (by simp [leadItems])
  | cons f rest ih =>
    rw [List.forall_mem_cons] at hf
    intro it hit
    rcases List.mem_cons.mp hit with rfl | hit
    · split
      · exact ascending_reads hf.1
      · exact hlead f hf.1
    · exact ih _ hf.2 it hit

theorem distinct_fields_ok {fields : List Field} (h : distinctFields cx = .ok fields) :
    ∀ f ∈ fields, f ∈ cx.model.fields := by
  unfold distinctFields at h
  split at h
  · cases h
    exact List.forall_mem_nil _
  · split at h
    · simp only [except_bind_ok, except_throw_ok, false_and, exists_false] at h
    · exact (Model.expect_fields_ok h).2

theorem mem_of_unseen {seen : List String} {fields : List Field} {name : String}
    (h : name ∈ unseen seen (fields.map (·.name))) : ∃ f ∈ fields, f.name = name :=
  List.mem_map.mp (List.mem_filter.mp h).1

theorem compile_ok {orderBy : Option (List Json.Entries)} {grouped : Option (List String)}
    {items : List SortItem} (h : compile s cx orderBy grouped = .ok items) :
    ∀ it ∈ items, it.key.Reads cx := by
  simp only [compile, except_bind_ok, except_pure_ok] at h
  obtain ⟨fields, hfields, ms, hms, cursor, hcursor, rfl⟩ := h
  have hlocal := mentions_ok hms
  intro it hit
  rcases List.mem_append.mp hit with hit | hit
  · rcases List.mem_append.mp hit with hit | hit
    · exact lead_items_read hlocal _ (distinct_fields_ok hfields) it hit
    · obtain ⟨m, hm, rfl⟩ := List.mem_map.mp hit
      exact hlocal m (List.mem_filter.mp hm).1
  · obtain ⟨name, hname, rfl⟩ := List.mem_map.mp hit
    rcases List.mem_append.mp hname with hname | hname
    · obtain ⟨f, hf, rfl⟩ := mem_of_unseen hname
      exact ascending_reads ((Model.expect_fields_ok hcursor).2 f hf)
    · split at hname
      · obtain ⟨f, hf, rfl⟩ := mem_of_unseen hname
        exact ascending_reads (List.mem_filter.mp hf).1
      · exact absurd hname List.not_mem_nil

/-- Without leading fields the mentions come first as they are, then the fields that a
cursor has beyond them, then what breaks ties. -/
theorem compile_unled {orderBy : Option (List Json.Entries)} {grouped : Option (List String)}
    {items : List SortItem} (hlead : distinctFields cx = .ok [])
    (h : compile s cx orderBy grouped = .ok items) : ∃ ms fields,
      mentions s cx grouped (orderBy.getD []) = .ok ms ∧
      (((cx.pagination?.bind (·.cursor)).getD []).map (·.1)).mapM cx.model.expectField =
        .ok fields ∧
      let seen := ms.filterMap (·.field)
      let rest := unseen seen (fields.map (·.name))
      let ties := if breaksTies s cx then
          unseen (seen ++ rest) (cx.model.identifiers.map (·.name))
        else []
      items = ms.map (·.item) ++ (rest ++ ties).map (ascending cx) := by
  simp only [compile, hlead, except_bind_ok, except_pure_ok, Except.ok.injEq,
    exists_eq_left'] at h
  obtain ⟨ms, hms, fields, hfields, rfl⟩ := h
  have hothers : ms.filter (fun m => !m.field.any ([] : List String).contains) = ms := by
    refine List.filter_eq_self.mpr fun m _ => ?_
    cases m.field <;> rfl
  refine ⟨ms, fields, hms, hfields, ?_⟩
  rw [List.map_nil, leadItems, List.nil_append, List.nil_append, hothers]

end Ordering

namespace Aggregation

variable {cx : Context}

def Local (cx : Context) (ps : List Projection) : Prop := ∀ p ∈ ps, p.Reads cx

theorem field_columns_ok {kind : Aggregate} {fields : Json.Entries} {ps : List Projection}
    (h : fieldColumns cx kind fields = .ok ps) : Local cx ps := by
  induction fields generalizing ps with
  | nil =>
    cases h
    exact List.forall_mem_nil _
  | cons e rest ih =>
    obtain ⟨name, value⟩ := e
    rw [fieldColumns, except_bind_ok] at h
    obtain ⟨flag, _, h⟩ := h
    cases flag with
    | false =>
      simp only [Bool.false_eq_true, if_false, except_bind_ok, except_pure_ok] at h
      obtain ⟨_, rfl, later, hl, rfl⟩ := h
      exact ih hl
    | true =>
      by_cases hrows : (decide (name = rowsKey) && kind.isGlobal) = true
      · simp only [if_true, if_pos hrows, except_bind_ok, except_pure_ok] at h
        obtain ⟨_, rfl, later, hl, rfl⟩ := h
        simp only [Bool.and_eq_true, decide_eq_true_eq] at hrows
        refine List.forall_mem_append.mpr ⟨List.forall_mem_singleton.mpr ⟨by simp, ?_⟩, ih hl⟩
        exact hrows.1 ▸ .allRows kind
      · simp only [if_true, if_neg hrows, except_bind_ok, except_pure_ok] at h
        obtain ⟨f, hf, _, rfl, later, hl, rfl⟩ := h
        obtain ⟨hmem, rfl⟩ := field_ok hf
        refine List.forall_mem_append.mpr ⟨List.forall_mem_singleton.mpr ⟨?_, ?_⟩, ih hl⟩
        · rintro x ⟨⟩
          exact ⟨f, hmem, rfl⟩
        · exact .field kind hmem

theorem payload_columns_ok {kind : Aggregate} {payload : Json} {ps : List Projection}
    (h : payloadColumns cx kind payload = .ok ps) : Local cx ps := by
  unfold payloadColumns at h
  split at h
  · split at h
    · cases h
      exact List.forall_mem_singleton.mpr ⟨by simp, .rows kind⟩
    · cases h
  · cases h
    exact List.forall_mem_nil _
  · exact field_columns_ok h
  · cases h

theorem columns_ok {args : Args} {kinds : List Aggregate} {ps : List Projection}
    (h : columns cx args kinds = .ok ps) : Local cx ps := by
  induction kinds generalizing ps with
  | nil =>
    cases h
    exact List.forall_mem_nil _
  | cons kind rest ih =>
    cases hp : args.aggregate kind with
    | none =>
      simp only [columns, hp, except_bind_ok, except_pure_ok] at h
      obtain ⟨_, rfl, later, hl, rfl⟩ := h
      exact ih hl
    | some payload =>
      simp only [columns, hp, except_bind_ok, except_pure_ok] at h
      obtain ⟨here, hh, later, hl, rfl⟩ := h
      exact List.forall_mem_append.mpr ⟨payload_columns_ok hh, ih hl⟩

theorem count_columns_ok {args : Args} {ps : List Projection}
    (h : countColumns cx args = .ok ps) : Local cx ps := by
  simp only [countColumns, except_bind_ok] at h
  obtain ⟨columns, hc, h⟩ := h
  split at h
  · simp only [except_bind_ok, except_throw_ok, false_and, exists_false] at h
  · cases h
    exact payload_columns_ok hc

theorem aggregate_columns_ok {args : Args} {ps : List Projection}
    (h : aggregateColumns cx args = .ok ps) : Local cx ps := by
  simp only [aggregateColumns, except_bind_ok] at h
  obtain ⟨columns, hc, h⟩ := h
  split at h
  · simp only [except_bind_ok, except_throw_ok, false_and, exists_false] at h
  · cases h
    exact columns_ok hc

theorem mentioned_fields_ok {m : Model} {args : Args} {fields : List Field}
    (h : mentionedFields m args = .ok fields) : ∀ f ∈ fields, f ∈ m.fields := by
  have hfold : ∀ found kept : List Field, (∀ f ∈ found, f ∈ m.fields) →
      (∀ f ∈ kept, f ∈ m.fields) →
        ∀ f ∈ found.foldl (fun kept f => if kept.any (·.name = f.name) then kept else kept ++ [f])
          kept, f ∈ m.fields := by
    intro found
    induction found with
    | nil => exact fun _ _ hkept => hkept
    | cons f rest ih =>
      intro kept hfound hkept
      rw [List.forall_mem_cons] at hfound
      rw [List.foldl_cons]
      apply ih _ hfound.2
      split
      · exact hkept
      · exact List.forall_mem_append.mpr ⟨hkept, List.forall_mem_singleton.mpr hfound.1⟩
  simp only [mentionedFields, except_bind_ok, except_pure_ok] at h
  obtain ⟨found, hfound, rfl⟩ := h
  exact hfold found [] (Model.expect_fields_ok hfound).2 (List.forall_mem_nil _)

theorem grouping_ok {m : Model} {names : Option (List String)} {fields : List Field}
    (h : grouping m names = .ok fields) : ∀ f ∈ fields, f ∈ m.fields := by
  simp only [grouping] at h
  split at h
  · simp only [except_bind_ok, except_throw_ok, false_and, exists_false] at h
  · exact (Model.expect_fields_ok h).2

theorem grouping_reads {names : Option (List String)} {fields : List Field}
    (h : grouping cx.model names = .ok fields) :
    ∀ c ∈ fields.map (Compile.column cx), c.Reads cx := by
  intro c hc
  obtain ⟨f, hf, rfl⟩ := List.mem_map.mp hc
  exact ⟨f, grouping_ok h f hf, rfl⟩

theorem group_columns_ok {args : Args} {ps : List Projection}
    (h : groupColumns cx args = .ok ps) : Local cx ps := by
  simp only [groupColumns, except_bind_ok, except_pure_ok] at h
  obtain ⟨fields, hf, aggregates, ha, rfl⟩ := h
  refine List.forall_mem_append.mpr ⟨?_, columns_ok ha⟩
  intro p hp
  obtain ⟨f, hmem, rfl⟩ := List.mem_map.mp hp
  exact ⟨f, grouping_ok hf f hmem, rfl⟩

end Aggregation

namespace Having

theorem check_operand_ok {m : Model} {c : Connective} {value : Json}
    (h : checkOperand m c value = .ok ()) :
    (∃ entries, value = .obj entries) ∨
      ∃ items, items ≠ [] ∧ value = .arr items ∧
        ∀ json ∈ items, ∃ entries, json = .obj entries := by
  unfold checkOperand at h
  split at h
  · exact .inl ⟨_, rfl⟩
  · exact .inr ⟨_, List.cons_ne_nil _ _, rfl, Connective.check_items_ok h⟩
  · cases h

inductive Aggregates (cx : Context) (f : Field) : Json.Entries → List Pred → Prop
  | nil : Aggregates cx f [] []
  | other {key : String} {value : Json} {rest : Json.Entries} {ps : List Pred}
      (hk : Aggregate.ofKey? key = none) (later : Aggregates cx f rest ps) :
      Aggregates cx f ((key, value) :: rest) ps
  | aggregate {key : String} {value : Json} {rest : Json.Entries} {kind : Aggregate} {g : Field}
      {p : Option Pred} {ps : List Pred} (hk : Aggregate.ofKey? key = some kind)
      (hg : Aggregation.field cx.model kind f.name = .ok g)
      (here : Condition.Compiles cx.model g (.aggregate kind (some (Compile.column cx g))) value p)
      (later : Aggregates cx f rest ps) :
      Aggregates cx f ((key, value) :: rest) (p.toList ++ ps)

theorem aggregate_conditions_ok {cx : Context} {f : Field} {entries : Json.Entries}
    {ps : List Pred} (h : aggregateConditions cx f entries = .ok ps) :
    Aggregates cx f entries ps := by
  induction entries generalizing ps with
  | nil =>
    cases h
    exact .nil
  | cons e rest ih =>
    obtain ⟨key, value⟩ := e
    cases hk : Aggregate.ofKey? key with
    | none =>
      simp only [aggregateConditions, hk, except_bind_ok, except_pure_ok] at h
      obtain ⟨_, rfl, later, hl, rfl⟩ := h
      exact .other hk (ih hl)
    | some kind =>
      simp only [aggregateConditions, hk, except_bind_ok, except_pure_ok] at h
      obtain ⟨g, hg, p, hp, later, hl, rfl⟩ := h
      exact .aggregate hk hg (Condition.compile_ok hp) (ih hl)

theorem plain_condition_ok {cx : Context} {f : Field} {grouped : List String}
    {entries : Json.Entries} {p : Option Pred} (h : plainCondition cx f grouped entries = .ok p) :
    Condition.Compiles cx.model f (.column (Compile.column cx f)) (.obj entries) p := by
  unfold plainCondition at h
  split at h
  · rename_i hempty
    cases h
    rw [List.isEmpty_iff.mp hempty]
    have hmode : Condition.mode cx.model f .sensitive [] = .ok .sensitive := rfl
    exact .operators hmode .nil
  · split at h
    · exact Condition.compile_ok h
    · cases h

inductive FieldRuns (cx : Context) (f : Field) : Json → List Pred → Prop
  | entries {entries : Json.Entries} {ps : List Pred} {p : Option Pred}
      (aggregates : Aggregates cx f entries ps)
      (plain : Condition.Compiles cx.model f (.column (Compile.column cx f))
        (.obj (plainEntries entries)) p) : FieldRuns cx f (.obj entries) (ps ++ p.toList)
  | literal {json : Json} {p : Option Pred} (hj : ∀ entries, json ≠ .obj entries)
      (plain : Condition.Compiles cx.model f (.column (Compile.column cx f))
        (.obj [("equals", json)]) p) : FieldRuns cx f json p.toList

theorem field_conditions_ok {cx : Context} {f : Field} {grouped : List String} {value : Json}
    {ps : List Pred} (h : fieldConditions cx f grouped value = .ok ps) :
    FieldRuns cx f value ps := by
  cases value with
  | obj entries =>
    simp only [fieldConditions, except_bind_ok, except_pure_ok] at h
    obtain ⟨as, ha, p, hp, rfl⟩ := h
    exact .entries (aggregate_conditions_ok ha) (plain_condition_ok hp)
  | null | bool _ | num _ | str _ | arr _ =>
    simp only [fieldConditions, except_bind_ok, except_pure_ok] at h
    obtain ⟨p, hp, rfl⟩ := h
    exact .literal (by simp) (plain_condition_ok hp)

inductive Outcome where
  | conditions (entries : Json.Entries) (ps : List Pred)
  | connective (c : Connective) (value : Json) (p : Pred)
  | each (items : List Json) (ps : List (Option Pred))

inductive Runs (cx : Context) : Outcome → Prop
  | nil : Runs cx (.conditions [] [])
  | connectiveEntry {key : String} {value : Json} {rest : Json.Entries} {c : Connective} {p : Pred}
      {ps : List Pred} (hk : Connective.ofKey? key = some c)
      (here : Runs cx (.connective c value p)) (later : Runs cx (.conditions rest ps)) :
      Runs cx (.conditions ((key, value) :: rest) (p :: ps))
  | fieldEntry {key : String} {value : Json} {rest : Json.Entries} {f : Field} {qs ps : List Pred}
      (hk : Connective.ofKey? key = none) (hf : cx.model.expectField key = .ok f)
      (here : FieldRuns cx f value qs)
      (later : Runs cx (.conditions rest ps)) :
      Runs cx (.conditions ((key, value) :: rest) (qs ++ ps))
  | object {c : Connective} {entries : Json.Entries} {ps : List Pred} {p : Pred}
      (operand : Runs cx (.conditions entries ps))
      (hp : c.apply cx.model [Pred.all? ps] = .ok p) : Runs cx (.connective c (.obj entries) p)
  | array {c : Connective} {items : List Json} {os : List (Option Pred)} {p : Pred}
      (hne : items ≠ []) (operands : Runs cx (.each items os))
      (hp : c.apply cx.model os = .ok p) :
      Runs cx (.connective c (.arr items) p)
  | noItem : Runs cx (.each [] [])
  | item {entries : Json.Entries} {rest : List Json} {ps : List Pred} {os : List (Option Pred)}
      (here : Runs cx (.conditions entries ps)) (later : Runs cx (.each rest os)) :
      Runs cx (.each (.obj entries :: rest) (Pred.all? ps :: os))

mutual

theorem conditions_runs (cx : Context) (grouped : List String) (entries : List (String × Json))
    {ps : List Pred} (h : conditions cx grouped entries = .ok ps) :
    Runs cx (.conditions entries ps) := by
  match entries with
  | [] =>
    cases h
    exact .nil
  | (key, value) :: rest =>
    cases hk : Connective.ofKey? key with
    | some c =>
      simp only [conditions, hk, except_bind_ok, except_map_ok, except_pure_ok] at h
      obtain ⟨_, ⟨p, hp, rfl⟩, later, hl, rfl⟩ := h
      exact .connectiveEntry hk (connective_runs cx grouped c value hp)
        (conditions_runs cx grouped rest hl)
    | none =>
      simp only [conditions, hk, except_bind_ok, except_pure_ok] at h
      obtain ⟨f, hf, qs, hq, later, hl, rfl⟩ := h
      exact .fieldEntry hk hf (field_conditions_ok hq) (conditions_runs cx grouped rest hl)

theorem connective_runs (cx : Context) (grouped : List String) (c : Connective) (value : Json)
    {p : Pred} (h : connective cx grouped c value = .ok p) : Runs cx (.connective c value p) := by
  rw [connective, except_bind_ok] at h
  obtain ⟨_, hc, h⟩ := h
  match value with
  | .obj entries =>
    simp only [except_bind_ok, except_map_ok] at h
    obtain ⟨_, ⟨ps, hps, rfl⟩, hp⟩ := h
    exact .object (conditions_runs cx grouped entries hps) hp
  | .arr items =>
    simp only [except_bind_ok] at h
    obtain ⟨os, hos, hp⟩ := h
    rcases check_operand_ok hc with ⟨_, he⟩ | ⟨_, hne, he, hobj⟩
    · cases he
    · cases he
      exact .array hne (each_runs cx grouped items hobj hos) hp
  | .null | .bool _ | .num _ | .str _ => cases hc

theorem each_runs (cx : Context) (grouped : List String) (items : List Json)
    (hobj : ∀ json ∈ items, ∃ entries, json = .obj entries) {os : List (Option Pred)}
    (h : each cx grouped items = .ok os) : Runs cx (.each items os) := by
  match items with
  | [] =>
    cases h
    exact .noItem
  | .obj entries :: rest =>
    simp only [each, except_bind_ok, except_pure_ok] at h
    obtain ⟨ps, hps, later, hl, rfl⟩ := h
    exact .item (conditions_runs cx grouped entries hps)
      (each_runs cx grouped rest (fun json hj => hobj json (by simp [hj])) hl)
  | .null :: _ | .bool _ :: _ | .num _ :: _ | .str _ :: _ | .arr _ :: _ =>
    obtain ⟨_, he⟩ := hobj _ List.mem_cons_self
    cases he

end

theorem compile_runs {cx : Context} {grouped : List String} {having : Option Json.Entries}
    {p : Option Pred} (h : compile? cx grouped having = .ok p) :
    ∃ ps, Runs cx (.conditions (having.getD []) ps) ∧ p = Pred.all? ps := by
  cases having with
  | none =>
    cases h
    exact ⟨[], .nil, rfl⟩
  | some entries =>
    obtain ⟨ps, hps, rfl⟩ := except_map_ok.mp h
    exact ⟨ps, conditions_runs cx grouped entries hps, rfl⟩

end Having

namespace Keyset

def row (op : Comparison) : List (Column × Value) → Pred
  | [(column, value)] => .compare (.column column) op (.bound value)
  | bounds => .compareRows (bounds.map (·.1)) op (bounds.map (·.2))

theorem row_of_many {op : Comparison} {bounds : List (Column × Value)}
    (h : ∀ column value, bounds = [(column, value)] → False) :
    row op bounds = .compareRows (bounds.map (·.1)) op (bounds.map (·.2)) := by
  match bounds with
  | [(column, value)] => exact absurd rfl (h column value)
  | [] | _ :: _ :: _ => rfl

theorem boundary_ok {cx : Context} {key : Key} {b : Column × Value}
    (h : boundary cx key = .ok b) :
    (∃ f ∈ cx.model.fields, f.name = key.name ∧ b.1 = Compile.column cx f) ∧
      Condition.Binds key.value b.2 := by
  simp only [boundary, except_bind_ok] at h
  obtain ⟨f, hf, h⟩ := h
  cases hu : f.isUnique with
  | false => simp only [hu, Bool.not_false, if_true, except_bind_ok, except_throw_ok, false_and,
      exists_false] at h
  | true =>
    simp only [hu, Bool.not_true, Bool.false_eq_true, if_false, except_bind_ok,
      Compile.scalar_ok] at h
    obtain ⟨v, hv, h⟩ := h
    split at h
    · simp only [except_bind_ok, except_throw_ok, false_and, exists_false] at h
    · rename_i hnull
      cases h
      obtain ⟨hmem, hname⟩ := Model.expect_field_ok hf
      refine ⟨⟨f, hmem, hname, rfl⟩, fun hn => hnull ?_, hv⟩
      rw [hn] at hv
      cases hv
      rfl

theorem bounds_read {cx : Context} {ks : List Key} {bounds : List (Column × Value)}
    (h : List.Forall₂ (fun k b => boundary cx k = .ok b) ks bounds) :
    ∀ b ∈ bounds, b.1.Reads cx := by
  induction h with
  | nil => simp
  | cons hk _ ih =>
    obtain ⟨f, hf, _, hcolumn⟩ := (boundary_ok hk).1
    exact List.forall_mem_cons.mpr ⟨⟨f, hf, hcolumn⟩, ih⟩

theorem compile_ok {cx : Context} {cursor : Json.Entries} {orderBy : Option (List Json.Entries)}
    {p : Pred} (h : compile cx cursor orderBy = .ok p) : ∃ ks direction bounds,
      cursor ≠ [] ∧ keys cx.model cursor orderBy = .ok ks ∧
        (∀ k ∈ ks, k.direction = direction) ∧ p = row (pastOp direction) bounds ∧
          List.Forall₂ (fun k b => boundary cx k = .ok b) ks bounds := by
  cases cursor with
  | nil => cases h
  | cons e rest =>
    simp only [compile, List.isEmpty_cons, Bool.false_eq_true, if_false, except_bind_ok] at h
    obtain ⟨ks, hks, h⟩ := h
    split at h
    · simp only [except_bind_ok, except_throw_ok, false_and, exists_false] at h
    · rename_i hmixed
      simp only [except_bind_ok, except_each_ok] at h
      obtain ⟨bounds, hb, h⟩ := h
      have hsame : ∀ k ∈ ks, k.direction = (ks.head?.map (·.direction)).getD .asc := by
        simpa using hmixed
      refine ⟨ks, _, bounds, List.cons_ne_nil e rest, hks, hsame, ?_, hb⟩
      split at h
      · cases h
        rfl
      · rename_i hne
        cases h
        exact (row_of_many hne).symm

end Keyset

end QuerySql
