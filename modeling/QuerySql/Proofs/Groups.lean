import QuerySql.Proofs.Connectives
import QuerySql.Proofs.Parameters

/-!
# Statements over groups

The rows of a statement over groups stand for groups of rows of its table, so outside
of aggregates it may read the columns that it groups by and no others. Three clauses
see to it, each on its own: the columns selected, the conditions on groups, and the
ordering. A condition on a field that is not grouped by is refused wherever it stands.
-/

set_option autoImplicit false

namespace QuerySql

def Scalar.bare : Scalar → List Column
  | .column c => [c]
  | .aggregate _ _ | .bound _ => []
  | .folded s => s.bare

mutual

/-- The columns that a predicate reads other than as arguments of aggregates. -/
def Pred.bare : Pred → List Column
  | .truth _ => []
  | .compare lhs _ rhs => lhs.bare ++ rhs.bare
  | .compareRows columns _ _ => columns
  | .isNull s _ => s.bare
  | .isIn s items _ => s.bare ++ items.flatMap Scalar.bare
  | .like s pattern => s.bare ++ pattern.bare
  | .and operands | .or operands => Pred.bareAll operands
  | .not operand => operand.bare
  | .related _ _ _ conditions => Pred.bareAll conditions

def Pred.bareAll : List Pred → List Column
  | [] => []
  | p :: ps => p.bare ++ Pred.bareAll ps

end

def Body.bare (b : Body) : List Column :=
  Pred.bareAll b.filter.toList ++ b.groupBy ++ Pred.bareAll b.having.toList ++
    b.orderBy.flatMap (·.key.bare)

mutual

def Projection.bare : Projection → List Column
  | .column c => [c]
  | .aggregate _ _ _ => []
  | .relation _ _ _ columns body => Projection.bareAll columns ++ body.bare

def Projection.bareAll : List Projection → List Column
  | [] => []
  | p :: ps => p.bare ++ Projection.bareAll ps

end

theorem Pred.bare_all_subset {ps : List Pred} {cs : List Column} (h : ∀ p ∈ ps, p.bare ⊆ cs) :
    Pred.bareAll ps ⊆ cs := by
  induction ps with
  | nil => exact List.nil_subset _
  | cons p ps ih =>
    rw [List.forall_mem_cons] at h
    exact List.append_subset.mpr ⟨h.1, ih h.2⟩

theorem Projection.bare_all_append (ps qs : List Projection) :
    Projection.bareAll (ps ++ qs) = Projection.bareAll ps ++ Projection.bareAll qs := by
  induction ps with
  | nil => rfl
  | cons p ps ih => rw [List.cons_append, bareAll, bareAll, ih, List.append_assoc]

theorem Pred.bare_closed (cs : List Column) : Pred.Closed fun p => p.bare ⊆ cs where
  truth _ := List.nil_subset _
  and _ h := Pred.bare_all_subset h
  or _ h := Pred.bare_all_subset h
  not _ h := h

/-- A select that reads nothing but the columns grouped by, outside of aggregates, once
its rows are grouped. -/
structure Body.Grouped (columns : List Projection) (b : Body) : Prop where
  columns : Projection.bareAll columns ⊆ b.groupBy
  having : ∀ p ∈ b.having, p.bare ⊆ b.groupBy
  orderBy : ∀ it ∈ b.orderBy, it.key.bare ⊆ b.groupBy

theorem Mode.fold_bare (mode : Mode) (s : Scalar) : (mode.fold s).bare = s.bare := by
  cases mode <;> rfl

namespace Condition

variable {m : Model} {f : Field} {lhs : Scalar} {mode : Mode}

theorem operates_bare {op : FieldOperator} {json : Json} {p : Pred}
    (h : Operates f lhs mode op json p) : p.bare ⊆ lhs.bare := by
  have hbound : ∀ v : Value, (Scalar.bound v).bare = [] := fun _ => rfl
  cases h with
  | isNull | isNotNull => exact List.Subset.refl _
  | noItems => exact List.nil_subset _
  | compare _ _ | pattern _ => simp [Pred.bare, Mode.fold_bare, hbound]
  | isIn _ _ =>
    simp [Pred.bare, Mode.fold_bare, hbound, List.flatMap_eq_nil_iff.mpr]

theorem runs_bare {entries : Json.Entries} {ps : List Pred} (h : Runs m f lhs mode entries ps) :
    ∀ p ∈ ps, p.bare ⊆ lhs.bare := by
  induction h with
  | nil => exact List.forall_mem_nil _
  | mode _ ih => exact ih
  | negation _ _ _ ih ihl =>
    refine List.forall_mem_append.mpr ⟨fun p hp => ?_, ihl⟩
    obtain ⟨q, hq, rfl⟩ := Option.map_eq_some_iff.mp (Option.mem_toList.mp hp)
    exact (Pred.bare_closed _).optional ih q hq
  | operator _ _ here _ ih => exact List.forall_mem_cons.mpr ⟨operates_bare here, ih⟩

theorem compiles_bare {json : Json} {p : Option Pred} (h : Compiles m f lhs json p) :
    ∀ q ∈ p, q.bare ⊆ lhs.bare := by
  cases h with
  | null =>
    rintro _ ⟨⟩
    exact List.Subset.refl _
  | scalar _ =>
    rintro _ ⟨⟩
    simp [Pred.bare, Scalar.bare]
  | operators _ here => exact (Pred.bare_closed _).optional (runs_bare here)

end Condition

namespace Having

variable {cx : Context} {grouped : List String}

def columnsOf (cx : Context) (names : List String) : List Column :=
  names.map fun name => ⟨cx.tag, name⟩

theorem aggregates_bare {f : Field} {entries : Json.Entries} {ps : List Pred}
    (h : Aggregates cx f entries ps) : ∀ p ∈ ps, p.bare ⊆ [] := by
  induction h with
  | nil => exact List.forall_mem_nil _
  | other _ _ ih => exact ih
  | aggregate _ _ here _ ih =>
    exact List.forall_mem_append.mpr
      ⟨fun p hp => Condition.compiles_bare here p (Option.mem_toList.mp hp), ih⟩

theorem plain_condition_grouped {f : Field} {entries : Json.Entries} {p : Option Pred}
    (h : plainCondition cx f grouped entries = .ok p) :
    entries = [] ∧ p = none ∨ f.name ∈ grouped ∧
      Condition.Compiles cx.model f (.column (Compile.column cx f)) (.obj entries) p := by
  unfold plainCondition at h
  split at h
  · rename_i hempty
    cases h
    exact .inl ⟨List.isEmpty_iff.mp hempty, rfl⟩
  · split at h
    · rename_i hin
      exact .inr ⟨List.contains_iff_mem.mp hin, Condition.compile_ok h⟩
    · cases h

theorem plain_condition_bare {f : Field} {entries : Json.Entries} {p : Option Pred}
    (h : plainCondition cx f grouped entries = .ok p) :
    ∀ q ∈ p.toList, q.bare ⊆ columnsOf cx grouped := by
  intro q hq
  rcases plain_condition_grouped h with ⟨-, rfl⟩ | ⟨hin, hp⟩
  · cases hq
  · refine List.Subset.trans (Condition.compiles_bare hp q (Option.mem_toList.mp hq)) ?_
    exact List.cons_subset.mpr ⟨List.mem_map.mpr ⟨f.name, hin, rfl⟩, List.nil_subset _⟩

theorem field_conditions_bare {f : Field} {value : Json} {ps : List Pred}
    (h : fieldConditions cx f grouped value = .ok ps) :
    ∀ p ∈ ps, p.bare ⊆ columnsOf cx grouped := by
  cases value with
  | obj entries =>
    simp only [fieldConditions, except_bind_ok, except_pure_ok] at h
    obtain ⟨as, ha, p, hp, rfl⟩ := h
    refine List.forall_mem_append.mpr ⟨fun q hq => ?_, plain_condition_bare hp⟩
    exact List.Subset.trans (aggregates_bare (aggregate_conditions_ok ha) q hq) (List.nil_subset _)
  | null | bool _ | num _ | str _ | arr _ =>
    simp only [fieldConditions, except_bind_ok, except_pure_ok] at h
    obtain ⟨p, hp, rfl⟩ := h
    exact plain_condition_bare hp

def OfFields (cx : Context) (grouped : List String) (P : Pred → Prop) : Prop :=
  ∀ f value ps, fieldConditions cx f grouped value = .ok ps → ∀ p ∈ ps, P p

mutual

theorem conditions_closed {P : Pred → Prop} (hP : Pred.Closed P) (hfield : OfFields cx grouped P)
    (entries : List (String × Json)) {ps : List Pred}
    (h : conditions cx grouped entries = .ok ps) : ∀ p ∈ ps, P p := by
  match entries with
  | [] =>
    cases h
    exact List.forall_mem_nil _
  | (key, value) :: rest =>
    cases hk : Connective.ofKey? key with
    | some c =>
      simp only [conditions, hk, except_bind_ok, except_map_ok, except_pure_ok] at h
      obtain ⟨_, ⟨p, hp, rfl⟩, later, hl, rfl⟩ := h
      exact List.forall_mem_cons.mpr
        ⟨connective_closed hP hfield c value hp, conditions_closed hP hfield rest hl⟩
    | none =>
      simp only [conditions, hk, except_bind_ok, except_pure_ok] at h
      obtain ⟨f, _, here, hh, later, hl, rfl⟩ := h
      exact List.forall_mem_append.mpr ⟨hfield f value here hh, conditions_closed hP hfield rest hl⟩

theorem connective_closed {P : Pred → Prop} (hP : Pred.Closed P) (hfield : OfFields cx grouped P)
    (c : Connective) (value : Json) {p : Pred}
    (h : connective cx grouped c value = .ok p) : P p := by
  rw [connective, except_bind_ok] at h
  obtain ⟨_, _, h⟩ := h
  match value with
  | .obj entries =>
    simp only [except_bind_ok, except_map_ok] at h
    obtain ⟨_, ⟨ps, hps, rfl⟩, hp⟩ := h
    have hall := hP.optional (conditions_closed hP hfield entries hps)
    exact hP.apply hp (List.forall_mem_singleton.mpr hall)
  | .arr items =>
    simp only [except_bind_ok] at h
    obtain ⟨os, hos, hp⟩ := h
    exact hP.apply hp (each_closed hP hfield items hos)
  | .null | .bool _ | .num _ | .str _ =>
    simp only [except_bind_ok, except_pure_ok] at h
    obtain ⟨_, rfl, hp⟩ := h
    exact hP.apply hp (List.forall_mem_nil _)

theorem each_closed {P : Pred → Prop} (hP : Pred.Closed P) (hfield : OfFields cx grouped P)
    (items : List Json) {os : List (Option Pred)}
    (h : each cx grouped items = .ok os) : ∀ o ∈ os, ∀ q ∈ o, P q := by
  match items with
  | [] =>
    cases h
    exact List.forall_mem_nil _
  | .obj entries :: rest =>
    simp only [each, except_bind_ok, except_pure_ok] at h
    obtain ⟨ps, hps, later, hl, rfl⟩ := h
    exact List.forall_mem_cons.mpr
      ⟨hP.optional (conditions_closed hP hfield entries hps), each_closed hP hfield rest hl⟩
  | .null :: rest | .bool _ :: rest | .num _ :: rest | .str _ :: rest | .arr _ :: rest =>
    simp only [each] at h
    exact each_closed hP hfield rest h

end

theorem compile_bare {having : Option Json.Entries} {p : Option Pred}
    (h : compile? cx grouped having = .ok p) : ∀ q ∈ p, q.bare ⊆ columnsOf cx grouped := by
  cases having with
  | none =>
    cases h
    exact fun q hq => nomatch hq
  | some entries =>
    obtain ⟨ps, hps, rfl⟩ := except_map_ok.mp h
    have hclosed := Pred.bare_closed (columnsOf cx grouped)
    exact hclosed.optional
      (conditions_closed hclosed (fun _ _ _ hfield => field_conditions_bare hfield) entries hps)

/-- The value of a field is a condition on the field itself: a literal, or an object
with a key that is no aggregate. -/
def IsPlain : Json → Prop
  | .obj entries => ∃ e ∈ entries, Aggregate.ofKey? e.1 = none
  | _ => True

/-- Among the entries, at any depth of connectives, stands a condition on the field of
that name itself. -/
inductive Names (name : String) : Json.Entries → Prop
  | here {value : Json} {rest : Json.Entries} (hk : Connective.ofKey? name = none)
      (plain : IsPlain value) : Names name ((name, value) :: rest)
  | later {e : String × Json} {rest : Json.Entries} (h : Names name rest) : Names name (e :: rest)
  | object {key : String} {c : Connective} {entries rest : Json.Entries}
      (hk : Connective.ofKey? key = some c) (h : Names name entries) :
      Names name ((key, .obj entries) :: rest)
  | item {key : String} {c : Connective} {items : List Json} {entries rest : Json.Entries}
      (hk : Connective.ofKey? key = some c) (hin : .obj entries ∈ items) (h : Names name entries) :
      Names name ((key, .arr items) :: rest)

theorem grouped_of_plain {f : Field} {value : Json} {ps : List Pred} (hvalue : IsPlain value)
    (h : fieldConditions cx f grouped value = .ok ps) : f.name ∈ grouped := by
  cases value with
  | obj entries =>
    simp only [fieldConditions, except_bind_ok, except_pure_ok] at h
    obtain ⟨_, _, p, hp, -⟩ := h
    obtain ⟨e, he, hk⟩ := hvalue
    rcases plain_condition_grouped hp with ⟨hempty, -⟩ | ⟨hin, -⟩
    · have hplain : e ∈ plainEntries entries := List.mem_filter.mpr ⟨he, by rw [hk]; rfl⟩
      rw [hempty] at hplain
      cases hplain
    · exact hin
  | null | bool _ | num _ | str _ | arr _ =>
    simp only [fieldConditions, except_bind_ok, except_pure_ok] at h
    obtain ⟨p, hp, -⟩ := h
    rcases plain_condition_grouped hp with ⟨hempty, -⟩ | ⟨hin, -⟩
    · cases hempty
    · exact hin

theorem each_ok_of_mem {items : List Json} {os : List (Option Pred)} {entries : Json.Entries}
    (h : each cx grouped items = .ok os) (hin : .obj entries ∈ items) :
    ∃ ps, conditions cx grouped entries = .ok ps := by
  induction items generalizing os with
  | nil => cases hin
  | cons item rest ih =>
    cases item with
    | obj first =>
      simp only [each, except_bind_ok, except_pure_ok] at h
      obtain ⟨ps, hps, later, hl, rfl⟩ := h
      rcases List.mem_cons.mp hin with heq | hin
      · cases heq
        exact ⟨ps, hps⟩
      · exact ih hl hin
    | null | bool _ | num _ | str _ | arr _ =>
      simp only [each] at h
      exact ih h ((List.mem_cons.mp hin).resolve_left (by simp))

theorem conditions_ok_of_cons {e : String × Json} {rest : Json.Entries} {ps : List Pred}
    (h : conditions cx grouped (e :: rest) = .ok ps) :
    ∃ later, conditions cx grouped rest = .ok later := by
  obtain ⟨key, value⟩ := e
  cases hk : Connective.ofKey? key <;> simp only [conditions, hk, except_bind_ok] at h
  · obtain ⟨_, _, _, _, later, hl, -⟩ := h
    exact ⟨later, hl⟩
  · obtain ⟨_, _, later, hl, -⟩ := h
    exact ⟨later, hl⟩

theorem grouped_of_names {name : String} {entries : Json.Entries} {ps : List Pred}
    (hnames : Names name entries) (h : conditions cx grouped entries = .ok ps) :
    name ∈ grouped := by
  induction hnames generalizing ps with
  | here hk plain =>
    simp only [conditions, hk, except_bind_ok] at h
    obtain ⟨f, hf, _, hh, -⟩ := h
    exact (Model.expect_field_ok hf).2 ▸ grouped_of_plain plain hh
  | @later e rest _ ih =>
    obtain ⟨later, hl⟩ := conditions_ok_of_cons h
    exact ih hl
  | object hk _ ih =>
    simp only [conditions, connective, hk, except_bind_ok, except_map_ok] at h
    obtain ⟨_, ⟨_, ⟨_, _, _, ⟨ps, hps, -⟩, -⟩, -⟩, -⟩ := h
    exact ih hps
  | item hk hin _ ih =>
    simp only [conditions, connective, hk, except_bind_ok, except_map_ok] at h
    obtain ⟨_, ⟨_, ⟨_, _, os, hos, -⟩, -⟩, -⟩ := h
    obtain ⟨ps, hps⟩ := each_ok_of_mem hos hin
    exact ih hps

end Having

namespace Ordering

variable {s : Settings} {cx : Context} {ms : List Mention}

def Aggregated (ms : List Mention) : Prop := ∀ m ∈ ms, m.item.key.bare = []

theorem aggregate_fields_aggregated {kind : Aggregate} {entries : Json.Entries}
    (h : aggregateFields s cx kind entries = .ok ms) : Aggregated ms := by
  induction entries generalizing ms with
  | nil =>
    cases h
    exact List.forall_mem_nil _
  | cons e rest ih =>
    obtain ⟨name, value⟩ := e
    by_cases hop : cx.operation = .groupBy
    · simp only [aggregateFields, if_pos hop, except_bind_ok, except_pure_ok] at h
      obtain ⟨f, _, ⟨direction, nulls⟩, _, it, hit, _, rfl, later, hl, rfl⟩ := h
      refine List.forall_mem_append.mpr ⟨List.forall_mem_singleton.mpr ?_, ih hl⟩
      rw [item_ok hit]
      rfl
    · simp only [aggregateFields, if_neg hop, except_bind_ok, except_pure_ok] at h
      obtain ⟨f, _, ⟨direction, nulls⟩, _, _, rfl, later, hl, rfl⟩ := h
      exact ih hl

theorem aggregate_mentions_aggregated {kind : Aggregate} {value : Json}
    (h : aggregateMentions s cx kind value = .ok ms) : Aggregated ms := by
  simp only [aggregateMentions] at h
  split at h
  · simp only [except_bind_ok, except_throw_ok, false_and, exists_false] at h
  · cases value with
    | obj fields => exact aggregate_fields_aggregated h
    | str text =>
      simp only at h
      split at h
      · simp only [except_bind_ok] at h
        obtain ⟨⟨direction, nulls⟩, _, h⟩ := h
        simp only at h
        split at h
        · simp only [except_bind_ok, except_pure_ok] at h
          obtain ⟨it, hit, rfl⟩ := h
          refine List.forall_mem_singleton.mpr ?_
          rw [item_ok hit]
          rfl
        · cases h
          exact List.forall_mem_nil _
      · cases h
    | null | bool _ | num _ | arr _ => cases h

theorem key_mentions_bare {grouped : List String} {key : String} {value : Json}
    (h : keyMentions s cx (some grouped) key value = .ok ms) :
    ∀ m ∈ ms, m.item.key.bare ⊆ Having.columnsOf cx grouped := by
  unfold keyMentions at h
  split at h
  · intro m hm
    rw [aggregate_mentions_aggregated h m hm]
    exact List.nil_subset _
  · split at h
    · rename_i f _
      split at h
      · simp only [except_bind_ok, except_throw_ok, false_and, exists_false] at h
      · rename_i hgrouped
        simp only [except_bind_ok, except_pure_ok] at h
        obtain ⟨⟨direction, nulls⟩, _, it, hit, rfl⟩ := h
        refine List.forall_mem_singleton.mpr ?_
        rw [item_ok hit]
        refine List.cons_subset.mpr ⟨List.mem_map.mpr ⟨f.name, ?_, rfl⟩, List.nil_subset _⟩
        simpa using hgrouped
    · split at h <;> cases h

theorem entry_mentions_bare {grouped : List String} {entries : Json.Entries}
    (h : entryMentions s cx (some grouped) entries = .ok ms) :
    ∀ m ∈ ms, m.item.key.bare ⊆ Having.columnsOf cx grouped := by
  induction entries generalizing ms with
  | nil =>
    cases h
    exact List.forall_mem_nil _
  | cons e rest ih =>
    simp only [entryMentions, except_bind_ok, except_pure_ok] at h
    obtain ⟨here, hh, later, hl, rfl⟩ := h
    exact List.forall_mem_append.mpr ⟨key_mentions_bare hh, ih hl⟩

theorem mentions_bare {grouped : List String} {entries : List Json.Entries}
    (h : mentions s cx (some grouped) entries = .ok ms) :
    ∀ m ∈ ms, m.item.key.bare ⊆ Having.columnsOf cx grouped := by
  induction entries generalizing ms with
  | nil =>
    cases h
    exact List.forall_mem_nil _
  | cons e rest ih =>
    rw [mentions] at h
    split at h
    · simp only [except_bind_ok, except_throw_ok, false_and, exists_false] at h
    · simp only [except_bind_ok, except_pure_ok] at h
      obtain ⟨here, hh, later, hl, rfl⟩ := h
      exact List.forall_mem_append.mpr ⟨entry_mentions_bare hh, ih hl⟩

theorem compile_mentions {orderBy : Option (List Json.Entries)} {grouped : Option (List String)}
    {items : List SortItem} (hlead : distinctFields cx = .ok [])
    (hcursor : cx.pagination?.bind (·.cursor) = none) (hties : breaksTies s cx = false)
    (h : compile s cx orderBy grouped = .ok items) :
    ∃ ms, mentions s cx grouped (orderBy.getD []) = .ok ms ∧ items = ms.map (·.item) := by
  obtain ⟨ms, cursor, hms, hmap, rfl⟩ := compile_unled hlead h
  rw [hcursor] at hmap
  obtain rfl : cursor = [] := by simpa [except_pure_ok] using hmap
  exact ⟨ms, hms, by simp [hties, unseen]⟩

end Ordering

namespace Aggregation

variable {cx : Context} {ps : List Projection}

theorem field_columns_bare {kind : Aggregate} {fields : Json.Entries}
    (h : fieldColumns cx kind fields = .ok ps) : Projection.bareAll ps = [] := by
  induction fields generalizing ps with
  | nil =>
    cases h
    rfl
  | cons e rest ih =>
    obtain ⟨name, value⟩ := e
    rw [fieldColumns, except_bind_ok] at h
    obtain ⟨flag, _, h⟩ := h
    cases flag with
    | false =>
      simp only [Bool.false_eq_true, if_false, except_bind_ok, except_pure_ok] at h
      obtain ⟨_, rfl, later, hl, rfl⟩ := h
      exact ih hl
    | true =>
      by_cases hrows : (decide (name = rowsKey) && kind.isGlobal) = true
      · simp only [if_true, if_pos hrows, except_bind_ok, except_pure_ok] at h
        obtain ⟨_, rfl, later, hl, rfl⟩ := h
        rw [Projection.bare_all_append, ih hl]
        rfl
      · simp only [if_true, if_neg hrows, except_bind_ok, except_pure_ok] at h
        obtain ⟨f, _, _, rfl, later, hl, rfl⟩ := h
        rw [Projection.bare_all_append, ih hl]
        rfl

theorem payload_columns_bare {kind : Aggregate} {payload : Json}
    (h : payloadColumns cx kind payload = .ok ps) : Projection.bareAll ps = [] := by
  unfold payloadColumns at h
  split at h
  · split at h <;> cases h
    rfl
  · cases h
    rfl
  · exact field_columns_bare h
  · cases h

theorem columns_bare {args : Args} {kinds : List Aggregate}
    (h : columns cx args kinds = .ok ps) : Projection.bareAll ps = [] := by
  induction kinds generalizing ps with
  | nil =>
    cases h
    rfl
  | cons kind rest ih =>
    cases hp : args.aggregate kind with
    | none =>
      simp only [columns, hp, except_bind_ok, except_pure_ok] at h
      obtain ⟨_, rfl, later, hl, rfl⟩ := h
      exact ih hl
    | some payload =>
      simp only [columns, hp, except_bind_ok, except_pure_ok] at h
      obtain ⟨here, hh, later, hl, rfl⟩ := h
      rw [Projection.bare_all_append, payload_columns_bare hh, ih hl]
      rfl

theorem grouping_names {m : Model} {names : Option (List String)} {fields : List Field}
    (h : grouping m names = .ok fields) :
    names.getD [] ≠ [] ∧ fields.map (·.name) = names.getD [] := by
  simp only [grouping] at h
  split at h
  · simp only [except_bind_ok, except_throw_ok, false_and, exists_false] at h
  · rename_i hne
    exact ⟨fun hnil => hne (List.isEmpty_iff.mpr hnil), (Model.expect_fields_ok h).1⟩

theorem group_columns_bare {args : Args} (h : groupColumns cx args = .ok ps) :
    Projection.bareAll ps = Having.columnsOf cx (args.grouping.getD []) := by
  simp only [groupColumns, except_bind_ok, except_pure_ok] at h
  obtain ⟨fields, hfields, aggregates, ha, rfl⟩ := h
  rw [Projection.bare_all_append, columns_bare ha, List.append_nil, ← (grouping_names hfields).2]
  clear hfields
  induction fields with
  | nil => rfl
  | cons f rest ih => exact congrArg (Compile.column cx f :: ·) ih

end Aggregation

section

variable {s : Settings} {m : Model} {args : Args} {st : Statement} {b : Aliases}

theorem Ordering.group_by_mentions {grouped : List String} {items : List SortItem}
    (hcheck : args.check m.name .groupBy = .ok ())
    (h : Ordering.compile s (Context.atRoot m .groupBy args) args.orderBy (some grouped) =
      .ok items) :
    ∀ it ∈ items, it.key.bare ⊆ Having.columnsOf (Context.atRoot m .groupBy args) grouped := by
  have hdistinct : args.distinct = none := by
    simpa [Args.has] using Args.lacks hcheck .distinct rfl
  have hcursor : args.cursor = none := by simpa [Args.has] using Args.lacks hcheck .cursor rfl
  have hlead : Ordering.distinctFields (Context.atRoot m .groupBy args) = .ok [] := by
    have hnone : (Context.atRoot m .groupBy args).pagination?.bind (·.distinct) = none := hdistinct
    rw [Ordering.distinctFields, hnone]
  have hties : Ordering.breaksTies s (Context.atRoot m .groupBy args) = false := by
    cases htie : s.orderTiebreaker <;>
      simp [Ordering.breaksTies, htie, Context.atRoot, Operation.isRead]
  obtain ⟨ms, hms, rfl⟩ := Ordering.compile_mentions hlead hcursor hties h
  exact List.forall_mem_map.mpr (Ordering.mentions_bare hms)

theorem Read.group_by_grouped (hcheck : args.check m.name .groupBy = .ok ())
    (h : Read.groupBy s (Context.atRoot m .groupBy args) args ⟨1⟩ = .ok (st, b)) :
    ∃ columns body, st = .select columns [] body ∧ body.Grouped columns ∧
      args.grouping.getD [] ≠ [] ∧
      body.groupBy = (args.grouping.getD []).map (fun name => ⟨body.tag, name⟩) ∧
      ∀ name, Having.Names name (args.having.getD []) → name ∈ args.grouping.getD [] := by
  simp only [groupBy, columns, Compile.bind_ok, Compile.lift_ok, Compile.pure_ok] at h
  obtain ⟨grouping, _, ⟨hg, rfl⟩, ps, _, hps, p, _, _, having, _, ⟨hh, rfl⟩, orderBy, _,
    ⟨ho, rfl⟩, rfl, rfl⟩ := h
  obtain ⟨hne, hnames⟩ := Aggregation.grouping_names hg
  have hcolumns : grouping.map (Compile.column (Context.atRoot m .groupBy args)) =
      Having.columnsOf (Context.atRoot m .groupBy args) (args.grouping.getD []) := by
    rw [← hnames, Having.columnsOf, List.map_map]
    rfl
  refine ⟨_, _, rfl, ⟨?_, ?_, ?_⟩, hne, hcolumns, ?_⟩
  · rw [Aggregation.group_columns_bare (Compile.lift_ok.mp hps).1, hcolumns]
    exact List.Subset.refl _
  · rw [hcolumns, ← hnames]
    exact Having.compile_bare hh
  · rw [hcolumns, ← hnames]
    exact Ordering.group_by_mentions hcheck ho
  · intro name hname
    rw [← hnames]
    cases hhaving : args.having with
    | none =>
      rw [hhaving] at hname
      cases hname
    | some entries =>
      rw [hhaving] at hh hname
      obtain ⟨_, hps, -⟩ := except_map_ok.mp hh
      exact Having.grouped_of_names hname hps

end

theorem Compiler.group_by_ok {c : Compiler} {model : String} {args : Args} {prepared : Prepared}
    (h : c.compile model .groupBy args = .ok prepared) : ∃ columns body as,
      c.statement model .groupBy args = .ok (.select columns [] body, as) ∧
      prepared = ((Statement.select columns [] body).render c.dialect).prepare c.dialect ∧
      body.Grouped columns ∧ args.grouping.getD [] ≠ [] ∧
      body.groupBy = (args.grouping.getD []).map (fun name => ⟨body.tag, name⟩) ∧
      ∀ name, Having.Names name (args.having.getD []) → name ∈ args.grouping.getD [] := by
  obtain ⟨st, as, hst, rfl⟩ := compile_ok h
  obtain ⟨m, hm, hcheck, hread⟩ := statement_iff.mp hst
  obtain ⟨columns, body, rfl, hgrouped⟩ := Read.group_by_grouped hcheck hread
  exact ⟨columns, body, as, hst, rfl, hgrouped⟩

/-- A statement over groups reads, outside of aggregates, the columns that it groups by
and no others, which are the fields named in their order. A condition on a field not
named, outside of aggregates, is refused. -/
theorem groups_are_valid (c : Compiler) (model : String) (args : Args) :
    (∀ prepared, c.compile model .groupBy args = .ok prepared → ∃ columns body as,
      c.statement model .groupBy args = .ok (.select columns [] body, as) ∧
      prepared = ((Statement.select columns [] body).render c.dialect).prepare c.dialect ∧
      body.Grouped columns ∧ args.grouping.getD [] ≠ [] ∧
      body.groupBy = (args.grouping.getD []).map fun name => ⟨body.tag, name⟩) ∧
    ∀ name, Having.Names name (args.having.getD []) → name ∉ args.grouping.getD [] →
      ∃ e, c.compile model .groupBy args = .error e := by
  constructor
  · intro prepared h
    obtain ⟨columns, body, as, hst, hprepared, hgrouped, hne, hcolumns, -⟩ :=
      Compiler.group_by_ok h
    exact ⟨columns, body, as, hst, hprepared, hgrouped, hne, hcolumns⟩
  · intro name hname hout
    cases h : c.compile model .groupBy args with
    | error e => exact ⟨e, rfl⟩
    | ok prepared =>
      obtain ⟨_, _, _, _, _, _, _, _, hin⟩ := Compiler.group_by_ok h
      exact absurd (hin name hname) hout

namespace Sample

def ages : Args where
  grouping := some ["name", "age"]
  count := some (.bool true)
  having := some [("OR", .arr [
    .obj [("name", .obj [("not", .obj [("startsWith", .str "a")])])],
    .obj [("age", .obj [("gte", .num (.int 18)), ("_avg", .obj [("lt", .num (.int 65))])])]])]
  orderBy := some [[("age", .str "desc")], [("_count", .obj [("id", .str "asc")])]]

def ungrouped : Args :=
  { ages with having := some [("NOT", .obj [("id", .obj [("_max", .num (.int 7)),
      ("gt", .num (.int 1))])])] }

theorem ages_compile : ∃ prepared,
    (compiler .mysql).compile "User" .groupBy ages = .ok prepared := by
  have hcount : (((compiler .mysql).compile "User" .groupBy ages).map
      (·.params.length)).toOption = some 3 := by
    decide +kernel
  obtain ⟨prepared, hc, _⟩ := except_ok_of_read hcount
  exact ⟨prepared, hc⟩

end Sample

theorem sample_groups_are_valid :
    (∃ prepared columns body, (Sample.compiler .mysql).compile "User" .groupBy Sample.ages =
        .ok prepared ∧
      prepared = ((Statement.select columns [] body).render Dialect.mysql).prepare Dialect.mysql ∧
      body.Grouped columns ∧ body.groupBy = [⟨body.tag, "name"⟩, ⟨body.tag, "age"⟩]) ∧
    ∃ e, (Sample.compiler .mysql).compile "User" .groupBy Sample.ungrouped = .error e := by
  obtain ⟨prepared, hc⟩ := Sample.ages_compile
  obtain ⟨columns, body, -, -, hprepared, hgrouped, -, hcolumns⟩ :=
    (groups_are_valid (Sample.compiler .mysql) "User" Sample.ages).1 prepared hc
  refine ⟨⟨prepared, columns, body, hc, hprepared, hgrouped, hcolumns⟩, ?_⟩
  have hnames : Having.Names "id" (Sample.ungrouped.having.getD []) :=
    .object (c := .not) rfl (.here rfl ⟨("gt", .num (.int 1)), by simp, rfl⟩)
  exact (groups_are_valid (Sample.compiler .mysql) "User" Sample.ungrouped).2 "id" hnames
    (by decide)

end QuerySql
