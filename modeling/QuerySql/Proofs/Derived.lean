import QuerySql.Proofs.Building
import QuerySql.Proofs.Built
import QuerySql.Proofs.Agreement.Clauses
import QuerySql.Proofs.Parameters
import QuerySql.Proofs.Shifting

/-!
# Aggregates over a page

Where a query for aggregates picks a page, they are taken over a derived table that
holds the rows of the page. Beside the same query over all rows, nothing but the columns
of the derived table has to be worked out, and the aggregates are the same under another
alias.
-/

set_option autoImplicit false

namespace QuerySql

/-- The same arguments without a page. A cursor still bounds the rows. -/
def Args.unpaged (args : Args) : Args := { args with take := none, skip := none }

theorem Args.check_ok_iff {args : Args} {model : String} {op : Operation} :
    args.check model op = .ok () ↔ ∀ a, args.has a = true → op.accepts a = true := by
  refine ⟨Args.check_ok, fun h => ?_⟩
  unfold Args.check
  split
  · rename_i a hfound
    have hrefused := List.find?_some hfound
    rw [h a (List.mem_filter.mp (List.mem_of_find?_eq_some hfound)).2] at hrefused
    cases hrefused
  · rfl

theorem Args.check_unpaged {args : Args} {model : String} {op : Operation}
    (hop : op = .count ∨ op = .aggregate) :
    args.unpaged.check model op = .ok () ↔ args.check model op = .ok () := by
  have htake : op.accepts .take = true := by rcases hop with rfl | rfl <;> rfl
  have hskip : op.accepts .skip = true := by rcases hop with rfl | rfl <;> rfl
  rw [Args.check_ok_iff, Args.check_ok_iff]
  refine forall_congr' fun a => ?_
  cases a with
  | take => simp [htake]
  | skip => simp [hskip]
  | _ => rfl

theorem Context.at_root_unpaged (m : Model) {op : Operation} (args : Args)
    (hop : op.isMutation = false) :
    Context.atRoot m op args.unpaged = (Context.atRoot m op args).extended
      (.pagination { cursor := args.cursor, distinct := args.distinct }) := by
  simp only [Context.atRoot, hop]
  rfl

namespace Read

theorem filter_unpaged (s : Settings) (m : Model) {op : Operation} (args : Args)
    (hop : op.isMutation = false) :
    filter s (Context.atRoot m op args.unpaged) args.unpaged =
      filter s (Context.atRoot m op args) args := by
  have hplace : (Context.atRoot m op args).Shifted 0 0 (Context.atRoot m op args.unpaged) :=
    ⟨rfl, rfl, rfl⟩
  have hconditions : ∀ conditions, Filter.compile? s (Context.atRoot m op args.unpaged) conditions =
      Filter.compile? s (Context.atRoot m op args) conditions := by
    intro conditions
    cases conditions with
    | none => rfl
    | some entries => exact Filter.compile_at_same ⟨rfl, rfl⟩ hplace entries
  have hcursor : ∀ cursor, Keyset.compile (Context.atRoot m op args.unpaged) cursor args.orderBy =
      Keyset.compile (Context.atRoot m op args) cursor args.orderBy := fun _ => rfl
  unfold filter
  rw [Context.root_cursor m op _ hop, Context.root_cursor m op _ hop]
  simp only [Args.unpaged] at hconditions hcursor ⊢
  simp only [hconditions, hcursor]

end Read

/-- Only a page of records has its ties broken, so for aggregates the ordering is the
same with a page as without. -/
theorem Ordering.compile_unpaged (s : Settings) (m : Model) {op : Operation} (args : Args)
    (hop : op = .count ∨ op = .aggregate) (orderBy : Option (List Json.Entries)) :
    compile s (Context.atRoot m op args.unpaged) orderBy none =
      compile s (Context.atRoot m op args) orderBy none := by
  have hread : op.isRead = false := by rcases hop with rfl | rfl <;> rfl
  have hmutation : op.isMutation = false := by rcases hop with rfl | rfl <;> rfl
  have hties : ∀ args, breaksTies s (Context.atRoot m op args) = false := by
    intro args
    simp [breaksTies, Context.atRoot, hread]
  have hdistinct : distinctFields (Context.atRoot m op args.unpaged) =
      distinctFields (Context.atRoot m op args) := by
    rw [distinctFields, distinctFields]
    simp only [Context.atRoot, hmutation]
    rfl
  unfold compile
  simp only [hties, hdistinct, Context.root_cursor m op _ hmutation]
  simp only [Context.at_root_unpaged m args hmutation, mentions_extended, lead_items_extended]
  rfl

theorem Model.expect_fields_found {m : Model} {names : List String} :
    (∃ fields, names.mapM m.expectField = .ok fields) ↔ ∀ name ∈ names, name ∈ m.fieldNames := by
  constructor
  · rintro ⟨fields, h⟩
    obtain ⟨rfl, hmem⟩ := Model.expect_fields_ok h
    exact List.forall_mem_map.mpr fun f hf => List.mem_map_of_mem (hmem f hf)
  · intro h
    induction names with
    | nil => exact ⟨[], rfl⟩
    | cons name rest ih =>
      rw [List.forall_mem_cons] at h
      obtain ⟨fields, hfields⟩ := ih h.2
      obtain ⟨f, hf, -⟩ := Model.field_of_declared h.1
      refine ⟨f :: fields, ?_⟩
      rw [List.mapM_cons, Model.expectField, hf, hfields]
      rfl

/-- The columns that a selected column reads itself. -/
def Projection.read : Projection → List Column
  | .column c => [c]
  | .aggregate _ c _ => c.toList
  | .relation .. => []

theorem Projection.read_of_reads {cx : Context} {p : Projection} (h : p.Reads cx) :
    ∀ c ∈ p.read, c.Reads cx := by
  cases p with
  | column c => exact List.forall_mem_singleton.mpr h
  | aggregate _ c _ =>
    intro x hx
    exact h.1 x (Option.mem_toList.mp hx)
  | relation _ _ _ _ _ => cases h

def Projection.over (tag : Alias) : Projection → Projection
  | .column c => .column (c.rename fun _ => tag)
  | .aggregate kind c name => .aggregate kind (c.map (Column.rename fun _ => tag)) name
  | .relation name toMany fold columns body => .relation name toMany fold columns body

theorem Projection.read_over (tag : Alias) (p : Projection) :
    (p.over tag).read = p.read.map (Column.rename fun _ => tag) := by
  cases p with
  | column _ | relation _ _ _ _ _ => rfl
  | aggregate _ c _ => cases c <;> rfl

namespace Aggregation

variable {cx : Context} {args : Args} {kind : Aggregate} {ps : List Projection}

def resultColumns (cx : Context) (args : Args) : Except Error (List Projection) :=
  match cx.operation with
  | .count => countColumns cx args
  | _ => aggregateColumns cx args

theorem result_columns_read (h : resultColumns cx args = .ok ps) : Local cx ps := by
  unfold resultColumns at h
  split at h
  · exact count_columns_ok h
  · exact aggregate_columns_ok h

theorem except_append_map {α β : Type} (f : α → β) (x y : Except Error (List α)) :
    (do let here ← List.map f <$> x; let later ← List.map f <$> y; return here ++ later) =
      List.map f <$> (do let here ← x; let later ← y; return here ++ later) := by
  simp only [map_bind, bind_map_left, map_pure, List.map_append]

theorem payload_columns_over (cx : Context) (tag : Alias) (kind : Aggregate) (payload : Json) :
    payloadColumns (cx.withTag tag) kind payload =
      List.map (Projection.over tag) <$> payloadColumns cx kind payload := by
  have hfields : ∀ fields, fieldColumns (cx.withTag tag) kind fields =
      List.map (Projection.over tag) <$> fieldColumns cx kind fields := by
    intro fields
    induction fields with
    | nil => rfl
    | cons e rest ih =>
      obtain ⟨name, value⟩ := e
      rw [fieldColumns, fieldColumns, map_bind]
      congr 1
      funext set
      rw [ih]
      cases set with
      | false => exact except_append_map _ (pure []) _
      | true =>
        simp only [if_true]
        split
        · exact except_append_map _ (pure [Projection.aggregate kind none (columnName kind name)]) _
        · rw [map_bind]
          congr 1
          funext f
          exact except_append_map _
            (pure [Projection.aggregate kind (some (Compile.column cx f)) (columnName kind name)]) _
  cases payload with
  | obj fields => exact hfields fields
  | bool set =>
    cases set with
    | false => rfl
    | true =>
      simp only [payloadColumns]
      split <;> rfl
  | null | num _ | str _ | arr _ => rfl

theorem columns_over (cx : Context) (tag : Alias) (args : Args) (kinds : List Aggregate) :
    columns (cx.withTag tag) args kinds =
      List.map (Projection.over tag) <$> columns cx args kinds := by
  induction kinds with
  | nil => rfl
  | cons kind rest ih =>
    rw [columns, columns, ih]
    cases args.aggregate kind with
    | none => exact except_append_map _ (pure []) _
    | some payload =>
      simp only [payload_columns_over]
      exact except_append_map _ _ _

theorem result_columns_over (cx : Context) (tag : Alias) (args : Args) :
    resultColumns (cx.withTag tag) args =
      List.map (Projection.over tag) <$> resultColumns cx args := by
  have hempty : ∀ ps : List Projection, (ps.map (Projection.over tag)).isEmpty = ps.isEmpty := by
    intro ps
    cases ps <;> rfl
  unfold resultColumns countColumns aggregateColumns
  simp only [columns_over, payload_columns_over, bind_map_left, hempty]
  have hop : (cx.withTag tag).operation = cx.operation := rfl
  rw [hop]
  split <;>
  · rw [map_bind]
    congr 1
    funext ps
    split <;> rfl

theorem result_columns_unpaged (m : Model) {op : Operation} (args : Args)
    (hop : op.isMutation = false) :
    resultColumns (Context.atRoot m op args.unpaged) args.unpaged =
      resultColumns (Context.atRoot m op args) args := by
  have hpayloads : args.unpaged.aggregate = args.aggregate := by
    funext kind
    cases kind <;> rfl
  have hcount : args.unpaged.count = args.count := rfl
  rw [Context.at_root_unpaged m args hop]
  unfold resultColumns countColumns aggregateColumns
  simp only [columns_extended _ _ hpayloads, payload_columns_extended, hcount]
  rfl

theorem field_columns_cons {name : String} {value : Json} {rest : Json.Entries}
    (h : fieldColumns cx kind ((name, value) :: rest) = .ok ps) :
    ∃ set here later, value = .bool set ∧ fieldColumns cx kind rest = .ok later ∧
      ps = here ++ later ∧ here.map (·.name) = (if set then [columnName kind name] else []) ∧
        (set = true → name = rowsKey ∨ name ∈ cx.model.fieldNames) ∧
          ∀ p ∈ here, ∀ c ∈ p.read, c.name = name := by
  rw [fieldColumns, except_bind_ok] at h
  obtain ⟨set, hflag, h⟩ := h
  have hvalue : value = .bool set := by
    cases value <;> cases hflag
    rfl
  cases set with
  | false =>
    simp only [Bool.false_eq_true, if_false, except_bind_ok, except_pure_ok] at h
    obtain ⟨_, rfl, later, hl, rfl⟩ := h
    exact ⟨_, _, _, hvalue, hl, rfl, rfl, by simp, List.forall_mem_nil _⟩
  | true =>
    by_cases hrows : (decide (name = rowsKey) && kind.isGlobal) = true
    · simp only [if_true, if_pos hrows, except_bind_ok, except_pure_ok] at h
      obtain ⟨_, rfl, later, hl, rfl⟩ := h
      simp only [Bool.and_eq_true, decide_eq_true_eq] at hrows
      exact ⟨_, _, _, hvalue, hl, rfl, rfl, fun _ => .inl hrows.1, by simp [Projection.read]⟩
    · simp only [if_true, if_neg hrows, except_bind_ok, except_pure_ok] at h
      obtain ⟨f, hf, _, rfl, later, hl, rfl⟩ := h
      obtain ⟨hmem, rfl⟩ := field_ok hf
      exact ⟨_, _, _, hvalue, hl, rfl, rfl, fun _ => .inr (List.mem_map_of_mem hmem),
        by simp [Projection.read, Compile.column]⟩

/-- The entries of a payload are flags, those that are set stand for rows or for declared
fields, and its columns read nothing that it does not name. -/
theorem field_columns_named {fields : Json.Entries} (h : fieldColumns cx kind fields = .ok ps) :
    (∀ e ∈ fields, ∃ set, e.2 = .bool set ∧
      (set = true → e.1 = rowsKey ∨ e.1 ∈ cx.model.fieldNames)) ∧
        ∀ p ∈ ps, ∀ c ∈ p.read, c.name ∈ fields.keys := by
  induction fields generalizing ps with
  | nil =>
    cases h
    exact ⟨List.forall_mem_nil _, List.forall_mem_nil _⟩
  | cons e rest ih =>
    obtain ⟨set, here, later, hvalue, hl, rfl, -, hdeclared, hhere⟩ := field_columns_cons h
    obtain ⟨hflags, hlater⟩ := ih hl
    refine ⟨List.forall_mem_cons.mpr ⟨⟨set, hvalue, hdeclared⟩, hflags⟩, ?_⟩
    refine List.forall_mem_append.mpr ⟨fun p hp c hc => ?_, fun p hp c hc => ?_⟩
    · rw [hhere p hp c hc]
      exact List.mem_cons_self
    · exact List.mem_cons_of_mem _ (hlater p hp c hc)

/-- The payloads hold flags, those that are set stand for rows or for declared fields,
and the columns read nothing that no payload names. -/
structure Accepted (cx : Context) (args : Args) (kinds : List Aggregate) (ps : List Projection) :
    Prop where
  flags : ∀ kind ∈ kinds, ∀ fields, args.aggregate kind = some (.obj fields) → ∀ e ∈ fields,
    ∃ set, e.2 = .bool set ∧ (set = true → e.1 = rowsKey ∨ e.1 ∈ cx.model.fieldNames)
  columns : ∀ p ∈ ps, ∀ c ∈ p.read, ∃ (kind : Aggregate) (fields : Json.Entries),
    args.aggregate kind = some (.obj fields) ∧ c.name ∈ fields.keys

theorem accepted_of_payload {payload : Json} (hpayload : args.aggregate kind = some payload)
    (h : payloadColumns cx kind payload = .ok ps) : Accepted cx args [kind] ps := by
  cases payload with
  | obj fields =>
    obtain ⟨hflags, hcolumns⟩ := field_columns_named h
    refine ⟨List.forall_mem_singleton.mpr fun fields' hfields => ?_, fun p hp c hc => ?_⟩
    · rw [hpayload] at hfields
      cases hfields
      exact hflags
    · exact ⟨kind, fields, hpayload, hcolumns p hp c hc⟩
  | bool set =>
    refine ⟨List.forall_mem_singleton.mpr fun fields hfields => ?_, fun p hp c hc => ?_⟩
    · rw [hpayload] at hfields
      cases hfields
    · cases set with
      | false =>
        cases h
        cases hp
      | true =>
        simp only [payloadColumns] at h
        split at h
        · cases h
          rw [List.mem_singleton.mp hp] at hc
          cases hc
        · cases h
  | null | num _ | str _ | arr _ => cases h

theorem accepted_of_columns {kinds : List Aggregate} (h : columns cx args kinds = .ok ps) :
    Accepted cx args kinds ps := by
  induction kinds generalizing ps with
  | nil =>
    cases h
    exact ⟨List.forall_mem_nil _, List.forall_mem_nil _⟩
  | cons kind rest ih =>
    rw [columns] at h
    cases hpayload : args.aggregate kind with
    | none =>
      simp only [hpayload, except_bind_ok, except_pure_ok] at h
      obtain ⟨_, rfl, later, hl, rfl⟩ := h
      refine ⟨List.forall_mem_cons.mpr ⟨fun fields hfields => ?_, (ih hl).flags⟩, (ih hl).columns⟩
      rw [hpayload] at hfields
      cases hfields
    | some payload =>
      simp only [hpayload, except_bind_ok, except_pure_ok] at h
      obtain ⟨here, hh, later, hl, rfl⟩ := h
      have hhere := accepted_of_payload hpayload hh
      exact ⟨List.forall_mem_cons.mpr ⟨hhere.flags kind List.mem_cons_self, (ih hl).flags⟩,
        List.forall_mem_append.mpr ⟨hhere.columns, (ih hl).columns⟩⟩

theorem Accepted.widen {kinds : List Aggregate} (h : Accepted cx args kinds ps)
    (hothers : ∀ kind ∉ kinds, args.aggregate kind = none) (more : List Aggregate) :
    Accepted cx args more ps where
  flags := by
    intro kind _ fields hfields
    by_cases hkind : kind ∈ kinds
    · exact h.flags kind hkind fields hfields
    · rw [hothers kind hkind] at hfields
      cases hfields
  columns := h.columns

theorem accepted_of_count (hothers : ∀ kind ≠ .count, args.aggregate kind = none)
    (h : countColumns cx args = .ok ps) : Accepted cx args Aggregate.all ps := by
  simp only [countColumns, except_bind_ok] at h
  obtain ⟨columns, hpayload, h⟩ := h
  split at h
  · simp only [except_bind_ok, except_throw_ok, false_and, exists_false] at h
  · cases h
    cases hcount : args.aggregate .count with
    | none =>
      have hnone : args.count = none := hcount
      rw [hnone] at hpayload
      cases hpayload
      have hrows : Accepted cx args [] [.aggregate .count none Aggregate.count.key] :=
        ⟨List.forall_mem_nil _, by simp [Projection.read]⟩
      refine hrows.widen (fun kind _ => ?_) _
      by_cases hkind : kind = .count
      · exact hkind ▸ hcount
      · exact hothers kind hkind
    | some payload =>
      have hsome : args.count = some payload := hcount
      rw [hsome] at hpayload
      exact (accepted_of_payload hcount hpayload).widen
        (fun kind hkind => hothers kind (mt List.mem_singleton.mpr hkind)) _

theorem accepted_of_result {m : Model} {op : Operation} (hop : op = .count ∨ op = .aggregate)
    (hcheck : args.check m.name op = .ok ())
    (h : resultColumns (Context.atRoot m op args) args = .ok ps) :
    Accepted (Context.atRoot m op args) args Aggregate.all ps := by
  rcases hop with rfl | rfl
  · refine accepted_of_count (fun kind hkind => ?_) h
    have hrefused : Operation.accepts .count (.aggregate kind) = false := by
      cases kind <;> first | rfl | exact absurd rfl hkind
    simpa [Args.has] using Args.lacks hcheck _ hrefused
  · have hcolumns : aggregateColumns (Context.atRoot m .aggregate args) args = .ok ps := h
    simp only [aggregateColumns, except_bind_ok] at hcolumns
    obtain ⟨columns, hcolumns, h⟩ := hcolumns
    split at h
    · simp only [except_bind_ok, except_throw_ok, false_and, exists_false] at h
    · cases h
      exact accepted_of_columns hcolumns

def gathered (args : Args) (pick : Json.Entries → List String) : List String :=
  Aggregate.all.flatMap fun kind =>
    match args.aggregate kind with
    | some (.obj fields) => pick fields
    | _ => []

theorem mem_gathered {pick : Json.Entries → List String} {name : String} :
    name ∈ gathered args pick ↔ ∃ (kind : Aggregate) (fields : Json.Entries),
      args.aggregate kind = some (.obj fields) ∧ name ∈ pick fields := by
  unfold gathered
  rw [List.mem_flatMap]
  constructor
  · rintro ⟨kind, -, hname⟩
    split at hname
    · rename_i fields hfields
      exact ⟨kind, fields, hfields, hname⟩
    · cases hname
  · rintro ⟨kind, fields, hfields, hname⟩
    refine ⟨kind, by cases kind <;> decide, ?_⟩
    rwa [hfields]

theorem mentioned_eq (args : Args) :
    mentioned args = gathered args fun fields => fields.keys.filter (· ≠ rowsKey) := rfl

theorem mem_mentioned {name : String} : name ∈ mentioned args ↔
    ∃ (kind : Aggregate) (fields : Json.Entries), args.aggregate kind = some (.obj fields) ∧
      name ∈ fields.keys ∧ name ≠ rowsKey := by
  simp only [mentioned_eq, mem_gathered, List.mem_filter, decide_eq_true_eq]

def isOff : Json → Bool
  | .bool false => true
  | _ => false

theorem eq_of_off {value : Json} (h : isOff value = true) : value = .bool false := by
  unfold isOff at h
  split at h
  · rfl
  · cases h

/-- The field names that the payloads mention without asking for them, whole rows apart. -/
def unset (args : Args) : List String :=
  gathered args fun fields => (Json.Entries.keys (fields.filter (isOff ·.2))).filter (· ≠ rowsKey)

theorem mem_unset {name : String} : name ∈ unset args ↔
    ∃ (kind : Aggregate) (fields : Json.Entries), args.aggregate kind = some (.obj fields) ∧
      (name, .bool false) ∈ fields ∧ name ≠ rowsKey := by
  have hoff : ∀ fields : Json.Entries,
      name ∈ Json.Entries.keys (fields.filter (isOff ·.2)) ↔ (name, .bool false) ∈ fields := by
    intro fields
    rw [Json.Entries.keys, List.mem_map]
    constructor
    · rintro ⟨e, he, rfl⟩
      obtain ⟨hmem, hvalue⟩ := List.mem_filter.mp he
      rwa [← eq_of_off hvalue]
    · exact fun he => ⟨_, List.mem_filter.mpr ⟨he, rfl⟩, rfl⟩
  simp only [unset, mem_gathered, List.mem_filter, decide_eq_true_eq, hoff]

theorem Accepted.declared_iff (h : Accepted cx args Aggregate.all ps) :
    (∀ name ∈ mentioned args, name ∈ cx.model.fieldNames) ↔
      ∀ name ∈ unset args, name ∈ cx.model.fieldNames := by
  constructor
  · intro hdeclared name hname
    obtain ⟨kind, fields, hfields, hmem, hrows⟩ := mem_unset.mp hname
    exact hdeclared name
      (mem_mentioned.mpr ⟨kind, fields, hfields, List.mem_map_of_mem hmem, hrows⟩)
  · intro hunset name hname
    obtain ⟨kind, fields, hfields, hkey, hrows⟩ := mem_mentioned.mp hname
    obtain ⟨⟨_, value⟩, he, rfl⟩ := List.mem_map.mp hkey
    obtain ⟨set, rfl, hset⟩ := h.flags kind (by cases kind <;> decide) fields hfields _ he
    cases set with
    | false => exact hunset _ (mem_unset.mpr ⟨kind, fields, hfields, he, hrows⟩)
    | true => exact (hset rfl).resolve_left hrows

theorem mentioned_fields_found {m : Model} : (∃ fields, mentionedFields m args = .ok fields) ↔
    ∀ name ∈ mentioned args, name ∈ m.fieldNames := by
  rw [← Model.expect_fields_found]
  simp only [mentionedFields, except_bind_ok, except_pure_ok]
  constructor
  · rintro ⟨_, fields, hfields, -⟩
    exact ⟨fields, hfields⟩
  · rintro ⟨fields, hfields⟩
    exact ⟨_, fields, hfields, rfl⟩

theorem kept_names (found kept : List Field) (hkept : (kept.map (·.name)).Nodup) :
    let all := found.foldl
      (fun kept f => if kept.any (·.name = f.name) then kept else kept ++ [f]) kept
    (all.map (·.name)).Nodup ∧ ∀ name, name ∈ all.map (·.name) ↔
      name ∈ kept.map (·.name) ∨ name ∈ found.map (·.name) := by
  induction found generalizing kept with
  | nil => exact ⟨hkept, by simp⟩
  | cons f rest ih =>
    have hin : kept.any (·.name = f.name) = true ↔ f.name ∈ kept.map (·.name) := by
      simp
    rw [List.foldl_cons]
    split
    · rename_i hseen
      obtain ⟨hnodup, hmem⟩ := ih kept hkept
      refine ⟨hnodup, fun name => ?_⟩
      have hknown : name = f.name → name ∈ kept.map (·.name) := by
        rintro rfl
        exact hin.mp hseen
      rw [hmem, List.map_cons, List.mem_cons]
      tauto
    · rename_i hnew
      have hmore : ((kept ++ [f]).map (·.name)).Nodup := by
        rw [List.map_append, List.map_singleton]
        refine List.nodup_append.mpr ⟨hkept, by simp, fun name hname other hother => ?_⟩
        rw [List.mem_singleton.mp hother]
        exact fun heq => hnew (hin.mpr (heq ▸ hname))
      obtain ⟨hnodup, hmem⟩ := ih (kept ++ [f]) hmore
      refine ⟨hnodup, fun name => ?_⟩
      rw [hmem, List.map_append, List.mem_append, List.map_singleton, List.mem_singleton,
        List.map_cons, List.mem_cons, or_assoc]

theorem mentioned_fields_names {m : Model} {fields : List Field}
    (h : mentionedFields m args = .ok fields) : (fields.map (·.name)).Nodup ∧
      ∀ name, name ∈ fields.map (·.name) ↔ name ∈ mentioned args := by
  simp only [mentionedFields, except_bind_ok, except_pure_ok] at h
  obtain ⟨found, hfound, rfl⟩ := h
  obtain ⟨hnodup, hmem⟩ := kept_names found [] List.nodup_nil
  refine ⟨hnodup, fun name => ?_⟩
  rw [hmem, (Model.expect_fields_ok hfound).1]
  simp

end Aggregation

namespace Read

variable {s : Settings} {cx : Context} {args : Args} {st : Statement} {a b : Aliases}

theorem columns_of_aggregate (s : Settings) {cx : Context} (args : Args)
    (hop : cx.operation = .count ∨ cx.operation = .aggregate) :
    columns s cx args = liftM (Aggregation.resultColumns cx args) := by
  unfold columns Aggregation.resultColumns
  rcases hop with hop | hop <;> rw [hop]

theorem page_columns_found : (∃ page, pageColumns cx args = .ok page) ↔
    ∀ name ∈ Aggregation.mentioned args, name ∈ cx.model.fieldNames := by
  rw [← Aggregation.mentioned_fields_found]
  simp only [pageColumns, except_bind_ok, except_pure_ok]
  constructor
  · rintro ⟨_, fields, hfields, -⟩
    exact ⟨fields, hfields⟩
  · rintro ⟨fields, hfields⟩
    exact ⟨_, fields, hfields, rfl⟩

theorem page_columns_feed {page : List Column} (hid : ∃ f ∈ cx.model.fields, f.id = true)
    (hnames : cx.model.fieldNames.Nodup) (h : pageColumns cx args = .ok page) :
    page ≠ [] ∧ page.Nodup ∧ ∀ name ∈ Aggregation.mentioned args, ⟨cx.tag, name⟩ ∈ page := by
  simp only [pageColumns, except_bind_ok, except_pure_ok] at h
  obtain ⟨fields, hfields, rfl⟩ := h
  obtain ⟨hnodup, hmem⟩ := Aggregation.mentioned_fields_names hfields
  have hdistinct : ∀ {fs : List Field}, (fs.map (·.name)).Nodup →
      (fs.map (Compile.column cx)).Nodup := by
    intro fs hfs
    have hmapped : ((fs.map (Compile.column cx)).map (·.name)).Nodup := by rwa [List.map_map]
    exact List.Pairwise.of_map _ (fun c c' hne heq => hne (congrArg Column.name heq)) hmapped
  split
  · rename_i hempty
    rw [List.isEmpty_iff] at hempty
    subst hempty
    obtain ⟨f, hf, hidf⟩ := hid
    have hkept : f ∈ cx.model.identifiers := List.mem_filter.mpr ⟨hf, hidf⟩
    refine ⟨List.ne_nil_of_mem (List.mem_map_of_mem hkept), hdistinct ?_, fun name hname => ?_⟩
    · exact hnames.sublist (List.filter_sublist.map _)
    · exact absurd ((hmem name).mpr hname) List.not_mem_nil
  · rename_i hsome
    refine ⟨fun hnil => hsome ?_, hdistinct hnodup, fun name hname => ?_⟩
    · rw [List.map_eq_nil_iff.mp hnil]
      rfl
    · obtain ⟨f, hf, rfl⟩ := List.mem_map.mp ((hmem name).mpr hname)
      exact List.mem_map_of_mem hf

theorem aggregate_plain (hop : cx.operation = .count ∨ cx.operation = .aggregate)
    (hpage : (args.take.isNone && args.skip.isNone) = true) :
    aggregate s cx args a = .ok (st, b) ↔ ∃ p items ps, filter s cx args a = .ok (p, b) ∧
      Ordering.compile s cx args.orderBy none = .ok items ∧
      Aggregation.resultColumns cx args = .ok ps ∧
      st = .select ps [] { table := cx.model.tableName, tag := cx.tag, filter := p } := by
  simp only [aggregate, columns_of_aggregate s args hop, Compile.bind_ok, Compile.lift_ok,
    if_pos hpage, Compile.pure_ok]
  constructor
  · rintro ⟨p, _, hp, items, _, ⟨hitems, rfl⟩, ps, _, ⟨hps, rfl⟩, rfl, rfl⟩
    exact ⟨p, items, ps, hp, hitems, hps, rfl⟩
  · rintro ⟨p, items, ps, hp, hitems, hps, rfl⟩
    exact ⟨p, _, hp, items, _, ⟨hitems, rfl⟩, ps, _, ⟨hps, rfl⟩, rfl, rfl⟩

theorem aggregate_paged (hop : cx.operation = .count ∨ cx.operation = .aggregate)
    (hpage : ¬(args.take.isNone && args.skip.isNone) = true) :
    aggregate s cx args a = .ok (st, b) ↔ ∃ p d items page ps,
      filter s cx args a = .ok (p, d) ∧ Ordering.compile s cx args.orderBy none = .ok items ∧
      pageColumns cx args = .ok page ∧ Aggregation.resultColumns cx args = .ok ps ∧
      b = ⟨d.used + 1⟩ ∧ st = .overPage (ps.map (Projection.over ⟨d.used⟩)) ⟨d.used⟩ page
        { table := cx.model.tableName, tag := cx.tag, filter := p, orderBy := items,
          take := args.take, skip := args.skip } := by
  have houter : ∀ tag, columns s (cx.withTag tag) args =
      liftM (List.map (Projection.over tag) <$> Aggregation.resultColumns cx args) := by
    intro tag
    rw [← Aggregation.result_columns_over]
    exact columns_of_aggregate s args hop
  simp only [aggregate, houter, Compile.bind_ok, Compile.lift_ok, if_neg hpage, Compile.fresh_ok,
    Compile.pure_ok, except_map_ok]
  constructor
  · rintro ⟨p, d, hp, items, _, ⟨hitems, rfl⟩, page, _, ⟨hpage, rfl⟩, _, _, ⟨rfl, rfl⟩, _, _,
      ⟨⟨ps, hps, rfl⟩, rfl⟩, rfl, rfl⟩
    exact ⟨p, _, items, page, ps, hp, hitems, hpage, hps, rfl, rfl⟩
  · rintro ⟨p, d, items, page, ps, hp, hitems, hpage, hps, rfl, rfl⟩
    exact ⟨p, d, hp, items, _, ⟨hitems, rfl⟩, page, _, ⟨hpage, rfl⟩, _, _, ⟨rfl, rfl⟩, _, _,
      ⟨⟨ps, hps, rfl⟩, rfl⟩, rfl, rfl⟩

end Read

namespace Compiler

variable {c : Compiler} {model : String} {op : Operation} {args : Args}

theorem compile_found : (∃ prepared, c.compile model op args = .ok prepared) ↔
    ∃ st b, c.statement model op args = .ok (st, b) := by
  simp only [compile, except_bind_ok, except_pure_ok]
  constructor
  · rintro ⟨_, ⟨st, b⟩, hst, -⟩
    exact ⟨st, b, hst⟩
  · rintro ⟨st, b, hst⟩
    exact ⟨_, ⟨st, b⟩, hst, rfl⟩

theorem aggregate_at (s : Settings) {cx : Context}
    (hop : cx.operation = .count ∨ cx.operation = .aggregate) :
    compileAt s args cx = Read.aggregate s cx args := by
  unfold compileAt
  rcases hop with hop | hop <;> rw [hop]

/-- What a query for aggregates compiles to, over a page as over all rows. -/
structure Aggregates (c : Compiler) (m : Model) (op : Operation) (args : Args) (p : Option Pred)
    (b : Aliases) (items : List SortItem) (ps : List Projection) : Prop where
  checked : args.check m.name op = .ok ()
  filter : Read.filter c.settings (Context.atRoot m op args) args ⟨1⟩ = .ok (p, b)
  order : Ordering.compile c.settings (Context.atRoot m op args) args.orderBy none = .ok items
  columns : Aggregation.resultColumns (Context.atRoot m op args) args = .ok ps

theorem statement_unpaged (hop : op = .count ∨ op = .aggregate) {st : Statement} {b : Aliases} :
    c.statement model op args.unpaged = .ok (st, b) ↔ ∃ m p items ps,
      c.schema.model? model = some m ∧ c.Aggregates m op args p b items ps ∧
        st = .select ps [] { table := m.tableName, tag := ⟨0⟩, filter := p } := by
  have hmutation : op.isMutation = false := by rcases hop with rfl | rfl <;> rfl
  rw [statement_iff]
  refine exists_congr fun m => ?_
  have hstart : (Context.atRoot m op args.unpaged).operation = .count ∨
      (Context.atRoot m op args.unpaged).operation = .aggregate := hop
  rw [aggregate_at c.settings hstart, Read.aggregate_plain hstart rfl, Args.check_unpaged hop,
    Read.filter_unpaged c.settings m args hmutation,
    Aggregation.result_columns_unpaged m args hmutation]
  constructor
  · rintro ⟨hm, hcheck, p, items, ps, hp, hitems, hps, rfl⟩
    rw [Ordering.compile_unpaged c.settings m args hop] at hitems
    exact ⟨p, items, ps, hm, ⟨hcheck, hp, hitems, hps⟩, rfl⟩
  · rintro ⟨p, items, ps, hm, ⟨hcheck, hp, hitems, hps⟩, rfl⟩
    rw [← Ordering.compile_unpaged c.settings m args hop] at hitems
    exact ⟨hm, hcheck, p, items, ps, hp, hitems, hps, rfl⟩

theorem statement_paged (hop : op = .count ∨ op = .aggregate)
    (hpaged : args.take.isSome = true ∨ args.skip.isSome = true) {st : Statement} {b : Aliases} :
    c.statement model op args = .ok (st, b) ↔ ∃ m p d items ps page,
      c.schema.model? model = some m ∧ c.Aggregates m op args p d items ps ∧
        Read.pageColumns (Context.atRoot m op args) args = .ok page ∧ b = ⟨d.used + 1⟩ ∧
        st = .overPage (ps.map (Projection.over ⟨d.used⟩)) ⟨d.used⟩ page
          { table := m.tableName, tag := ⟨0⟩, filter := p, orderBy := items, take := args.take,
            skip := args.skip } := by
  have hpage : ¬(args.take.isNone && args.skip.isNone) = true := by
    rcases hpaged with htake | hskip
    · simp [Option.isSome_iff_ne_none.mp htake]
    · simp [Option.isSome_iff_ne_none.mp hskip]
  rw [statement_iff]
  refine exists_congr fun m => ?_
  have hstart : (Context.atRoot m op args).operation = .count ∨
      (Context.atRoot m op args).operation = .aggregate := hop
  rw [aggregate_at c.settings hstart, Read.aggregate_paged hstart hpage]
  constructor
  · rintro ⟨hm, hcheck, p, d, items, page, ps, hp, hitems, hpage, hps, rfl, rfl⟩
    exact ⟨p, d, items, ps, page, hm, ⟨hcheck, hp, hitems, hps⟩, hpage, rfl, rfl⟩
  · rintro ⟨p, d, items, ps, page, hm, ⟨hcheck, hp, hitems, hps⟩, hpage, rfl, rfl⟩
    exact ⟨hm, hcheck, p, d, items, page, ps, hp, hitems, hpage, hps, rfl, rfl⟩

theorem Aggregates.accepted {m : Model} {p : Option Pred} {b : Aliases} {items : List SortItem}
    {ps : List Projection} (hop : op = .count ∨ op = .aggregate)
    (h : c.Aggregates m op args p b items ps) :
    Aggregation.Accepted (Context.atRoot m op args) args Aggregate.all ps :=
  Aggregation.accepted_of_result hop h.checked h.columns

end Compiler

theorem Schema.sound_of_build {b : Schema.Builder} {schema : Schema}
    (h : b.build.1 = .ok schema) : Schema.Sound schema.models := by
  rcases Schema.of_models_decides (b.models.map b.placed) with ⟨hsound, hbuild⟩ | ⟨-, flaw, hbuild⟩
  · obtain rfl : (⟨b.models.map b.placed⟩ : Schema) = schema :=
      Except.ok.inj (hbuild.symm.trans h)
    exact hsound
  · cases hbuild.symm.trans h

/-- A query for aggregates over a page is accepted exactly if it is over all rows, and
every field that a payload mentions without asking for it is declared. Over all rows such
a field is not looked up. -/
theorem page_is_accepted_as_rows (c : Compiler) (model : String) (op : Operation) (args : Args)
    (hop : op = .count ∨ op = .aggregate)
    (hpaged : args.take.isSome = true ∨ args.skip.isSome = true) :
    (∃ prepared, c.compile model op args = .ok prepared) ↔
      (∃ prepared, c.compile model op args.unpaged = .ok prepared) ∧
        ∀ m, c.schema.model? model = some m →
          ∀ name ∈ Aggregation.unset args, name ∈ m.fieldNames := by
  simp only [Compiler.compile_found, Compiler.statement_paged hop hpaged,
    Compiler.statement_unpaged hop]
  constructor
  · rintro ⟨_, _, m, p, d, items, ps, page, hm, haggregates, hpage, rfl, rfl⟩
    refine ⟨⟨_, _, m, p, items, ps, hm, haggregates, rfl⟩, fun m' hm' => ?_⟩
    obtain rfl : m = m' := Option.some.inj (hm.symm.trans hm')
    exact (haggregates.accepted hop).declared_iff.mp (Read.page_columns_found.mp ⟨page, hpage⟩)
  · rintro ⟨⟨_, _, m, p, items, ps, hm, haggregates, rfl⟩, hdeclared⟩
    obtain ⟨page, hpage⟩ := Read.page_columns_found.mpr
      ((haggregates.accepted hop).declared_iff.mpr (hdeclared m hm))
    exact ⟨_, _, m, p, _, items, ps, page, hm, haggregates, hpage, rfl, rfl⟩

namespace Sample

def elders : Args where
  orderBy := some [[("age", .str "desc")]]
  take := some 5
  count := some (.obj [("_all", .bool true), ("name", .bool false)])
  sum := some (.obj [("age", .bool true)])
  max := some (.obj [("age", .bool true), ("id", .bool true)])

theorem elders_unpaged_compile :
    ∃ prepared, (compiler .postgresql).compile "User" .aggregate elders.unpaged = .ok prepared := by
  have hcount : (((compiler .postgresql).compile "User" .aggregate elders.unpaged).map
      (·.params.length)).toOption = some 0 := by
    decide +kernel
  obtain ⟨prepared, hc, _⟩ := except_ok_of_read hcount
  exact ⟨prepared, hc⟩

def strayFlag : Args where
  take := some 5
  count := some (.obj [("nope", .bool false), ("id", .bool true)])

end Sample

theorem sample_page_is_accepted_as_rows :
    ∃ prepared, (Sample.compiler .postgresql).compile "User" .aggregate Sample.elders =
      .ok prepared := by
  refine (page_is_accepted_as_rows (Sample.compiler .postgresql) "User" .aggregate Sample.elders
    (.inr rfl) (.inl rfl)).mpr ⟨Sample.elders_unpaged_compile, fun m hm => ?_⟩
  obtain rfl : m = Sample.user := (Option.some.inj hm).symm
  decide

/-- Over all rows a flag that is off is passed by, over a page its field is looked up. -/
theorem stray_flag_refuses_page :
    (Schema.Builder.build ⟨none, Sample.schema.models⟩).1 = .ok Sample.schema ∧
    (∃ prepared, (Sample.compiler .postgresql).compile "User" .count Sample.strayFlag.unpaged =
      .ok prepared) ∧
    ∃ error, (Sample.compiler .postgresql).compile "User" .count Sample.strayFlag =
      .error error := by
  exact ⟨rfl, ⟨_, by with_unfolding_all rfl⟩, ⟨_, by with_unfolding_all rfl⟩⟩

/-- The derived table of a page has some columns and none twice, and the aggregates over
it read no others, but for a field that has the name of whole rows. Under the other alias
they are the aggregates over all rows. -/
theorem page_feeds_aggregates (c : Compiler) (b : Schema.Builder)
    (hbuild : b.build.1 = .ok c.schema) (hmade : ∀ m ∈ b.models, m.Made) (model : String)
    (op : Operation) (args : Args) (prepared : Prepared) (hop : op = .count ∨ op = .aggregate)
    (hpaged : args.take.isSome = true ∨ args.skip.isSome = true)
    (h : c.compile model op args = .ok prepared) :
    ∃ m columns tag page body as bs, c.schema.model? model = some m ∧
      c.statement model op args =
        .ok (.overPage (columns.map (Projection.over tag)) tag page body, as) ∧
      prepared = ((Statement.overPage (columns.map (Projection.over tag)) tag page body).render
        c.dialect).prepare c.dialect ∧
      c.statement model op args.unpaged = .ok (.select columns []
        { table := body.table, tag := body.tag, filter := body.filter }, bs) ∧
      page ≠ [] ∧ page.Nodup ∧
      ∀ q ∈ columns.map (Projection.over tag), ∀ col ∈ q.read,
        col.tag = tag ∧ col.name ∈ m.fieldNames ∧
          (col.name ≠ Aggregation.rowsKey → ⟨body.tag, col.name⟩ ∈ page) := by
  obtain ⟨st, as, hst, rfl⟩ := Compiler.compile_ok h
  obtain ⟨m, p, d, items, ps, page, hm, haggregates, hpage, rfl, rfl⟩ :=
    (Compiler.statement_paged hop hpaged).mp hst
  have hmem := Schema.model_mem hm
  have hid := ((Schema.sound_of_build hbuild).models m hmem).identified
  have hnames := (List.nodup_append.mp (Schema.member_names_nodup hbuild hmade m hmem)).1
  obtain ⟨hsome, hnodup, hfed⟩ := Read.page_columns_feed hid hnames hpage
  refine ⟨m, ps, ⟨d.used⟩, page, _, _, d, hm, hst, rfl, ?_, hsome, hnodup, ?_⟩
  · exact (Compiler.statement_unpaged hop).mpr ⟨m, p, items, ps, hm, haggregates, rfl⟩
  · intro q hq col hcol
    obtain ⟨plain, hplain, rfl⟩ := List.mem_map.mp hq
    rw [Projection.read_over] at hcol
    obtain ⟨read, hread, rfl⟩ := List.mem_map.mp hcol
    obtain ⟨f, hf, rfl⟩ := Projection.read_of_reads
      (Aggregation.result_columns_read haggregates.columns plain hplain) read hread
    obtain ⟨kind, fields, hfields, hkey⟩ := (haggregates.accepted hop).columns plain hplain _ hread
    refine ⟨rfl, List.mem_map_of_mem hf, fun hrows => hfed _ ?_⟩
    exact Aggregation.mem_mentioned.mpr ⟨kind, fields, hfields, hkey, hrows⟩

namespace Sample

def poll : Model where
  name := "Poll"
  fields := [Field.asId ⟨"id", .bigInt, false, false, false⟩, { name := "_all", type := .int }]

def polls : Compiler := .ofConfig ⟨[poll]⟩ { engine := .postgresql }

def pollSum : Args where
  take := some 5
  sum := some (.obj [("_all", .bool true)])

def pollPage : List Column := [⟨⟨0⟩, "id"⟩]

theorem elders_compile : ∃ prepared,
    (compiler .postgresql).compile "User" .aggregate elders = .ok prepared := by
  have hcount : (((compiler .postgresql).compile "User" .aggregate elders).map
      (·.params.length)).toOption = some 0 := by
    decide +kernel
  obtain ⟨prepared, hc, _⟩ := except_ok_of_read hcount
  exact ⟨prepared, hc⟩

end Sample

theorem sample_page_feeds_aggregates : ∃ (prepared : Prepared) (columns : List Projection)
    (tag : Alias) (page : List Column) (body : Body),
    (Sample.compiler .postgresql).compile "User" .aggregate Sample.elders = .ok prepared ∧
    prepared = ((Statement.overPage (columns.map (Projection.over tag)) tag page body).render
      Dialect.postgresql).prepare Dialect.postgresql ∧
    page ≠ [] ∧ page.Nodup ∧
    ∀ q ∈ columns.map (Projection.over tag), ∀ col ∈ q.read,
      col.tag = tag ∧ ⟨body.tag, col.name⟩ ∈ page := by
  have hnames : ∀ m ∈ Sample.schema.models, m.fieldNames.Nodup ∧ m.relationNames.Nodup := by
    decide
  have hmade : ∀ m ∈ Sample.schema.models, m.Made :=
    fun m hm => m.made_of_nodup (hnames m hm).1 (hnames m hm).2
  obtain ⟨prepared, hc⟩ := Sample.elders_compile
  obtain ⟨m, columns, tag, page, body, as, bs, hm, -, hprepared, -, hsome, hnodup, hfed⟩ :=
    page_feeds_aggregates (Sample.compiler .postgresql) ⟨none, Sample.schema.models⟩ rfl hmade
      "User" .aggregate Sample.elders prepared (.inr rfl) (.inl rfl) hc
  obtain rfl : m = Sample.user := (Option.some.inj hm).symm
  refine ⟨prepared, columns, tag, page, body, hc, hprepared, hsome, hnodup, fun q hq col hcol => ?_⟩
  obtain ⟨htag, hname, hin⟩ := hfed q hq col hcol
  refine ⟨htag, hin fun hrows => ?_⟩
  rw [hrows] at hname
  revert hname
  decide

/-- A sum of the field that has the name of whole rows reads a column that the derived
table does not have. -/
theorem field_named_as_rows_is_not_fed :
    (Schema.Builder.build ⟨none, [Sample.poll]⟩).1 = .ok Sample.polls.schema ∧
    Sample.polls.statement "Poll" .aggregate Sample.pollSum =
      .ok (.overPage [.aggregate .sum (some ⟨⟨1⟩, "_all"⟩) "_sum__all"] ⟨1⟩ Sample.pollPage
        { table := "Poll", tag := ⟨0⟩, take := some 5 }, ⟨2⟩) ∧
    ⟨⟨0⟩, "_all"⟩ ∉ Sample.pollPage :=
  ⟨rfl, by with_unfolding_all rfl, by decide⟩

end QuerySql
