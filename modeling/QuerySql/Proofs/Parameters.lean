import QuerySql.Proofs.Literals
import QuerySql.Proofs.Success.Statement
import QuerySql.Proofs.Values

/-!
# Parameters

The parameters of a statement are the literals of its query, each once and in
the order of the placeholders. Each clause is followed by the values that it
binds; what a dialect writes around them does not matter.
-/

set_option autoImplicit false

namespace QuerySql

theorem Pred.values_all (ps : List Pred) : (Pred.all ps).values = ps.flatMap Pred.values := by
  match ps with
  | [p] => simp [Pred.all]
  | [] => rfl
  | p :: q :: ps => rw [Pred.all, Pred.values, Pred.values_all_eq]; simp

theorem Pred.values_any (ps : List Pred) : (Pred.any ps).values = ps.flatMap Pred.values := by
  match ps with
  | [p] => simp [Pred.any]
  | [] => rfl
  | p :: q :: ps => rw [Pred.any, Pred.values, Pred.values_all_eq]; simp

@[simp] theorem Pred.values_none : Pred.values? none = [] := rfl

@[simp] theorem Pred.values_optional_all (ps : List Pred) :
    Pred.values? (Pred.all? ps) = ps.flatMap Pred.values := by
  cases ps with
  | nil => rfl
  | cons p ps => exact Pred.values_all (p :: ps)

theorem Pred.values_to_list (p : Option Pred) : p.toList.flatMap Pred.values = Pred.values? p := by
  cases p <;> simp [Pred.values?]

theorem Connective.apply_values {m : Model} {c : Connective} {os : List (Option Pred)} {p : Pred}
    (h : c.apply m os = .ok p) : p.values = os.flatMap Pred.values? := by
  have hsome : ∀ os : List (Option Pred),
      (os.filterMap id).flatMap Pred.values = os.flatMap Pred.values? := by
    intro os
    induction os with
    | nil => rfl
    | cons o os ih =>
      rw [List.flatMap_cons, ← ih]
      cases o <;> rfl
  cases c with
  | and =>
    cases h
    rw [← hsome, ← Pred.values_optional_all]
    cases Pred.all? (os.filterMap id) <;> rfl
  | or =>
    cases h
    rw [Pred.values_any, List.flatMap_map]
    congr 1
    funext o
    cases o <;> rfl
  | not =>
    rw [apply] at h
    split at h
    · rename_i q hq
      cases h
      rw [← hsome, hq, Pred.values]
      simp
    · cases h

namespace Condition

theorem literals_of_binds {json : Json} {v : Value} (h : Binds json v) : json.literals = [v] := by
  obtain ⟨hn, hv⟩ := h
  cases json with
  | null => exact absurd rfl hn
  | _ => simp [Json.literals, hv]

theorem literals_of_items {items : List Json} {vs : List Value}
    (h : List.Forall₂ Binds items vs) : items.flatMap Json.literals = vs := by
  induction h with
  | nil => rfl
  | cons hv _ ih =>
    rw [List.flatMap_cons, literals_of_binds hv, ih]
    rfl

theorem values_fold (mode : Mode) (s : Scalar) : (mode.fold s).values = s.values := by
  cases mode <;> rfl

theorem operates_values {f : Field} {lhs : Scalar} {mode : Mode} {op : FieldOperator} {json : Json}
    {p : Pred} (hl : lhs.values = []) (h : Operates f lhs mode op json p) :
    p.values = op.literals json := by
  cases h with
  | isNull => exact hl
  | isNotNull => exact hl
  | @compare _ c _ v hc hv =>
    have hop : op.literals json = json.literals := by
      cases op with
      | equals | not | compare _ => rfl
      | isIn _ | pattern _ | unsupported _ => cases hc
    rw [Pred.values, values_fold, values_fold, hl, hop, literals_of_binds hv]
    rfl
  | noItems => rfl
  | isIn _ hvs =>
    simp only [Pred.values, values_fold, hl, FieldOperator.literals, literals_of_items hvs,
      List.flatMap_map, Scalar.values, ← List.map_eq_flatMap, List.map_id', List.nil_append]
  | pattern _ => simp [Pred.values, values_fold, hl, FieldOperator.literals, Scalar.values]

theorem runs_values {m : Model} {f : Field} {lhs : Scalar} {mode : Mode} {entries : Json.Entries}
    {ps : List Pred} (hl : lhs.values = []) (h : Runs m f lhs mode entries ps) :
    ps.flatMap Pred.values = operatorLiterals entries := by
  induction h with
  | nil => rfl
  | @mode _ value rest ps _ ih =>
    have hmode : entryLiterals modeKey value = [] := by
      cases value <;> rfl
    rw [operatorLiterals, hmode, ih, List.nil_append]
  | @negation _ _ nested rest qs ps _ _ _ ih ihl =>
    have hnot : ((Pred.all? qs).map Pred.not).toList.flatMap Pred.values =
        qs.flatMap Pred.values := by
      rw [Pred.values_to_list, ← Pred.values_optional_all qs]
      cases Pred.all? qs <;> rfl
    rw [operatorLiterals, entryLiterals, if_pos rfl, List.flatMap_append, hnot, ih, ihl]
  | @operator _ key op json rest p ps _ hk here _ ih =>
    have hentry : entryLiterals key json = op.literals json := by
      cases json with
      | obj nested =>
        cases here with
        | compare _ hv => cases hv.2
      | _ => simp only [entryLiterals, hk, Option.map_some, Option.getD_some]
    rw [operatorLiterals, hentry, List.flatMap_cons, operates_values hl here, ih]

theorem compiles_values {m : Model} {f : Field} {lhs : Scalar} {json : Json} {p : Option Pred}
    (hl : lhs.values = []) (h : Compiles m f lhs json p) : Pred.values? p = literals json := by
  cases h with
  | null => exact hl
  | @scalar _ v hv =>
    have hjson : literals json = json.literals := by
      cases json with
      | obj entries => cases hv.2
      | _ => rfl
    rw [hjson, literals_of_binds hv]
    simp [Pred.values?, Pred.values, hl, Scalar.values]
  | operators _ here => rw [Pred.values_optional_all, runs_values hl here, literals]

end Condition

namespace Link

theorem joins_values {r : Relation} {parent child : Context} {ps : List Pred} {a b : Aliases}
    (h : Joins r parent child ps a b) : ps.flatMap Pred.values = [] := by
  cases h with
  | keys _ =>
    have hguard : ∀ own referenced, (guard r parent child own referenced).values = [] := by
      intro own referenced
      unfold guard
      split <;> rfl
    simp [List.flatMap_map, equality, Pred.values, Scalar.values, hguard]
  | junction _ _ _ => rfl

end Link

namespace Filter

/-- A part of the compiler binds the literals that it was given. -/
def Outcome.Binds (schema : Schema) : Outcome → Prop
  | .conditions cx entries ps => ps.flatMap Pred.values = literals schema cx.model entries
  | .connective cx _ value p => p.values = operandLiterals schema cx.model value
  | .each cx items os => os.flatMap Pred.values? = itemLiterals schema cx.model items
  | .relation _ r value p => p.values = relationLiterals schema r value
  | .quantifiers _ r entries ps => ps.flatMap Pred.values = quantifierLiterals schema r entries
  | .quantified _ r _ value p => p.values = quantifiedLiterals schema r value
  | .subquery _ r _ nested p =>
    p.values = quantifiedLiterals schema r (.obj ((nested.map Prod.snd).getD []))

theorem no_literals (schema : Schema) (r : Relation) :
    quantifiedLiterals schema r (.obj []) = [] := by
  rw [quantifiedLiterals]
  cases schema.model? r.target <;> rfl

theorem literals_of_nested (schema : Schema) (r : Relation) (c : Connective)
    (entries : Json.Entries) :
    quantifiedLiterals schema r (.obj (((nestedFilter c entries).map Prod.snd).getD [])) =
      quantifiedLiterals schema r (.obj entries) := by
  cases entries <;> rfl

theorem runs_bind {s : Settings} {o : Outcome} {a b : Aliases} (h : Runs s o a b) :
    o.Binds s.schema := by
  induction h with
  | nil => rfl
  | connectiveEntry hk _ _ ih ihl =>
    simp only [Outcome.Binds] at ih ihl ⊢
    simp only [List.flatMap_cons, literals, hk, ih, ihl]
  | fieldEntry hk hf here _ ihl =>
    simp only [Outcome.Binds] at ihl ⊢
    simp only [List.flatMap_append, Pred.values_to_list, Condition.compiles_values rfl here,
      literals, hk, hf, ihl]
  | relationEntry hk hf hr _ _ ih ihl =>
    simp only [Outcome.Binds] at ih ihl ⊢
    simp only [List.flatMap_cons, literals, hk, hf, hr, ih, ihl]
  | object _ hp ih =>
    simp only [Outcome.Binds] at ih ⊢
    simp [Connective.apply_values hp, operandLiterals, ih]
  | array _ _ hp ih =>
    simp only [Outcome.Binds] at ih ⊢
    rw [Connective.apply_values hp, operandLiterals, ih]
  | noItem => rfl
  | item _ _ ih ihl =>
    simp only [Outcome.Binds] at ih ihl ⊢
    rw [List.flatMap_cons, Pred.values_optional_all, ih, ihl, itemLiterals]
  | absent _ _ ih => exact ih.trans (no_literals s.schema _)
  | bare hq _ ih =>
    simp only [Outcome.Binds] at ih ⊢
    rw [ih, literals_of_nested, relationLiterals, if_pos hq, quantifiedLiterals]
  | keywords hz _ _ ih =>
    simp only [Outcome.Binds] at ih ⊢
    rw [Pred.values_all, ih, relationLiterals, if_neg hz]
  | noQuantifier => rfl
  | quantifier _ _ _ ih ihl =>
    simp only [Outcome.Binds] at ih ihl ⊢
    rw [List.flatMap_cons, ih, ihl, quantifierLiterals]
  | everyRecord _ => exact (no_literals s.schema _).symm
  | matching _ _ _ ih =>
    simp only [Outcome.Binds] at ih ⊢
    rw [ih, literals_of_nested]
  | presence _ _ _ ih => exact ih.trans (no_literals s.schema _)
  | unfiltered _ _ link =>
    simp only [Outcome.Binds, Pred.values, Pred.values_all_eq, Link.joins_values link]
    exact (no_literals s.schema _).symm
  | filtered ht _ _ hp link ih =>
    simp only [Outcome.Binds] at ih ⊢
    simp only [Pred.values, Pred.values_all_eq, List.flatMap_cons, Link.joins_values link,
      Connective.apply_values hp, List.flatMap_nil, Pred.values_optional_all, List.append_nil, ih,
      Option.map_some, Option.getD_some, quantifiedLiterals, ht]
    rfl

end Filter

namespace Having

theorem aggregates_values {cx : Context} {f : Field} {entries : Json.Entries} {ps : List Pred}
    (h : Aggregates cx f entries ps) : ps.flatMap Pred.values = entries.flatMap fun e =>
      if (Aggregate.ofKey? e.1).isSome then Condition.literals e.2 else [] := by
  induction h with
  | nil => rfl
  | other hk _ ih => simp [hk, ih]
  | aggregate hk _ here _ ih =>
    rw [List.flatMap_append, Pred.values_to_list, Condition.compiles_values rfl here, ih,
      List.flatMap_cons, hk]
    rfl

theorem plain_literals (entries : Json.Entries) :
    Condition.operatorLiterals (plainEntries entries) = entries.flatMap fun e =>
      if (Aggregate.ofKey? e.1).isSome then [] else Condition.entryLiterals e.1 e.2 := by
  induction entries with
  | nil => rfl
  | cons e rest ih =>
    simp only [plainEntries] at ih
    cases hk : Aggregate.ofKey? e.1 with
    | none => simp [plainEntries, hk, Condition.operatorLiterals, ih]
    | some kind => simp [plainEntries, hk, ih]

theorem field_values {cx : Context} {f : Field} {value : Json} {ps : List Pred}
    (h : FieldRuns cx f value ps) : ps.flatMap Pred.values = fieldLiterals value := by
  cases h with
  | entries aggregates plain =>
    rw [List.flatMap_append, Pred.values_to_list, aggregates_values aggregates,
      Condition.compiles_values rfl plain, Condition.literals, plain_literals, fieldLiterals]
  | literal hj plain =>
    rw [Pred.values_to_list, Condition.compiles_values rfl plain]
    cases value with
    | obj entries => exact absurd rfl (hj entries)
    | _ => exact List.append_nil _

def Outcome.Binds : Outcome → Prop
  | .conditions entries ps => ps.flatMap Pred.values = literals entries
  | .connective _ value p => p.values = operandLiterals value
  | .each items os => os.flatMap Pred.values? = itemLiterals items

theorem runs_bind {cx : Context} {o : Outcome} (h : Runs cx o) : o.Binds := by
  induction h with
  | nil => rfl
  | connectiveEntry hk _ _ ih ihl =>
    simp only [Outcome.Binds] at ih ihl ⊢
    rw [List.flatMap_cons, literals, ih, ihl, hk]
    rfl
  | fieldEntry hk _ here _ ihl =>
    simp only [Outcome.Binds] at ihl ⊢
    rw [List.flatMap_append, literals, field_values here, ihl, hk]
    rfl
  | object _ hp ih =>
    simp only [Outcome.Binds] at ih ⊢
    simp [Connective.apply_values hp, operandLiterals, ih]
  | array _ _ hp ih =>
    simp only [Outcome.Binds] at ih ⊢
    rw [Connective.apply_values hp, operandLiterals, ih]
  | noItem => rfl
  | item _ _ ih ihl =>
    simp only [Outcome.Binds] at ih ihl ⊢
    rw [List.flatMap_cons, Pred.values_optional_all, ih, ihl, itemLiterals]

end Having

theorem Scalar.values_of_reads {cx : Context} {s : Scalar} (h : s.Reads cx) : s.values = [] := by
  cases s with
  | column _ | aggregate _ _ => rfl
  | bound _ | folded _ => cases h

theorem values_of_order {cx : Context} {items : List SortItem}
    (h : ∀ it ∈ items, it.key.Reads cx) : (items.flatMap fun it => it.key.values) = [] := by
  rw [List.flatMap_eq_nil_iff]
  exact fun it hit => Scalar.values_of_reads (h it hit)

theorem Projection.values_of_reads {cx : Context} {ps : List Projection}
    (h : ∀ p ∈ ps, p.Reads cx) : Projection.valuesAll ps = [] := by
  rw [Projection.values_all_eq, List.flatMap_eq_nil_iff]
  intro p hp
  have hr := h p hp
  cases p with
  | column _ | aggregate _ _ _ => rfl
  | relation _ _ _ _ _ => cases hr

namespace Records

theorem correlates_values {r : Relation} {parent child : Context} {ps : List Pred} {a b : Aliases}
    (h : Link.Correlates r parent child ps a b) : ps.flatMap Pred.values = [] := by
  cases h with
  | keys => simp [List.flatMap_map, Link.equality, Pred.values, Scalar.values]
  | junction _ _ => rfl

theorem field_columns_values (cx : Context) : Projection.valuesAll (fieldColumns cx) = [] := by
  exact Projection.values_of_reads (field_columns_read cx)

theorem filtered_values {s : Settings} {child : Context} {filter : Option Json.Entries}
    {ps : List Pred} {a b : Aliases} (h : Filtered s child filter ps a b) :
    ps.flatMap Pred.values = Filter.literals s.schema child.model (filter.getD []) := by
  cases h with
  | none => rfl
  | @some entries qs _ _ conditions =>
    have hq := Filter.runs_bind conditions
    simp only [Filter.Outcome.Binds] at hq
    rw [Option.getD_some, ← hq, ← Pred.values_optional_all qs, List.flatMap_singleton]
    cases Pred.all? qs <;> rfl

theorem closes_values {s : Settings} {cx child : Context} {r : Relation} {args : RelationArgs}
    {columns : List Projection} {p : Projection} {a b : Aliases}
    (h : Closes s cx child r args columns p a b) :
    p.values = Projection.valuesAll columns ++
      Filter.literals s.schema child.model (args.filter.getD []) := by
  cases h with
  | mk filter link order =>
    simp [Projection.values, Body.values, correlates_values link,
      values_of_order (Ordering.compile_ok order), filtered_values filter]

theorem set_filter {m : Model} {r : Relation} {args next : RelationArgs} {key : String}
    {value : Json} (h : RelationArgs.set m r args key value = .ok next) :
    next.filter = (if key = "where" then value.entries? else none).or args.filter := by
  unfold RelationArgs.set at h
  split at h
  · simp only [except_bind_ok, except_pure_ok] at h
    obtain ⟨_, _, rfl⟩ := h
    rfl
  · simp only [except_bind_ok, except_pure_ok] at h
    obtain ⟨_, _, rfl⟩ := h
    rfl
  · simp only [except_bind_ok, except_pure_ok] at h
    obtain ⟨entries, he, rfl⟩ := h
    cases value with
    | obj entries =>
      cases he
      rfl
    | null | bool _ | num _ | str _ | arr _ => cases he
  · simp only [except_bind_ok, except_pure_ok] at h
    obtain ⟨_, _, rfl⟩ := h
    rfl
  · simp only [except_bind_ok, except_pure_ok] at h
    obtain ⟨_, _, rfl⟩ := h
    rfl
  · simp only [except_bind_ok, except_pure_ok] at h
    obtain ⟨_, _, rfl⟩ := h
    rfl
  · cases h

theorem read_filter {m : Model} {r : Relation} {args args' : RelationArgs}
    {entries : Json.Entries} (h : RelationArgs.read m r args entries = .ok args') :
    args'.filter = (RelationArgs.filterOf entries).or args.filter := by
  induction entries generalizing args with
  | nil =>
    cases h
    rfl
  | cons e rest ih =>
    obtain ⟨key, value⟩ := e
    rw [RelationArgs.read, except_bind_ok] at h
    obtain ⟨next, hset, h⟩ := h
    rw [ih h, set_filter hset, RelationArgs.filterOf, Option.or_assoc]

def Outcome.Binds (schema : Schema) : Outcome → Prop
  | .selected cx entries ps => Projection.valuesAll ps = literals schema cx.model entries
  | .inclusions cx entries ps => Projection.valuesAll ps = literals schema cx.model entries
  | .relation _ r value ps => Projection.valuesAll ps = relationLiterals schema r value
  | .nested cx entries ps => Projection.valuesAll ps = nestedLiterals schema cx.model entries

theorem values_append (ps qs : List Projection) :
    Projection.valuesAll (ps ++ qs) = Projection.valuesAll ps ++ Projection.valuesAll qs := by
  simp only [Projection.values_all_eq, List.flatMap_append]

theorem runs_bind {s : Settings} {o : Outcome} {a b : Aliases} (h : Runs s o a b) :
    o.Binds s.schema := by
  induction h with
  | noSelected | noInclusion | omitted => rfl
  | @fieldEntry cx key flag rest f ps _ _ hf _ ihl =>
    have hcolumn : Projection.valuesAll
        (if flag then [.column (Compile.column cx f)] else []) = [] := by
      cases flag <;> rfl
    simp only [Outcome.Binds] at ihl ⊢
    rw [values_append, hcolumn, ihl, literals, hf]
  | relationEntry hf hr _ _ ih ihl | inclusionEntry hf hr _ _ ih ihl =>
    simp only [Outcome.Binds] at ih ihl ⊢
    rw [values_append, ih, ihl, literals, hf, hr]
  | flagged ht closing =>
    simp only [Outcome.Binds, Projection.valuesAll, List.append_nil]
    rw [closes_values closing, field_columns_values]
    rfl
  | arguments ht hargs _ closing ih =>
    simp only [Outcome.Binds] at ih ⊢
    rw [relationLiterals, ht, Projection.valuesAll, Projection.valuesAll, List.append_nil,
      closes_values closing, ih, read_filter hargs, Option.or_none]
    rfl
  | allFields => exact field_columns_values _
  | nestedSelection _ ih => exact ih
  | nestedInclusion _ ih =>
    simp only [Outcome.Binds] at ih ⊢
    rw [values_append, field_columns_values, ih]
    rfl
  | @otherArgument _ key value _ _ _ _ hk _ ih =>
    simp only [Outcome.Binds] at ih ⊢
    rw [ih]
    cases value with
    | obj entries =>
      obtain ⟨hs, hi⟩ := hk entries rfl
      simp [nestedLiterals, hs, hi]
    | _ => rfl

end Records

namespace Keyset

/-- The keys found so far: one for each name, with the cursor's own value. -/
structure Holds (cursor : Json.Entries) (names : List String) (ks : List Key) : Prop where
  names_eq : ks.map (·.name) = names.eraseDups
  value_eq : ∀ k ∈ ks, cursor.get? k.name = some k.value

theorem holds_nil (cursor : Json.Entries) : Holds cursor [] [] := ⟨rfl, by simp⟩

theorem add_seen {ks : List Key} {key : Key} (h : key.name ∈ ks.map (·.name)) :
    add ks key = ks := by
  obtain ⟨k, hk, hname⟩ := List.mem_map.mp h
  exact if_pos (List.any_eq_true.mpr ⟨k, hk, decide_eq_true hname⟩)

theorem add_new {ks : List Key} {key : Key} (h : key.name ∉ ks.map (·.name)) :
    add ks key = ks ++ [key] := by
  refine if_neg fun hany => h ?_
  obtain ⟨k, hk, hname⟩ := List.any_eq_true.mp hany
  exact List.mem_map.mpr ⟨k, hk, of_decide_eq_true hname⟩

theorem add_names {ks : List Key} {names : List String} (h : ks.map (·.name) = names.eraseDups)
    (key : Key) : (add ks key).map (·.name) = (names ++ [key.name]).eraseDups := by
  have hmem : key.name ∈ ks.map (·.name) ↔ key.name ∈ names := by
    rw [h, List.mem_eraseDups]
  rw [List.eraseDups_append]
  by_cases hin : key.name ∈ names
  · rw [add_seen (hmem.mpr hin), h]
    simp [List.removeAll, hin]
  · rw [add_new (mt hmem.mp hin), List.map_append, h]
    simp [List.removeAll, hin, List.eraseDups_cons]

theorem holds_add {cursor : Json.Entries} {names : List String} {ks : List Key} {name : String}
    {value : Json} {direction : Direction} (h : Holds cursor names ks)
    (hkey : name ∉ names → cursor.get? name = some value) :
    Holds cursor (names ++ [name]) (add ks ⟨name, value, direction⟩) := by
  refine ⟨add_names h.names_eq _, ?_⟩
  by_cases hin : name ∈ ks.map (·.name)
  · rw [add_seen hin]
    exact h.value_eq
  · rw [add_new hin]
    rw [h.names_eq, List.mem_eraseDups] at hin
    exact List.forall_mem_append.mpr ⟨h.value_eq, List.forall_mem_singleton.mpr (hkey hin)⟩

theorem entry_keys_hold {m : Model} {cursor : Json.Entries} {entry : Json.Entries}
    {names : List String} {ks ks' : List Key} (hks : Holds cursor names ks)
    (h : entryKeys m cursor ks entry = .ok ks') : Holds cursor (names ++ entry.keys) ks' := by
  induction entry generalizing names ks with
  | nil =>
    cases h
    simpa [Json.Entries.keys] using hks
  | cons e rest ih =>
    obtain ⟨name, value⟩ := e
    rw [entryKeys] at h
    split at h
    · cases h
    · rename_i bound hbound
      simp only [except_bind_ok] at h
      obtain ⟨⟨direction, _⟩, _, h⟩ := h
      have hnext := ih (holds_add hks (fun _ => hbound)) h
      simpa [Json.Entries.keys] using hnext

theorem ordered_keys_hold {m : Model} {cursor : Json.Entries} {entries : List Json.Entries}
    {names : List String} {ks ks' : List Key} (hks : Holds cursor names ks)
    (h : orderedKeys m cursor ks entries = .ok ks') :
    Holds cursor (names ++ entries.flatMap Json.Entries.keys) ks' := by
  induction entries generalizing names ks with
  | nil =>
    cases h
    simpa using hks
  | cons entry rest ih =>
    simp only [orderedKeys, except_bind_ok] at h
    obtain ⟨next, hn, h⟩ := h
    have hnext := ih (entry_keys_hold hks hn) h
    simpa using hnext

theorem cursor_keys_hold {before rest : Json.Entries} {names : List String} {ks : List Key}
    (hbefore : ∀ e ∈ before, e.1 ∈ names) (hks : Holds (before ++ rest) names ks) :
    Holds (before ++ rest) (names ++ rest.keys)
      (rest.foldl (fun keys (name, value) => add keys ⟨name, value, .asc⟩) ks) := by
  induction rest generalizing before names ks with
  | nil => simpa [Json.Entries.keys] using hks
  | cons e rest ih =>
    obtain ⟨name, value⟩ := e
    have hfirst : name ∉ names →
        Json.Entries.get? (before ++ (name, value) :: rest) name = some value := by
      intro hn
      have hnone : List.lookup name before = none := by
        rw [List.lookup_eq_none_iff]
        intro e he
        have hne : name ≠ e.1 := fun heq => hn (heq ▸ hbefore e he)
        simpa using hne
      simp [Json.Entries.get?, List.lookup_append, hnone]
    have hadd : Holds (before ++ (name, value) :: rest) (names ++ [name])
        (add ks ⟨name, value, .asc⟩) := holds_add hks hfirst
    rw [List.append_cons] at hadd ⊢
    have hbefore' : ∀ e ∈ before ++ [(name, value)], e.1 ∈ names ++ [name] := by
      intro e he
      rcases List.mem_append.mp he with he | he
      · exact List.mem_append_left _ (hbefore e he)
      · cases List.mem_singleton.mp he
        exact List.mem_append_right _ List.mem_cons_self
    have hnext := ih hbefore' hadd
    simpa [Json.Entries.keys] using hnext

theorem keys_hold {m : Model} {cursor : Json.Entries} {orderBy : Option (List Json.Entries)}
    {ks : List Key} (h : keys m cursor orderBy = .ok ks) :
    ks.map (·.name) = pageKeys orderBy cursor ∧ ∀ k ∈ ks, cursor.get? k.name = some k.value := by
  simp only [keys, except_bind_ok, except_pure_ok] at h
  obtain ⟨ordered, ho, rfl⟩ := h
  have hordered := ordered_keys_hold (holds_nil cursor) ho
  have hall := @cursor_keys_hold [] cursor _ _ (by simp) hordered
  exact ⟨hall.names_eq, hall.value_eq⟩

theorem literals_nil (orderBy : Option (List Json.Entries)) : literals orderBy [] = [] := by
  simp [literals, Json.Entries.get?]

theorem row_values (op : Comparison) (bounds : List (Column × Value)) :
    (row op bounds).values = bounds.map (·.2) := by
  match bounds with
  | [(column, value)] => rfl
  | [] | _ :: _ :: _ => rfl

theorem past_values {cx : Context} {orderBy : Option (List Json.Entries)}
    {cursor : Option Json.Entries} {qs : List Pred} (h : Past cx orderBy cursor qs) :
    qs.flatMap Pred.values = literals orderBy (cursor.getD []) := by
  cases h with
  | none => exact (literals_nil orderBy).symm
  | @some cursor ks direction bounds _ hkeys hsame hbounds =>
    obtain ⟨hnames, hvalues⟩ := keys_hold hkeys
    have hbound : ks.flatMap (fun k => k.value.literals) = bounds.map (·.2) := by
      clear hkeys hsame hnames hvalues
      induction hbounds with
      | nil => rfl
      | cons hb _ ih =>
        rw [List.flatMap_cons, Condition.literals_of_binds (boundary_ok hb).2, ih, List.map_cons]
        rfl
    rw [Option.getD_some, literals, ← hnames, List.flatMap_map, List.flatMap_singleton, row_values,
      ← hbound]
    apply List.flatMap_congr
    intro k hk
    rw [hvalues k hk]
    rfl

end Keyset

namespace Write

theorem payload_ok {m : Model} {f : Field} {json written : Json}
    (h : payload m f json = .ok written) : written = held json := by
  match json with
  | .obj [(op, value)] =>
    by_cases hop : op = setKey
    · simp only [payload, if_pos hop] at h
      cases h
      simp only [held, if_pos hop]
    · simp only [payload, if_neg hop] at h
      split at h
      · cases h
        simp only [held, if_neg hop]
      · cases h
  | .obj [] | .obj (_ :: _ :: _) =>
    simp only [payload] at h
    split at h
    · cases h
      rfl
    · cases h
  | .null | .bool _ | .num _ | .str _ | .arr _ =>
    cases h
    rfl

theorem value_ok {m : Model} {f : Field} {json : Json} {v : Value}
    (h : value m f json = .ok v) : v = (Value.ofJson? json).getD (.text json.text) := by
  unfold value at h
  split at h
  · rename_i w hw
    split at h
    · cases h
    · cases h
      rw [hw, Option.getD_some]
  · rename_i hn
    split at h
    · cases h
      rw [hn, Option.getD_none]
    · cases h

theorem assignments_ok {m : Model} {entries : Json.Entries} {as : List (String × Value)}
    (h : assignments m entries = .ok as) : as.map (·.2) =
      entries.map fun e => literal e.2 := by
  induction entries generalizing as with
  | nil =>
    cases h
    rfl
  | cons e rest ih =>
    obtain ⟨key, json⟩ := e
    rw [assignments] at h
    split at h
    · simp only [except_bind_ok, except_throw_ok, false_and, exists_false] at h
    · split at h
      · cases h
      · simp only [except_bind_ok, except_pure_ok] at h
        obtain ⟨written, hw, v, hv, later, hl, rfl⟩ := h
        rw [List.map_cons, List.map_cons, ih hl, value_ok hv, payload_ok hw, literal]

end Write

theorem Context.root_cursor (m : Model) (op : Operation) (args : Args)
    (hop : op.isMutation = false) :
    (Context.atRoot m op args).pagination?.bind (·.cursor) = args.cursor := by
  simp only [Context.atRoot, hop]
  rfl

theorem Context.root_data (m : Model) (op : Operation) (args : Args) (hop : op.isMutation = true) :
    (Context.atRoot m op args).mutation? = args.data := by
  cases hd : args.data <;> simp only [Context.atRoot, Context.mutation?, hop, hd] <;> rfl

theorem Args.check_ok {args : Args} {model : String} {op : Operation}
    (h : args.check model op = .ok ()) (a : Argument) (ha : args.has a = true) :
    op.accepts a = true := by
  have hall : a ∈ Argument.all := by
    cases a with
    | aggregate kind => cases kind <;> decide
    | _ => decide
  unfold Args.check at h
  split at h
  · cases h
  · rename_i hnone
    simpa using List.find?_eq_none.mp hnone a (List.mem_filter.mpr ⟨hall, ha⟩)

theorem Args.lacks {args : Args} {model : String} {op : Operation}
    (h : args.check model op = .ok ()) (a : Argument) (ha : op.accepts a = false) :
    args.has a = false := by
  by_contra hhas
  rw [Bool.not_eq_false] at hhas
  rw [Args.check_ok h a hhas] at ha
  cases ha

namespace Read

theorem filtered_values {s : Settings} {cx : Context} {args : Args} {p : Option Pred}
    {a b : Aliases} (h : Filtered s cx args p a b) :
    Pred.values? p = Filter.literals s.schema cx.model (args.filter.getD []) ++
      Keyset.literals args.orderBy ((cx.pagination?.bind (·.cursor)).getD []) := by
  cases h with
  | mk conditions past =>
    have hconditions := Filter.runs_bind conditions
    simp only [Filter.Outcome.Binds] at hconditions
    rw [Pred.values_optional_all, List.flatMap_append, Pred.values_to_list,
      Pred.values_optional_all, hconditions, Keyset.past_values past]

end Read

theorem Records.columns_values {s : Settings} {cx : Context}
    {select inclusion : Option Json.Entries} {ps : List Projection} {a b : Aliases}
    (h : Records.columns s cx select inclusion a = .ok (ps, b)) :
    Projection.valuesAll ps = Records.literals s.schema cx.model (select.getD []) ++
      Records.literals s.schema cx.model (inclusion.getD []) := by
  rcases Records.columns_ok h with ⟨entries, rfl, rfl, hrun⟩ | ⟨qs, rfl, rfl, hrun⟩
  · have hb := Records.runs_bind hrun
    simp only [Records.Outcome.Binds] at hb
    simp [hb, Records.literals]
  · have hb := Records.runs_bind hrun
    simp only [Records.Outcome.Binds] at hb
    rw [Records.values_append, Records.field_columns_values, hb]
    simp [Records.literals]

theorem Args.literals_find (schema : Schema) (m : Model) (args : Args) {op : Operation}
    (hop : op.isRead = true) : op.isMutation = false ∧ args.literals schema m op =
      Records.literals schema m (args.select.getD []) ++
        Records.literals schema m (args.inclusion.getD []) ++
        Filter.literals schema m (args.filter.getD []) ++
        Keyset.literals args.orderBy (args.cursor.getD []) := by
  cases op with
  | findMany | findFirst | findUnique => exact ⟨rfl, rfl⟩
  | count | aggregate | groupBy | create | update | delete => cases hop

theorem Args.literals_aggregate (schema : Schema) (m : Model) (args : Args) {op : Operation}
    (hop : op = .count ∨ op = .aggregate) : op.isMutation = false ∧ args.literals schema m op =
      Filter.literals schema m (args.filter.getD []) ++
        Keyset.literals args.orderBy (args.cursor.getD []) := by
  rcases hop with rfl | rfl
  · exact ⟨rfl, rfl⟩
  · exact ⟨rfl, rfl⟩

theorem Statement.runs_values {s : Settings} {m : Model} {op : Operation} {args : Args}
    {st : Statement} {b : Aliases} (hcheck : args.check m.name op = .ok ())
    (h : Statement.Runs s (Context.atRoot m op args) args op st b) :
    st.values = args.literals s.schema m op := by
  cases h with
  | find hop columns _ filter order =>
    obtain ⟨hread, hlist⟩ := Args.literals_find s.schema m args hop
    rw [hlist, Statement.values, Records.columns_values columns, Body.values,
      Read.filtered_values filter, values_of_order (Ordering.compile_ok order),
      Context.root_cursor m op args hread]
    simp [Context.atRoot]
  | aggregate hop filter columns _ =>
    obtain ⟨hread, hlist⟩ := Args.literals_aggregate s.schema m args hop
    rw [hlist, Statement.values, Projection.values_of_reads columns, Body.values,
      Read.filtered_values filter, Context.root_cursor m op args hread]
    simp [Context.atRoot]
  | overPage hop filter _ columns order =>
    obtain ⟨hread, hlist⟩ := Args.literals_aggregate s.schema m args hop
    rw [hlist, Statement.values, Projection.values_of_reads columns, Body.values,
      Read.filtered_values filter, values_of_order (Ordering.compile_ok order),
      Context.root_cursor m op args hread]
    simp [Context.atRoot]
  | groupBy columns filter having _ order =>
    have hhaving := Having.runs_bind having
    simp only [Having.Outcome.Binds] at hhaving
    -- a grouped query has no use for a cursor
    have hcursor : args.cursor = none := by
      simpa [Args.has] using Args.lacks hcheck .cursor rfl
    rw [Statement.values, Projection.values_of_reads columns, Body.values,
      Read.filtered_values filter, values_of_order (Ordering.compile_ok order),
      Context.root_cursor m _ args rfl, hcursor, Pred.values_optional_all, hhaving,
      Option.getD_none, Keyset.literals_nil]
    simp [Context.atRoot, Args.literals]
  | create hdata written =>
    rw [Context.root_data m _ args rfl] at hdata
    rw [Statement.values, Write.assignments_ok written, Args.literals, hdata]
    rfl
  | update hdata written conditions =>
    have hconditions := Filter.runs_bind conditions
    simp only [Filter.Outcome.Binds] at hconditions
    rw [Context.root_data m _ args rfl] at hdata
    rw [Statement.values, Write.assignments_ok written, Pred.values_optional_all, hconditions,
      Args.literals, hdata]
    rfl
  | delete conditions =>
    have hconditions := Filter.runs_bind conditions
    simp only [Filter.Outcome.Binds] at hconditions
    rw [Statement.values, Pred.values_optional_all, hconditions]
    rfl

/-- The parameters of a compiled query are its literals, each once and in the
order of the placeholders: the text is that of a fragment which binds them. -/
theorem params_are_literals (c : Compiler) (model : String) (op : Operation) (args : Args)
    (prepared : Prepared) (h : c.compile model op args = .ok prepared) :
    ∃ m f, c.schema.model? model = some m ∧ prepared = Fragment.prepare c.dialect f ∧
      f.bindings = args.literals c.schema m op ∧
      prepared.params = args.literals c.schema m op := by
  obtain ⟨st, as, hst, rfl⟩ := Compiler.compile_ok h
  obtain ⟨m, hm, hcheck, hruns⟩ := Compiler.statement_ok hst
  have hbindings : (st.render c.dialect).bindings = args.literals c.schema m op := by
    rw [Statement.bindings_render, Statement.runs_values hcheck hruns]
    rfl
  have hparams : ((st.render c.dialect).prepare c.dialect).params =
      (st.render c.dialect).bindings := List.nil_append _
  exact ⟨m, st.render c.dialect, hm, rfl, hbindings, hparams.trans hbindings⟩

example : Sample.page.literals Sample.schema Sample.user .findMany =
    [.text "z", .text "x", .text "y", .int 18, .text "a\\_%", .int 7] := rfl

theorem sample_params_are_literals : ∃ prepared,
    (Sample.compiler .sqlite).compile "User" .findMany Sample.page = .ok prepared ∧
      ∃ m f, Sample.schema.model? "User" = some m ∧ prepared = Fragment.prepare .sqlite f ∧
        f.bindings = Sample.page.literals Sample.schema m .findMany ∧
        prepared.params = Sample.page.literals Sample.schema m .findMany := by
  obtain ⟨prepared, hc⟩ := Sample.page_compiles
  exact ⟨prepared, hc, params_are_literals _ _ _ _ _ hc⟩

end QuerySql
