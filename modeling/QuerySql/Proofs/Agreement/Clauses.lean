import QuerySql.Compile.Having
import QuerySql.Compile.Keyset
import QuerySql.Compile.Write
import QuerySql.Proofs.Agreement.Filter
import QuerySql.Proofs.Success.Records

/-!
# Clauses of one form

The remaining clauses of a query agree with their forms as its filter does:
the conditions on groups, the cursor, the payload and the selection. Orderings
and aggregates hold no literal, so they are the same.
-/

set_option autoImplicit false

namespace QuerySql

namespace Having

theorem check_operand_form (m : Model) (c : Connective) (value : Json) :
    checkOperand m c (formOperand value) = checkOperand m c value := by
  have hitems : ∀ items, c.checkItems m (formItems items) = c.checkItems m items := by
    intro items
    induction items with
    | nil => rfl
    | cons item rest ih =>
      cases item with
      | obj entries => simp only [formItems, Connective.checkItems, ih]
      | _ => rfl
  cases value with
  | arr items =>
    cases items with
    | nil => rfl
    | cons item items =>
      have h := hitems (item :: items)
      cases item <;> exact h
  | obj _ | null | bool _ | num _ | str _ => rfl

def formEntry (e : String × Json) : String × Json :=
  (e.1, if (Aggregate.ofKey? e.1).isSome then Condition.form e.2
    else Condition.formOperand e.1 e.2)

theorem plain_entries_form (entries : Json.Entries) :
    plainEntries (entries.map formEntry) = Condition.formOperators (plainEntries entries) := by
  induction entries with
  | nil => rfl
  | cons e rest ih =>
    simp only [plainEntries] at ih
    cases hk : Aggregate.ofKey? e.1 with
    | none => simp [plainEntries, formEntry, hk, Condition.formOperators, ih]
    | some kind => simp [plainEntries, formEntry, hk, ih]

variable (cx : Context) (e : Extension)

theorem aggregate_conditions_agree (f : Field) (entries : Json.Entries) :
    AgreeOn (List.map Pred.blank) (aggregateConditions cx f entries)
      (aggregateConditions (cx.extended e) f (entries.map formEntry)) := by
  induction entries with
  | nil => exact AgreeOn.refl _
  | cons entry rest ih =>
    obtain ⟨key, value⟩ := entry
    simp only [aggregateConditions, List.map_cons, formEntry]
    cases hk : Aggregate.ofKey? key with
    | none => exact AgreeOn.prepend (AgreeOn.refl _) ih
    | some kind =>
      exact AgreeOn.after fun f => AgreeOn.prepend (Condition.compile_agree cx.model f _ value) ih

theorem plain_condition_agree (f : Field) (grouped : List String) (entries : Json.Entries) :
    AgreeOn (Option.map Pred.blank) (plainCondition cx f grouped entries)
      (plainCondition (cx.extended e) f grouped (Condition.formOperators entries)) := by
  cases entries with
  | nil => exact AgreeOn.refl _
  | cons entry rest =>
    simp only [plainCondition, List.isEmpty_cons, Condition.formOperators, Bool.false_eq_true,
      if_false]
    split
    · exact Condition.compile_agree cx.model f _ (.obj (entry :: rest))
    · exact AgreeOn.refl _

theorem field_conditions_agree (f : Field) (grouped : List String) (value : Json) :
    AgreeOn (List.map Pred.blank) (fieldConditions cx f grouped value)
      (fieldConditions (cx.extended e) f grouped (formField value)) := by
  cases value with
  | obj entries =>
    have hplain := plain_condition_agree cx e f grouped (plainEntries entries)
    rw [← plain_entries_form] at hplain
    refine AgreeOn.bind (aggregate_conditions_agree cx e f entries) fun ps ps' hps =>
      AgreeOn.bind hplain fun p q hpq => AgreeOn.of_pure ?_
    rw [List.map_append, List.map_append, ← Option.toList_map, ← Option.toList_map, hps, hpq]
  | null | bool _ | num _ | str _ | arr _ =>
    refine AgreeOn.bind (plain_condition_agree cx e f grouped [("equals", _)])
      fun p q hpq => AgreeOn.of_pure ?_
    rw [← Option.toList_map, ← Option.toList_map, hpq]

mutual

theorem conditions_agree (grouped : List String) (entries : List (String × Json)) :
    AgreeOn (List.map Pred.blank) (conditions cx grouped entries)
      (conditions (cx.extended e) grouped (form entries)) := by
  match entries with
  | [] => exact AgreeOn.refl _
  | (key, value) :: rest =>
    rw [form, conditions, conditions]
    cases hk : Connective.ofKey? key with
    | none =>
      exact AgreeOn.after fun f => AgreeOn.append (field_conditions_agree cx e f grouped value)
        (conditions_agree grouped rest)
    | some c =>
      refine AgreeOn.append (AgreeOn.map (connective_agree grouped c value) fun p q hpq => ?_)
        (conditions_agree grouped rest)
      rw [List.map_singleton, List.map_singleton, hpq]

theorem connective_agree (grouped : List String) (c : Connective) (value : Json) :
    AgreeOn Pred.blank (connective cx grouped c value)
      (connective (cx.extended e) grouped c (formOperand value)) := by
  rw [connective, connective, Context.extended_model, check_operand_form]
  refine AgreeOn.after fun _ => ?_
  match value with
  | .obj entries =>
    refine AgreeOn.bind (f := List.map (Option.map Pred.blank))
      (AgreeOn.map (conditions_agree grouped entries) fun ps qs h => ?_)
      fun os os' h => Connective.apply_agree cx.model c h
    simp only [List.map_cons, List.map_nil, Pred.blank_through.map_optional, h]
  | .arr items =>
    exact AgreeOn.bind (each_agree grouped items)
      fun os os' h => Connective.apply_agree cx.model c h
  | .null | .bool _ | .num _ | .str _ => exact AgreeOn.refl _

theorem each_agree (grouped : List String) (items : List Json) :
    AgreeOn (List.map (Option.map Pred.blank)) (each cx grouped items)
      (each (cx.extended e) grouped (formItems items)) := by
  match items with
  | [] => exact AgreeOn.refl _
  | .obj entries :: rest =>
    rw [formItems, each, each]
    refine AgreeOn.bind (conditions_agree grouped entries) fun ps qs h =>
      AgreeOn.bind (each_agree grouped rest) fun os os' ho => AgreeOn.of_pure ?_
    rw [List.map_cons, List.map_cons, Pred.blank_through.map_optional,
      Pred.blank_through.map_optional, h, ho]
  | .null :: rest | .bool _ :: rest | .num _ :: rest | .str _ :: rest | .arr _ :: rest =>
    simp only [formItems, each]
    exact each_agree grouped rest

end

theorem compile_agree (grouped : List String) (having : Option Json.Entries) :
    AgreeOn (Option.map Pred.blank) (compile? cx grouped having)
      (compile? (cx.extended e) grouped (having.map form)) := by
  cases having with
  | none => exact AgreeOn.refl _
  | some entries =>
    refine AgreeOn.map (conditions_agree cx e grouped entries) fun ps qs h => ?_
    rw [Pred.blank_through.map_optional, Pred.blank_through.map_optional, h]

end Having

theorem Value.is_null_of_int (i : Int) : (Value.ofInt i).isNull = false := by
  unfold Value.ofInt
  split <;> rfl

namespace Keyset

def Key.blank (key : Key) : Key := { key with value := key.value.blank }

theorem get_blank (cursor : Json.Entries) (name : String) :
    Json.Entries.get? cursor.blank name = (cursor.get? name).map Json.blank := by
  induction cursor with
  | nil => rfl
  | cons e rest ih =>
    obtain ⟨key, value⟩ := e
    simp only [Json.Entries.get?, Json.Entries.blank, List.map_cons, List.lookup_cons] at ih ⊢
    cases name == key with
    | true => rfl
    | false => exact ih

theorem add_blank (keys : List Key) (key : Key) :
    (add keys key).map Key.blank = add (keys.map Key.blank) key.blank := by
  have hany : (keys.map Key.blank).any (·.name = key.blank.name) =
      keys.any (·.name = key.name) := by
    rw [List.any_map]
    rfl
  unfold add
  rw [hany]
  split
  · rfl
  · rw [List.map_append, List.map_singleton]

theorem entry_keys_blank (m : Model) (cursor : Json.Entries) (keys : List Key)
    (entry : Json.Entries) :
    entryKeys m cursor.blank (keys.map Key.blank) entry =
      List.map Key.blank <$> entryKeys m cursor keys entry := by
  induction entry generalizing keys with
  | nil => rfl
  | cons e rest ih =>
    obtain ⟨name, value⟩ := e
    rw [entryKeys, entryKeys, get_blank]
    cases cursor.get? name with
    | none => rfl
    | some bound =>
      simp only [Option.map_some, map_bind]
      congr 1
      funext order
      rw [← ih, add_blank]
      rfl

theorem ordered_keys_blank (m : Model) (cursor : Json.Entries) (keys : List Key)
    (entries : List Json.Entries) :
    orderedKeys m cursor.blank (keys.map Key.blank) entries =
      List.map Key.blank <$> orderedKeys m cursor keys entries := by
  induction entries generalizing keys with
  | nil => rfl
  | cons entry rest ih =>
    rw [orderedKeys, orderedKeys, entry_keys_blank, bind_map_left, map_bind]
    congr 1
    funext keys'
    exact ih keys'

theorem keys_blank (m : Model) (cursor : Json.Entries) (orderBy : Option (List Json.Entries)) :
    keys m cursor.blank orderBy = List.map Key.blank <$> keys m cursor orderBy := by
  have hfold : ∀ (es : Json.Entries) (ks : List Key),
      es.blank.foldl (fun keys e => add keys ⟨e.1, e.2, .asc⟩) (ks.map Key.blank) =
        (es.foldl (fun keys e => add keys ⟨e.1, e.2, .asc⟩) ks).map Key.blank := by
    intro es
    induction es with
    | nil => exact fun _ => rfl
    | cons e rest ih =>
      intro ks
      rw [List.foldl_cons, ← ih, add_blank]
      rfl
  have hordered := ordered_keys_blank m cursor [] (orderBy.getD [])
  rw [List.map_nil] at hordered
  simp only [keys, hordered, bind_map_left, map_bind, map_pure]
  congr 1
  funext ks
  exact congrArg pure (hfold cursor ks)

theorem scalar_agree (m : Model) (key : String) (json : Json) :
    AgreeOn Value.isNull (Compile.scalar m key json) (Compile.scalar m key json.blank) := by
  cases json with
  | num n =>
    cases n with
    | double d => rfl
    | int i =>
      exact congrArg Except.ok (Value.is_null_of_int i)
  | _ => rfl

theorem boundary_agree (cx : Context) (e : Extension) (key : Key) :
    AgreeOn (fun b : Column × Value => (b.1, Value.null)) (boundary cx key)
      (boundary (cx.extended e) key.blank) := by
  refine AgreeOn.after fun f => ?_
  cases hu : f.isUnique with
  | false => exact AgreeOn.refl _
  | true =>
    refine AgreeOn.bind (scalar_agree cx.model key.name key.value) fun v w hvw => ?_
    simp only [hvw]
    cases w.isNull with
    | true => exact AgreeOn.refl _
    | false => exact AgreeOn.of_pure rfl

theorem direction_blank (keys : List Key) :
    (keys.map Key.blank).head?.map (·.direction) = keys.head?.map (·.direction) := by
  cases keys <;> rfl

theorem compile_agree (cx : Context) (e : Extension) (cursor : Json.Entries)
    (orderBy : Option (List Json.Entries)) :
    AgreeOn Pred.blank (compile cx cursor orderBy)
      (compile (cx.extended e) cursor.blank orderBy) := by
  cases cursor with
  | nil => exact AgreeOn.refl _
  | cons entry rest =>
    simp only [compile, Context.extended_model, keys_blank, bind_map_left, direction_blank]
    refine AgreeOn.after fun ks => ?_
    have hany : ∀ d, (ks.map Key.blank).any (fun k => k.direction ≠ d) =
        ks.any fun k => k.direction ≠ d := by
      intro d
      rw [List.any_map]
      rfl
    rw [hany]
    split
    · exact AgreeOn.refl _
    · refine AgreeOn.bind (AgreeOn.each (boundary_agree cx e) ks) fun bs bs' h => ?_
      have hcolumns := congrArg (List.map Prod.fst) h
      have hvalues := congrArg (List.map Prod.snd) h
      rw [List.map_map, List.map_map] at hcolumns hvalues
      have hlen := congrArg List.length h
      rw [List.length_map, List.length_map] at hlen
      rcases bs with _ | ⟨b, _ | ⟨c, bs⟩⟩
      · cases List.length_eq_zero_iff.mp hlen.symm
        exact AgreeOn.refl _
      · obtain ⟨b', rfl⟩ := List.length_eq_one_iff.mp hlen.symm
        simp only [List.map_cons, List.map_nil, List.cons.injEq, Prod.mk.injEq, and_true] at h
        exact AgreeOn.of_pure (by simp only [Pred.blank, h, Scalar.blank])
      · rcases bs' with _ | ⟨b', _ | ⟨c', bs'⟩⟩
        · cases hlen
        · cases hlen
        · refine AgreeOn.of_pure ?_
          simp only [Pred.blank, List.map_map]
          exact congrArg₂ (Pred.compareRows · _ ·) hcolumns hvalues

end Keyset

namespace Write

theorem payload_form (m : Model) (f : Field) (json : Json) :
    payload m f (form json) = Json.blank <$> payload m f json := by
  match json with
  | .obj [(op, value)] =>
    by_cases hop : op = setKey
    · simp only [form, payload, if_pos hop]
      rfl
    · simp only [form, payload, if_neg hop]
      split <;> rfl
  | .obj [] | .obj (_ :: _ :: _) =>
    simp only [form, Json.blank, payload]
    split <;> rfl
  | .null | .bool _ | .num _ | .str _ | .arr _ => rfl

theorem value_agree (m : Model) (f : Field) (json : Json) :
    AgreeOn (fun _ => Value.null) (value m f json) (value m f json.blank) := by
  cases json with
  | num n =>
    cases n with
    | double d => rfl
    | int i =>
      simp only [AgreeOn, value, Value.ofJson?, Value.is_null_of_int]
      rfl
  | null | arr _ | obj _ => exact AgreeOn.refl _
  | bool _ | str _ => rfl

theorem assignments_agree (m : Model) (entries : Json.Entries) :
    AgreeOn (List.map fun a : String × Value => (a.1, Value.null)) (assignments m entries)
      (assignments m (entries.map fun e => (e.1, form e.2))) := by
  induction entries with
  | nil => exact AgreeOn.refl _
  | cons e rest ih =>
    obtain ⟨key, json⟩ := e
    simp only [assignments, List.map_cons]
    split
    · exact AgreeOn.refl _
    · cases m.field? key with
      | none => exact AgreeOn.refl _
      | some f =>
        simp only [payload_form, bind_map_left]
        refine AgreeOn.after fun json => AgreeOn.bind (value_agree m f json) fun v w _ =>
          AgreeOn.bind ih fun as as' h => AgreeOn.of_pure ?_
        rw [List.map_cons, List.map_cons, h]

end Write

def Pagination.form (p : Pagination) : Pagination :=
  { p with cursor := p.cursor.map Json.Entries.blank }

def Extension.form : Extension → Extension
  | .pagination p => .pagination p.form
  | .mutation data => .mutation (data.map fun e => (e.1, Write.form e.2))
  | .none => .none

def Context.form (cx : Context) : Context := cx.extended cx.extension.form

@[simp] theorem Context.form_model (cx : Context) : cx.form.model = cx.model := rfl

@[simp] theorem Context.form_operation (cx : Context) : cx.form.operation = cx.operation := rfl

theorem Context.form_pagination (cx : Context) :
    cx.form.pagination? = cx.pagination?.map Pagination.form := by
  unfold Context.form Context.extended Context.pagination?
  cases cx.extension <;> rfl

theorem Context.form_mutation (cx : Context) :
    cx.form.mutation? = cx.mutation?.map fun data => data.map fun e => (e.1, Write.form e.2) := by
  unfold Context.form Context.extended Context.mutation?
  cases cx.extension <;> rfl

namespace Ordering

variable (s : Settings) (cx : Context) (e : Extension)

theorem aggregate_fields_extended (kind : Aggregate) (entries : Json.Entries) :
    aggregateFields s (cx.extended e) kind entries = aggregateFields s cx kind entries := by
  induction entries with
  | nil => rfl
  | cons entry rest ih => simp only [aggregateFields, ih]; rfl

theorem key_mentions_extended (grouped : Option (List String)) (key : String) (value : Json) :
    keyMentions s (cx.extended e) grouped key value = keyMentions s cx grouped key value := by
  unfold keyMentions aggregateMentions
  simp only [aggregate_fields_extended]
  rfl

theorem entry_mentions_extended (grouped : Option (List String)) (entries : Json.Entries) :
    entryMentions s (cx.extended e) grouped entries = entryMentions s cx grouped entries := by
  induction entries with
  | nil => rfl
  | cons entry rest ih => simp only [entryMentions, key_mentions_extended, ih]

theorem mentions_extended (grouped : Option (List String)) (entries : List Json.Entries) :
    mentions s (cx.extended e) grouped entries = mentions s cx grouped entries := by
  induction entries with
  | nil => rfl
  | cons entry rest ih => simp only [mentions, entry_mentions_extended, ih]; rfl

theorem lead_items_extended (mentioned : List Mention) (seen names : List String) :
    leadItems (cx.extended e) mentioned seen names = leadItems cx mentioned seen names := by
  induction names generalizing seen with
  | nil => rfl
  | cons name rest ih => simp only [leadItems, ih]; rfl

theorem distinct_fields_form : distinctFields cx.form = distinctFields cx := by
  unfold distinctFields
  rw [Context.form_pagination]
  cases cx.pagination? <;> rfl

theorem compile_form (orderBy : Option (List Json.Entries)) (grouped : Option (List String)) :
    compile s cx.form orderBy grouped = compile s cx orderBy grouped := by
  have hcursor : ((cx.form.pagination?.bind (·.cursor)).getD []).map (·.1) =
      ((cx.pagination?.bind (·.cursor)).getD []).map (·.1) := by
    rw [Context.form_pagination]
    rcases cx.pagination? with _ | ⟨take, skip, _ | cursor, distinct⟩
    · rfl
    · rfl
    · simp [Pagination.form, Json.Entries.blank]
  have hties : breaksTies s cx.form = breaksTies s cx := by
    unfold breaksTies
    rw [Context.form_pagination]
    cases cx.pagination? <;> rfl
  unfold compile
  simp only [distinct_fields_form, hcursor, hties]
  simp only [Context.form, mentions_extended, lead_items_extended]
  rfl

end Ordering

namespace Aggregation

variable (cx : Context) (e : Extension)

theorem payload_columns_extended (kind : Aggregate) (payload : Json) :
    payloadColumns (cx.extended e) kind payload = payloadColumns cx kind payload := by
  have hfields : ∀ fields, fieldColumns (cx.extended e) kind fields =
      fieldColumns cx kind fields := by
    intro fields
    induction fields with
    | nil => rfl
    | cons field rest ih => simp only [fieldColumns, ih]; rfl
  cases payload with
  | obj fields => exact hfields fields
  | bool flag => cases flag <;> rfl
  | _ => rfl

theorem columns_extended {args args' : Args} (h : args'.aggregate = args.aggregate)
    (kinds : List Aggregate) : columns (cx.extended e) args' kinds = columns cx args kinds := by
  induction kinds with
  | nil => rfl
  | cons kind rest ih => simp only [columns, h, payload_columns_extended, ih]

end Aggregation

def RelationArgs.form (schema : Schema) (target : Model) (args : RelationArgs) : RelationArgs :=
  { args with filter := args.filter.map (Filter.form schema target) }

theorem RelationArgs.set_form (schema : Schema) (target m : Model) (r : Relation)
    (args : RelationArgs) (key : String) (value : Json) :
    set m r (args.form schema target) key (Records.formArg schema target key value) =
      form schema target <$> set m r args key value := by
  -- only the three keys that hold a nested query change their value
  have hother : key ≠ "where" → key ≠ "select" → key ≠ "include" →
      Records.formArg schema target key value = value := by
    intro hw hs hi
    cases value with
    | obj entries => simp [Records.formArg, hw, hs, hi]
    | _ => rfl
  unfold set
  split
  · cases value <;> rfl
  · cases value <;> rfl
  · cases value <;> rfl
  · rw [hother (by decide) (by decide) (by decide)]
    cases ordering m r value <;> rfl
  · rw [hother (by decide) (by decide) (by decide)]
    cases natural m r "take" value <;> rfl
  · rw [hother (by decide) (by decide) (by decide)]
    cases natural m r "skip" value <;> rfl
  · rfl

theorem RelationArgs.read_form (schema : Schema) (target m : Model) (r : Relation)
    (args : RelationArgs) (entries : Json.Entries) :
    read m r (args.form schema target) (Records.formArgs schema target entries) =
      form schema target <$> read m r args entries := by
  induction entries generalizing args with
  | nil => rfl
  | cons e rest ih =>
    obtain ⟨key, value⟩ := e
    rw [Records.formArgs, read, read, set_form, bind_map_left, map_bind]
    congr 1
    funext args'
    exact ih args'

theorem Link.correlation_extended (r : Relation) (parent child : Context) (e : Extension) :
    correlation r (parent.extended e) child = correlation r parent child := by
  have hpairs : ∀ pairs, equalities (parent.extended e) child pairs =
      equalities parent child pairs := by
    intro pairs
    induction pairs with
    | nil => rfl
    | cons pair rest ih => simp only [equalities, ih]; rfl
  unfold correlation references
  rw [hpairs]
  rfl

namespace Records

theorem enter_agree {β δ : Type} {g : β → δ} {s : Settings} {cx : Context} {e : Extension}
    {r : Relation} {args : RelationArgs} {k l : Context → Compile β}
    (h : ∀ target tag, s.schema.model? r.target = some target →
      AgreeOn g (k ((cx.nested r target tag).withPagination { take := args.take, skip := args.skip }))
        (l ((cx.nested r target tag).withPagination { take := args.take, skip := args.skip }))) :
    AgreeOn g (enter s cx r args >>= k) (enter s (cx.extended e) r args >>= l) := by
  unfold enter
  by_cases hpage : (r.cardinality.isToOne && (args.take.isSome || args.skip.isSome)) = true
  · rw [if_pos hpage, if_pos hpage]
    exact AgreeOn.refl _
  · rw [if_neg hpage, if_neg hpage]
    simp only [bind_assoc]
    refine AgreeOn.descend fun target tag ht => ?_
    by_cases hboth : (args.select && args.inclusion) = true
    · rw [if_pos hboth]
      exact AgreeOn.refl _
    · rw [if_neg hboth]
      simp only [pure_bind]
      exact h target tag ht

theorem close_agree {s : Settings} {cx child : Context} {e : Extension} {r : Relation}
    {args args' : RelationArgs} {columns columns' : List Projection}
    (hargs : args' = args.form s.schema child.model)
    (hcolumns : columns.map Projection.blank = columns'.map Projection.blank) :
    AgreeOn Projection.blank (close s cx child r args columns)
      (close s (cx.extended e) child r args' columns') := by
  subst hargs
  have htail : ∀ ps qs : List Pred, ps.map Pred.blank = qs.map Pred.blank →
      AgreeOn Projection.blank (closeOver s cx child r args columns ps)
        (closeOver s (cx.extended e) child r args columns' qs) := by
    intro ps qs h
    simp only [closeOver, Link.correlation_extended]
    refine AgreeOn.after fun links => AgreeOn.after fun orderBy => AgreeOn.after fun fold =>
      AgreeOn.of_pure ?_
    simp only [Projection.blank, Projection.blank_all_eq_map, hcolumns, Body.blank,
      Pred.blank_through.map_optional, List.map_append, h]
  cases hf : args.filter with
  | none =>
    simp only [close_over, RelationArgs.form, hf]
    exact htail [] [] rfl
  | some entries =>
    simp only [close_over, RelationArgs.form, hf, Option.map_some]
    refine AgreeOn.bind (Filter.compile_agree s child child.extension entries) fun p q hpq =>
      AgreeOn.bind (AgreeOn.lift (Connective.apply_agree child.model .and ?_)) fun p' q' h => ?_
    · rw [List.map_singleton, List.map_singleton, hpq]
    · exact htail [p'] [q'] (by rw [List.map_singleton, List.map_singleton, h])

theorem nonempty_agree (m : Model) {ps qs : List Projection}
    (h : ps.map Projection.blank = qs.map Projection.blank) :
    AgreeOn (List.map Projection.blank) (nonempty m ps) (nonempty m qs) := by
  cases ps with
  | nil =>
    rw [List.map_nil, eq_comm, List.map_eq_nil_iff] at h
    rw [h]
    exact AgreeOn.refl _
  | cons p ps =>
    cases qs with
    | nil => cases h
    | cons q qs => exact congrArg Except.ok h

mutual

theorem selected_agree (s : Settings) (cx : Context) (e : Extension)
    (entries : List (String × Json)) :
    AgreeOn (List.map Projection.blank) (selected s cx entries)
      (selected s (cx.extended e) (form s.schema cx.model entries)) := by
  match entries with
  | [] => exact AgreeOn.refl _
  | (key, value) :: rest =>
    have hrest := selected_agree s cx e rest
    rw [form, selected, selected, Context.extended_model]
    cases hf : cx.model.field? key with
    | some f =>
      exact AgreeOn.after fun flag => AgreeOn.append (AgreeOn.refl _) hrest
    | none =>
      cases hr : cx.model.relation? key with
      | some r => exact AgreeOn.append (relation_agree s cx e r value) hrest
      | none =>
        simp only
        split
        · exact AgreeOn.append (AgreeOn.refl _) hrest
        · exact AgreeOn.append (AgreeOn.refl _) hrest

theorem inclusions_agree (s : Settings) (cx : Context) (e : Extension)
    (entries : List (String × Json)) :
    AgreeOn (List.map Projection.blank) (inclusions s cx entries)
      (inclusions s (cx.extended e) (form s.schema cx.model entries)) := by
  match entries with
  | [] => exact AgreeOn.refl _
  | (key, value) :: rest =>
    rw [form, inclusions, inclusions, Context.extended_model]
    refine AgreeOn.after_lift fun r hr => ?_
    have hfound := included_ok hr
    simp only [hfound]
    exact AgreeOn.append (relation_agree s cx e r value) (inclusions_agree s cx e rest)

theorem relation_agree (s : Settings) (cx : Context) (e : Extension) (r : Relation)
    (value : Json) :
    AgreeOn (List.map Projection.blank) (relation s cx r value)
      (relation s (cx.extended e) r (formRelation s.schema r value)) := by
  match value with
  | .null | .num _ | .str _ | .arr _ | .bool false => exact AgreeOn.refl _
  | .bool true =>
    refine enter_agree fun target tag _ => AgreeOn.bind (close_agree rfl rfl) fun p q h =>
      AgreeOn.of_pure ?_
    rw [List.map_singleton, List.map_singleton, h]
  | .obj entries =>
    cases ht : s.schema.model? r.target with
    | none =>
      simp only [formRelation, ht]
      rw [relation, relation]
      refine AgreeOn.after fun args => enter_agree fun target tag ht' => ?_
      cases ht.symm.trans ht'
    | some target =>
      have hread : RelationArgs.read cx.model r {} (formArgs s.schema target entries) =
          RelationArgs.form s.schema target <$> RelationArgs.read cx.model r {} entries :=
        RelationArgs.read_form s.schema target cx.model r {} entries
      simp only [formRelation, ht]
      rw [relation, relation, Context.extended_model, hread, liftM_map, bind_map_left]
      refine AgreeOn.after fun args => enter_agree fun target' tag ht' => ?_
      cases ht.symm.trans ht'
      refine AgreeOn.bind (nested_agree s _ entries) fun columns columns' hc =>
        AgreeOn.bind (close_agree rfl hc) fun p q h => AgreeOn.of_pure ?_
      rw [List.map_singleton, List.map_singleton, h]

theorem nested_agree (s : Settings) (cx : Context) (entries : List (String × Json)) :
    AgreeOn (List.map Projection.blank) (nested s cx entries)
      (nested s cx (formArgs s.schema cx.model entries)) := by
  match entries with
  | [] => exact AgreeOn.refl _
  | (key, .obj entries) :: rest =>
    have hrest := nested_agree s cx rest
    by_cases hs : key = "select"
    · subst hs
      exact AgreeOn.bind (selected_agree s cx cx.extension entries)
        fun ps qs h => AgreeOn.lift (nonempty_agree cx.model h)
    · by_cases hi : key = "include"
      · subst hi
        refine AgreeOn.bind (inclusions_agree s cx cx.extension entries)
          fun ps qs h => AgreeOn.of_pure ?_
        rw [List.map_append, List.map_append, h]
      · by_cases hw : key = "where" <;>
          simpa [formArgs, formArg, nested, hs, hi, hw] using hrest
  | (key, .null) :: rest | (key, .bool _) :: rest | (key, .num _) :: rest
  | (key, .str _) :: rest | (key, .arr _) :: rest => exact nested_agree s cx rest

end

theorem columns_agree (s : Settings) (cx : Context) (e : Extension)
    (select inclusion : Option Json.Entries) :
    AgreeOn (List.map Projection.blank) (columns s cx select inclusion)
      (columns s (cx.extended e) (select.map (form s.schema cx.model))
        (inclusion.map (form s.schema cx.model))) := by
  cases select with
  | none =>
    cases inclusion with
    | none => exact AgreeOn.refl _
    | some entries =>
      refine AgreeOn.bind (inclusions_agree s cx e entries) fun ps qs h => AgreeOn.of_pure ?_
      rw [List.map_append, List.map_append, h]
      rfl
  | some entries =>
    cases inclusion with
    | none =>
      exact AgreeOn.bind (selected_agree s cx e entries)
        fun ps qs h => AgreeOn.lift (nonempty_agree cx.model h)
    | some _ => exact AgreeOn.refl _

end Records

end QuerySql
