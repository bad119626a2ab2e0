import QuerySql.Proofs.Agreement.Clauses
import QuerySql.Proofs.Success.Statement

/-!
# Literals and the text of a statement

Two queries of one form fail alike, or compile to one text with equally many
values. What a literal holds shows in the values of a statement and nowhere
else.
-/

set_option autoImplicit false

namespace QuerySql

theorem Args.form_aggregate (schema : Schema) (m : Model) (args : Args) :
    (args.form schema m).aggregate = args.aggregate := by
  funext kind
  cases kind <;> rfl

theorem Args.form_has (schema : Schema) (m : Model) (args : Args) :
    (args.form schema m).has = args.has := by
  funext a
  cases a with
  | aggregate kind => simp only [has, form_aggregate]
  | filter | select | inclusion | cursor | having | data => simp [has, form]
  | orderBy | take | skip | distinct | grouping => rfl

theorem Args.form_check (schema : Schema) (m : Model) (args : Args) (model : String)
    (op : Operation) : (args.form schema m).check model op = args.check model op := by
  simp only [check, present, form_has]

theorem Context.root_form (schema : Schema) (m : Model) (op : Operation) (args : Args) :
    Context.atRoot m op (args.form schema m) = (Context.atRoot m op args).form := by
  cases hop : op.isMutation with
  | false => simp only [atRoot, hop]; rfl
  | true => cases hd : args.data <;> simp only [atRoot, hop, Args.form, hd] <;> rfl

namespace Read

/-- The keys of an object with the types of their values. -/
def kinds (entries : Json.Entries) : List (String × Json.Kind) :=
  entries.map fun e => (e.1, e.2.kind)

theorem kinds_form_operators (entries : Json.Entries) :
    kinds (Condition.formOperators entries) = kinds entries := by
  have hkind : ∀ key json, (Condition.formOperand key json).kind = json.kind := by
    intro key json
    cases json with
    | obj nested => simp only [Condition.formOperand]; split <;> rfl
    | arr items => simp only [Condition.formOperand]; split <;> rfl
    | _ => simp only [Condition.formOperand]; split <;> rfl
  induction entries with
  | nil => rfl
  | cons e rest ih =>
    simp only [kinds] at ih
    simp only [kinds, Condition.formOperators, List.map_cons, hkind, ih]

theorem kinds_form (schema : Schema) (m : Model) (entries : Json.Entries) :
    kinds (Filter.form schema m entries) = kinds entries := by
  have hoperand : ∀ json, (Filter.formOperand schema m json).kind = json.kind := by
    intro json
    cases json <;> rfl
  have hcondition : ∀ json, (Condition.form json).kind = json.kind := by
    intro json
    cases json <;> rfl
  have hrelation : ∀ r json, (Filter.formRelation schema r json).kind = json.kind := by
    intro r json
    cases json with
    | obj nested =>
      simp only [Filter.formRelation]
      split
      · split <;> rfl
      · rfl
    | _ => rfl
  induction entries with
  | nil => rfl
  | cons e rest ih =>
    obtain ⟨key, value⟩ := e
    simp only [kinds] at ih
    simp only [kinds, Filter.form, List.map_cons, ih, List.cons.injEq, Prod.mk.injEq, true_and,
      and_true]
    split
    · exact hoperand value
    · exact hcondition value
    · exact hrelation _ value
    · rfl

theorem columns_agree (s : Settings) (cx : Context) (e : Extension) (args : Args) :
    AgreeOn (List.map Projection.blank) (columns s cx args)
      (columns s (cx.extended e) (args.form s.schema cx.model)) := by
  unfold columns
  rw [Context.extended_operation]
  cases cx.operation with
  | count =>
    simp only [Aggregation.countColumns, Aggregation.payload_columns_extended]
    exact AgreeOn.refl _
  | aggregate =>
    simp only [Aggregation.aggregateColumns,
      Aggregation.columns_extended cx e (Args.form_aggregate s.schema cx.model args)]
    exact AgreeOn.refl _
  | groupBy =>
    simp only [Aggregation.groupColumns,
      Aggregation.columns_extended cx e (Args.form_aggregate s.schema cx.model args)]
    exact AgreeOn.refl _
  | _ => exact Records.columns_agree s cx e args.select args.inclusion

theorem filter_agree (s : Settings) (cx : Context) (args : Args) :
    AgreeOn (Option.map Pred.blank) (filter s cx args)
      (filter s cx.form (args.form s.schema cx.model)) := by
  have hjoin : ∀ (p q r t : Option Pred), p.map Pred.blank = q.map Pred.blank →
      r.map Pred.blank = t.map Pred.blank →
        (Pred.all? (p.toList ++ r.toList)).map Pred.blank =
          (Pred.all? (q.toList ++ t.toList)).map Pred.blank := by
    intro p q r t hp hr
    simp only [Pred.blank_through.map_optional, List.map_append, ← Option.toList_map, hp, hr]
  unfold filter
  rw [Context.form_pagination]
  refine AgreeOn.bind (Filter.compile_optional_agree s cx _ args.filter) fun p q hp => ?_
  rcases cx.pagination? with _ | ⟨take, skip, _ | cursor, distinct⟩
  · exact AgreeOn.of_pure (hjoin p q none none hp rfl)
  · exact AgreeOn.of_pure (hjoin p q none none hp rfl)
  · exact AgreeOn.bind
      (AgreeOn.present (AgreeOn.lift (Keyset.compile_agree cx _ cursor args.orderBy)))
      fun r t hr => AgreeOn.of_pure (hjoin p q r t hp hr)

theorem distinct_form (s : Settings) (cx : Context) : distinct s cx.form = distinct s cx := by
  have hcursor : (cx.form.pagination?.bind (·.cursor)).isSome =
      (cx.pagination?.bind (·.cursor)).isSome := by
    rw [Context.form_pagination]
    rcases cx.pagination? with _ | ⟨take, skip, _ | cursor, distinct⟩ <;> rfl
  unfold distinct
  rw [Ordering.distinct_fields_form, hcursor]
  rfl

def pinned? : Json → Option Json.Kind
  | .obj [(op, operand)] => if op = "equals" then some operand.kind else none
  | .obj _ => none
  | json => some json.kind

theorem pins_eq (m : Model) (key : String) (value : Json) :
    pins m key value = ((m.field? key).any Field.isUnique &&
      match pinned? value with
      | none | some .null | some .array | some .object => false
      | some _ => true) := by
  match value with
  | .obj [(op, operand)] =>
    by_cases hop : op = "equals"
    · simp only [pins, pinned?, if_pos hop]
      cases operand <;> rfl
    · simp only [pins, pinned?, if_neg hop]
  | .obj [] | .obj (_ :: _ :: _) => rfl
  | .null | .bool _ | .num _ | .str _ | .arr _ => rfl

theorem pinned_of_kinds {es es' : Json.Entries} (h : kinds es = kinds es') :
    pinned? (.obj es) = pinned? (.obj es') := by
  have hlen : es.length = es'.length := by
    simpa [kinds] using congrArg List.length h
  rcases es with _ | ⟨e, _ | ⟨f, es⟩⟩
  · cases List.length_eq_zero_iff.mp hlen.symm
    rfl
  · obtain ⟨e', rfl⟩ := List.length_eq_one_iff.mp hlen.symm
    simp only [kinds, List.map_cons, List.map_nil, List.cons.injEq, Prod.mk.injEq, and_true] at h
    simp only [pinned?, h]
  · rcases es' with _ | ⟨e', _ | ⟨f', es'⟩⟩
    · cases hlen
    · cases hlen
    · rfl

theorem pinned_condition_form (json : Json) : pinned? (Condition.form json) = pinned? json := by
  cases json with
  | obj entries => exact pinned_of_kinds (kinds_form_operators entries)
  | _ => rfl

theorem pinned_operand_form (schema : Schema) (m : Model) (json : Json) :
    pinned? (Filter.formOperand schema m json) = pinned? json := by
  cases json with
  | obj entries => exact pinned_of_kinds (kinds_form schema m entries)
  | _ => rfl

theorem check_unique_form (schema : Schema) (m : Model) (args : Args) :
    checkUnique m (args.form schema m) = checkUnique m args := by
  have hany : ∀ entries : Json.Entries,
      ((Filter.form schema m entries).any fun e => pins m e.1 e.2) =
        entries.any fun e => pins m e.1 e.2 := by
    intro entries
    induction entries with
    | nil => rfl
    | cons e rest ih =>
      obtain ⟨key, value⟩ := e
      rw [Filter.form, List.any_cons, List.any_cons, ih]
      congr 1
      cases hc : Connective.ofKey? key with
      | some c => rw [pins_eq, pins_eq, pinned_operand_form]
      | none =>
        cases hf : m.field? key with
        | some f => rw [pins_eq, pins_eq, pinned_condition_form]
        | none => simp only [pins, hf, Option.any_none, Bool.false_and]
  unfold checkUnique
  cases hf : args.filter with
  | none => simp only [Args.form, hf, Option.map_none]
  | some entries => simp only [Args.form, hf, Option.map_some, Option.getD_some, hany]

theorem find_agree (s : Settings) (cx : Context) (args : Args) :
    AgreeOn Statement.blank (find s cx args)
      (find s cx.form (args.form s.schema cx.model)) := by
  have hrows : AgreeOn Statement.blank (findRows s cx args)
      (findRows s cx.form (args.form s.schema cx.model)) := by
    unfold findRows
    rw [distinct_form, Ordering.compile_form]
    refine AgreeOn.bind (columns_agree s cx _ args) fun ps qs hps =>
      AgreeOn.after fun distinct => ?_
    refine AgreeOn.bind (filter_agree s cx args) fun p q hpq => AgreeOn.after fun orderBy =>
      AgreeOn.of_pure ?_
    simp only [Statement.blank, Projection.blank_all_eq_map, Body.blank, hps, hpq]
    rfl
  rw [find_rows, find_rows, Context.form_operation, Context.form_model, check_unique_form]
  split
  · exact AgreeOn.after fun _ => hrows
  · exact hrows

theorem aggregate_agree (s : Settings) (cx : Context) (args : Args) :
    AgreeOn Statement.blank (aggregate s cx args)
      (aggregate s cx.form (args.form s.schema cx.model)) := by
  unfold aggregate
  rw [Ordering.compile_form]
  refine AgreeOn.bind (filter_agree s cx args) fun p q hpq => AgreeOn.after fun orderBy => ?_
  have htake : (args.form s.schema cx.model).take = args.take := rfl
  have hskip : (args.form s.schema cx.model).skip = args.skip := rfl
  have hpage : pageColumns cx.form (args.form s.schema cx.model) = pageColumns cx args := by
    simp only [pageColumns, Aggregation.mentionedFields, Aggregation.mentioned,
      Args.form_aggregate]
    rfl
  rw [htake, hskip, hpage]
  split
  · refine AgreeOn.bind (columns_agree s cx _ args) fun ps qs hps => AgreeOn.of_pure ?_
    simp only [Statement.blank, Projection.blank_all_eq_map, Body.blank, hps, hpq]
    rfl
  · refine AgreeOn.after fun page => AgreeOn.after fun tag => ?_
    refine AgreeOn.bind (columns_agree s (cx.withTag tag) _ args) fun ps qs hps =>
      AgreeOn.of_pure ?_
    simp only [Statement.blank, Projection.blank_all_eq_map, Body.blank, hps, hpq]
    rfl

theorem group_by_agree (s : Settings) (cx : Context) (args : Args) :
    AgreeOn Statement.blank (groupBy s cx args)
      (groupBy s cx.form (args.form s.schema cx.model)) := by
  unfold groupBy
  rw [Context.form_model]
  refine AgreeOn.after fun grouping => ?_
  simp only [Ordering.compile_form]
  refine AgreeOn.bind (columns_agree s cx _ args) fun ps qs hps =>
    AgreeOn.bind (filter_agree s cx args) fun p q hpq =>
    AgreeOn.bind (AgreeOn.lift (Having.compile_agree cx _ _ args.having)) fun h h' hh =>
    AgreeOn.after fun orderBy => AgreeOn.of_pure ?_
  simp only [Statement.blank, Projection.blank_all_eq_map, Body.blank, hps, hpq, hh]
  rfl

end Read

namespace Write

theorem data_form (cx : Context) :
    data cx.form = (fun entries => entries.map fun e => (e.1, form e.2)) <$> data cx := by
  unfold data
  rw [Context.form_mutation]
  cases cx.mutation? <;> rfl

theorem create_agree (cx : Context) : AgreeOn Statement.blank (create cx) (create cx.form) := by
  unfold create
  rw [data_form, liftM_map, bind_map_left]
  refine AgreeOn.after fun entries =>
    AgreeOn.bind (AgreeOn.lift (assignments_agree cx.model entries)) fun as bs h =>
      AgreeOn.of_pure ?_
  simp only [Statement.blank, h]
  rfl

theorem update_agree (s : Settings) (cx : Context) (args : Args) :
    AgreeOn Statement.blank (update s cx args)
      (update s cx.form (args.form s.schema cx.model)) := by
  unfold update
  rw [data_form, liftM_map, bind_map_left]
  refine AgreeOn.after fun entries =>
    AgreeOn.bind (AgreeOn.lift (assignments_agree cx.model entries)) fun as bs h => ?_
  have hempty : as.isEmpty = bs.isEmpty := by
    simpa using congrArg List.isEmpty h
  have hfilter := Filter.compile_optional_agree s cx cx.extension.form args.filter
  rw [hempty]
  split
  · exact AgreeOn.refl _
  · refine AgreeOn.bind hfilter fun p q hpq => AgreeOn.of_pure ?_
    simp only [Statement.blank, h, hpq]
    rfl

theorem delete_agree (s : Settings) (cx : Context) (args : Args) :
    AgreeOn Statement.blank (delete s cx args)
      (delete s cx.form (args.form s.schema cx.model)) := by
  refine AgreeOn.bind (Filter.compile_optional_agree s cx _ args.filter) fun p q hpq =>
    AgreeOn.of_pure ?_
  simp only [Statement.blank, hpq]
  rfl

end Write

namespace Compiler

theorem compile_at_agree (s : Settings) (cx : Context) (args : Args) :
    AgreeOn Statement.blank (compileAt s args cx)
      (compileAt s (args.form s.schema cx.model) cx.form) := by
  unfold compileAt
  rw [Context.form_operation]
  cases cx.operation with
  | findMany | findFirst | findUnique => exact Read.find_agree s cx args
  | count | aggregate => exact Read.aggregate_agree s cx args
  | groupBy => exact Read.group_by_agree s cx args
  | create => exact Write.create_agree cx
  | update => exact Write.update_agree s cx args
  | delete => exact Write.delete_agree s cx args

theorem statement_agree (c : Compiler) (model : String) (op : Operation) (args : Args) {m : Model}
    (hm : c.schema.model? model = some m) :
    AgreeOn (fun r : Statement × Aliases => r.1.blank) (c.statement model op args)
      (c.statement model op (args.form c.schema m)) := by
  simp only [statement, run_at hm, Args.form_check, Context.root_form]
  refine AgreeOn.after fun found => AgreeOn.after fun _ => ?_
  exact AgreeOn.run (compile_at_agree c.settings (Context.atRoot m op args) args) ⟨1⟩

end Compiler

/-- The queries differ in their literals only, and in none by its type. For a
model that is not there the queries may be any. -/
def Args.SameForm (schema : Schema) (model : String) (a b : Args) : Prop :=
  ∀ m, schema.model? model = some m → a.form schema m = b.form schema m

/-- What the literals of a query hold never shows in the text of its statement,
in the number of its values or in its error. -/
theorem literals_stay_out_of_text (c : Compiler) (model : String) (op : Operation) {a b : Args}
    (h : Args.SameForm c.schema model a b) :
    (∃ e, c.compile model op a = .error e ∧ c.compile model op b = .error e) ∨
      ∃ x y, c.compile model op a = .ok x ∧ c.compile model op b = .ok y ∧
        x.sql = y.sql ∧ x.params.length = y.params.length := by
  cases hm : c.schema.model? model with
  | none =>
    have hfail : ∀ args, c.compile model op args =
        .error (.unknownModel model c.schema.modelNames) := by
      intro args
      simp only [Compiler.compile, Compiler.statement, Schema.expectModel, hm]
      rfl
    exact .inl ⟨_, hfail a, hfail b⟩
  | some m =>
    have hagree : AgreeOn (fun r : Statement × Aliases => r.1.blank) (c.statement model op a)
        (c.statement model op b) := by
      have ha := Compiler.statement_agree c model op a hm
      have hb := Compiler.statement_agree c model op b hm
      rw [h m hm] at ha
      exact ha.trans hb.symm
    rcases AgreeOn.outcome hagree with ⟨e, ha, hb⟩ | ⟨⟨st, as⟩, ⟨st', as'⟩, ha, hb, hblank⟩
    · refine .inl ⟨e, ?_, ?_⟩
      · rw [Compiler.compile, ha]
        rfl
      · rw [Compiler.compile, hb]
        rfl
    · refine .inr ⟨_, _, ?_, ?_, Statement.prepare_of_blank c.dialect hblank⟩
      · rw [Compiler.compile, ha]
        rfl
      · rw [Compiler.compile, hb]
        rfl

namespace Sample

def search (text : String) (id : Int) : Args where
  filter := some [("name", .obj [("contains", .str text), ("mode", .str "insensitive")]),
    ("posts", .obj [("some", .obj [("title", .obj [("in", .arr [.str text, .str "draft"])])])])]
  inclusion := some [("posts", .obj [("where", .obj [("title", .str text)])])]
  cursor := some [("id", .num (.int id))]

end Sample

theorem sample_literals_stay_out_of_text :
    (((Sample.compiler .postgresql).compile "User" .findMany (Sample.search "a" 1)).toBool = true) ∧
      ((∃ e, (Sample.compiler .postgresql).compile "User" .findMany (Sample.search "a" 1) =
          .error e ∧ (Sample.compiler .postgresql).compile "User" .findMany
            (Sample.search "'; DROP TABLE users; --" 2) = .error e) ∨
        ∃ x y, (Sample.compiler .postgresql).compile "User" .findMany (Sample.search "a" 1) = .ok x ∧
          (Sample.compiler .postgresql).compile "User" .findMany
            (Sample.search "'; DROP TABLE users; --" 2) = .ok y ∧
              x.sql = y.sql ∧ x.params.length = y.params.length) := by
  refine ⟨rfl, literals_stay_out_of_text (Sample.compiler .postgresql) "User" .findMany ?_⟩
  intro m hm
  cases hm
  rfl

end QuerySql
