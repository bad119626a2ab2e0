import QuerySql.Compiler

/-!
# Models under other tables

A clause looks up the members of its model and names the model where it fails, but the
table that the model is stored in is written by the statement around it. So a clause
compiled for the same model under another table gives the same result.
-/

set_option autoImplicit false

namespace QuerySql

/-- The model under the table that is chosen for it. -/
def Model.retable (t : Model → Option String) (m : Model) : Model := { m with table := t m }

def Context.retable (t : Model → Option String) (cx : Context) : Context :=
  { cx with
    model := cx.model.retable t
    parent := cx.parent.map fun p => { p with model := p.model.retable t } }

theorem Context.retable_model (t : Model → Option String) (cx : Context) :
    (cx.retable t).model = cx.model.retable t := rfl

theorem Context.retable_table (cx : Context) : cx.retable Model.table = cx := by
  obtain ⟨_, _, _, _, _, parent, _, _⟩ := cx
  cases parent <;> rfl

def Schema.retable (t : Model → Option String) (schema : Schema) : Schema :=
  ⟨schema.models.map (Model.retable t)⟩

/-- The same settings over models under other tables. -/
structure Settings.Retabled (t : Model → Option String) (s s' : Settings) : Prop where
  schema : s'.schema = s.schema.retable t
  dialect : s'.dialect = s.dialect
  maxDepth : s'.maxDepth = s.maxDepth
  orderTiebreaker : s'.orderTiebreaker = s.orderTiebreaker

variable (t : Model → Option String) {s s' : Settings} (cx : Context) (m : Model)

namespace Schema

variable (schema : Schema)

theorem expect_model_retable (name : String) :
    (schema.retable t).expectModel name = Model.retable t <$> schema.expectModel name := by
  have hnames : (schema.retable t).modelNames = schema.modelNames := by
    simp [modelNames, retable, Model.retable]
  have hmodel : (schema.retable t).model? name = (schema.model? name).map (Model.retable t) :=
    List.find?_map ..
  rw [expectModel, expectModel, hmodel, hnames]
  cases schema.model? name <;> rfl

theorem target_retable (r : Relation) :
    (schema.retable t).target r = Model.retable t <$> schema.target r := by
  rw [target, target, expect_model_retable]
  cases schema.expectModel r.target <;> rfl

end Schema

namespace Condition

variable (f : Field) (lhs : Scalar)

mutual

theorem operators_retable (mode : Mode) (entries : List (String × Json)) :
    operators (m.retable t) f lhs mode entries = operators m f lhs mode entries := by
  match entries with
  | [] => rfl
  | (key, value) :: rest =>
    rw [operators, operators, operators_retable mode rest, entry_retable mode key value]

theorem entry_retable (mode : Mode) (key : String) (value : Json) :
    entry (m.retable t) f lhs mode key value = entry m f lhs mode key value := by
  match value with
  | .obj nested =>
    simp only [entry, operators_retable _ nested]
    rfl
  | .arr _ | .null | .bool _ | .num _ | .str _ => rfl

end

theorem compile_retable (json : Json) :
    compile (m.retable t) f lhs json = compile m f lhs json := by
  cases json with
  | obj entries =>
    simp only [compile, operators_retable]
    rfl
  | null | arr _ | bool _ | num _ | str _ => rfl

end Condition

namespace Connective

theorem check_items_retable (c : Connective) (items : List Json) :
    c.checkItems (m.retable t) items = c.checkItems m items := by
  induction items with
  | nil => rfl
  | cons item rest ih =>
    cases item with
    | obj _ => exact ih
    | null | arr _ | bool _ | num _ | str _ => rfl

theorem check_operand_retable (c : Connective) (value : Json) :
    c.checkOperand (m.retable t) value = c.checkOperand m value := by
  cases value with
  | arr items =>
    cases items with
    | nil => rfl
    | cons item rest => exact check_items_retable t m c (item :: rest)
  | null | obj _ | bool _ | num _ | str _ => rfl

end Connective

namespace Aggregation

theorem field_columns_retable (kind : Aggregate) (fields : Json.Entries) :
    fieldColumns (cx.retable t) kind fields = fieldColumns cx kind fields := by
  induction fields with
  | nil => rfl
  | cons e rest ih =>
    rw [fieldColumns, fieldColumns, ih]
    rfl

theorem payload_columns_retable (kind : Aggregate) (payload : Json) :
    payloadColumns (cx.retable t) kind payload = payloadColumns cx kind payload := by
  cases payload with
  | obj fields => exact field_columns_retable t cx kind fields
  | bool b => cases b <;> rfl
  | null | arr _ | num _ | str _ => rfl

theorem columns_retable (args : Args) (kinds : List Aggregate) :
    columns (cx.retable t) args kinds = columns cx args kinds := by
  induction kinds with
  | nil => rfl
  | cons kind rest ih => simp only [columns, ih, payload_columns_retable]

theorem count_columns_retable (args : Args) :
    countColumns (cx.retable t) args = countColumns cx args := by
  simp only [countColumns, payload_columns_retable]
  rfl

theorem aggregate_columns_retable (args : Args) :
    aggregateColumns (cx.retable t) args = aggregateColumns cx args := by
  simp only [aggregateColumns, columns_retable]
  rfl

theorem group_columns_retable (args : Args) :
    groupColumns (cx.retable t) args = groupColumns cx args := by
  simp only [groupColumns, columns_retable]
  rfl

end Aggregation

namespace Ordering

theorem options_retable (key : String) (found : Option Direction × Option Nulls)
    (entries : Json.Entries) :
    options (m.retable t) key found entries = options m key found entries := by
  induction entries generalizing found with
  | nil => rfl
  | cons e rest ih =>
    simp only [options, ih]
    rfl

theorem order_retable (key : String) (value : Json) :
    order (m.retable t) key value = order m key value := by
  cases value with
  | obj entries =>
    simp only [order, options_retable]
    rfl
  | null | bool _ | num _ | str _ | arr _ => rfl

theorem aggregate_fields_retable (hs : s'.dialect = s.dialect) (kind : Aggregate)
    (entries : Json.Entries) :
    aggregateFields s' (cx.retable t) kind entries = aggregateFields s cx kind entries := by
  induction entries with
  | nil => rfl
  | cons e rest ih =>
    simp only [aggregateFields, ih, item, hs, Context.retable_model, order_retable]
    rfl

theorem key_mentions_retable (hs : s'.dialect = s.dialect) (grouped : Option (List String))
    (key : String) (value : Json) :
    keyMentions s' (cx.retable t) grouped key value = keyMentions s cx grouped key value := by
  unfold keyMentions
  split
  · simp only [aggregateMentions, aggregate_fields_retable t cx hs, item, hs,
      Context.retable_model, order_retable]
    rfl
  · simp only [item, hs, Context.retable_model, order_retable]
    rfl

theorem entry_mentions_retable (hs : s'.dialect = s.dialect) (grouped : Option (List String))
    (entries : Json.Entries) :
    entryMentions s' (cx.retable t) grouped entries = entryMentions s cx grouped entries := by
  induction entries with
  | nil => rfl
  | cons e rest ih => rw [entryMentions, entryMentions, ih, key_mentions_retable t cx hs]

theorem mentions_retable (hs : s'.dialect = s.dialect) (grouped : Option (List String))
    (orderBy : List Json.Entries) :
    mentions s' (cx.retable t) grouped orderBy = mentions s cx grouped orderBy := by
  induction orderBy with
  | nil => rfl
  | cons entry rest ih =>
    simp only [mentions, ih, entry_mentions_retable t cx hs]
    rfl

theorem lead_items_retable (ms : List Mention) (seen names : List String) :
    leadItems (cx.retable t) ms seen names = leadItems cx ms seen names := by
  induction names generalizing seen with
  | nil => rfl
  | cons name rest ih =>
    rw [leadItems, leadItems, ih]
    rfl

theorem compile_retable (hs : s'.dialect = s.dialect)
    (hties : s'.orderTiebreaker = s.orderTiebreaker) (orderBy : Option (List Json.Entries))
    (grouped : Option (List String)) :
    compile s' (cx.retable t) orderBy grouped = compile s cx orderBy grouped := by
  simp only [compile, mentions_retable t cx hs, lead_items_retable, breaksTies, hties]
  rfl

end Ordering

namespace Keyset

theorem entry_keys_retable (cursor : Json.Entries) (keys : List Key) (entries : Json.Entries) :
    entryKeys (m.retable t) cursor keys entries = entryKeys m cursor keys entries := by
  induction entries generalizing keys with
  | nil => rfl
  | cons e rest ih => simp only [entryKeys, ih, Ordering.order_retable]

theorem ordered_keys_retable (cursor : Json.Entries) (keys : List Key)
    (orderBy : List Json.Entries) :
    orderedKeys (m.retable t) cursor keys orderBy = orderedKeys m cursor keys orderBy := by
  induction orderBy generalizing keys with
  | nil => rfl
  | cons entry rest ih => simp only [orderedKeys, ih, entry_keys_retable]

theorem compile_retable (cursor : Json.Entries) (orderBy : Option (List Json.Entries)) :
    compile (cx.retable t) cursor orderBy = compile cx cursor orderBy := by
  simp only [compile, keys, Context.retable_model, ordered_keys_retable]
  rfl

end Keyset

namespace Having

theorem aggregate_conditions_retable (f : Field) (entries : Json.Entries) :
    aggregateConditions (cx.retable t) f entries = aggregateConditions cx f entries := by
  induction entries with
  | nil => rfl
  | cons e rest ih =>
    simp only [aggregateConditions, ih, Context.retable_model, Condition.compile_retable]
    rfl

theorem plain_condition_retable (f : Field) (grouped : List String) (entries : Json.Entries) :
    plainCondition (cx.retable t) f grouped entries = plainCondition cx f grouped entries := by
  simp only [plainCondition, Context.retable_model, Condition.compile_retable]
  rfl

theorem field_conditions_retable (f : Field) (grouped : List String) (value : Json) :
    fieldConditions (cx.retable t) f grouped value = fieldConditions cx f grouped value := by
  cases value <;>
    simp only [fieldConditions, aggregate_conditions_retable, plain_condition_retable]

theorem check_operand_retable (c : Connective) (value : Json) :
    checkOperand (m.retable t) c value = checkOperand m c value := by
  cases value with
  | arr items =>
    cases items with
    | nil => rfl
    | cons item rest => exact Connective.check_items_retable t m c (item :: rest)
  | null | obj _ | bool _ | num _ | str _ => rfl

mutual

theorem conditions_retable (grouped : List String) (entries : List (String × Json)) :
    conditions (cx.retable t) grouped entries = conditions cx grouped entries := by
  match entries with
  | [] => rfl
  | (key, value) :: rest =>
    simp only [conditions, conditions_retable grouped rest, field_conditions_retable,
      connective_retable grouped _ value]
    rfl

theorem connective_retable (grouped : List String) (c : Connective) (value : Json) :
    connective (cx.retable t) grouped c value = connective cx grouped c value := by
  match value with
  | .obj entries =>
    simp only [connective, conditions_retable grouped entries]
    rfl
  | .arr items =>
    simp only [connective, Context.retable_model, check_operand_retable,
      each_retable grouped items]
    rfl
  | .null | .bool _ | .num _ | .str _ => rfl

theorem each_retable (grouped : List String) (items : List Json) :
    each (cx.retable t) grouped items = each cx grouped items := by
  match items with
  | [] => rfl
  | .obj entries :: rest =>
    rw [each, each, conditions_retable grouped entries, each_retable grouped rest]
  | .null :: rest | .bool _ :: rest | .num _ :: rest | .str _ :: rest | .arr _ :: rest =>
    simp only [each]
    exact each_retable grouped rest

end

theorem compile_retable (grouped : List String) (having : Option Json.Entries) :
    compile? (cx.retable t) grouped having = compile? cx grouped having := by
  cases having with
  | none => rfl
  | some entries => rw [compile?, compile?, conditions_retable]

end Having

namespace RelationArgs

theorem read_retable (r : Relation) (args : RelationArgs) (entries : Json.Entries) :
    read (m.retable t) r args entries = read m r args entries := by
  induction entries generalizing args with
  | nil => rfl
  | cons e rest ih =>
    simp only [read, ih]
    rfl

end RelationArgs

namespace Write

theorem assignments_retable (entries : Json.Entries) :
    assignments (m.retable t) entries = assignments m entries := by
  induction entries with
  | nil => rfl
  | cons e rest ih =>
    simp only [assignments, ih]
    rfl

end Write

namespace Link

theorem equalities_retable (child : Context) (pairs : List (String × String)) :
    equalities (cx.retable t) (child.retable t) pairs = equalities cx child pairs := by
  induction pairs with
  | nil => rfl
  | cons p rest ih =>
    rw [equalities, equalities, ih]
    rfl

end Link

end QuerySql
