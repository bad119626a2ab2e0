import QuerySql.Compile.Having
import QuerySql.Compile.Keyset
import QuerySql.Compile.Records
import QuerySql.Compile.Write
import QuerySql.Proofs.Refusals.Basic

/-!
# Refusals of the clauses

Every part of the compiler that looks up names or reads arguments fails with a
documented error. The lemmas rewrite a block into its steps, so that each proof
only splits the cases of its function.
-/

set_option autoImplicit false

namespace QuerySql

/-! ## Lookups -/

@[simp] theorem Model.expect_field_orderly (m : Model) (name : String) :
    Orderly (m.expectField name) := by
  unfold Model.expectField
  split <;> simp

@[simp] theorem Model.expect_relation_orderly (m : Model) (name : String) :
    Orderly (m.expectRelation name) := by
  unfold Model.expectRelation
  split <;> simp

@[simp] theorem Schema.expect_model_orderly (schema : Schema) (name : String) :
    Orderly (schema.expectModel name) := by
  unfold Schema.expectModel
  split <;> simp

@[simp] theorem Schema.target_orderly (schema : Schema) (r : Relation) :
    Orderly (schema.target r) := by
  unfold Schema.target
  split
  · simp
  · rename_i e he
    exact orderly_error.mpr ((Schema.expect_model_orderly schema r.target e he).noted _)

@[simp] theorem Args.check_orderly (args : Args) (model : String) (op : Operation) :
    Orderly (args.check model op) := by
  unfold Args.check
  split
  · exact orderly_error.mpr (Error.documented_validation (by simp))
  · simp

@[simp] theorem Dialect.check_nulls_orderly (d : Dialect) (nulls : Option Nulls) :
    Orderly (d.checkNulls nulls) := by
  unfold Dialect.checkNulls
  split <;> simp

@[simp] theorem Dialect.check_distinct_orderly (d : Dialect) : Orderly d.checkDistinctOn := by
  unfold Dialect.checkDistinctOn
  split <;> simp

namespace Compile

variable (m : Model) (key : String) (json : Json)

@[simp] theorem scalar_orderly : QuerySql.Orderly (scalar m key json) := by
  unfold scalar
  split <;> simp

@[simp] theorem flag_orderly : QuerySql.Orderly (flag m key json) := by
  unfold flag
  split <;> simp

@[simp] theorem entries_orderly : QuerySql.Orderly (entries m key json) := by
  unfold entries
  split <;> simp

theorem descend_orderly (s : Settings) (cx : Context) (r : Relation) :
    (descend s cx r).Orderly := by
  refine .after_lift (Schema.target_orderly s.schema r) fun target _ => ?_
  split
  · exact .after (orderly_throw.mpr (by simp)) fun _ => fresh_orderly.after fun _ => by simp
  · exact fresh_orderly.after fun _ => by simp

end Compile

/-! ## Conditions on fields -/

namespace Condition

variable (m : Model) (f : Field) (lhs : Scalar)

@[simp] theorem mode_orderly (inherited : Mode) (operators : Json.Entries) :
    Orderly (mode m f inherited operators) := by
  unfold mode
  repeat' split
  all_goals simp

@[simp] theorem operand_orderly (json : Json) : Orderly (operand m f json) := by
  unfold operand
  split <;> simp

@[simp] theorem compare_orderly (mode : Mode) (op : Comparison) (json : Json) :
    Orderly (compare m f lhs mode op json) := by
  simp [compare]

@[simp] theorem is_in_orderly (mode : Mode) (negated : Bool) (json : Json) :
    Orderly (isIn m f lhs mode negated json) := by
  unfold isIn
  split <;> simp [orderly_each]

@[simp] theorem pattern_orderly (mode : Mode) (p : Pattern) (json : Json) :
    Orderly (pattern m f lhs mode p json) := by
  unfold pattern
  repeat' split
  all_goals simp

@[simp] theorem operator_orderly (mode : Mode) (key : String) (json : Json) :
    Orderly (operator m f lhs mode key json) := by
  unfold operator
  repeat' split
  all_goals simp

mutual

@[simp] theorem operators_orderly (mode : Mode) (entries : List (String × Json)) :
    Orderly (operators m f lhs mode entries) := by
  match entries with
  | [] => simp [operators]
  | (key, value) :: rest =>
    have hentry := entry_orderly mode key value
    have hrest := operators_orderly mode rest
    simp only [operators]
    split <;> simp [hentry, hrest]

theorem entry_orderly (mode : Mode) (key : String) (json : Json) :
    Orderly (entry m f lhs mode key json) := by
  match json with
  | .obj nested =>
    have hnested := fun inner => operators_orderly inner nested
    simp only [entry]
    split <;> simp [hnested]
  | .null | .bool _ | .num _ | .str _ | .arr _ => simp [entry]

end

@[simp] theorem compile_orderly (json : Json) : Orderly (compile m f lhs json) := by
  unfold compile
  split <;> simp

end Condition

/-! ## Connectives -/

namespace Connective

variable (m : Model) (c : Connective)

@[simp] theorem apply_orderly (operands : List (Option Pred)) : Orderly (c.apply m operands) := by
  unfold apply
  repeat' split
  all_goals simp

@[simp] theorem check_items_orderly (items : List Json) : Orderly (c.checkItems m items) := by
  induction items with
  | nil => simp [checkItems]
  | cons item rest ih => cases item <;> simp [checkItems, ih]

@[simp] theorem check_operand_orderly (json : Json) : Orderly (c.checkOperand m json) := by
  unfold checkOperand
  split <;> simp

end Connective

@[simp] theorem FilterKey.resolve_orderly (m : Model) (key : String) :
    Orderly (FilterKey.resolve m key) := by
  unfold FilterKey.resolve
  repeat' split
  all_goals simp

/-! ## Aggregates, groups and orderings -/

namespace Aggregation

@[simp] theorem field_orderly (m : Model) (kind : Aggregate) (name : String) :
    Orderly (field m kind name) := by
  simp only [field, orderly_bind, Model.expect_field_orderly, true_and]
  intro f _
  split <;> simp

variable (cx : Context)

@[simp] theorem field_columns_orderly (kind : Aggregate) (entries : List (String × Json)) :
    Orderly (fieldColumns cx kind entries) := by
  induction entries with
  | nil => simp [fieldColumns]
  | cons e rest ih =>
    simp only [fieldColumns, orderly_bind, Compile.flag_orderly, true_and]
    intro flag _
    repeat' split
    all_goals simp [ih]

@[simp] theorem payload_columns_orderly (kind : Aggregate) (payload : Json) :
    Orderly (payloadColumns cx kind payload) := by
  unfold payloadColumns
  repeat' split
  all_goals simp

@[simp] theorem columns_orderly (args : Args) (kinds : List Aggregate) :
    Orderly (columns cx args kinds) := by
  induction kinds with
  | nil => simp [columns]
  | cons kind rest ih =>
    simp only [columns]
    split <;> simp [ih]

@[simp] theorem count_columns_orderly (args : Args) : Orderly (countColumns cx args) := by
  simp only [countColumns, orderly_bind, payload_columns_orderly, true_and]
  intro columns _
  split <;> simp

@[simp] theorem aggregate_columns_orderly (args : Args) : Orderly (aggregateColumns cx args) := by
  simp only [aggregateColumns, orderly_bind, columns_orderly, true_and]
  intro columns _
  split <;> simp

@[simp] theorem grouping_orderly (m : Model) (names : Option (List String)) :
    Orderly (grouping m names) := by
  simp only [grouping]
  split <;> simp [orderly_each]

@[simp] theorem group_columns_orderly (args : Args) : Orderly (groupColumns cx args) := by
  simp [groupColumns]

@[simp] theorem mentioned_fields_orderly (m : Model) (args : Args) :
    Orderly (mentionedFields m args) := by
  simp [mentionedFields, orderly_each]

end Aggregation

namespace Having

variable (cx : Context) (grouped : List String)

@[simp] theorem check_operand_orderly (m : Model) (c : Connective) (json : Json) :
    Orderly (checkOperand m c json) := by
  unfold checkOperand
  split <;> simp

@[simp] theorem aggregate_conditions_orderly (f : Field) (entries : List (String × Json)) :
    Orderly (aggregateConditions cx f entries) := by
  induction entries with
  | nil => simp [aggregateConditions]
  | cons e rest ih =>
    simp only [aggregateConditions]
    split <;> simp [ih]

@[simp] theorem plain_condition_orderly (f : Field) (entries : Json.Entries) :
    Orderly (plainCondition cx f grouped entries) := by
  unfold plainCondition
  repeat' split
  all_goals simp

@[simp] theorem field_conditions_orderly (f : Field) (value : Json) :
    Orderly (fieldConditions cx f grouped value) := by
  unfold fieldConditions
  split <;> simp

mutual

theorem conditions_orderly (entries : List (String × Json)) :
    Orderly (conditions cx grouped entries) := by
  match entries with
  | [] => simp [conditions]
  | (key, value) :: rest =>
    have hrest := conditions_orderly rest
    have hconnective := fun c => connective_orderly c value
    simp only [conditions]
    split <;> simp [hrest, hconnective]

theorem connective_orderly (c : Connective) (value : Json) :
    Orderly (connective cx grouped c value) := by
  match value with
  | .obj entries => simp [connective, conditions_orderly entries]
  | .arr items => simp [connective, each_orderly items]
  | .null | .bool _ | .num _ | .str _ => simp [connective]

theorem each_orderly (items : List Json) : Orderly (each cx grouped items) := by
  match items with
  | [] => simp [each]
  | .obj entries :: rest => simp [each, conditions_orderly entries, each_orderly rest]
  | .null :: rest | .bool _ :: rest | .num _ :: rest | .str _ :: rest | .arr _ :: rest =>
    simp [each, each_orderly rest]

end

@[simp] theorem optional_orderly (having : Option Json.Entries) :
    Orderly (compile? cx grouped having) := by
  unfold compile?
  split <;> simp [conditions_orderly]

end Having

namespace Ordering

@[simp] theorem direction_orderly (m : Model) (key text : String) :
    Orderly (direction m key text) := by
  unfold direction
  split <;> simp

@[simp] theorem options_orderly (m : Model) (key : String) (found : Option Direction × Option Nulls)
    (entries : List (String × Json)) : Orderly (options m key found entries) := by
  induction entries generalizing found with
  | nil => simp [options]
  | cons e rest ih =>
    simp only [options]
    repeat' split
    all_goals simp [ih]

@[simp] theorem order_orderly (m : Model) (key : String) (json : Json) :
    Orderly (order m key json) := by
  unfold order
  split
  · simp
  · simp only [orderly_bind, options_orderly, true_and]
    intro found _
    split <;> simp
  · simp

variable (s : Settings) (cx : Context)

@[simp] theorem item_orderly (key : Scalar) (direction : Direction) (nulls : Option Nulls) :
    Orderly (item s key direction nulls) := by
  simp [item]

@[simp] theorem aggregate_fields_orderly (kind : Aggregate) (entries : List (String × Json)) :
    Orderly (aggregateFields s cx kind entries) := by
  induction entries with
  | nil => simp [aggregateFields]
  | cons e rest ih =>
    simp only [aggregateFields]
    split <;> simp [ih]

@[simp] theorem aggregate_mentions_orderly (kind : Aggregate) (value : Json) :
    Orderly (aggregateMentions s cx kind value) := by
  unfold aggregateMentions
  repeat' split
  all_goals simp

@[simp] theorem key_mentions_orderly (grouped : Option (List String)) (key : String)
    (value : Json) : Orderly (keyMentions s cx grouped key value) := by
  unfold keyMentions
  repeat' split
  all_goals simp

@[simp] theorem entry_mentions_orderly (grouped : Option (List String))
    (entries : List (String × Json)) : Orderly (entryMentions s cx grouped entries) := by
  induction entries with
  | nil => simp [entryMentions]
  | cons e rest ih => simp [entryMentions, ih]

@[simp] theorem mentions_orderly (grouped : Option (List String)) (orderBy : List Json.Entries) :
    Orderly (mentions s cx grouped orderBy) := by
  induction orderBy with
  | nil => simp [mentions]
  | cons entry rest ih =>
    simp only [mentions]
    split <;> simp [ih]

@[simp] theorem distinct_fields_orderly : Orderly (distinctFields cx) := by
  unfold distinctFields
  repeat' split
  all_goals simp [orderly_each]

@[simp] theorem compile_orderly (orderBy : Option (List Json.Entries))
    (grouped : Option (List String)) : Orderly (compile s cx orderBy grouped) := by
  simp [compile, orderly_each]

end Ordering

namespace Keyset

@[simp] theorem entry_keys_orderly (m : Model) (cursor : Json.Entries) (ks : List Key)
    (entries : List (String × Json)) : Orderly (entryKeys m cursor ks entries) := by
  induction entries generalizing ks with
  | nil => simp [entryKeys]
  | cons e rest ih =>
    simp only [entryKeys]
    split <;> simp [ih]

@[simp] theorem ordered_keys_orderly (m : Model) (cursor : Json.Entries) (ks : List Key)
    (orderBy : List Json.Entries) : Orderly (orderedKeys m cursor ks orderBy) := by
  induction orderBy generalizing ks with
  | nil => simp [orderedKeys]
  | cons entry rest ih => simp [orderedKeys, ih]

@[simp] theorem keys_orderly (m : Model) (cursor : Json.Entries)
    (orderBy : Option (List Json.Entries)) : Orderly (keys m cursor orderBy) := by
  simp [keys]

@[simp] theorem boundary_orderly (cx : Context) (key : Key) : Orderly (boundary cx key) := by
  simp only [boundary, orderly_bind, Model.expect_field_orderly, true_and]
  intro f _
  split
  · simp
  · simp only [orderly_bind, Compile.scalar_orderly, true_and]
    intro value _
    split <;> simp

@[simp] theorem compile_orderly (cx : Context) (cursor : Json.Entries)
    (orderBy : Option (List Json.Entries)) : Orderly (compile cx cursor orderBy) := by
  simp only [compile]
  split
  · simp
  · simp only [orderly_bind, keys_orderly, true_and]
    intro ks _
    split
    · simp
    · simp only [orderly_bind, orderly_each (boundary_orderly cx), true_and]
      intro bounds _
      split <;> simp

end Keyset

/-! ## Payloads -/

namespace Write

variable (m : Model)

@[simp] theorem payload_orderly (f : Field) (json : Json) : Orderly (payload m f json) := by
  unfold payload
  repeat' split
  all_goals simp

@[simp] theorem value_orderly (f : Field) (json : Json) : Orderly (value m f json) := by
  unfold value
  repeat' split
  all_goals simp

@[simp] theorem assignments_orderly (entries : List (String × Json)) :
    Orderly (assignments m entries) := by
  induction entries with
  | nil => simp [assignments]
  | cons e rest ih =>
    simp only [assignments]
    repeat' split
    all_goals simp [ih]

@[simp] theorem data_orderly (cx : Context) : Orderly (data cx) := by
  unfold data
  split <;> simp

end Write

/-! ## Arguments of relations -/

namespace RelationArgs

variable (m : Model) (r : Relation)

@[simp] theorem natural_orderly (key : String) (json : Json) : Orderly (natural m r key json) := by
  unfold natural
  split <;> simp

@[simp] theorem ordering_orderly (json : Json) : Orderly (ordering m r json) := by
  unfold ordering
  split <;> simp

@[simp] theorem set_orderly (args : RelationArgs) (key : String) (value : Json) :
    Orderly (set m r args key value) := by
  unfold set
  split <;> simp

@[simp] theorem read_orderly (args : RelationArgs) (entries : List (String × Json)) :
    Orderly (read m r args entries) := by
  induction entries generalizing args with
  | nil => simp [read]
  | cons e rest ih => simp [read, ih]

end RelationArgs

end QuerySql
