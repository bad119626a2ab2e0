import QuerySql.Json.Printer
import QuerySql.Query.Operation
import QuerySql.Schema.Member

/-!
# Faults of a query

A fault says why a query argument is refused. Each has one wording, given by
`Fault.text`; the model and the member it concerns are named by the error that
carries it.
-/

set_option autoImplicit false

namespace QuerySql

def ticked (s : String) : String := "`" ++ s ++ "`"

inductive Fault where
  | worded (text : String)
  | unknownOperation (name : String)
  | foreignArgument (key : String) (operation : Operation)
  | tooDeep (limit : Nat) (path : List String)
  | notScalar (found : Json.Kind)
  | notFlag (found : Json.Kind)
  | notObject (found : Json.Kind)
  | reservedKey
  | emptyConnective (key : String)
  | connectiveShape (key : String) (found : Json.Kind)
  | negationArity (count : Nat)
  | bareArray
  | caseFolding (type : ScalarType)
  | unknownMode (mode : Json)
  | unknownOperator (key : String)
  | nullOperand
  | listShape (key : String) (found : Json.Kind)
  | patternType (type : ScalarType)
  | patternShape (found : Json.Kind)
  | relationShape (found : Json.Kind)
  | mixedKeywords
  | keywordCardinality (keyword : String) (cardinality : Cardinality) (relation : String)
  | keywordShape (found : Json.Kind)
  | missingJunction
  | missingReference
  | emptyCount
  | emptyAggregate
  | emptyGrouping
  | aggregateNeedsFields (kind : Aggregate)
  | aggregateShape (kind : Aggregate) (found : Json.Kind)
  | aggregateType (kind : Aggregate) (field : String) (type : ScalarType)
  | groupConnectiveShape (key : String) (found : Json.Kind)
  | groupCondition
  | emptySelection
  | selectionWithInclude
  | includedField
  | includeShape (found : Json.Kind)
  | includeArgument (key : String)
  | includeOrdering
  | includeCount (key : String) (found : Json.Kind)
  | includePage
  | emptyOrdering
  | groupOrdering
  | aggregateOrdering
  | aggregateOrderingShape (kind : Aggregate)
  | orderingOption (key : String) (value : Json)
  | orderingWithoutSort
  | directionShape (found : Json.Kind)
  | unknownDirection (text : String)
  | emptyDistinct
  | emptyCursor
  | cursorField
  | cursorNull
  | notUnique (unique : List String)
  | missingData (operation : Operation)
  | emptyUpdate
  | notNullable
  | scalarOnly (type : ScalarType)

namespace Fault

def text : Fault → String
  | .worded text => text
  | .unknownOperation name => "unknown operation " ++ ticked name
  | .foreignArgument key op => ticked key ++ " is not a valid argument for " ++ ticked op.name
  | .tooDeep limit path =>
    "relation nesting exceeds the maximum depth of " ++ toString limit ++
      " (path: " ++ " > ".intercalate path ++ ")"
  | .notScalar found => "expected a scalar value, got " ++ found.text
  | .notFlag found => "expected `true` or `false`, got " ++ found.text
  | .notObject found => "expected an object, got " ++ found.text
  | .reservedKey => "keys starting with `__` are reserved"
  | .emptyConnective key => ticked key ++ " needs at least one condition"
  | .connectiveShape key found =>
    ticked key ++ " expects an object or an array of objects, got " ++ found.text
  | .negationArity count => "`NOT` needs exactly one condition, got " ++ toString count
  | .bareArray => "array values need an operator such as `in`"
  | .caseFolding type => "`mode: insensitive` is not supported on " ++ type.name ++ " fields"
  | .unknownMode mode => "invalid filter mode " ++ mode.text
  | .unknownOperator key => "unknown filter operator " ++ ticked key
  | .nullOperand => "null is only valid with `equals` and `not`"
  | .listShape key found => ticked key ++ " expects an array, got " ++ found.text
  | .patternType type => "pattern filters are not supported on " ++ type.name ++ " fields"
  | .patternShape found => "pattern filters expect a string, got " ++ found.text
  | .relationShape found => "relation conditions must be objects, got " ++ found.text
  | .mixedKeywords => "relation keywords cannot be mixed with field conditions"
  | .keywordCardinality keyword cardinality relation =>
    ticked keyword ++ " cannot be used on " ++ cardinality.name ++ " relation " ++ ticked relation
  | .keywordShape found => "relation keywords expect an object, got " ++ found.text
  | .missingJunction => "junction check on a relation without a junction table"
  | .missingReference => "parent reference without columns"
  | .emptyCount => "count selects nothing"
  | .emptyAggregate =>
    "`aggregate` needs at least one of `_count`, `_sum`, `_avg`, `_min` or `_max`"
  | .emptyGrouping => "`groupBy` needs at least one field in `by`"
  | .aggregateNeedsFields kind =>
    ticked kind.key ++ " needs an object of fields; only `_count` accepts `true`"
  | .aggregateShape kind found =>
    ticked kind.key ++ " expects `true` or an object of fields, got " ++ found.text
  | .aggregateType kind field type =>
    ticked kind.key ++ " needs a numeric field, " ++ ticked field ++ " is " ++ type.name
  | .groupConnectiveShape key found =>
    ticked key ++ " needs at least one condition, got " ++ found.text
  | .groupCondition => "`having` can only filter fields in `by` unless it aggregates them"
  | .emptySelection => "`select` needs at least one field set to `true`"
  | .selectionWithInclude => "`select` and `include` cannot be used together"
  | .includedField => "only relations can be included; select scalar fields with `select`"
  | .includeShape found => "expected `true`, `false` or an object, got " ++ found.text
  | .includeArgument key => "unknown include argument " ++ ticked key
  | .includeOrdering => "`orderBy` expects an object or an array of objects"
  | .includeCount key found => ticked key ++ " expects a non-negative integer, got " ++ found.text
  | .includePage => "`take` and `skip` only apply to to-many relations"
  | .emptyOrdering => "`orderBy` entries need a field"
  | .groupOrdering => "a grouped query can only order on fields in `by` or on aggregates"
  | .aggregateOrdering =>
    "ordering on aggregates is only valid in `count`, `aggregate` and `groupBy`"
  | .aggregateOrderingShape kind => ticked kind.key ++ " ordering expects an object of fields"
  | .orderingOption key value => "invalid ordering option " ++ ticked (key ++ ": " ++ value.text)
  | .orderingWithoutSort => "ordering needs `sort`"
  | .directionShape found =>
    "invalid order direction: expected `asc` or `desc`, got " ++ found.text
  | .unknownDirection text =>
    "invalid order direction " ++ ticked text ++ ", expected `asc` or `desc`"
  | .emptyDistinct => "`distinct` needs at least one field"
  | .emptyCursor => "`cursor` needs at least one field"
  | .cursorField => "cursor fields must be unique or part of the identifier"
  | .cursorNull => "cursor values cannot be null"
  | .notUnique unique =>
    "`findUnique` needs an equality on a unique field (" ++ ", ".intercalate unique ++ ")"
  | .missingData op => ticked op.name ++ " needs `data`"
  | .emptyUpdate => "`update` needs at least one field in `data`"
  | .notNullable => "field is not nullable"
  | .scalarOnly type => type.name ++ " fields take scalar values"

end Fault

/-- A feature that queries may spell but that cannot be compiled, or not for
the dialect at hand. -/
inductive Feature where
  | worded (text : String)
  | relationCounts
  | relationOrdering
  | jsonPaths
  | fullTextSearch
  | scalarLists
  | distinctOn
  | nullsOrdering (product : String)
  | cursorWithDistinct
  | cursorOrdering
  | cursorMixedDirections
  | relationWrites
  | updateOperators (model field : String)
  deriving DecidableEq

def Feature.text : Feature → String
  | .worded text => text
  | .relationCounts => "relation counts"
  | .relationOrdering => "ordering by relation fields"
  | .jsonPaths => "JSON path filters"
  | .fullTextSearch => "full-text search filters"
  | .scalarLists => "scalar list filters"
  | .distinctOn => "distinct on fields"
  | .nullsOrdering product => "NULLS FIRST/LAST ordering on " ++ product
  | .cursorWithDistinct => "cursor pagination with `distinct`"
  | .cursorOrdering => "cursor pagination with ordering on non-cursor fields"
  | .cursorMixedDirections => "cursor pagination with mixed ordering directions"
  | .relationWrites => "nested relation writes"
  | .updateOperators model field =>
    "update operators other than `set` (on " ++ ticked (model ++ "." ++ field) ++ ")"

inductive Flaw where
  | worded (text : String)
  | duplicateModel (model : String)
  | noIdentifier (model : String)
  | unpairedFields (model relation : String)
  | unknownLocalField (model relation field : String)
  | noJunction (model relation : String)
  | compositeJunction (model relation : String)
  | strayJunction (model relation : String) (cardinality : Cardinality)
  | ambiguousMember (model member : String)
  deriving DecidableEq

def Flaw.text : Flaw → String
  | .worded text => text
  | .duplicateModel model => "duplicate model " ++ ticked model
  | .noIdentifier model => "model " ++ ticked model ++ " has no identifier field"
  | .unpairedFields model relation =>
    "relation " ++ ticked (model ++ "." ++ relation) ++
      " must pair each local field with exactly one referenced field"
  | .unknownLocalField model relation field =>
    "relation " ++ ticked (model ++ "." ++ relation) ++ " uses unknown local field " ++ ticked field
  | .noJunction model relation =>
    "many-to-many relation " ++ ticked (model ++ "." ++ relation) ++ " needs a junction table"
  | .compositeJunction model relation =>
    "many-to-many relation " ++ ticked (model ++ "." ++ relation) ++
      " must link through a single key"
  | .strayJunction model relation cardinality =>
    "only many-to-many relations may declare a junction table (" ++
      ticked (model ++ "." ++ relation) ++ " is " ++ cardinality.name ++ ")"
  | .ambiguousMember model member =>
    "model " ++ ticked model ++ " declares " ++ ticked member ++ " as both a field and a relation"

end QuerySql
