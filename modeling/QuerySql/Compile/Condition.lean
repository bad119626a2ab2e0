import QuerySql.Compile.Basic

/-!
# Conditions on one field

A condition on a field is `null`, a scalar, or an object of operators that all
have to hold. The object may set a mode for its text comparisons; a nested
object under `not` keeps that mode unless it sets its own.
-/

set_option autoImplicit false

namespace QuerySql

inductive Mode where
  | sensitive
  | insensitive
  deriving DecidableEq, Repr

def Mode.fold : Mode → Scalar → Scalar
  | .sensitive, s => s
  | .insensitive, s => .folded s

inductive Pattern where
  | contains
  | startsWith
  | endsWith
  deriving DecidableEq, Repr

namespace Pattern

def escape (c : Char) : List Char :=
  if c = '%' || c = '_' || c = '\\' then ['\\', c] else [c]

def write (p : Pattern) (text : String) : String :=
  let body := text.toList.flatMap escape
  String.ofList
    (match p with
      | .contains => '%' :: (body ++ ['%'])
      | .startsWith => body ++ ['%']
      | .endsWith => '%' :: body)

end Pattern

inductive FieldOperator where
  | equals
  | not
  | isIn (negated : Bool)
  | compare (op : Comparison)
  | pattern (pattern : Pattern)
  | unsupported (feature : Feature)
  deriving DecidableEq

def FieldOperator.table : List (String × FieldOperator) :=
  [("equals", .equals), ("not", .not), ("in", .isIn false), ("notIn", .isIn true),
    ("lt", .compare .lt), ("lte", .compare .le), ("gt", .compare .gt), ("gte", .compare .ge),
    ("contains", .pattern .contains), ("startsWith", .pattern .startsWith),
    ("endsWith", .pattern .endsWith),
    ("path", .unsupported .jsonPaths), ("string_contains", .unsupported .jsonPaths),
    ("string_starts_with", .unsupported .jsonPaths),
    ("string_ends_with", .unsupported .jsonPaths),
    ("array_contains", .unsupported .jsonPaths),
    ("array_starts_with", .unsupported .jsonPaths),
    ("array_ends_with", .unsupported .jsonPaths),
    ("search", .unsupported .fullTextSearch),
    ("has", .unsupported .scalarLists), ("hasEvery", .unsupported .scalarLists),
    ("hasSome", .unsupported .scalarLists), ("isEmpty", .unsupported .scalarLists)]

def FieldOperator.ofKey? (key : String) : Option FieldOperator := table.lookup key

namespace Condition

def modeKey : String := "mode"

/-- The mode of a condition object: its own, or the one it stands in. -/
def mode (m : Model) (f : Field) (inherited : Mode) (operators : Json.Entries) :
    Except Error Mode :=
  match operators.get? modeKey with
  | none => .ok inherited
  | some json =>
    match json with
    | .str text =>
      if text = "default" then .ok .sensitive
      else if text = "insensitive" then
        if f.type.isTextual then .ok .insensitive
        else .error (m.faultAt f.name (.caseFolding f.type))
      else .error (m.faultAt f.name (.unknownMode json))
    | _ => .error (m.faultAt f.name (.unknownMode json))

def operand (m : Model) (f : Field) : Json → Except Error Value
  | .null => .error (m.faultAt f.name .nullOperand)
  | json => Compile.scalar m f.name json

def compare (m : Model) (f : Field) (lhs : Scalar) (mode : Mode) (op : Comparison)
    (json : Json) : Except Error Pred := do
  let value ← operand m f json
  return .compare (mode.fold lhs) op (mode.fold (.bound value))

/-- Nothing is in the empty list. -/
def isIn (m : Model) (f : Field) (lhs : Scalar) (mode : Mode) (negated : Bool) :
    Json → Except Error Pred
  | .arr [] => .ok (.truth negated)
  | .arr items => do
    let values ← items.mapM (operand m f)
    return .isIn (mode.fold lhs) (values.map fun v => mode.fold (.bound v)) negated
  | json => .error (m.faultAt f.name (.listShape (if negated then "notIn" else "in") json.kind))

def pattern (m : Model) (f : Field) (lhs : Scalar) (mode : Mode) (p : Pattern) (json : Json) :
    Except Error Pred :=
  if !f.type.isTextual then .error (m.faultAt f.name (.patternType f.type))
  else
    match json with
    | .str text => .ok (.like (mode.fold lhs) (mode.fold (.bound (.text (p.write text)))))
    | _ => .error (m.faultAt f.name (.patternShape json.kind))

/-- One operator with its operand. A nested object under `not` is compiled by
the caller. -/
def operator (m : Model) (f : Field) (lhs : Scalar) (mode : Mode) (key : String) (json : Json) :
    Except Error Pred :=
  match FieldOperator.ofKey? key with
  | none => .error (m.faultAt f.name (.unknownOperator key))
  | some (.unsupported feature) => .error (.unsupported feature)
  | some (.pattern p) => pattern m f lhs mode p json
  | some (.compare op) => compare m f lhs mode op json
  | some (.isIn negated) => isIn m f lhs mode negated json
  | some .equals =>
    match json with
    | .null => .ok (.isNull lhs false)
    | _ => compare m f lhs mode .eq json
  | some .not =>
    match json with
    | .null => .ok (.isNull lhs true)
    | _ => compare m f lhs mode .ne json

mutual

/-- The conditions of a condition object in the order written. -/
def operators (m : Model) (f : Field) (lhs : Scalar) (mode : Mode) :
    List (String × Json) → Except Error (List Pred)
  | [] => .ok []
  | (key, value) :: rest => do
    let here ← if key = modeKey then pure none else entry m f lhs mode key value
    let later ← operators m f lhs mode rest
    return here.toList ++ later

/-- One entry other than the mode. An object under `not` that has no condition
adds none. -/
def entry (m : Model) (f : Field) (lhs : Scalar) (mode : Mode) (key : String) :
    Json → Except Error (Option Pred)
  | .obj nested =>
    if key = "not" then do
      let inner ← Condition.mode m f mode nested
      let conditions ← operators m f lhs inner nested
      return (Pred.all? conditions).map .not
    else some <$> operator m f lhs mode key (.obj nested)
  | json => some <$> operator m f lhs mode key json

end

/-- A condition on the scalar `lhs`, which is the field or an aggregate of it.
An object without operators is no condition. -/
def compile (m : Model) (f : Field) (lhs : Scalar) : Json → Except Error (Option Pred)
  | .null => .ok (some (.isNull lhs false))
  | .arr _ => .error (m.faultAt f.name .bareArray)
  | .obj entries => do
    let mode ← mode m f .sensitive entries
    return Pred.all? (← operators m f lhs mode entries)
  | json => do
    let value ← Compile.scalar m f.name json
    return some (.compare lhs .eq (.bound value))

end Condition

end QuerySql
