import QuerySql.Compile.Filter
import QuerySql.Proofs.Evaluation

/-!
# The meaning of filters

What a filter says of a row, read off its JSON without any SQL: keys of one
object are taken together, connectives are those of three-valued logic, and a
condition on a relation speaks of the rows that are linked to the row at hand.
-/

set_option autoImplicit false

namespace QuerySql

/-- The mode that a condition object sets for itself, or the one around it. -/
def Mode.within (inherited : Mode) (operators : Json.Entries) : Mode :=
  match operators.get? Condition.modeKey with
  | some (.str "insensitive") => .insensitive
  | some (.str "default") => .sensitive
  | _ => inherited

def Connective.truth : Connective → List Truth → Truth
  | .and, ts => .all ts
  | .or, ts => .any ts
  | .not, ts => (Truth.all ts).not

/-- A quantifier over the truth of a filter at each related row. `every` lets a
row pass at which the filter is unknown. -/
def Quantifier.truth : Quantifier → List Truth → Truth
  | .some, ts | .is, ts => .ofBool (ts.any (· = .yes))
  | .none, ts | .isNot, ts => .ofBool (!ts.any (· = .yes))
  | .every, ts => .ofBool (!ts.any (· = .no))

section

variable {α : Type} (db : Database α)

def Mode.cell : Mode → Cell α → Cell α
  | .sensitive, cell => cell
  | .insensitive, cell => db.lowerCell cell

def Json.cell (json : Json) : Cell α := (Value.ofJson? json).bind db.bound

def Mode.compare (mode : Mode) (op : Comparison) (cell : Cell α) (json : Json) : Truth :=
  db.compareCells op (mode.cell db cell) (mode.cell db (json.cell db))

def FieldOperator.truth (mode : Mode) (cell : Cell α) : FieldOperator → Json → Truth
  | .equals, .null => .ofBool cell.isNone
  | .equals, json => mode.compare db .eq cell json
  | .not, .null => .ofBool cell.isSome
  | .not, json => mode.compare db .ne cell json
  | .compare op, json => mode.compare db op cell json
  | .isIn negated, .arr items =>
    db.isIn negated (mode.cell db cell) (items.map fun json => mode.cell db (json.cell db))
  | .pattern p, .str text =>
    db.likeCells (mode.cell db cell) (mode.cell db (db.bound (.text (p.write text))))
  | _, _ => .unknown

namespace Condition

mutual

/-- The object has a condition. A mode is none, and neither is a nested object
that has none. -/
def states : List (String × Json) → Bool
  | [] => false
  | (key, value) :: rest => (key ≠ modeKey && statesValue value) || states rest

def statesValue : Json → Bool
  | .obj nested => states nested
  | _ => true

end

mutual

def operatorsTruth (cell : Cell α) (mode : Mode) : List (String × Json) → Truth
  | [] => .yes
  | (key, value) :: rest =>
    (if key = modeKey then .yes else operatorTruth cell mode key value).and
      (operatorsTruth cell mode rest)

/-- An object stands under `not` and is negated, in the mode it sets or is in;
without a condition it says nothing. -/
def operatorTruth (cell : Cell α) (mode : Mode) (key : String) : Json → Truth
  | .obj nested =>
    if states nested then (operatorsTruth cell (mode.within nested) nested).not else .yes
  | json =>
    match FieldOperator.ofKey? key with
    | some op => op.truth db mode cell json
    | none => .unknown

end

def truth (cell : Cell α) : Json → Truth
  | .null => .ofBool cell.isNone
  | .obj entries => operatorsTruth db cell (Mode.within .sensitive entries) entries
  | json => Mode.sensitive.compare db .eq cell json

end Condition

namespace Relation

/-- The two rows are linked: their paired keys are equal, or a row of the
junction table refers to both. -/
def links (r : Relation) (parent child : Row α) : Bool :=
  match r.cardinality with
  | .manyToMany =>
    match r.through, r.pairs with
    | some j, (own, referenced) :: _ =>
      (db.rows j.table).any fun row =>
        db.compareCells .eq (row j.target) (child referenced) = .yes &&
          db.compareCells .eq (row j.source) (parent own) = .yes
    | _, _ => false
  | _ => r.pairs.all fun p => db.compareCells .eq (child p.2) (parent p.1) = .yes

/-- The related rows of a row, with their model. A model that the schema does
not define has no rows. -/
def related (r : Relation) (schema : Schema) (parent : Row α) : List (Model × Row α) :=
  match schema.model? r.target with
  | some target =>
    ((db.rows target.tableName).filter (r.links db parent)).map fun child => (target, child)
  | none => []

end Relation

namespace Filter

variable (schema : Schema)

mutual

def truth (m : Model) (row : Row α) : List (String × Json) → Truth
  | [] => .yes
  | (key, value) :: rest =>
    (match Connective.ofKey? key, m.field? key, m.relation? key with
      | some c, _, _ => c.truth (operandTruths m row value)
      | none, some f, _ => Condition.truth db (row f.name) value
      | none, none, some r => relationTruth row r value
      | none, none, none => .unknown).and (truth m row rest)

def operandTruths (m : Model) (row : Row α) : Json → List Truth
  | .obj entries => [truth m row entries]
  | .arr items => itemTruths m row items
  | _ => []

def itemTruths (m : Model) (row : Row α) : List Json → List Truth
  | [] => []
  | .obj entries :: rest => truth m row entries :: itemTruths m row rest
  | _ :: rest => itemTruths m row rest

/-- A condition on a relation: `null` says that nothing is related, a filter
without quantifiers that something related matches. -/
def relationTruth (row : Row α) (r : Relation) : Json → Truth
  | .null => .ofBool (r.related db schema row).isEmpty
  | .obj entries =>
    if Quantifier.count entries = 0 then
      Quantifier.some.truth ((r.related db schema row).map fun c => truth c.1 c.2 entries)
    else quantifierTruths row r entries
  | _ => .unknown

def quantifierTruths (row : Row α) (r : Relation) : List (String × Json) → Truth
  | [] => .yes
  | (key, value) :: rest =>
    (match Quantifier.ofKey? key with
      | some q => quantifiedTruth row r q value
      | none => .unknown).and (quantifierTruths row r rest)

/-- One quantifier with its filter. `is` with `null` says that nothing is
related, `isNot` with `null` that something is. -/
def quantifiedTruth (row : Row α) (r : Relation) (q : Quantifier) : Json → Truth
  | .null => .ofBool ((r.related db schema row).isEmpty != (q = .isNot))
  | .obj entries => q.truth ((r.related db schema row).map fun c => truth c.1 c.2 entries)
  | _ => .unknown

end

end Filter

end

end QuerySql
