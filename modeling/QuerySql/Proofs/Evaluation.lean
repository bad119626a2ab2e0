import QuerySql.Sql.Statement

/-!
# Evaluation of predicates

SQL gives a predicate one of three truth values at a row: a comparison with a
null is neither true nor false. What an engine makes of two values, of a
pattern and of letter case is left open: it is any function of values that are
not null.
-/

set_option autoImplicit false

namespace QuerySql

inductive Truth where
  | no
  | unknown
  | yes
  deriving DecidableEq, Repr

namespace Truth

def ofBool : Bool → Truth
  | true => .yes
  | false => .no

def not : Truth → Truth
  | .no => .yes
  | .unknown => .unknown
  | .yes => .no

def and : Truth → Truth → Truth
  | .yes, t => t
  | .no, _ => .no
  | .unknown, .no => .no
  | .unknown, _ => .unknown

def or : Truth → Truth → Truth
  | .no, t => t
  | .yes, _ => .yes
  | .unknown, .yes => .yes
  | .unknown, _ => .unknown

def all (ts : List Truth) : Truth := ts.foldr and .yes

def any (ts : List Truth) : Truth := ts.foldr or .no

@[simp] theorem of_bool_eq_yes (b : Bool) : ofBool b = .yes ↔ b = true := by
  cases b <;> decide

@[simp] theorem and_yes (t : Truth) : t.and .yes = t := by
  cases t <;> rfl

theorem and_assoc (t u v : Truth) : (t.and u).and v = t.and (u.and v) := by
  cases t <;> cases u <;> cases v <;> rfl

theorem and_eq_yes (t u : Truth) : t.and u = .yes ↔ t = .yes ∧ u = .yes := by
  cases t <;> cases u <;> decide

theorem or_eq_yes (t u : Truth) : t.or u = .yes ↔ t = .yes ∨ u = .yes := by
  cases t <;> cases u <;> decide

theorem not_eq_yes (t : Truth) : t.not = .yes ↔ t = .no := by
  cases t <;> decide

@[simp] theorem or_no (t : Truth) : t.or .no = t := by
  cases t <;> rfl

@[simp] theorem all_nil : all [] = .yes := rfl

@[simp] theorem all_cons (t : Truth) (ts : List Truth) : all (t :: ts) = t.and (all ts) := rfl

@[simp] theorem any_nil : any [] = .no := rfl

@[simp] theorem any_cons (t : Truth) (ts : List Truth) : any (t :: ts) = t.or (any ts) := rfl

@[simp] theorem all_append (ts us : List Truth) : all (ts ++ us) = (all ts).and (all us) := by
  induction ts with
  | nil => rfl
  | cons t ts ih => rw [List.cons_append, all_cons, ih, all_cons, and_assoc]

theorem all_eq_yes (ts : List Truth) : all ts = .yes ↔ ∀ t ∈ ts, t = .yes := by
  induction ts with
  | nil => simp
  | cons t ts ih => simp [and_eq_yes, ih]

end Truth

abbrev Cell (α : Type) := Option α

abbrev Row (α : Type) := String → Cell α

/-- The rows of every table, and what the engine makes of values. -/
structure Database (α : Type) where
  rows : String → List (Row α)
  bound : Value → Cell α
  compare : Comparison → α → α → Truth
  like : α → α → Truth
  lower : α → Cell α

namespace Database

variable {α : Type} (db : Database α)

def compareCells (op : Comparison) : Cell α → Cell α → Truth
  | some x, some y => db.compare op x y
  | _, _ => .unknown

def likeCells : Cell α → Cell α → Truth
  | some x, some y => db.like x y
  | _, _ => .unknown

def lowerCell (cell : Cell α) : Cell α := cell.bind db.lower

def isIn (negated : Bool) (cell : Cell α) (items : List (Cell α)) : Truth :=
  let found := Truth.any (items.map (db.compareCells .eq cell))
  if negated then found.not else found

/-- Rows are compared column by column from the left; the first columns that
are not equal decide. -/
def compareRows (op : Comparison) : List (Cell α) → List (Cell α) → Truth
  | [x], [y] => db.compareCells op x y
  | x :: xs, y :: ys =>
    match op with
    | .eq => (db.compareCells .eq x y).and (compareRows op xs ys)
    | .ne => (db.compareCells .ne x y).or (compareRows op xs ys)
    | .lt | .le => (db.compareCells .lt x y).or
        ((db.compareCells .eq x y).and (compareRows op xs ys))
    | .gt | .ge => (db.compareCells .gt x y).or
        ((db.compareCells .eq x y).and (compareRows op xs ys))
  | _, _ => .ofBool (op = .eq || op = .le || op = .ge)

theorem cells_of_compare {op : Comparison} {x y : Cell α}
    (h : db.compareCells op x y = .yes) : x.isSome = true ∧ y.isSome = true := by
  cases x with
  | none => cases h
  | some x =>
    cases y with
    | none => cases h
    | some y => exact ⟨rfl, rfl⟩

end Database

/-- What a predicate may refer to where it stands: a row under each alias, and
the aggregates of the group at hand. -/
structure Scope (α : Type) where
  row : Alias → Row α
  aggregate : Aggregate → Option Column → Cell α

namespace Scope

variable {α : Type}

def bind (σ : Scope α) (tag : Alias) (row : Row α) : Scope α :=
  { σ with row := fun other => if other = tag then row else σ.row other }

@[simp] theorem bind_row_self (σ : Scope α) (tag : Alias) (row : Row α) :
    (σ.bind tag row).row tag = row :=
  if_pos rfl

theorem bind_row_other (σ : Scope α) {tag other : Alias} (row : Row α) (h : other ≠ tag) :
    (σ.bind tag row).row other = σ.row other :=
  if_neg h

def cell (σ : Scope α) (c : Column) : Cell α := σ.row c.tag c.name

end Scope

section

variable {α : Type} (db : Database α)

def Scalar.eval (σ : Scope α) : Scalar → Cell α
  | .column c => σ.cell c
  | .aggregate kind c => σ.aggregate kind c
  | .bound value => db.bound value
  | .folded s => db.lowerCell (s.eval σ)

mutual

def Pred.eval (σ : Scope α) : Pred → Truth
  | .truth value => .ofBool value
  | .compare lhs op rhs => db.compareCells op (lhs.eval db σ) (rhs.eval db σ)
  | .compareRows columns op values =>
    db.compareRows op (columns.map σ.cell) (values.map db.bound)
  | .isNull s negated => .ofBool ((s.eval db σ).isNone != negated)
  | .isIn s items negated => db.isIn negated (s.eval db σ) (items.map fun i => i.eval db σ)
  | .like s pattern => db.likeCells (s.eval db σ) (pattern.eval db σ)
  | .and operands => .all (Pred.evalAll σ operands)
  | .or operands => .any (Pred.evalAll σ operands)
  | .not operand => (operand.eval σ).not
  | .related negated table tag conditions =>
    .ofBool (((db.rows table).any fun row =>
      Truth.all (Pred.evalAll (σ.bind tag row) conditions) = .yes) != negated)

def Pred.evalAll (σ : Scope α) : List Pred → List Truth
  | [] => []
  | p :: ps => p.eval σ :: Pred.evalAll σ ps

end

variable (σ : Scope α)

theorem Pred.eval_all_eq_map (ps : List Pred) :
    Pred.evalAll db σ ps = ps.map (Pred.eval db σ) := by
  induction ps with
  | nil => rfl
  | cons p ps ih => rw [Pred.evalAll, ih, List.map_cons]

theorem Pred.eval_all (ps : List Pred) :
    (Pred.all ps).eval db σ = .all (ps.map (Pred.eval db σ)) := by
  unfold Pred.all
  split
  · simp
  · rw [Pred.eval, Pred.eval_all_eq_map]

theorem Pred.eval_any (ps : List Pred) :
    (Pred.any ps).eval db σ = .any (ps.map (Pred.eval db σ)) := by
  unfold Pred.any
  split
  · simp
  · rw [Pred.eval, Pred.eval_all_eq_map]

/-- A predicate that may be missing; what has no condition is true. -/
def Pred.evalOption : Option Pred → Truth
  | none => .yes
  | some p => p.eval db σ

theorem Pred.eval_option_all? (ps : List Pred) :
    Pred.evalOption db σ (Pred.all? ps) = .all (ps.map (Pred.eval db σ)) := by
  cases ps with
  | nil => rfl
  | cons p ps => exact Pred.eval_all db σ (p :: ps)

theorem Pred.all_to_list (o : Option Pred) :
    Truth.all (o.toList.map (Pred.eval db σ)) = Pred.evalOption db σ o := by
  cases o with
  | none => rfl
  | some p => exact Truth.and_yes _

theorem Pred.all_eval_option (os : List (Option Pred)) :
    Truth.all (os.map (Pred.evalOption db σ)) =
      .all ((os.filterMap id).map (Pred.eval db σ)) := by
  induction os with
  | nil => rfl
  | cons o os ih =>
    cases o with
    | none => exact ih
    | some p => exact congrArg (Truth.and (p.eval db σ)) ih

end

end QuerySql
