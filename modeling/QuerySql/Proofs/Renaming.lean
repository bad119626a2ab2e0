import QuerySql.Proofs.Connectives
import QuerySql.Proofs.Outline

/-!
# Renamed aliases

A renaming of aliases acts on predicates, where the compiler puts aliases, and
on outlines, where they are marked in the text. The two agree: a renamed
predicate is written with the same text but for the marked aliases.
-/

set_option autoImplicit false

namespace QuerySql

section

variable (ρ : Alias → Alias)

def Column.rename (c : Column) : Column := ⟨ρ c.tag, c.name⟩

def Scalar.rename : Scalar → Scalar
  | .column c => .column (c.rename ρ)
  | .aggregate kind c => .aggregate kind (c.map (Column.rename ρ))
  | .bound value => .bound value
  | .folded s => .folded s.rename

mutual

/-- The predicate with every alias renamed, introduced or referred to. -/
def Pred.rename : Pred → Pred
  | .truth value => .truth value
  | .compare lhs op rhs => .compare (lhs.rename ρ) op (rhs.rename ρ)
  | .compareRows columns op values => .compareRows (columns.map (Column.rename ρ)) op values
  | .isNull s negated => .isNull (s.rename ρ) negated
  | .isIn s items negated => .isIn (s.rename ρ) (items.map (Scalar.rename ρ)) negated
  | .like s pattern => .like (s.rename ρ) (pattern.rename ρ)
  | .and operands => .and (Pred.renameAll operands)
  | .or operands => .or (Pred.renameAll operands)
  | .not operand => .not operand.rename
  | .related negated table tag conditions =>
    .related negated table (ρ tag) (Pred.renameAll conditions)

def Pred.renameAll : List Pred → List Pred
  | [] => []
  | p :: ps => p.rename :: Pred.renameAll ps

end

theorem Pred.rename_all_eq (ps : List Pred) : Pred.renameAll ρ ps = ps.map (Pred.rename ρ) := by
  induction ps with
  | nil => rfl
  | cons p ps ih => rw [Pred.renameAll, ih, List.map_cons]

theorem Pred.rename_through : Pred.Through (Pred.rename ρ) where
  truth _ := rfl
  and ps := congrArg Pred.and (Pred.rename_all_eq ρ ps)
  or ps := congrArg Pred.or (Pred.rename_all_eq ρ ps)
  not _ := rfl

end

theorem Column.rename_id : Column.rename id = id := rfl

theorem Scalar.rename_id : Scalar.rename id = id := by
  funext s
  induction s with
  | column c => rfl
  | aggregate kind c => cases c <;> rfl
  | bound value => rfl
  | folded s ih => rw [Scalar.rename, ih]; rfl

mutual

theorem Pred.rename_id (p : Pred) : p.rename id = p := by
  match p with
  | .truth value => rfl
  | .compare lhs op rhs | .like lhs rhs => simp [Pred.rename, Scalar.rename_id]
  | .compareRows columns op values => simp [Pred.rename, Column.rename_id]
  | .isNull s negated | .isIn s items negated => simp [Pred.rename, Scalar.rename_id]
  | .and operands | .or operands => rw [Pred.rename, Pred.rename_all_id operands]
  | .not operand => rw [Pred.rename, Pred.rename_id operand]
  | .related negated table tag conditions =>
    rw [Pred.rename, Pred.rename_all_id conditions, id]

theorem Pred.rename_all_id (ps : List Pred) : Pred.renameAll id ps = ps := by
  match ps with
  | [] => rfl
  | p :: ps => rw [Pred.renameAll, Pred.rename_id p, Pred.rename_all_id ps]

end

namespace Piece

mutual

def rename (ρ : Alias → Alias) : Piece → Piece
  | .word text => .word text
  | .quoted text => .quoted text
  | .number n => .number n
  | .value v => .value v
  | .introduction tag => .introduction (ρ tag)
  | .reference tag => .reference (ρ tag)
  | .query pieces => .query (renameAll ρ pieces)

def renameAll (ρ : Alias → Alias) : List Piece → List Piece
  | [] => []
  | p :: ps => p.rename ρ :: renameAll ρ ps

end

variable (ρ : Alias → Alias)

theorem rename_all_append (ps qs : List Piece) :
    renameAll ρ (ps ++ qs) = renameAll ρ ps ++ renameAll ρ qs := by
  induction ps with
  | nil => rfl
  | cons p ps ih => simp [renameAll, ih]

theorem rename_joined (separator : String) (pss : List (List Piece)) :
    renameAll ρ (joined separator pss) = joined separator (pss.map (renameAll ρ)) := by
  have hrest : ∀ rest : List (List Piece),
      renameAll ρ (rest.flatMap fun qs => word separator :: qs) =
        (rest.map (renameAll ρ)).flatMap fun qs => word separator :: qs := by
    intro rest
    induction rest with
    | nil => rfl
    | cons qs rest ih => simp [renameAll, rename, rename_all_append, ih]
  cases pss with
  | nil => rfl
  | cons ps rest => rw [joined, rename_all_append, hrest, List.map_cons, joined]

theorem rename_combined (operator : String) (pss : List (List Piece)) :
    renameAll ρ (combined operator pss) = combined operator (pss.map (renameAll ρ)) := by
  match pss with
  | [ps] => rfl
  | [] | ps :: qs :: pss =>
    simp [combined, renameAll, rename, rename_all_append, rename_joined]

end Piece

section

variable (d : Dialect) (ρ : Alias → Alias)

theorem Column.outline_rename (c : Column) :
    (c.rename ρ).outline d = Piece.renameAll ρ (c.outline d) := by
  simp [Column.outline, Column.rename, Piece.renameAll, Piece.rename]

theorem Scalar.outline_rename (s : Scalar) :
    (s.rename ρ).outline d = Piece.renameAll ρ (s.outline d) := by
  induction s with
  | column c => exact Column.outline_rename d ρ c
  | aggregate kind c =>
    cases c <;> simp [Scalar.rename, Scalar.outline, Dialect.aggregateOutline, Piece.renameAll,
      Piece.rename, Piece.rename_all_append, Column.outline_rename]
  | bound value => simp [Scalar.rename, Scalar.outline, Piece.renameAll, Piece.rename]
  | folded s ih =>
    simp [Scalar.rename, Scalar.outline, Piece.renameAll, Piece.rename, Piece.rename_all_append, ih]

mutual

theorem Pred.outline_rename (p : Pred) :
    (p.rename ρ).outline d = Piece.renameAll ρ (p.outline d) := by
  match p with
  | .truth value => simp [Pred.rename, Pred.outline, Piece.renameAll, Piece.rename]
  | .compare lhs op rhs | .like lhs rhs =>
    simp [Pred.rename, Pred.outline, Piece.renameAll, Piece.rename, Piece.rename_all_append,
      Scalar.outline_rename]
  | .compareRows columns op values =>
    simp [Pred.rename, Pred.outline, Piece.renameAll, Piece.rename, Piece.rename_all_append,
      Piece.rename_joined, Column.outline_rename, Function.comp_def]
  | .isNull s negated | .isIn s items negated =>
    simp [Pred.rename, Pred.outline, Piece.renameAll, Piece.rename, Piece.rename_all_append,
      Piece.rename_joined, Scalar.outline_rename, Function.comp_def]
  | .and operands | .or operands =>
    rw [Pred.rename, Pred.outline, Pred.outline, Piece.rename_combined,
      Pred.outline_rename_all operands]
  | .not operand =>
    simp [Pred.rename, Pred.outline, Piece.renameAll, Piece.rename, Piece.rename_all_append,
      Pred.outline_rename operand]
  | .related negated table tag [] =>
    simp [Pred.rename, Pred.renameAll, Pred.outline, Piece.select, Dialect.tableOutline,
      Piece.renameAll, Piece.rename]
  | .related negated table tag (q :: qs) =>
    have hall := Pred.outline_rename_all (q :: qs)
    have hcombined := Piece.rename_combined ρ " AND " (Pred.outlineAll d (q :: qs))
    rw [← hall, Pred.renameAll] at hcombined
    simp [Pred.rename, Pred.renameAll, Pred.outline, Piece.select, Dialect.tableOutline,
      Piece.renameAll, Piece.rename, hcombined]

theorem Pred.outline_rename_all (ps : List Pred) :
    Pred.outlineAll d (Pred.renameAll ρ ps) = (Pred.outlineAll d ps).map (Piece.renameAll ρ) := by
  match ps with
  | [] => rfl
  | p :: ps =>
    rw [Pred.renameAll, Pred.outlineAll, Pred.outlineAll, Pred.outline_rename p,
      Pred.outline_rename_all ps, List.map_cons]

end

end

end QuerySql
