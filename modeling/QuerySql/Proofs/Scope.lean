import QuerySql.Proofs.Outline

/-!
# Scopes

An alias is visible in the query that introduces it, and in every query nested
in that one. Both sides of the rule are read off a statement's tree, where the
compiler puts aliases, and carried over to its outline, where they are written.
-/

set_option autoImplicit false

namespace QuerySql

/-- No `t` of the text stands before a digit or at its end, so no alias can be
read in the text or across its end. -/
def plainText : List Char → Bool
  | [] => true
  | [c] => c != 't'
  | c :: next :: rest => !(c == 't' && next.isDigit) && plainText (next :: rest)

namespace Piece

def direct (ps : List Piece) : List Alias :=
  ps.filterMap fun p =>
    match p with
    | .introduction tag => some tag
    | _ => none

mutual

def introduced : Piece → List Alias
  | .introduction tag => [tag]
  | .query pieces => introducedAll pieces
  | .word _ | .quoted _ | .number _ | .value _ | .reference _ => []

def introducedAll : List Piece → List Alias
  | [] => []
  | p :: ps => p.introduced ++ introducedAll ps

end

/-- A piece that refers to visible aliases only, with all its references marked:
its words are plain, and whatever the schema names stands between quotes. -/
inductive Scoped (d : Dialect) : List Alias → Piece → Prop
  | word {visible : List Alias} {text : String} (plain : plainText text.toList = true) :
      Scoped d visible (.word text)
  | name {visible : List Alias} {ident : String} : Scoped d visible (.quoted (d.quote ident))
  | literal {visible : List Alias} {text : String} :
      Scoped d visible (.quoted (d.stringLiteral text))
  | number {visible : List Alias} {n : Nat} : Scoped d visible (.number n)
  | value {visible : List Alias} {v : Value} : Scoped d visible (.value v)
  | introduction {visible : List Alias} {tag : Alias} : Scoped d visible (.introduction tag)
  | reference {visible : List Alias} {tag : Alias} (known : tag ∈ visible) :
      Scoped d visible (.reference tag)
  | query {visible : List Alias} {pieces : List Piece}
      (inner : ∀ p ∈ pieces, Scoped d (direct pieces ++ visible) p) :
      Scoped d visible (.query pieces)

def ScopedAll (d : Dialect) (visible : List Alias) (ps : List Piece) : Prop :=
  ∀ p ∈ ps, p.Scoped d visible

section

variable {d : Dialect} {visible : List Alias}

@[simp] theorem scoped_word {text : String} :
    (word text).Scoped d visible ↔ plainText text.toList = true := by
  refine ⟨fun h => ?_, .word⟩
  cases h
  assumption

@[simp] theorem scoped_reference {tag : Alias} :
    (reference tag).Scoped d visible ↔ tag ∈ visible := by
  refine ⟨fun h => ?_, .reference⟩
  cases h
  assumption

@[simp] theorem scoped_query {pieces : List Piece} :
    (query pieces).Scoped d visible ↔ ScopedAll d (direct pieces ++ visible) pieces := by
  refine ⟨fun h => ?_, .query⟩
  cases h
  assumption

@[simp] theorem scoped_name {ident : String} : (quoted (d.quote ident)).Scoped d visible := .name

@[simp] theorem scoped_literal {text : String} :
    (quoted (d.stringLiteral text)).Scoped d visible := .literal

@[simp] theorem scoped_number {n : Nat} : (number n).Scoped d visible := .number

@[simp] theorem scoped_value {v : Value} : (value v).Scoped d visible := .value

@[simp] theorem scoped_introduction {tag : Alias} : (introduction tag).Scoped d visible :=
  .introduction

@[simp] theorem scoped_nil : ScopedAll d visible [] := by
  simp [ScopedAll]

@[simp] theorem scoped_cons {p : Piece} {ps : List Piece} :
    ScopedAll d visible (p :: ps) ↔ p.Scoped d visible ∧ ScopedAll d visible ps := by
  simp [ScopedAll]

@[simp] theorem scoped_append {ps qs : List Piece} :
    ScopedAll d visible (ps ++ qs) ↔ ScopedAll d visible ps ∧ ScopedAll d visible qs := by
  simp [ScopedAll, or_imp, forall_and]

theorem scoped_flat_map {α : Type} {xs : List α} {f : α → List Piece}
    (h : ∀ x ∈ xs, ScopedAll d visible (f x)) : ScopedAll d visible (xs.flatMap f) := by
  intro p hp
  obtain ⟨x, hx, hp⟩ := List.mem_flatMap.mp hp
  exact h x hx p hp

theorem scoped_joined {separator : String} {pss : List (List Piece)}
    (hs : plainText separator.toList = true) (h : ∀ ps ∈ pss, ScopedAll d visible ps) :
    ScopedAll d visible (joined separator pss) := by
  cases pss with
  | nil => exact scoped_nil
  | cons ps rest =>
    rw [joined, scoped_append]
    refine ⟨h ps List.mem_cons_self, scoped_flat_map fun qs hq => ?_⟩
    exact scoped_cons.mpr ⟨.word hs, h qs (List.mem_cons_of_mem ps hq)⟩

theorem scoped_list {α : Type} {xs : List α} {f : α → List Piece}
    (h : ∀ x ∈ xs, ScopedAll d visible (f x)) :
    ScopedAll d visible (joined ", " (xs.map f)) :=
  scoped_joined rfl fun ps hp => by
    obtain ⟨x, hx, rfl⟩ := List.mem_map.mp hp
    exact h x hx

theorem scoped_combined {operator : String} {pss : List (List Piece)}
    (hs : plainText operator.toList = true) (h : ∀ ps ∈ pss, ScopedAll d visible ps) :
    ScopedAll d visible (combined operator pss) := by
  unfold combined
  split
  · exact h _ List.mem_cons_self
  · simp +decide [scoped_joined hs h]

theorem introduced_visible {pieces : List Piece} {tag : Alias}
    (h : introduction tag ∈ pieces) : tag ∈ direct pieces ++ visible :=
  List.mem_append_left _ (List.mem_filterMap.mpr ⟨_, h, rfl⟩)

theorem scoped_select {lead projection : List Piece} {table : String} {tag : Alias}
    {clauses : List (Option (List Piece))}
    (h : ∀ w, tag ∈ w → visible ⊆ w → ScopedAll d w lead ∧ ScopedAll d w projection ∧
      ∀ c ∈ clauses, ∀ ps ∈ c, ScopedAll d w ps) :
    (select lead projection (d.tableOutline table tag) clauses).Scoped d visible := by
  rw [select, scoped_query]
  generalize hvisible : direct _ ++ visible = w
  obtain ⟨hlead, hprojection, hclauses⟩ := h w
    (hvisible ▸ introduced_visible (by simp [Dialect.tableOutline]))
    (hvisible ▸ List.subset_append_right _ _)
  have hrest : ScopedAll d w ((clauses.filterMap id).flatMap fun ps => word " " :: ps) := by
    refine scoped_flat_map fun ps hp => ?_
    obtain ⟨c, hc, rfl⟩ := List.mem_filterMap.mp hp
    exact scoped_cons.mpr ⟨.word rfl, hclauses _ hc ps rfl⟩
  refine scoped_append.mpr ⟨?_, hrest⟩
  simp +decide [Dialect.tableOutline, hlead, hprojection]

end

@[simp] theorem introduced_all_append (ps qs : List Piece) :
    introducedAll (ps ++ qs) = introducedAll ps ++ introducedAll qs := by
  induction ps with
  | nil => rfl
  | cons p ps ih => simp [introducedAll, ih]

theorem introduced_joined (separator : String) (pss : List (List Piece)) :
    introducedAll (joined separator pss) = pss.flatMap introducedAll := by
  have hrest : ∀ rest : List (List Piece),
      introducedAll (rest.flatMap fun qs => word separator :: qs) =
        rest.flatMap introducedAll := by
    intro rest
    induction rest with
    | nil => rfl
    | cons qs rest ih => simp [introducedAll, introduced, ih]
  cases pss with
  | nil => rfl
  | cons ps rest => rw [joined, introduced_all_append, hrest, List.flatMap_cons]

theorem introduced_combined (operator : String) (pss : List (List Piece)) :
    introducedAll (combined operator pss) = pss.flatMap introducedAll := by
  unfold combined
  split
  · simp
  · simp [introducedAll, introduced, introduced_joined]

theorem introduced_select (lead projection source : List Piece)
    (clauses : List (Option (List Piece))) :
    (select lead projection source clauses).introduced =
      introducedAll lead ++ introducedAll projection ++ introducedAll source ++
        clauses.flatMap fun c => (c.map introducedAll).getD [] := by
  have hclauses : introducedAll ((clauses.filterMap id).flatMap fun ps => word " " :: ps) =
      clauses.flatMap fun c => (c.map introducedAll).getD [] := by
    induction clauses with
    | nil => rfl
    | cons c clauses ih =>
      rw [List.flatMap_cons, ← ih]
      cases c with
      | none => rfl
      | some ps => exact introduced_all_append ps _
  rw [select, introduced, introduced_all_append, hclauses]
  simp [introduced, introducedAll]

end Piece

def Scalar.Within (visible : List Alias) : Scalar → Prop
  | .column c => c.tag ∈ visible
  | .aggregate _ c => ∀ x ∈ c, x.tag ∈ visible
  | .bound _ => True
  | .folded s => s.Within visible

namespace Pred

mutual

def tags : Pred → List Alias
  | .truth _ | .compare _ _ _ | .compareRows _ _ _ | .isNull _ _ | .isIn _ _ _ | .like _ _ => []
  | .and operands => tagsAll operands
  | .or operands => tagsAll operands
  | .not operand => operand.tags
  | .related _ _ tag conditions => tag :: tagsAll conditions

def tagsAll : List Pred → List Alias
  | [] => []
  | p :: ps => p.tags ++ tagsAll ps

end

def tags? (p : Option Pred) : List Alias := (p.map tags).getD []

/-- The predicate refers to visible aliases only. A subquery sees its own alias
besides. -/
inductive Within : List Alias → Pred → Prop
  | truth {visible : List Alias} {value : Bool} : Within visible (.truth value)
  | compare {visible : List Alias} {lhs rhs : Scalar} {op : Comparison}
      (left : lhs.Within visible) (right : rhs.Within visible) :
      Within visible (.compare lhs op rhs)
  | compareRows {visible : List Alias} {columns : List Column} {op : Comparison}
      {values : List Value} (row : ∀ c ∈ columns, c.tag ∈ visible) :
      Within visible (.compareRows columns op values)
  | isNull {visible : List Alias} {s : Scalar} {negated : Bool} (operand : s.Within visible) :
      Within visible (.isNull s negated)
  | isIn {visible : List Alias} {s : Scalar} {items : List Scalar} {negated : Bool}
      (operand : s.Within visible) (listed : ∀ item ∈ items, item.Within visible) :
      Within visible (.isIn s items negated)
  | like {visible : List Alias} {s pattern : Scalar} (operand : s.Within visible)
      (right : pattern.Within visible) : Within visible (.like s pattern)
  | and {visible : List Alias} {operands : List Pred} (all : ∀ p ∈ operands, Within visible p) :
      Within visible (.and operands)
  | or {visible : List Alias} {operands : List Pred} (all : ∀ p ∈ operands, Within visible p) :
      Within visible (.or operands)
  | not {visible : List Alias} {operand : Pred} (inner : Within visible operand) :
      Within visible (.not operand)
  | related {visible : List Alias} {negated : Bool} {table : String} {tag : Alias}
      {conditions : List Pred} (all : ∀ p ∈ conditions, Within (tag :: visible) p) :
      Within visible (.related negated table tag conditions)

end Pred

def Body.tags (b : Body) : List Alias := b.tag :: (Pred.tags? b.filter ++ Pred.tags? b.having)

structure Body.Within (visible : List Alias) (b : Body) : Prop where
  filter : ∀ p ∈ b.filter, p.Within visible
  groupBy : ∀ c ∈ b.groupBy, c.tag ∈ visible
  having : ∀ p ∈ b.having, p.Within visible
  orderBy : ∀ it ∈ b.orderBy, it.key.Within visible

namespace Projection

mutual

def tags : Projection → List Alias
  | .column _ | .aggregate _ _ _ => []
  | .relation _ _ fold columns body => tagsAll columns ++ body.tags ++ [fold]

def tagsAll : List Projection → List Alias
  | [] => []
  | p :: ps => p.tags ++ tagsAll ps

end

/-- The column refers to visible aliases only. The rows of a relation are read
under an alias of their own. -/
inductive Within : List Alias → Projection → Prop
  | column {visible : List Alias} {c : Column} (known : c.tag ∈ visible) :
      Within visible (.column c)
  | aggregate {visible : List Alias} {kind : Aggregate} {c : Option Column} {name : String}
      (known : ∀ x ∈ c, x.tag ∈ visible) : Within visible (.aggregate kind c name)
  | relation {visible : List Alias} {name : String} {toMany : Bool} {fold : Alias}
      {columns : List Projection} {body : Body}
      (own : ∀ p ∈ columns, Within (body.tag :: visible) p)
      (rows : body.Within (body.tag :: visible)) :
      Within visible (.relation name toMany fold columns body)

end Projection

namespace Statement

def tags : Statement → List Alias
  | .select columns _ body => Projection.tagsAll columns ++ body.tags
  | .overPage columns tag _ body => Projection.tagsAll columns ++ body.tags ++ [tag]
  | .insert _ _ => []
  | .update _ tag _ filter => tag :: Pred.tags? filter
  | .delete _ tag filter => tag :: Pred.tags? filter

inductive Within : Statement → Prop
  | select {columns : List Projection} {distinct : List Column} {body : Body}
      (own : ∀ p ∈ columns, p.Within [body.tag]) (lead : ∀ c ∈ distinct, c.tag = body.tag)
      (rows : body.Within [body.tag]) : Within (.select columns distinct body)
  | overPage {columns : List Projection} {tag : Alias} {page : List Column} {body : Body}
      (own : ∀ p ∈ columns, p.Within [tag]) (inner : ∀ c ∈ page, c.tag = body.tag)
      (rows : body.Within [body.tag]) : Within (.overPage columns tag page body)
  | insert {table : String} {assignments : List (String × Value)} :
      Within (.insert table assignments)
  | update {table : String} {tag : Alias} {assignments : List (String × Value)}
      {filter : Option Pred} (rows : ∀ p ∈ filter, p.Within [tag]) :
      Within (.update table tag assignments filter)
  | delete {table : String} {tag : Alias} {filter : Option Pred}
      (rows : ∀ p ∈ filter, p.Within [tag]) : Within (.delete table tag filter)

end Statement

section

open Piece (introduced introducedAll introduced_joined introduced_combined introduced_select)

variable (d : Dialect)

theorem Column.introduced_outline (c : Column) : introducedAll (c.outline d) = [] := by
  simp [Column.outline, introducedAll, introduced]

theorem Dialect.introduced_aggregate (kind : Aggregate) (c : Option Column) :
    introducedAll (d.aggregateOutline kind c) = [] := by
  cases c <;>
    simp [Dialect.aggregateOutline, introducedAll, introduced, Column.introduced_outline]

theorem Scalar.introduced_outline (s : Scalar) : introducedAll (s.outline d) = [] := by
  induction s with
  | column c => exact Column.introduced_outline d c
  | aggregate kind c => exact Dialect.introduced_aggregate d kind c
  | bound value => simp [Scalar.outline, introducedAll, introduced]
  | folded s ih => simp [Scalar.outline, introducedAll, introduced, ih]

theorem Dialect.introduced_table (name : String) (tag : Alias) :
    introducedAll (d.tableOutline name tag) = [tag] := by
  simp [Dialect.tableOutline, introducedAll, introduced]

theorem introduced_list {α : Type} {outline : α → List Piece} (xs : List α)
    (h : ∀ x, introducedAll (outline x) = []) :
    introducedAll (Piece.joined ", " (xs.map outline)) = [] := by
  simp [introduced_joined, List.flatMap_map, h]

mutual

theorem Pred.introduced_outline (p : Pred) : introducedAll (p.outline d) = p.tags := by
  match p with
  | .truth value => simp [Pred.outline, Pred.tags, introducedAll, introduced]
  | .compare lhs op rhs =>
    simp [Pred.outline, Pred.tags, introducedAll, introduced, Scalar.introduced_outline]
  | .compareRows columns op values =>
    have hvalues : introducedAll (Piece.joined ", " (values.map fun v => [Piece.value v])) = [] :=
      introduced_list values fun v => by simp [introducedAll, introduced]
    simp [Pred.outline, Pred.tags, introducedAll, introduced, hvalues,
      introduced_list columns (Column.introduced_outline d)]
  | .isNull s negated =>
    simp [Pred.outline, Pred.tags, introducedAll, introduced, Scalar.introduced_outline]
  | .isIn s items negated =>
    simp [Pred.outline, Pred.tags, introducedAll, introduced, Scalar.introduced_outline,
      introduced_list items (Scalar.introduced_outline d)]
  | .like s pattern =>
    simp [Pred.outline, Pred.tags, introducedAll, introduced, Scalar.introduced_outline]
  | .and operands =>
    rw [Pred.outline, introduced_combined, Pred.introduced_outline_all operands, Pred.tags]
  | .or operands =>
    rw [Pred.outline, introduced_combined, Pred.introduced_outline_all operands, Pred.tags]
  | .not operand =>
    simp [Pred.outline, Pred.tags, introducedAll, introduced, Pred.introduced_outline operand]
  | .related negated table tag [] =>
    simp [Pred.outline, Pred.tags, Pred.tagsAll, introducedAll, introduced, introduced_select,
      Dialect.introduced_table]
  | .related negated table tag (q :: qs) =>
    have hall := Pred.introduced_outline_all (q :: qs)
    simp [Pred.outline, Pred.tags, introducedAll, introduced, introduced_select,
      introduced_combined, Dialect.introduced_table, hall]

theorem Pred.introduced_outline_all (ps : List Pred) :
    (Pred.outlineAll d ps).flatMap introducedAll = Pred.tagsAll ps := by
  match ps with
  | [] => rfl
  | p :: ps =>
    rw [Pred.outlineAll, List.flatMap_cons, Pred.introduced_outline p,
      Pred.introduced_outline_all ps, Pred.tagsAll]

end

theorem Body.introduced_outline (projection lead : List Piece) (b : Body) :
    (b.outline d projection lead).introduced =
      introducedAll lead ++ introducedAll projection ++ b.tags := by
  have hpred : ∀ (start : String) (p : Option Pred),
      ((p.map fun q => Piece.word start :: q.outline d).map introducedAll).getD [] =
        Pred.tags? p := by
    intro start p
    cases p <;> simp [Pred.tags?, introducedAll, introduced, Pred.introduced_outline]
  have hlist : ∀ (start : String) (items : List (List Piece)),
      introducedAll (Piece.joined ", " items) = [] →
        ((listClause start items).map introducedAll).getD [] = [] := by
    intro start items h
    cases items with
    | nil => rfl
    | cons item items => simp [listClause, introducedAll, introduced, h]
  have hitem : ∀ it : SortItem, introducedAll (it.outline d) = [] := by
    intro it
    simp [SortItem.outline, introducedAll, introduced, Scalar.introduced_outline]
  have hlimit : ((d.limitOutline b.take b.skip).map introducedAll).getD [] = [] := by
    unfold Dialect.limitOutline
    cases b.take <;> cases b.skip <;> cases d.unlimited <;> simp [introducedAll, introduced]
  rw [Body.outline, introduced_select]
  simp only [List.flatMap_cons, List.flatMap_nil, hpred, hlimit, Dialect.introduced_table,
    hlist _ _ (introduced_list b.groupBy (Column.introduced_outline d)),
    hlist _ _ (introduced_list b.orderBy hitem)]
  simp [Body.tags]

theorem Dialect.introduced_fold (toMany : Bool) (tag : Alias) (columns : List JsonColumn) :
    introducedAll (d.foldOutline toMany tag columns) = [] := by
  have hpair : ∀ (reparsed : Bool) (c : JsonColumn),
      introducedAll (d.pairOutline tag reparsed c) = [] := by
    intro reparsed c
    unfold Dialect.pairOutline
    cases c.nested && reparsed <;>
      simp [introducedAll, introduced, Column.introduced_outline]
  unfold Dialect.foldOutline
  cases d.json with
  | objects function arrayOpen arrayClose reparsed =>
    have hlist := introduced_list columns (hpair reparsed)
    cases toMany <;> simp [introducedAll, introduced, hlist]
  | wholeRow expr => simp [introducedAll, introduced]

mutual

theorem Projection.introduced_outline (p : Projection) :
    introducedAll (p.outline d) = p.tags := by
  match p with
  | .column c => simp [Projection.outline, Projection.tags, Column.introduced_outline]
  | .aggregate kind c name =>
    simp [Projection.outline, Projection.tags, introducedAll, introduced,
      Dialect.introduced_aggregate]
  | .relation name toMany fold columns body =>
    have hcolumns := Projection.introduced_outline_all columns
    simp [Projection.outline, Projection.tags, introducedAll, introduced, introduced_joined,
      Dialect.introduced_fold, Body.introduced_outline, hcolumns]

theorem Projection.introduced_outline_all (ps : List Projection) :
    (Projection.outlineAll d ps).flatMap introducedAll = Projection.tagsAll ps := by
  match ps with
  | [] => rfl
  | p :: ps =>
    rw [Projection.outlineAll, List.flatMap_cons, Projection.introduced_outline p,
      Projection.introduced_outline_all ps, Projection.tagsAll]

end

theorem introduced_filter (filter : Option Pred) :
    introducedAll (filterOutline d filter) = Pred.tags? filter := by
  cases filter <;>
    simp [filterOutline, Pred.tags?, introducedAll, introduced, Pred.introduced_outline]

theorem Statement.introduced_outline (st : Statement) :
    (st.outline d).introduced = st.tags := by
  cases st with
  | select columns distinct body =>
    have hlead := introduced_list distinct (Column.introduced_outline d)
    cases hd : distinct.isEmpty <;>
      simp [Statement.outline, Statement.tags, hd, Body.introduced_outline, introducedAll,
        introduced, introduced_joined, Projection.introduced_outline_all, hlead]
  | overPage columns tag page body =>
    have hpage := introduced_list page (Column.introduced_outline d)
    simp [Statement.outline, Statement.tags, Body.introduced_outline, introducedAll, introduced,
      introduced_joined, Projection.introduced_outline_all, hpage]
  | insert table assignments =>
    have hnames : introducedAll (Piece.joined ", " (assignments.map fun a =>
        [Piece.quoted (d.quote a.1)])) = [] :=
      introduced_list assignments fun a => by simp [introducedAll, introduced]
    have hvalues : introducedAll (Piece.joined ", " (assignments.map fun a =>
        [Piece.value a.2])) = [] :=
      introduced_list assignments fun a => by simp [introducedAll, introduced]
    cases hempty : assignments.isEmpty <;>
      simp [Statement.outline, Statement.tags, introducedAll, introduced, hempty, hnames, hvalues]
  | update table tag assignments filter =>
    have hassigned : introducedAll (Piece.joined ", " (assignments.map fun a =>
        [Piece.quoted (d.quote a.1), Piece.word " = ", Piece.value a.2])) = [] :=
      introduced_list assignments fun a => by simp [introducedAll, introduced]
    simp [Statement.outline, Statement.tags, introducedAll, introduced, Dialect.introduced_table,
      introduced_filter, hassigned]
  | delete table tag filter =>
    cases hd : d.deletesByAlias <;>
      simp [Statement.outline, Statement.tags, hd, introducedAll, introduced,
        Dialect.introduced_table, introduced_filter]

end

def Dialect.JsonFold.Plain : Dialect.JsonFold → Prop
  | .objects function arrayOpen arrayClose _ =>
    plainText (function ++ "(").toList = true ∧ plainText arrayOpen.toList = true ∧
      plainText arrayClose.toList = true
  | .wholeRow expr => plainText expr.toList = true

structure Dialect.Plain (d : Dialect) : Prop where
  json : d.json.Plain
  unlimited : ∀ text ∈ d.unlimited, plainText text.toList = true
  emptyInsert : plainText (" " ++ d.emptyInsert).toList = true

theorem Engine.plain (e : Engine) : e.dialect.Plain := by
  cases e with
  | postgresql => exact ⟨⟨rfl, rfl, rfl⟩, by decide, rfl⟩
  | sqlite => exact ⟨⟨rfl, rfl, rfl⟩, by decide, rfl⟩
  | mysql => exact ⟨⟨rfl, rfl, rfl⟩, by decide, rfl⟩

section

open Piece (ScopedAll scoped_joined scoped_list scoped_combined scoped_select)

variable {d : Dialect} {visible w : List Alias}

theorem Column.scoped_outline {c : Column} (h : c.tag ∈ visible) :
    ScopedAll d visible (c.outline d) := by
  simp +decide [Column.outline, h]

theorem Dialect.scoped_aggregate {kind : Aggregate} {c : Option Column}
    (h : ∀ x ∈ c, x.tag ∈ visible) : ScopedAll d visible (d.aggregateOutline kind c) := by
  cases c with
  | none => simp +decide [Dialect.aggregateOutline]
  | some c =>
    have hname : plainText (Dialect.aggregateName kind ++ "(").toList = true := by
      cases kind <;> rfl
    simp +decide only [Dialect.aggregateOutline, Piece.scoped_cons, Piece.scoped_append,
      Piece.scoped_word, Piece.scoped_nil, hname, Column.scoped_outline (h c rfl), and_true]

theorem Scalar.scoped_outline {s : Scalar} (h : s.Within visible) (hv : visible ⊆ w) :
    ScopedAll d w (s.outline d) := by
  induction s with
  | column c => exact Column.scoped_outline (hv h)
  | aggregate kind c => exact Dialect.scoped_aggregate fun x hx => hv (h x hx)
  | bound value => simp [Scalar.outline]
  | folded s ih => simp +decide [Scalar.outline, ih h]

theorem Pred.outline_all_eq (d : Dialect) (ps : List Pred) :
    Pred.outlineAll d ps = ps.map (·.outline d) := by
  induction ps with
  | nil => rfl
  | cons p ps ih => rw [Pred.outlineAll, ih, List.map_cons]

theorem Pred.scoped_outline {p : Pred} (h : p.Within visible) (hv : visible ⊆ w) :
    ScopedAll d w (p.outline d) := by
  have hall : ∀ {w : List Alias} {ps : List Pred} {operator : String},
      plainText operator.toList = true → (∀ q ∈ ps, ScopedAll d w (q.outline d)) →
        ScopedAll d w (Piece.combined operator (Pred.outlineAll d ps)) := by
    intro w ps operator hs h
    refine scoped_combined hs fun qs hqs => ?_
    rw [Pred.outline_all_eq] at hqs
    obtain ⟨q, hq, rfl⟩ := List.mem_map.mp hqs
    exact h q hq
  -- a subquery widens what is visible, so the induction is over every wider list
  induction h generalizing w with
  | @truth _ value => cases value <;> simp +decide [Pred.outline]
  | @compare _ lhs rhs op left right =>
    have hop : plainText (" " ++ op.text ++ " ").toList = true := by
      cases op <;> rfl
    simp only [Pred.outline, Piece.scoped_append, Piece.scoped_cons, Piece.scoped_word, hop,
      Scalar.scoped_outline left hv, Scalar.scoped_outline right hv, and_self]
  | @compareRows _ columns op values row =>
    have hop : plainText (" " ++ op.text ++ " ").toList = true := by
      cases op <;> rfl
    have hrow : ScopedAll d w (Piece.joined ", " (columns.map (·.outline d))) :=
      scoped_list fun c hc => Column.scoped_outline (hv (row c hc))
    have hvalues : ScopedAll d w (Piece.joined ", " (values.map fun v => [.value v])) :=
      scoped_list fun v _ => by simp
    simp +decide only [Pred.outline, Piece.scoped_append, Piece.scoped_cons, Piece.scoped_word,
      Piece.scoped_nil, hop, hrow, hvalues, and_true]
  | @isNull _ s negated operand =>
    cases negated <;> simp +decide [Pred.outline, Scalar.scoped_outline operand hv]
  | @isIn _ s items negated operand listed =>
    have hitems : ScopedAll d w (Piece.joined ", " (items.map (·.outline d))) :=
      scoped_list fun item hi => Scalar.scoped_outline (listed item hi) hv
    cases negated <;> simp +decide [Pred.outline, Scalar.scoped_outline operand hv, hitems]
  | like operand right =>
    cases hd : d.statesLikeEscape <;>
      simp +decide [Pred.outline, hd, Scalar.scoped_outline operand hv,
        Scalar.scoped_outline right hv]
  | and _ ih => exact hall rfl fun q hq => ih q hq hv
  | or _ ih => exact hall rfl fun q hq => ih q hq hv
  | not _ ih => simp +decide [Pred.outline, ih hv]
  | @related _ negated table tag conditions _ ih =>
    have hword : plainText (if negated then "NOT EXISTS (" else "EXISTS (").toList = true := by
      cases negated <;> rfl
    simp only [Pred.outline, Piece.scoped_cons, Piece.scoped_word, hword, Piece.scoped_nil,
      true_and, and_true]
    refine ⟨scoped_select fun u ht hu => ⟨Piece.scoped_nil, by simp +decide, ?_⟩, rfl⟩
    have hseen : tag :: _ ⊆ u := List.cons_subset.mpr ⟨ht, List.Subset.trans hv hu⟩
    intro c hc ps hp
    cases List.mem_singleton.mp hc
    cases conditions with
    | nil => cases hp
    | cons q qs =>
      cases hp
      exact Piece.scoped_cons.mpr ⟨.word rfl, hall rfl fun p hp => ih p hp hseen⟩

theorem SortItem.scoped_outline {it : SortItem} (h : it.key.Within visible) (hv : visible ⊆ w) :
    ScopedAll d w (it.outline d) := by
  have hdirection : plainText (" " ++ it.direction.text).toList = true := by
    cases it.direction <;> rfl
  have hnulls : plainText (it.nulls.elim "" fun nulls => " " ++ nulls.text).toList = true := by
    cases it.nulls with
    | none => rfl
    | some nulls => cases nulls <;> rfl
  simp only [SortItem.outline, Piece.scoped_append, Piece.scoped_cons, Piece.scoped_word,
    Piece.scoped_nil, Scalar.scoped_outline h hv, hdirection, hnulls, and_self]

theorem scoped_clause {α : Type} {start : String} {xs : List α} {outline : α → List Piece}
    (hs : plainText start.toList = true) (h : ∀ x ∈ xs, ScopedAll d w (outline x)) :
    ∀ ps ∈ listClause start (xs.map outline), ScopedAll d w ps := by
  have hlist := scoped_list h
  cases xs with
  | nil => simp [listClause]
  | cons x xs =>
    intro ps hp
    cases hp
    exact Piece.scoped_cons.mpr ⟨.word hs, hlist⟩

theorem Dialect.scoped_limit (hd : d.Plain) (take skip : Option Nat) :
    ∀ ps ∈ d.limitOutline take skip, ScopedAll d w ps := by
  have hunlimited := hd.unlimited
  unfold Dialect.limitOutline
  cases take <;> cases skip <;> cases hu : d.unlimited <;> simp +decide [hunlimited, hu]

theorem Body.scoped_outline {projection lead : List Piece} {b : Body} (hd : d.Plain)
    (hb : b.Within (b.tag :: visible)) (hv : visible ⊆ w)
    (hlead : ∀ u, b.tag :: visible ⊆ u → ScopedAll d u lead)
    (hprojection : ∀ u, b.tag :: visible ⊆ u → ScopedAll d u projection) :
    (b.outline d projection lead).Scoped d w := by
  refine scoped_select fun u ht hu => ?_
  have hseen : b.tag :: visible ⊆ u := List.cons_subset.mpr ⟨ht, List.Subset.trans hv hu⟩
  have hpred : ∀ {start : String} {p : Option Pred}, plainText start.toList = true →
      (∀ q ∈ p, q.Within (b.tag :: visible)) →
        ∀ ps ∈ p.map fun q => Piece.word start :: q.outline d, ScopedAll d u ps := by
    intro start p hs h ps hp
    cases p with
    | none => cases hp
    | some q =>
      cases hp
      exact Piece.scoped_cons.mpr ⟨.word hs, Pred.scoped_outline (h q rfl) hseen⟩
  refine ⟨hlead u hseen, hprojection u hseen, ?_⟩
  simp only [List.forall_mem_cons, List.not_mem_nil, false_implies, implies_true, and_true]
  exact ⟨hpred rfl hb.filter,
    scoped_clause rfl fun c hc => Column.scoped_outline (hseen (hb.groupBy c hc)),
    hpred rfl hb.having,
    scoped_clause rfl fun it hit => SortItem.scoped_outline (hb.orderBy it hit) hseen,
    Dialect.scoped_limit hd b.take b.skip⟩

theorem Dialect.scoped_fold {toMany : Bool} {tag : Alias} {columns : List JsonColumn}
    (hd : d.Plain) (h : tag ∈ w) : ScopedAll d w (d.foldOutline toMany tag columns) := by
  have hjson := hd.json
  have hpair : ∀ (reparsed : Bool) (c : JsonColumn),
      ScopedAll d w (d.pairOutline tag reparsed c) := by
    intro reparsed c
    have hcolumn : ScopedAll d w (Column.outline d ⟨tag, c.name⟩) := Column.scoped_outline h
    unfold Dialect.pairOutline
    cases c.nested && reparsed <;> simp +decide [hcolumn]
  unfold Dialect.foldOutline
  cases hj : d.json with
  | objects function arrayOpen arrayClose reparsed =>
    rw [hj] at hjson
    obtain ⟨hf, ho, hc⟩ := hjson
    have hlist : ScopedAll d w (Piece.joined ", " (columns.map (d.pairOutline tag reparsed))) :=
      scoped_list fun c _ => hpair reparsed c
    cases toMany <;>
      simp +decide only [Piece.scoped_cons, Piece.scoped_append, Piece.scoped_word,
        Piece.scoped_nil, hf, ho, hc, hlist, if_true, if_false, and_true]
  | wholeRow expr =>
    rw [hj] at hjson
    exact Piece.scoped_cons.mpr ⟨.word hjson, Piece.scoped_nil⟩

theorem scoped_columns {ps : List Projection} (h : ∀ p ∈ ps, ScopedAll d w (p.outline d)) :
    ScopedAll d w (Piece.joined ", " (Projection.outlineAll d ps)) := by
  have hmap : Projection.outlineAll d ps = ps.map (·.outline d) := by
    clear h
    induction ps with
    | nil => rfl
    | cons p ps ih => rw [Projection.outlineAll, ih, List.map_cons]
  rw [hmap]
  exact scoped_list h

theorem Projection.scoped_outline {p : Projection} (hd : d.Plain) (h : p.Within visible)
    (hv : visible ⊆ w) : ScopedAll d w (p.outline d) := by
  induction h generalizing w with
  | column known => exact Column.scoped_outline (hv known)
  | aggregate known =>
    simp +decide [Projection.outline, Dialect.scoped_aggregate fun x hx => hv (known x hx)]
  | @relation _ name toMany fold columns body _ rows ih =>
    simp only [Projection.outline, Piece.scoped_cons, Piece.scoped_nil, Piece.scoped_name,
      Piece.scoped_query, Piece.scoped_word, and_true]
    refine ⟨rfl, ?_, rfl, rfl⟩
    generalize hu : Piece.direct _ ++ w = u
    have hfold : fold ∈ u :=
      hu ▸ Piece.introduced_visible (by simp)
    have hseen : w ⊆ u := hu ▸ List.subset_append_right _ _
    have hbody := Body.scoped_outline hd rows (List.Subset.trans hv hseen)
      (fun _ _ => Piece.scoped_nil)
      (fun x hx => scoped_columns fun q hq => ih q hq hx)
    simp +decide [Dialect.scoped_fold hd hfold, hbody]

theorem scoped_filter {filter : Option Pred} (h : ∀ p ∈ filter, p.Within visible)
    (hv : visible ⊆ w) : ScopedAll d w (filterOutline d filter) := by
  cases filter with
  | none => exact Piece.scoped_nil
  | some p => exact Piece.scoped_cons.mpr ⟨.word rfl, Pred.scoped_outline (h p rfl) hv⟩

theorem Statement.scoped_outline {st : Statement} (hd : d.Plain) (h : st.Within) :
    (st.outline d).Scoped d [] := by
  cases h with
  | @select columns distinct body own lead rows =>
    refine Body.scoped_outline hd rows (List.Subset.refl []) (fun u hu => ?_)
      (fun u hu => scoped_columns fun p hp => Projection.scoped_outline hd (own p hp) hu)
    have htag : body.tag ∈ u := hu List.mem_cons_self
    have hlist : ScopedAll d u (Piece.joined ", " (distinct.map (·.outline d))) :=
      scoped_list fun c hc => Column.scoped_outline (lead c hc ▸ htag)
    cases distinct.isEmpty <;> simp +decide [hlist]
  | @overPage columns tag page body own inner rows =>
    rw [Statement.outline, Piece.scoped_query]
    generalize hu : Piece.direct _ ++ [] = u
    have htag : tag ∈ u := hu ▸ Piece.introduced_visible (by simp)
    have hcolumns : ScopedAll d u (Piece.joined ", " (Projection.outlineAll d columns)) :=
      scoped_columns fun p hp => Projection.scoped_outline hd (own p hp) (by simpa using htag)
    have hbody := Body.scoped_outline hd rows (List.nil_subset u)
      (fun _ _ => Piece.scoped_nil)
      (fun x hx => scoped_list fun c hc =>
        Column.scoped_outline (inner c hc ▸ hx List.mem_cons_self))
    simp +decide [hcolumns, hbody]
  | @insert table assignments =>
    have hnames : ∀ u, ScopedAll d u (Piece.joined ", " (assignments.map fun a =>
        [Piece.quoted (d.quote a.1)])) :=
      fun u => scoped_list fun a _ => by simp
    have hvalues : ∀ u, ScopedAll d u (Piece.joined ", " (assignments.map fun a =>
        [Piece.value a.2])) :=
      fun u => scoped_list fun a _ => by simp
    have hempty := hd.emptyInsert
    rw [Statement.outline, Piece.scoped_query]
    cases assignments.isEmpty <;>
      simp +decide only [Piece.scoped_cons, Piece.scoped_append, Piece.scoped_word,
        Piece.scoped_name, Piece.scoped_nil, hnames, hvalues, hempty, if_true, if_false, and_true]
  | @update table tag assignments filter rows =>
    rw [Statement.outline, Piece.scoped_query]
    generalize hu : Piece.direct _ ++ [] = u
    have htag : tag ∈ u := hu ▸ Piece.introduced_visible (by simp [Dialect.tableOutline])
    have hassigned : ScopedAll d u (Piece.joined ", " (assignments.map fun a =>
        [Piece.quoted (d.quote a.1), Piece.word " = ", Piece.value a.2])) :=
      scoped_list fun a _ => by simp +decide
    have hfilter := scoped_filter (d := d) rows (List.cons_subset.mpr ⟨htag, List.nil_subset u⟩)
    simp +decide [Dialect.tableOutline, hassigned, hfilter]
  | @delete table tag filter rows =>
    rw [Statement.outline, Piece.scoped_query]
    generalize hu : Piece.direct _ ++ [] = u
    have htag : tag ∈ u := hu ▸ Piece.introduced_visible (by simp [Dialect.tableOutline])
    have hfilter := scoped_filter (d := d) rows (List.cons_subset.mpr ⟨htag, List.nil_subset u⟩)
    cases d.deletesByAlias <;> simp +decide [Dialect.tableOutline, htag, hfilter]

end

end QuerySql
