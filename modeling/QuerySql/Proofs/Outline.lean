import QuerySql.Sql.Render

/-!
# Outlines

The outline of a statement is its text cut into pieces, with every alias marked
where it is introduced and where it is referred to, and with every query marked
as a whole. Joined again, the pieces are the text that a dialect writes, so what
holds of the marks holds of the aliases in the text.
-/

set_option autoImplicit false

namespace QuerySql

/-- One sign of a written statement: a character, or the place of a value. -/
inductive Sign where
  | char (c : Char)
  | value (v : Value)

def Sign.ofText (text : String) : List Sign := text.toList.map .char

def Sign.write (placeholder : Nat → String) (count : Nat) : List Sign → String
  | [] => ""
  | .char c :: rest => String.singleton c ++ Sign.write placeholder count rest
  | .value _ :: rest => placeholder (count + 1) ++ Sign.write placeholder (count + 1) rest

@[simp] theorem Sign.of_text_append (s t : String) :
    Sign.ofText (s ++ t) = Sign.ofText s ++ Sign.ofText t := by
  simp [Sign.ofText]

def Part.signs : Part → List Sign
  | .sql text => Sign.ofText text
  | .bound value => [.value value]

namespace Fragment

def signs (f : Fragment) : List Sign := f.parts.flatMap Part.signs

@[simp] theorem signs_empty : empty.signs = [] := rfl

@[simp] theorem signs_bound (value : Value) : (bound value).signs = [.value value] := rfl

@[simp] theorem signs_sql (text : String) : (sql text).signs = Sign.ofText text := by
  unfold sql
  split
  · rename_i h
    rw [String.isEmpty_iff] at h
    subst h
    rfl
  · simp [signs, Part.signs]

theorem signs_push_text (text : String) (parts : List Part) :
    signs ⟨pushText text parts⟩ = signs ⟨parts⟩ ++ Sign.ofText text := by
  fun_induction pushText text parts with
  | case1 => simp [signs, Part.signs]
  | case2 last => simp [signs, Part.signs]
  | case3 part rest _ ih =>
    simp only [signs, List.flatMap_cons, List.append_assoc] at ih ⊢
    rw [ih]

@[simp] theorem signs_push_sql (f : Fragment) (text : String) :
    (f.pushSql text).signs = f.signs ++ Sign.ofText text := by
  unfold pushSql
  split
  · rename_i h
    rw [String.isEmpty_iff] at h
    subst h
    simp [Sign.ofText]
  · exact signs_push_text text f.parts

theorem signs_push (f : Fragment) (part : Part) : (f.push part).signs = f.signs ++ part.signs := by
  cases part with
  | sql text => exact signs_push_sql f text
  | bound value => simp [push, pushBound, signs, Part.signs]

@[simp] theorem signs_append (f g : Fragment) : (f ++ g).signs = f.signs ++ g.signs := by
  change (g.parts.foldl push f).signs = f.signs ++ g.parts.flatMap Part.signs
  induction g.parts generalizing f with
  | nil => simp
  | cons part parts ih =>
    rw [List.foldl_cons, ih, signs_push, List.flatMap_cons, List.append_assoc]

theorem signs_join_from (separator : String) (f : Fragment) (fs : List Fragment) :
    (joinFrom separator f fs).signs =
      f.signs ++ fs.flatMap fun g => Sign.ofText separator ++ g.signs := by
  induction fs generalizing f with
  | nil => simp [joinFrom]
  | cons g fs ih => simp [joinFrom, ih]

theorem signs_join (separator : String) (f : Fragment) (fs : List Fragment) :
    (join separator (f :: fs)).signs =
      f.signs ++ fs.flatMap fun g => Sign.ofText separator ++ g.signs := by
  simp [join, signs_join_from]

theorem text_of_signs (placeholder : Nat → String) (count : Nat) (parts : List Part) :
    textFrom placeholder count parts = Sign.write placeholder count (parts.flatMap Part.signs) := by
  have htext : ∀ (cs : List Char) (count : Nat) (rest : List Sign),
      Sign.write placeholder count (cs.map .char ++ rest) =
        String.ofList cs ++ Sign.write placeholder count rest := by
    intro cs count rest
    induction cs with
    | nil => simp
    | cons c cs ih =>
      rw [List.map_cons, List.cons_append, Sign.write, ih, ← String.append_assoc]
      congr 1
      apply String.toList_injective
      simp
  induction parts generalizing count with
  | nil => rfl
  | cons part parts ih =>
    cases part with
    | sql text =>
      rw [textFrom, ih, List.flatMap_cons, Part.signs, Sign.ofText, htext, String.ofList_toList]
    | bound value =>
      rw [textFrom, ih, List.flatMap_cons, Part.signs, List.singleton_append, Sign.write]

end Fragment

/-- A piece of a statement's text. -/
inductive Piece where
  | word (text : String)
  | quoted (text : String)
  | number (n : Nat)
  | value (v : Value)
  | introduction (tag : Alias)
  | reference (tag : Alias)
  | query (pieces : List Piece)

namespace Piece

mutual

def signs : Piece → List Sign
  | .word text => Sign.ofText text
  | .quoted text => Sign.ofText text
  | .number n => Sign.ofText (toString n)
  | .value v => [.value v]
  | .introduction tag => Sign.ofText (" AS " ++ tag.text)
  | .reference tag => Sign.ofText tag.text
  | .query pieces => signsAll pieces

def signsAll : List Piece → List Sign
  | [] => []
  | p :: ps => p.signs ++ signsAll ps

end

@[simp] theorem signs_word (text : String) : (word text).signs = Sign.ofText text := by
  rw [signs]

@[simp] theorem signs_quoted (text : String) : (quoted text).signs = Sign.ofText text := by
  rw [signs]

@[simp] theorem signs_value (v : Value) : (value v).signs = [.value v] := by
  rw [signs]

@[simp] theorem signs_all_nil : signsAll [] = [] := rfl

@[simp] theorem signs_all_cons (p : Piece) (ps : List Piece) :
    signsAll (p :: ps) = p.signs ++ signsAll ps := rfl

@[simp] theorem signs_all_append (ps qs : List Piece) :
    signsAll (ps ++ qs) = signsAll ps ++ signsAll qs := by
  induction ps with
  | nil => rfl
  | cons p ps ih => simp [ih]

def joined (separator : String) : List (List Piece) → List Piece
  | [] => []
  | ps :: rest => ps ++ rest.flatMap fun qs => word separator :: qs

theorem signs_all_flat_map (pss : List (List Piece)) (f : List Piece → List Piece) :
    signsAll (pss.flatMap f) = pss.flatMap fun ps => signsAll (f ps) := by
  induction pss with
  | nil => rfl
  | cons ps pss ih => rw [List.flatMap_cons, signs_all_append, ih, List.flatMap_cons]

theorem signs_joined {pss : List (List Piece)} {fs : List Fragment} (separator : String)
    (h : pss.map signsAll = fs.map Fragment.signs) :
    signsAll (joined separator pss) = (Fragment.join separator fs).signs := by
  cases pss with
  | nil =>
    cases fs with
    | nil => rfl
    | cons f fs => cases h
  | cons ps rest =>
    cases fs with
    | nil => cases h
    | cons f fs =>
      simp only [List.map_cons, List.cons.injEq] at h
      have hrest := congrArg (List.flatMap fun signs => Sign.ofText separator ++ signs) h.2
      rw [List.flatMap_map, List.flatMap_map] at hrest
      rw [joined, signs_all_append, signs_all_flat_map, Fragment.signs_join, h.1]
      simp only [signs_all_cons, signs_word]
      rw [hrest]

def combined (operator : String) : List (List Piece) → List Piece
  | [operand] => operand
  | operands => word "(" :: joined operator operands ++ [word ")"]

theorem signs_combined {pss : List (List Piece)} {fs : List Fragment} (operator : String)
    (h : pss.map signsAll = fs.map Fragment.signs) :
    signsAll (combined operator pss) = (Dialect.combine operator fs).signs := by
  have hlen : pss.length = fs.length := by
    simpa using congrArg List.length h
  have hjoined := signs_joined operator h
  match pss, fs with
  | [p], [f] => simpa [combined, Dialect.combine] using h
  | [], [] => simp [combined, Dialect.combine, Fragment.parenthesized, hjoined]
  | p :: q :: ps, f :: g :: gs =>
    simp [combined, Dialect.combine, Fragment.parenthesized, hjoined]
  | [], _ :: _ | [_], [] | _ :: _ :: _, [] | [_], _ :: _ :: _ | _ :: _ :: _, [_] => simp at hlen

def select (lead projection source : List Piece) (clauses : List (Option (List Piece))) : Piece :=
  .query (word "SELECT " :: lead ++ projection ++ word " FROM " :: source ++
    (clauses.filterMap id).flatMap fun ps => word " " :: ps)

theorem signs_select {lead projection source : List Piece} {clauses : List (Option (List Piece))}
    {leadF : Option Fragment} {projectionF sourceF : Fragment}
    {clausesF : List (Option Fragment)} (hl : signsAll lead = (leadF.getD .empty).signs)
    (hp : signsAll projection = projectionF.signs) (hs : signsAll source = sourceF.signs)
    (hc : clauses.map (Option.map signsAll) = clausesF.map (Option.map Fragment.signs)) :
    (select lead projection source clauses).signs =
      (selectFragment projectionF leadF sourceF clausesF).signs := by
  have hsome : (clauses.filterMap id).map signsAll =
      (clausesF.filterMap id).map Fragment.signs := by
    have h := congrArg (List.filterMap id) hc
    simpa [List.filterMap_map, List.map_filterMap] using h
  have hflat := congrArg (List.flatMap fun signs => Sign.ofText " " ++ signs) hsome
  rw [List.flatMap_map, List.flatMap_map] at hflat
  have hfrom : Sign.ofText " FROM " = Sign.ofText " " ++ Sign.ofText "FROM " := by
    rw [← Sign.of_text_append]
    rfl
  rw [select, signs, selectFragment, Fragment.signs_join]
  simp only [Dialect.selectClause, Dialect.fromClause, Fragment.signs_append, Fragment.signs_sql,
    signs_all_append, signs_all_cons, signs_word, signs_all_flat_map, hl, hp, hs, hflat, hfrom,
    List.flatMap_cons, List.append_assoc]

end Piece

open Piece (word quoted joined combined)

section

variable (d : Dialect)

def Column.outline (c : Column) : List Piece :=
  [.reference c.tag, word ".", quoted (d.quote c.name)]

def Dialect.aggregateOutline (kind : Aggregate) : Option Column → List Piece
  | none => [word "COUNT(*)"]
  | some c => word (Dialect.aggregateName kind ++ "(") :: c.outline d ++ [word ")"]

def Scalar.outline : Scalar → List Piece
  | .column c => c.outline d
  | .aggregate kind c => d.aggregateOutline kind c
  | .bound value => [.value value]
  | .folded s => word "LOWER(" :: s.outline ++ [word ")"]

def Dialect.tableOutline (name : String) (tag : Alias) : List Piece :=
  [quoted (d.quote name), .introduction tag]

mutual

def Pred.outline : Pred → List Piece
  | .truth value => [word (if value then "TRUE" else "FALSE")]
  | .compare lhs op rhs => lhs.outline d ++ word (" " ++ op.text ++ " ") :: rhs.outline d
  | .compareRows columns op values =>
    word "(" :: joined ", " (columns.map (·.outline d)) ++
      [word ")", word (" " ++ op.text ++ " "), word "("] ++
      joined ", " (values.map fun v => [.value v]) ++ [word ")"]
  | .isNull s negated => s.outline d ++ [word (if negated then " IS NOT NULL" else " IS NULL")]
  | .isIn s items negated =>
    s.outline d ++ word (if negated then " NOT IN (" else " IN (") ::
      joined ", " (items.map (·.outline d)) ++ [word ")"]
  | .like s pattern =>
    s.outline d ++ word " LIKE " :: pattern.outline d ++
      [word (if d.statesLikeEscape then " ESCAPE '\\'" else "")]
  | .and operands => combined " AND " (Pred.outlineAll operands)
  | .or operands => combined " OR " (Pred.outlineAll operands)
  | .not operand => word "NOT (" :: operand.outline ++ [word ")"]
  | .related negated table tag conditions =>
    let filter :=
      match conditions with
      | [] => none
      | _ :: _ => some (word "WHERE " :: combined " AND " (Pred.outlineAll conditions))
    [word (if negated then "NOT EXISTS (" else "EXISTS ("),
      Piece.select [] [word "1"] (d.tableOutline table tag) [filter], word ")"]

def Pred.outlineAll : List Pred → List (List Piece)
  | [] => []
  | p :: ps => p.outline :: Pred.outlineAll ps

end

def SortItem.outline (it : SortItem) : List Piece :=
  it.key.outline d ++ [word (" " ++ it.direction.text),
    word (it.nulls.elim "" fun nulls => " " ++ nulls.text)]

def listClause (start : String) : List (List Piece) → Option (List Piece)
  | [] => none
  | items => some (word start :: joined ", " items)

def Dialect.limitOutline : Option Nat → Option Nat → Option (List Piece)
  | none, none => none
  | some take, none => some [word "LIMIT ", .number take]
  | none, some skip =>
    match d.unlimited with
    | some unlimited => some [word "LIMIT ", word unlimited, word " OFFSET ", .number skip]
    | none => some [word "OFFSET ", .number skip]
  | some take, some skip => some [word "LIMIT ", .number take, word " OFFSET ", .number skip]

def Body.outline (projection lead : List Piece) (b : Body) : Piece :=
  Piece.select lead projection (d.tableOutline b.table b.tag)
    [b.filter.map fun p => word "WHERE " :: p.outline d,
      listClause "GROUP BY " (b.groupBy.map (·.outline d)),
      b.having.map fun p => word "HAVING " :: p.outline d,
      listClause "ORDER BY " (b.orderBy.map (·.outline d)),
      d.limitOutline b.take b.skip]

def Dialect.pairOutline (tag : Alias) (reparsed : Bool) (c : JsonColumn) : List Piece :=
  let column := Column.outline d ⟨tag, c.name⟩
  quoted (d.stringLiteral c.name) :: word ", " ::
    if c.nested && reparsed then word "json(" :: column ++ [word ")"] else column

def Dialect.foldOutline (toMany : Bool) (tag : Alias) (columns : List JsonColumn) : List Piece :=
  match d.json with
  | .objects function arrayOpen arrayClose reparsed =>
    let pairs := joined ", " (columns.map (d.pairOutline tag reparsed))
    let object := word (function ++ "(") :: pairs ++ [word ")"]
    if toMany then word arrayOpen :: object ++ [word arrayClose] else object
  | .wholeRow expr => [word expr]

mutual

def Projection.outline : Projection → List Piece
  | .column c => c.outline d
  | .aggregate kind c name => d.aggregateOutline kind c ++ [word " AS ", quoted (d.quote name)]
  | .relation name toMany fold columns body =>
    let subquery := body.outline d (joined ", " (Projection.outlineAll columns)) []
    let keys := columns.map fun p => JsonColumn.mk p.name p.isRelation
    [word "(", .query (word "SELECT " :: d.foldOutline toMany fold keys ++
        [word " FROM (", subquery, word ")", .introduction fold]), word ")",
      word " AS ", quoted (d.quote name)]

def Projection.outlineAll : List Projection → List (List Piece)
  | [] => []
  | p :: ps => p.outline :: Projection.outlineAll ps

end

def filterOutline : Option Pred → List Piece
  | none => []
  | some p => word " WHERE " :: p.outline d

def Statement.outline : Statement → Piece
  | .select columns distinct body =>
    let lead :=
      if distinct.isEmpty then []
      else word "DISTINCT ON (" :: joined ", " (distinct.map (·.outline d)) ++ [word ") "]
    body.outline d (joined ", " (Projection.outlineAll d columns)) lead
  | .overPage columns tag page body =>
    .query (word "SELECT " :: joined ", " (Projection.outlineAll d columns) ++
      [word " FROM (", body.outline d (joined ", " (page.map (·.outline d))) [], word ")",
        .introduction tag])
  | .insert table assignments =>
    .query (word "INSERT INTO " :: quoted (d.quote table) ::
      if assignments.isEmpty then [word (" " ++ d.emptyInsert)]
      else word " (" :: joined ", " (assignments.map fun a => [quoted (d.quote a.1)]) ++
        word ") VALUES (" :: joined ", " (assignments.map fun a => [.value a.2]) ++ [word ")"])
  | .update table tag assignments filter =>
    .query (word "UPDATE " :: d.tableOutline table tag ++ word " SET " ::
      joined ", " (assignments.map fun a => [quoted (d.quote a.1), word " = ", .value a.2]) ++
      filterOutline d filter)
  | .delete table tag filter =>
    .query ((if d.deletesByAlias then [word "DELETE ", .reference tag, word " FROM "]
      else [word "DELETE FROM "]) ++ d.tableOutline table tag ++ filterOutline d filter)

theorem Column.signs_outline (c : Column) :
    Piece.signsAll (c.outline d) = (c.render d).signs := by
  simp [Column.outline, Column.render, Dialect.column, Piece.signs]

theorem Dialect.signs_aggregate (kind : Aggregate) (c : Option Column) :
    Piece.signsAll (d.aggregateOutline kind c) =
      (Dialect.aggregate kind (c.map (·.render d))).signs := by
  cases c <;> simp [Dialect.aggregateOutline, Dialect.aggregate, Column.signs_outline]

theorem Scalar.signs_outline (s : Scalar) : Piece.signsAll (s.outline d) = (s.render d).signs := by
  induction s with
  | column c => exact Column.signs_outline d c
  | aggregate kind c => exact Dialect.signs_aggregate d kind c
  | bound value => simp [Scalar.outline, Scalar.render]
  | folded s ih => simp [Scalar.outline, Scalar.render, Dialect.foldCase, ih]

theorem Dialect.signs_table (name : String) (tag : Alias) :
    Piece.signsAll (d.tableOutline name tag) = (d.table name tag).signs := by
  simp [Dialect.tableOutline, Dialect.table, Piece.signs]

theorem signs_list {α : Type} {outline : α → List Piece} {render : α → Fragment} (xs : List α)
    (h : ∀ x, Piece.signsAll (outline x) = (render x).signs) :
    Piece.signsAll (joined ", " (xs.map outline)) = (Fragment.list (xs.map render)).signs := by
  apply Piece.signs_joined
  simp only [List.map_map, Function.comp_def, h]

mutual

theorem Pred.signs_outline (p : Pred) : Piece.signsAll (p.outline d) = (p.render d).signs := by
  match p with
  | .truth value => simp [Pred.outline, Pred.render, Dialect.truth]
  | .compare lhs op rhs =>
    simp [Pred.outline, Pred.render, Dialect.comparison, Scalar.signs_outline]
  | .compareRows columns op values =>
    have hvalues : Piece.signsAll (joined ", " (values.map fun v => [.value v])) =
        (Fragment.list (values.map Fragment.bound)).signs :=
      signs_list values fun v => by simp
    simp [Pred.outline, Pred.render, Dialect.comparison, Fragment.parenthesized, hvalues,
      signs_list columns (Column.signs_outline d)]
  | .isNull s negated => simp [Pred.outline, Pred.render, Dialect.nullTest, Scalar.signs_outline]
  | .isIn s items negated =>
    simp [Pred.outline, Pred.render, Dialect.membership, Scalar.signs_outline,
      signs_list items (Scalar.signs_outline d)]
  | .like s pattern => simp [Pred.outline, Pred.render, Dialect.like, Scalar.signs_outline]
  | .and operands =>
    rw [Pred.outline, Pred.render, Dialect.conjunction]
    exact Piece.signs_combined " AND " (Pred.signs_outline_all operands)
  | .or operands =>
    rw [Pred.outline, Pred.render, Dialect.disjunction]
    exact Piece.signs_combined " OR " (Pred.signs_outline_all operands)
  | .not operand =>
    simp [Pred.outline, Pred.render, Dialect.negation, Pred.signs_outline operand]
  | .related negated table tag [] =>
    have hselect : (Piece.select [] [word "1"] (d.tableOutline table tag) [none]).signs =
        (selectFragment (Fragment.sql "1") none (d.table table tag) [none]).signs :=
      Piece.signs_select rfl (by simp) (Dialect.signs_table d table tag) rfl
    simp [Pred.outline, Pred.render, Dialect.presence, hselect]
  | .related negated table tag (q :: qs) =>
    have hall := Piece.signs_combined " AND " (Pred.signs_outline_all (q :: qs))
    have hselect : (Piece.select [] [word "1"] (d.tableOutline table tag)
          [some (word "WHERE " :: combined " AND " (Pred.outlineAll d (q :: qs)))]).signs =
        (selectFragment (Fragment.sql "1") none (d.table table tag)
          [some (Dialect.whereClause (Dialect.conjunction (Pred.renderAll d (q :: qs))))]).signs :=
      Piece.signs_select rfl (by simp) (Dialect.signs_table d table tag)
        (by simp [Dialect.whereClause, Dialect.conjunction, hall])
    simp [Pred.outline, Pred.render, Dialect.presence, hselect]

theorem Pred.signs_outline_all (ps : List Pred) :
    (Pred.outlineAll d ps).map Piece.signsAll = (Pred.renderAll d ps).map Fragment.signs := by
  match ps with
  | [] => rfl
  | p :: ps =>
    rw [Pred.outlineAll, Pred.renderAll, List.map_cons, List.map_cons, Pred.signs_outline p,
      Pred.signs_outline_all ps]

end

theorem SortItem.signs_outline (it : SortItem) :
    Piece.signsAll (it.outline d) = (it.render d).signs := by
  cases hn : it.nulls <;>
    simp [SortItem.outline, SortItem.render, Dialect.orderItem, Scalar.signs_outline, hn]
  rfl

theorem Dialect.signs_limit (take skip : Option Nat) :
    (d.limitOutline take skip).map Piece.signsAll =
      (d.limitOffset take skip).map Fragment.signs := by
  unfold Dialect.limitOutline Dialect.limitOffset
  cases take <;> cases skip <;> cases d.unlimited <;> simp [Piece.signs]

theorem Body.signs_outline {projection lead : List Piece} {projectionF : Fragment}
    {leadF : Option Fragment} (b : Body) (hp : Piece.signsAll projection = projectionF.signs)
    (hl : Piece.signsAll lead = (leadF.getD .empty).signs) :
    (b.outline d projection lead).signs = (b.render d projectionF leadF).signs := by
  have hpred : ∀ (start : String) (clause : Fragment → Fragment) (p : Option Pred),
      (∀ f, (clause f).signs = Sign.ofText start ++ f.signs) →
        (p.map fun q => word start :: q.outline d).map Piece.signsAll =
          (p.map fun q => clause (q.render d)).map Fragment.signs := by
    intro start clause p hc
    cases p <;> simp [hc, Pred.signs_outline]
  have hgroup : (listClause "GROUP BY " (b.groupBy.map (·.outline d))).map Piece.signsAll =
      (renderGroupBy d b.groupBy).map Fragment.signs := by
    have hlist := signs_list b.groupBy (Column.signs_outline d)
    cases hg : b.groupBy with
    | nil => rfl
    | cons c cs =>
      rw [hg] at hlist
      simp only [List.map_cons] at hlist
      simp [listClause, renderGroupBy, Dialect.groupByClause, hlist]
  have horder : (listClause "ORDER BY " (b.orderBy.map (·.outline d))).map Piece.signsAll =
      (renderOrderBy d b.orderBy).map Fragment.signs := by
    have hlist := signs_list b.orderBy (SortItem.signs_outline d)
    cases ho : b.orderBy with
    | nil => rfl
    | cons it its =>
      rw [ho] at hlist
      simp only [List.map_cons] at hlist
      simp [listClause, renderOrderBy, Dialect.orderByClause, hlist]
  refine Piece.signs_select hl hp (Dialect.signs_table d b.table b.tag) ?_
  simp only [List.map_cons, List.map_nil, hgroup, horder, d.signs_limit b.take b.skip,
    hpred "WHERE " Dialect.whereClause b.filter (by simp [Dialect.whereClause]),
    hpred "HAVING " Dialect.havingClause b.having (by simp [Dialect.havingClause])]

theorem Dialect.signs_pair (tag : Alias) (reparsed : Bool) (c : JsonColumn) :
    Piece.signsAll (d.pairOutline tag reparsed c) = (d.jsonPair tag reparsed c).signs := by
  have hcolumn : Piece.signsAll (Column.outline d ⟨tag, c.name⟩) = (d.column tag c.name).signs :=
    Column.signs_outline d ⟨tag, c.name⟩
  unfold Dialect.pairOutline Dialect.jsonPair
  cases c.nested && reparsed <;> simp [hcolumn]

theorem Dialect.signs_fold {subquery : Piece} {subqueryF : Fragment} (toMany : Bool) (tag : Alias)
    (columns : List JsonColumn) (h : subquery.signs = subqueryF.signs) :
    Piece.signsAll [word "(", .query (word "SELECT " :: d.foldOutline toMany tag columns ++
        [word " FROM (", subquery, word ")", .introduction tag]), word ")"] =
      (if toMany then d.jsonArray subqueryF tag columns
        else d.jsonRow subqueryF tag columns).signs := by
  have hopen : Sign.ofText "(SELECT " = Sign.ofText "(" ++ Sign.ofText "SELECT " := by
    rw [← Sign.of_text_append]
    rfl
  have hclose : Sign.ofText ") AS " = Sign.ofText ")" ++ Sign.ofText " AS " := by
    rw [← Sign.of_text_append]
    rfl
  unfold Dialect.foldOutline Dialect.jsonArray Dialect.jsonRow
  cases d.json with
  | objects function arrayOpen arrayClose reparsed =>
    have hlist := signs_list columns (Dialect.signs_pair d tag reparsed)
    cases toMany <;>
      simp [Dialect.selectOver, Dialect.jsonObject, Piece.signs, h, hlist, hopen, hclose]
  | wholeRow expr =>
    cases toMany <;> simp [Dialect.selectOver, Piece.signs, h, hopen, hclose]

mutual

theorem Projection.signs_outline (p : Projection) :
    Piece.signsAll (p.outline d) = (p.render d).signs := by
  match p with
  | .column c => exact Column.signs_outline d c
  | .aggregate kind c name =>
    simp [Projection.outline, Projection.render, Dialect.aliased, Dialect.signs_aggregate]
  | .relation name toMany fold columns body =>
    have hcolumns := Piece.signs_joined ", " (Projection.signs_outline_all columns)
    have hbody : (body.outline d (joined ", " (Projection.outlineAll d columns)) []).signs =
        (body.render d (Fragment.list (Projection.renderAll d columns)) none).signs :=
      Body.signs_outline d body hcolumns rfl
    have hfold := Dialect.signs_fold d toMany fold
      (columns.map fun p => JsonColumn.mk p.name p.isRelation) hbody
    rw [Projection.outline, Projection.render, Dialect.aliased, Fragment.signs_append,
      Fragment.signs_append, ← hfold]
    simp

theorem Projection.signs_outline_all (ps : List Projection) :
    (Projection.outlineAll d ps).map Piece.signsAll =
      (Projection.renderAll d ps).map Fragment.signs := by
  match ps with
  | [] => rfl
  | p :: ps =>
    rw [Projection.outlineAll, Projection.renderAll, List.map_cons, List.map_cons,
      Projection.signs_outline p, Projection.signs_outline_all ps]

end

theorem signs_columns (columns : List Projection) :
    Piece.signsAll (joined ", " (Projection.outlineAll d columns)) =
      (renderColumns d columns).signs :=
  Piece.signs_joined ", " (Projection.signs_outline_all d columns)

theorem signs_filter (statement : Fragment) (filter : Option Pred) :
    statement.signs ++ Piece.signsAll (filterOutline d filter) =
      (renderFilter d statement filter).signs := by
  have hwhere : Sign.ofText " WHERE " = Sign.ofText " " ++ Sign.ofText "WHERE " := by
    rw [← Sign.of_text_append]
    rfl
  cases filter <;>
    simp [filterOutline, renderFilter, Dialect.whereClause, Pred.signs_outline, hwhere]

theorem Statement.signs_outline (st : Statement) : (st.outline d).signs = (st.render d).signs := by
  cases st with
  | select columns distinct body =>
    refine Body.signs_outline d body (signs_columns d columns) ?_
    have hlist := signs_list distinct (Column.signs_outline d)
    cases hd : distinct.isEmpty with
    | true => rfl
    | false => simp [Dialect.distinctOnList, hlist]
  | overPage columns tag page body =>
    have hbody : (body.outline d (joined ", " (page.map (·.outline d))) []).signs =
        (body.render d (Fragment.list (page.map (·.render d))) none).signs :=
      Body.signs_outline d body (signs_list page (Column.signs_outline d)) rfl
    have hopen : Sign.ofText " FROM (" =
        Sign.ofText " " ++ Sign.ofText "FROM " ++ Sign.ofText "(" := by
      rw [← Sign.of_text_append, ← Sign.of_text_append]
      rfl
    have hclose : Sign.ofText ") AS " = Sign.ofText ")" ++ Sign.ofText " AS " := by
      rw [← Sign.of_text_append]
      rfl
    simp [Statement.outline, Statement.render, Dialect.selectFromDerived, Dialect.selectClause,
      Dialect.fromClause, Dialect.derivedTable, Piece.signs, signs_columns, hbody, hopen, hclose]
  | insert table assignments =>
    have hnames : Piece.signsAll (joined ", " (assignments.map fun a => [quoted (d.quote a.1)])) =
        (Fragment.list (assignments.map fun a => Fragment.sql (d.quote a.1))).signs :=
      signs_list assignments fun a => by simp
    have hvalues : Piece.signsAll (joined ", " (assignments.map fun a => [.value a.2])) =
        (Fragment.list (assignments.map fun a => Fragment.bound a.2)).signs :=
      signs_list assignments fun a => by simp
    cases hempty : assignments.isEmpty <;>
      simp [Statement.outline, Statement.render, Piece.signs, Dialect.insert, hempty, hnames,
        hvalues, Function.comp_def]
  | update table tag assignments filter =>
    have hassigned : Piece.signsAll (joined ", " (assignments.map fun a =>
          [quoted (d.quote a.1), word " = ", .value a.2])) =
        (Fragment.list (assignments.map fun a =>
          Fragment.sql (d.quote a.1) ++ Fragment.sql " = " ++ Fragment.bound a.2)).signs :=
      signs_list assignments fun a => by simp
    rw [Statement.outline, Statement.render, ← signs_filter]
    simp [Piece.signs, Dialect.update, Dialect.signs_table, Function.comp_def, hassigned]
  | delete table tag filter =>
    rw [Statement.outline, Statement.render, ← signs_filter]
    cases hd : d.deletesByAlias <;>
      simp [Piece.signs, Dialect.delete, Dialect.signs_table, hd]

end

end QuerySql
