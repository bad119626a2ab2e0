import QuerySql.Proofs.Grouping

/-!
# Reading result columns

A reader for the columns of a `SELECT`: plain columns and aggregates under the
names that they have in the result, and relations that are folded into JSON, each
with the pairs of its objects and with the columns of the derived table that it is
folded from. Of a subquery only the columns are read; the rest is skipped, up to the
parenthesis that closes it. The reader goes by the syntax of the engine and knows
nothing of how a dialect writes.
-/

set_option autoImplicit false

namespace QuerySql

open Token (listed group)

/-- A pair of a JSON object: its key, and the column of its value, which may be read
as a document again. -/
structure JsonPair where
  key : String
  column : Column
  reparsed : Bool
  deriving DecidableEq, Repr

inductive ResultColumn where
  | plain (name : String)
  | folded (name : String) (array : Bool) (tag : Alias) (pairs : List JsonPair)
      (columns : List ResultColumn)

namespace ResultColumn

def name : ResultColumn → String
  | .plain name => name
  | .folded name _ _ _ _ => name

def isFolded : ResultColumn → Bool
  | .plain _ => false
  | .folded _ _ _ _ _ => true

end ResultColumn

namespace Reader

variable {α : Type}

/-- What follows the parenthesis that closes the tokens. -/
def skip : Nat → List (Token Value) → Option (List (Token Value))
  | _, [] => none
  | depth, t :: ts =>
    if t = .mark '(' then skip (depth + 1) ts
    else if t = .mark ')' then if depth = 0 then some ts else skip (depth - 1) ts
    else skip depth ts

def several (item : Reader α) (n : Nat) : Reader (List α) := fun ts =>
  (chain (.mark ',') item n ts).or (some ([], ts))

def pair : Reader JsonPair
  | .literal key :: .mark ',' :: .word "json" :: .mark '(' :: rest => do
    let (c, rest) ← closed column rest
    return (⟨key, c, true⟩, rest)
  | .literal key :: .mark ',' :: rest => do
    let (c, rest) ← column rest
    return (⟨key, c, false⟩, rest)
  | _ => none

variable (e : Engine)

def object (n : Nat) : Reader (List JsonPair)
  | .word function :: .mark '(' :: rest =>
    if function = e.objectFunction then closed (several pair n) rest else none
  | _ => none

def fold (n : Nat) : Reader (Bool × List JsonPair) := fun ts =>
  match e.arrayOpening.isPrefixOf? ts with
  | some rest => do
    let (pairs, rest) ← object e n rest
    let rest ← e.arrayClosing.isPrefixOf? rest
    return ((true, pairs), rest)
  | none => do
    let (pairs, rest) ← object e n ts
    return ((false, pairs), rest)

def derived (item : Reader ResultColumn) (n : Nat) : Reader (Alias × List ResultColumn)
  | .mark '(' :: .word "SELECT" :: rest => do
    let (columns, rest) ← several item n rest
    match rest with
    | .word "FROM" :: rest => do
      match ← skip 0 rest with
      | .word "AS" :: .word text :: rest => do
        let tag ← alias? text
        return ((tag, columns), rest)
      | _ => none
    | _ => none
  | _ => none

def named : Reader String
  | .word "AS" :: .name name :: rest => some (name, rest)
  | _ => none

/-- One column of a select. Subqueries nest to the depth that is left. -/
def resultColumn : Nat → Reader ResultColumn
  | 0, _ => none
  | n + 1, ts =>
    match ts with
    | .mark '(' :: .word "SELECT" :: rest => do
      let ((array, pairs), rest) ← fold e n rest
      match rest with
      | .word "FROM" :: rest => do
        let ((tag, columns), rest) ← closed (derived (resultColumn n) n) rest
        let (name, rest) ← named rest
        return (.folded name array tag pairs columns, rest)
      | _ => none
    | .word function :: .mark '(' :: rest => do
      let _ ← aggregate? function
      let (name, rest) ← named (← skip 0 rest)
      return (.plain name, rest)
    | ts => do
      let (c, rest) ← column ts
      return (.plain c.name, rest)

def selectList (ts : List (Token Value)) : Option (List ResultColumn) := do
  let (columns, rest) ← several (resultColumn e ts.length) ts.length ts
  match rest with
  | .word "FROM" :: _ => return columns
  | _ => none

def resultColumns : List (Token Value) → Option (List ResultColumn)
  | .word "SELECT" :: .word "DISTINCT" :: .word "ON" :: .mark '(' :: rest => do
    selectList e (← skip 0 rest)
  | .word "SELECT" :: rest => selectList e rest
  | _ => none

end Reader

/-- The result columns of a prepared statement, read from its text. -/
def Prepared.columns (e : Engine) (prepared : Prepared) : Option (List ResultColumn) := do
  let tokens ← Lexer.lex e.lexis prepared.sql.toList
  let tokens ← Token.bind e.dialect.placeholder 0 tokens prepared.params
  Reader.resultColumns e tokens

namespace Token

/-- Whatever the tokens open they close, so they are skipped as a whole. -/
def Balanced (ts : List (Token Value)) : Prop :=
  ∀ depth rest, Reader.skip depth (ts ++ rest) = Reader.skip depth rest

namespace Balanced

variable {xs ys : List (Token Value)} {tss : List (List (Token Value))}

theorem nil : Balanced [] := fun _ _ => rfl

theorem append (hx : Balanced xs) (hy : Balanced ys) : Balanced (xs ++ ys) := by
  intro depth rest
  rw [List.append_assoc, hx, hy]

theorem plain (ho : .mark '(' ∉ xs) (hc : .mark ')' ∉ xs) : Balanced xs := by
  induction xs with
  | nil => exact nil
  | cons t ts ih =>
    intro depth rest
    rw [List.mem_cons, not_or] at ho hc
    rw [List.cons_append, Reader.skip, if_neg (Ne.symm ho.1), if_neg (Ne.symm hc.1),
      ih ho.2 hc.2]

theorem group (h : Balanced xs) : Balanced (Token.group xs) := by
  intro depth rest
  rw [Token.group, List.append_assoc, List.cons_append, Reader.skip, if_pos rfl, h]
  rfl

theorem flatten (h : ∀ ts ∈ tss, Balanced ts) : Balanced tss.flatten := by
  induction tss with
  | nil => exact nil
  | cons ts tss ih =>
    rw [List.forall_mem_cons] at h
    exact h.1.append (ih h.2)

theorem joined {separator : Token Value} (hs : Balanced [separator])
    (h : ∀ ts ∈ tss, Balanced ts) : Balanced (Token.joined separator tss) := by
  cases tss with
  | nil => exact nil
  | cons ts tss =>
    rw [List.forall_mem_cons] at h
    refine h.1.append (flatten fun us hus => ?_)
    obtain ⟨ts', hts', rfl⟩ := List.mem_map.mp hus
    exact hs.append (h.2 ts' hts')

theorem combined (operator : String) (h : ∀ ts ∈ tss, Balanced ts) :
    Balanced (Token.combined operator tss) := by
  have hjoined : Balanced (Token.joined (.word operator) tss) :=
    joined (.plain (by simp) (by simp)) h
  match tss with
  | [] => exact hjoined.group
  | [ts] => exact h ts List.mem_cons_self
  | _ :: _ :: _ => exact hjoined.group

theorem listed {α : Type} {tokens : α → List (Token Value)} (h : ∀ x, Balanced (tokens x))
    (xs : List α) : Balanced (Token.listed (xs.map tokens)) := by
  refine joined (.plain (by simp) (by simp)) fun ts hts => ?_
  obtain ⟨x, _, rfl⟩ := List.mem_map.mp hts
  exact h x

end Balanced

end Token

section

open Token (Balanced)

variable (e : Engine)

theorem Column.balanced (c : Column) : Balanced c.tokens :=
  .plain (by simp [Column.tokens]) (by simp [Column.tokens])

theorem Scalar.balanced (s : Scalar) : Balanced s.tokens := by
  have hword : ∀ text, Balanced [.word text] := fun _ => .plain (by simp) (by simp)
  induction s with
  | column c => exact c.balanced
  | bound v =>
    rw [Scalar.tokens]
    exact .plain (by simp) (by simp)
  | aggregate kind c =>
    cases c with
    | none =>
      have hrows : Balanced [.symbol "*"] := .plain (by simp) (by simp)
      exact (hword "COUNT").append hrows.group
    | some c => exact (hword _).append c.balanced.group
  | folded s ih => exact (hword "LOWER").append ih.group

theorem related_balanced (negated : Bool) (table : String) (tag : Alias)
    {ts : List (Token Value)} (h : Balanced ts) :
    Balanced ((if negated then [.word "NOT", .word "EXISTS"] else [.word "EXISTS"]) ++
      group (selectTokens [] [.word "1"] (tableTokens table tag) [ts])) := by
  have hstart : Balanced (if negated then [.word "NOT", .word "EXISTS"] else [.word "EXISTS"]) := by
    cases negated <;> exact .plain (by simp) (by simp)
  have hselect : Balanced [.word "SELECT", .word "1", .word "FROM", .name table, .word "AS",
      .word tag.text] := .plain (by simp) (by simp)
  have hquery := hstart.append (hselect.append h).group
  simpa [selectTokens, tableTokens] using hquery

mutual

theorem Pred.balanced (p : Pred) : Balanced (p.tokens e) := by
  have hword : ∀ text, Balanced [.word text] := fun _ => .plain (by simp) (by simp)
  have hop : ∀ op : Comparison, Balanced [.symbol op.text] := fun _ => .plain (by simp) (by simp)
  match p with
  | .truth value => exact hword _
  | .compare lhs op rhs => exact lhs.balanced.append ((hop op).append rhs.balanced)
  | .compareRows columns op values =>
    have hvalues := Balanced.listed (fun v => (Scalar.bound v).balanced) values
    exact (Balanced.listed Column.balanced columns).group.append ((hop op).append hvalues.group)
  | .isNull s negated =>
    apply s.balanced.append
    cases negated <;> exact .plain (by simp) (by simp)
  | .isIn s items negated =>
    have hin : Balanced (if negated then [.word "NOT", .word "IN"] else [.word "IN"]) := by
      cases negated <;> exact .plain (by simp) (by simp)
    exact (s.balanced.append hin).append (Balanced.listed Scalar.balanced items).group
  | .like s pattern =>
    have hlike := s.balanced.append ((hword "LIKE").append pattern.balanced)
    have hescape : Balanced (if e.dialect.statesLikeEscape then [.word "ESCAPE", .literal "\\"]
        else []) := by
      cases e.dialect.statesLikeEscape <;> exact .plain (by simp) (by simp)
    simpa [Pred.tokens] using hlike.append hescape
  | .and operands => exact .combined "AND" (Pred.balanced_all operands)
  | .or operands => exact .combined "OR" (Pred.balanced_all operands)
  | .not operand => exact (hword "NOT").append (Pred.balanced operand).group
  | .related negated table tag [] => exact related_balanced negated table tag .nil
  | .related negated table tag (c :: cs) =>
    exact related_balanced negated table tag
      ((hword "WHERE").append (.combined "AND" (Pred.balanced_all (c :: cs))))

theorem Pred.balanced_all (ps : List Pred) : ∀ ts ∈ Pred.tokensAll e ps, Balanced ts := by
  match ps with
  | [] => exact List.forall_mem_nil _
  | p :: ps => exact List.forall_mem_cons.mpr ⟨Pred.balanced p, Pred.balanced_all ps⟩

end

theorem clause_balanced (text : String) (p : Option Pred) :
    Balanced (clauseTokens e (.word text) p) := by
  have hword : Balanced [.word text] := .plain (by simp) (by simp)
  cases p with
  | none => exact .nil
  | some p => exact hword.append (p.balanced e)

theorem list_clause_balanced {α : Type} {start : List (Token Value)} (hs : Balanced start)
    {tokens : α → List (Token Value)} (h : ∀ x, Balanced (tokens x)) (xs : List α) :
    Balanced (listTokens start (xs.map tokens)) := by
  cases xs with
  | nil => exact .nil
  | cons x xs => exact hs.append (.listed h (x :: xs))

theorem SortItem.balanced (it : SortItem) : Balanced it.tokens := by
  have hdirection : Balanced [.word it.direction.text] := .plain (by simp) (by simp)
  have hnulls : Balanced (it.nulls.elim [] Nulls.tokens) := by
    rcases it.nulls with _ | nulls
    · exact .nil
    · cases nulls <;> exact .plain (by simp [Nulls.tokens]) (by simp [Nulls.tokens])
  exact it.key.balanced.append (hdirection.append hnulls)

theorem limit_balanced (take skip : Option Nat) : Balanced (limitTokens e take skip) := by
  cases take <;> cases skip <;> cases e <;>
    exact .plain (by simp [limitTokens, Engine.unlimitedTokens])
      (by simp [limitTokens, Engine.unlimitedTokens])

def Body.sourceTokens (b : Body) : List (Token Value) :=
  tableTokens b.table b.tag ++
    [clauseTokens e (.word "WHERE") b.filter,
      listTokens [.word "GROUP", .word "BY"] (b.groupBy.map Column.tokens),
      clauseTokens e (.word "HAVING") b.having,
      listTokens [.word "ORDER", .word "BY"] (b.orderBy.map SortItem.tokens),
      limitTokens e b.take b.skip].flatten

theorem Body.tokens_source (projection lead : List (Token Value)) (b : Body) :
    b.tokens e projection lead =
      .word "SELECT" :: (lead ++ (projection ++ .word "FROM" :: b.sourceTokens e)) := by
  simp [Body.tokens, selectTokens, Body.sourceTokens]

theorem Body.source_balanced (b : Body) : Balanced (b.sourceTokens e) := by
  have htable : Balanced (tableTokens b.table b.tag) :=
    .plain (by simp [tableTokens]) (by simp [tableTokens])
  refine htable.append (.flatten ?_)
  simp only [List.forall_mem_cons]
  exact ⟨clause_balanced e _ _,
    list_clause_balanced (.plain (by simp) (by simp)) Column.balanced b.groupBy,
    clause_balanced e _ _,
    list_clause_balanced (.plain (by simp) (by simp)) SortItem.balanced b.orderBy,
    limit_balanced e _ _, List.forall_mem_nil _⟩

end

namespace Reader

section

variable {α : Type} {item : Reader α} {n : Nat}

/-- Items are read up to where another one can neither follow nor begin. -/
theorem several_read {tss : List (List (Token Value))} {ys : List α}
    (h : List.Forall₂ (fun ts y => ∀ rest, item (ts ++ rest) = some (y, rest)) tss ys)
    (hn : tss.length ≤ n) (rest : List (Token Value)) (hcomma : rest.head? ≠ some (.mark ','))
    (hstop : item rest = none) :
    several item n (listed tss ++ rest) = some (ys, rest) := by
  cases h with
  | nil =>
    have hnone : chain (.mark ',') item n rest = none := by
      cases n with
      | zero => rfl
      | succ n => simp [chain, hstop]
    simp [several, listed, Token.joined, hnone]
  | cons hy h =>
    have hitems := (List.Forall₂.cons hy h).imp fun _ _ hread rest (_ : True) => hread rest
    have hchain := chain_joined hitems (List.cons_ne_nil _ _) (fun _ => trivial) hn trivial hcomma
    simp [several, listed, hchain]

end

variable (e : Engine)

def pairOf (tag : Alias) (c : JsonColumn) : JsonPair :=
  ⟨c.name, ⟨tag, c.name⟩, c.nested && e = .sqlite⟩

theorem pair_read (tag : Alias) (c : JsonColumn) (rest : List (Token Value)) :
    pair (pairTokens e tag c ++ rest) = some (pairOf e tag c, rest) := by
  have hcolumn := column_read ⟨tag, c.name⟩
  by_cases hnested : (c.nested && decide (e = .sqlite)) = true
  · have hclosed := closed_read (hcolumn (.mark ')' :: rest))
    simp [pairTokens, pairOf, hnested, pair, group, hclosed]
  · have hplain := hcolumn rest
    simp only [Column.tokens, List.cons_append, List.nil_append] at hplain
    simp [pairTokens, pairOf, hnested, pair, Column.tokens, hplain]

theorem object_read (tag : Alias) {columns : List JsonColumn} {n : Nat} (hn : columns.length ≤ n)
    (rest : List (Token Value)) :
    object e n (.word e.objectFunction ::
      (group (listed (columns.map (pairTokens e tag))) ++ rest)) =
        some (columns.map (pairOf e tag), rest) := by
  have hpairs : List.Forall₂ (fun ts y => ∀ rest, pair (ts ++ rest) = some (y, rest))
      (columns.map (pairTokens e tag)) (columns.map (pairOf e tag)) := by
    rw [List.forall₂_map_left_iff, List.forall₂_map_right_iff, List.forall₂_same]
    exact fun c _ => pair_read e tag c
  have hlist := several_read hpairs (n := n) (by simpa using hn) (.mark ')' :: rest) (by simp) rfl
  simp [object, group, closed_read hlist]

theorem fold_read (toMany : Bool) (tag : Alias) {columns : List JsonColumn} {n : Nat}
    (hn : columns.length ≤ n) (rest : List (Token Value)) :
    fold e n (foldTokens e toMany tag columns ++ rest) =
      some ((toMany, columns.map (pairOf e tag)), rest) := by
  cases toMany with
  | false =>
    have hobject := object_read e tag hn rest
    have hopening : e.arrayOpening.isPrefixOf?
        (foldTokens e false tag columns ++ rest) = none := by
      cases e <;> rfl
    rw [fold, hopening]
    simp only [foldTokens, Bool.false_eq_true, if_false]
    rw [List.cons_append, hobject]
    rfl
  | true =>
    have hobject := object_read e tag hn (e.arrayClosing ++ rest)
    have htokens : foldTokens e true tag columns ++ rest = e.arrayOpening ++
        (.word e.objectFunction :: (group (listed (columns.map (pairTokens e tag))) ++
          (e.arrayClosing ++ rest))) := by
      simp [foldTokens]
    have hopening := List.isPrefixOf?_eq_some_iff_append_eq.mpr htokens.symm
    have hclosing : e.arrayClosing.isPrefixOf? (e.arrayClosing ++ rest) = some rest :=
      List.isPrefixOf?_eq_some_iff_append_eq.mpr rfl
    simp [fold, hopening, hobject, hclosing]

theorem derived_read {item : Reader ResultColumn} {n : Nat} {tss : List (List (Token Value))}
    {ys : List ResultColumn}
    (h : List.Forall₂ (fun ts y => ∀ rest, item (ts ++ rest) = some (y, rest)) tss ys)
    (hn : tss.length ≤ n) (hstop : ∀ rest, item (.word "FROM" :: rest) = none) (body : Body)
    (tag : Alias) (rest : List (Token Value)) :
    derived item n (group (body.tokens e (listed tss) []) ++
      .word "AS" :: .word tag.text :: rest) = some ((tag, ys), rest) := by
  have hcolumns := several_read h hn (.word "FROM" :: (body.sourceTokens e ++
    .mark ')' :: .word "AS" :: .word tag.text :: rest)) (by simp) (hstop _)
  have hskip : skip 0 (body.sourceTokens e ++ .mark ')' :: .word "AS" :: .word tag.text :: rest) =
      some (.word "AS" :: .word tag.text :: rest) := body.source_balanced e 0 _
  simp [Body.tokens_source, group, derived, hcolumns, hskip, alias_text]

end Reader

namespace Projection

variable (e : Engine)

mutual

def result : Projection → ResultColumn
  | .column c => .plain c.name
  | .aggregate _ _ name => .plain name
  | .relation name toMany fold columns _ =>
    .folded name toMany fold
      (columns.map fun p => Reader.pairOf e fold ⟨p.name, p.isRelation⟩) (results columns)

def results : List Projection → List ResultColumn
  | [] => []
  | p :: ps => p.result :: results ps

end

theorem results_eq (ps : List Projection) : results e ps = ps.map (result e) := by
  induction ps with
  | nil => rfl
  | cons p ps ih => rw [results, ih, List.map_cons]

theorem tokens_all_eq (ps : List Projection) : tokensAll e ps = ps.map (tokens e) := by
  induction ps with
  | nil => rfl
  | cons p ps ih => rw [tokensAll, ih, List.map_cons]

theorem tokens_nonempty (p : Projection) : p.tokens e ≠ [] := by
  cases p with
  | column c => simp [tokens, Column.tokens]
  | aggregate kind c name => simp [tokens]
  | relation name toMany fold columns body => simp [tokens]

theorem all_nonempty (ps : List Projection) : ∀ ts ∈ tokensAll e ps, ts ≠ [] := by
  rw [tokens_all_eq]
  intro ts hts
  obtain ⟨p, _, rfl⟩ := List.mem_map.mp hts
  exact p.tokens_nonempty e

end Projection

namespace Reader

variable (e : Engine)

theorem result_column_from (n : Nat) (rest : List (Token Value)) :
    resultColumn e n (.word "FROM" :: rest) = none := by
  cases n with
  | zero => rfl
  | succ n =>
    have hcolumn : column (.word "FROM" :: rest) = none := no_column_word rfl rest
    unfold resultColumn
    split
    · rename_i heq
      cases heq
    · rename_i heq
      cases heq
      rfl
    · simp [hcolumn]

/-- Columns that are read one by one are read as a list, to any depth that is at least
the number of their tokens. -/
theorem result_columns_read {tss : List (List (Token Value))} {ys : List ResultColumn}
    (h : List.Forall₂ (fun ts y => ∀ n rest, ts.length ≤ n →
      resultColumn e n (ts ++ rest) = some (y, rest)) tss ys)
    (hne : ∀ ts ∈ tss, ts ≠ []) {n : Nat} (hn : (listed tss).length ≤ n) :
    tss.length ≤ n ∧ List.Forall₂ (fun ts y => ∀ rest,
      resultColumn e n (ts ++ rest) = some (y, rest)) tss ys := by
  obtain ⟨hcount, hitems⟩ := joined_length (.mark ',') hne
  refine ⟨Nat.le_trans hcount hn, ?_⟩
  have hbound : ∀ ts ∈ tss, ts.length ≤ n := fun ts hts => Nat.le_trans (hitems ts hts) hn
  clear hcount hitems hne hn
  induction h with
  | nil => exact .nil
  | cons hy _ ih =>
    rw [List.forall_mem_cons] at hbound
    exact .cons (fun rest => hy n rest hbound.1) (ih hbound.2)

end Reader

section

variable (e : Engine)

mutual

theorem Projection.column_read (p : Projection) (n : Nat) (rest : List (Token Value))
    (hn : (p.tokens e).length ≤ n) :
    Reader.resultColumn e n (p.tokens e ++ rest) = some (p.result e, rest) := by
  have hpos := List.length_pos_iff.mpr (p.tokens_nonempty e)
  obtain ⟨n, rfl⟩ : ∃ m, n = m + 1 := ⟨n - 1, by omega⟩
  match p with
  | .column c =>
    simp [Projection.tokens, Projection.result, Column.tokens, Reader.resultColumn, Reader.column,
      Reader.alias_text]
  | .aggregate kind c name =>
    have hskip : ∀ ts : List (Token Value), Token.Balanced ts →
        Reader.skip 0 (ts ++ .mark ')' :: .word "AS" :: .name name :: rest) =
          some (.word "AS" :: .name name :: rest) := fun ts hts => hts 0 _
    cases c with
    | none =>
      have hrows := hskip [.symbol "*"] (.plain (by simp) (by simp))
      simp at hrows
      have hcount : Reader.aggregate? "COUNT" = some .count := rfl
      simp [Projection.tokens, Projection.result, aggregateTokens, group, Reader.resultColumn,
        hcount, hrows, Reader.named]
    | some c =>
      have hcolumn := hskip c.tokens c.balanced
      simp [Projection.tokens, Projection.result, aggregateTokens, group, Reader.resultColumn,
        Reader.aggregate_name, hcolumn, Reader.named]
  | .relation name toMany fold columns body =>
    have hlength : (listed (Projection.tokensAll e columns)).length ≤ n := by
      simp [Projection.tokens, group, Body.tokens_source] at hn
      omega
    obtain ⟨hcount, hread⟩ := Reader.result_columns_read e (Projection.columns_read columns)
      (Projection.all_nonempty e columns) hlength
    have hderived := Reader.closed_read (Reader.derived_read e hread hcount
      (Reader.result_column_from e n) body fold (.mark ')' :: .word "AS" :: .name name :: rest))
    have hcolumns : (columns.map fun p => JsonColumn.mk p.name p.isRelation).length ≤ n := by
      simpa [Projection.tokens_all_eq] using hcount
    have hfold := Reader.fold_read e toMany fold hcolumns (.word "FROM" ::
      (group (body.tokens e (listed (Projection.tokensAll e columns)) []) ++
        .word "AS" :: .word fold.text :: .mark ')' :: .word "AS" :: .name name :: rest))
    have htokens : (Projection.relation name toMany fold columns body).tokens e ++ rest =
        .mark '(' :: .word "SELECT" ::
          (foldTokens e toMany fold (columns.map fun p => JsonColumn.mk p.name p.isRelation) ++
            .word "FROM" :: (group (body.tokens e (listed (Projection.tokensAll e columns)) []) ++
              .word "AS" :: .word fold.text :: .mark ')' :: .word "AS" :: .name name :: rest)) := by
      simp [Projection.tokens, group]
    rw [htokens, Reader.resultColumn, hfold]
    simp [hderived, Reader.named, Projection.result]

theorem Projection.columns_read (ps : List Projection) :
    List.Forall₂ (fun ts y => ∀ n rest, ts.length ≤ n →
      Reader.resultColumn e n (ts ++ rest) = some (y, rest))
      (Projection.tokensAll e ps) (Projection.results e ps) := by
  match ps with
  | [] => exact .nil
  | p :: ps => exact .cons (Projection.column_read p) (Projection.columns_read ps)

end

theorem Projection.list_read (columns : List Projection) (rest : List (Token Value)) :
    Reader.selectList e (listed (Projection.tokensAll e columns) ++ .word "FROM" :: rest) =
      some (Projection.results e columns) := by
  have hlength : (listed (Projection.tokensAll e columns)).length ≤
      (listed (Projection.tokensAll e columns) ++ .word "FROM" :: rest).length := by
    simp
  obtain ⟨hcount, hread⟩ := Reader.result_columns_read e (Projection.columns_read e columns)
    (Projection.all_nonempty e columns) hlength
  have hall := Reader.several_read hread hcount (.word "FROM" :: rest) (by simp)
    (Reader.result_column_from e _ rest)
  rw [Reader.selectList, hall]
  rfl

theorem Projection.list_head (columns : List Projection) (rest : List (Token Value)) :
    (listed (Projection.tokensAll e columns) ++ .word "FROM" :: rest).head? ≠
      some (.word "DISTINCT") := by
  cases columns with
  | nil => simp [Projection.tokensAll, listed, Token.joined]
  | cons p ps =>
    cases p with
    | column c =>
      have htag : c.tag.text ≠ "DISTINCT" := Reader.alias_ne c.tag (by decide)
      simpa [Projection.tokensAll, listed, Token.joined, Projection.tokens, Column.tokens]
        using htag
    | aggregate kind c name =>
      cases c with
      | none =>
        simp [Projection.tokensAll, listed, Token.joined, Projection.tokens, aggregateTokens]
      | some c =>
        have hkind : Dialect.aggregateName kind ≠ "DISTINCT" := by cases kind <;> decide
        simpa [Projection.tokensAll, listed, Token.joined, Projection.tokens, aggregateTokens]
          using hkind
    | relation name toMany fold columns body =>
      simp [Projection.tokensAll, listed, Token.joined, Projection.tokens, group]

theorem Reader.result_columns_plain {ts : List (Token Value)}
    (h : ts.head? ≠ some (.word "DISTINCT")) :
    resultColumns e (.word "SELECT" :: ts) = selectList e ts := by
  unfold resultColumns
  split
  · rename_i heq
    cases heq
    exact absurd rfl h
  · rename_i heq
    cases heq
    rfl
  · rename_i hnone
    exact absurd rfl (hnone ts)

theorem Statement.result_columns_read (columns : List Projection) (distinct : List Column)
    (body : Body) :
    Reader.resultColumns e ((Statement.select columns distinct body).tokens e) =
      some (Projection.results e columns) := by
  have hlist := Projection.list_read e columns (body.sourceTokens e)
  rw [Statement.tokens]
  simp only [Body.tokens_source]
  cases hdistinct : distinct.isEmpty with
  | true =>
    rw [if_pos rfl, List.nil_append, Reader.result_columns_plain e (Projection.list_head e _ _)]
    exact hlist
  | false =>
    have hskip := Token.Balanced.listed Column.balanced distinct 0 (.mark ')' ::
      (listed (Projection.tokensAll e columns) ++ .word "FROM" :: body.sourceTokens e))
    have hclose : ∀ ts : List (Token Value), Reader.skip 0 (.mark ')' :: ts) = some ts :=
      fun _ => rfl
    rw [hclose] at hskip
    simp [group, Reader.resultColumns, hskip, hlist]

theorem Statement.page_columns_read (columns : List Projection) (tag : Alias) (page : List Column)
    (body : Body) :
    Reader.resultColumns e ((Statement.overPage columns tag page body).tokens e) =
      some (Projection.results e columns) := by
  rw [Statement.tokens, List.cons_append, List.cons_append, List.append_assoc, List.cons_append,
    Reader.result_columns_plain e (Projection.list_head e _ _), Projection.list_read]

theorem Statement.prepared_columns (st : Statement) :
    ((st.render e.dialect).prepare e.dialect).columns e = Reader.resultColumns e (st.tokens e) := by
  have hspells := Statement.spelled e st
  have hsql : ((st.render e.dialect).prepare e.dialect).sql =
      Sign.write e.dialect.placeholder 0 (st.render e.dialect).signs :=
    Fragment.text_of_signs e.dialect.placeholder 0 _
  have hparams : ((st.render e.dialect).prepare e.dialect).params =
      Token.slots (st.tokens e) := by
    rw [← hspells.values, ← Fragment.bindings_of_signs]
    exact List.nil_append _
  rw [Prepared.columns, hsql, hparams, hspells.lexed 0]
  simp only [Option.bind_eq_bind, Option.bind_some, Token.bind_written]

theorem Statement.columns_read (columns : List Projection) (distinct : List Column) (body : Body) :
    ((((Statement.select columns distinct body).render e.dialect).prepare e.dialect).columns e) =
      some (Projection.results e columns) := by
  rw [Statement.prepared_columns, Statement.result_columns_read]

end

end QuerySql
