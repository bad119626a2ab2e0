import Mathlib.Data.List.Forall2
import QuerySql.Proofs.Outline
import QuerySql.Proofs.Quoting

/-!
# The tokens of a statement

The tokens that a statement consists of, part by part, with names and values as
the statement has them. Whatever names a schema uses, the text that a dialect
writes is lexed into exactly these tokens, with one placeholder after the other
in the places of the values.
-/

set_option autoImplicit false

namespace QuerySql

namespace Token

variable {α β : Type}

def value? : Token α → Option α
  | .slot value => some value
  | _ => none

def slots (ts : List (Token α)) : List α := ts.filterMap value?

@[simp] theorem slots_append (xs ys : List (Token α)) : slots (xs ++ ys) = slots xs ++ slots ys :=
  List.filterMap_append

def map (f : α → β) : Token α → Token β
  | .word text => .word text
  | .name text => .name text
  | .literal text => .literal text
  | .symbol text => .symbol text
  | .mark c => .mark c
  | .slot value => .slot (f value)

def written (placeholder : Nat → String) : Nat → List (Token α) → List (Token String)
  | _, [] => []
  | count, t :: ts =>
    t.map (fun _ => placeholder (count + 1)) :: written placeholder (count + (slots [t]).length) ts

theorem written_append (placeholder : Nat → String) (count : Nat) (xs ys : List (Token α)) :
    written placeholder count (xs ++ ys) =
      written placeholder count xs ++ written placeholder (count + (slots xs).length) ys := by
  induction xs generalizing count with
  | nil => rfl
  | cons t xs ih =>
    have hslots : (slots (t :: xs)).length = (slots [t]).length + (slots xs).length := by
      rw [← List.singleton_append, slots_append, List.length_append]
    rw [List.cons_append, written, ih, written, hslots, Nat.add_assoc]
    rfl

theorem slots_written (placeholder : Nat → String) (count : Nat) (ts : List (Token α)) :
    slots (written placeholder count ts) =
      (List.range' (count + 1) (slots ts).length).map placeholder := by
  induction ts generalizing count with
  | nil => rfl
  | cons t ts ih =>
    have hcons : slots (t :: ts) = slots [t] ++ slots ts := slots_append [t] ts
    rw [written, ← List.singleton_append, slots_append, ih, hcons]
    cases t with
    | slot value =>
      rw [List.length_append, Nat.add_comm (slots [Token.slot value]).length]
      rfl
    | word _ | name _ | literal _ | symbol _ | mark _ => rfl

def joined (separator : Token α) : List (List (Token α)) → List (Token α)
  | [] => []
  | ts :: rest => ts ++ rest.flatMap (separator :: ·)

def listed (tss : List (List (Token α))) : List (Token α) := joined (.mark ',') tss

def group (ts : List (Token α)) : List (Token α) := .mark '(' :: ts ++ [.mark ')']

def combined (operator : String) : List (List (Token α)) → List (Token α)
  | [operand] => operand
  | operands => group (joined (.word operator) operands)

end Token

open Token (listed group)

def Column.tokens (c : Column) : List (Token Value) := [.word c.tag.text, .mark '.', .name c.name]

def aggregateTokens (kind : Aggregate) : Option Column → List (Token Value)
  | none => .word "COUNT" :: group [.symbol "*"]
  | some c => .word (Dialect.aggregateName kind) :: group c.tokens

def Scalar.tokens : Scalar → List (Token Value)
  | .column c => c.tokens
  | .aggregate kind c => aggregateTokens kind c
  | .bound value => [.slot value]
  | .folded s => .word "LOWER" :: group s.tokens

def tableTokens (name : String) (tag : Alias) : List (Token Value) :=
  [.name name, .word "AS", .word tag.text]

def selectTokens (lead projection source : List (Token Value))
    (clauses : List (List (Token Value))) : List (Token Value) :=
  .word "SELECT" :: lead ++ projection ++ .word "FROM" :: source ++ clauses.flatten

section

variable (e : Engine)

mutual

def Pred.tokens : Pred → List (Token Value)
  | .truth value => [.word (if value then "TRUE" else "FALSE")]
  | .compare lhs op rhs => lhs.tokens ++ .symbol op.text :: rhs.tokens
  | .compareRows columns op values =>
    group (listed (columns.map Column.tokens)) ++
      .symbol op.text :: group (listed (values.map fun v => [.slot v]))
  | .isNull s negated =>
    s.tokens ++ if negated then [.word "IS", .word "NOT", .word "NULL"]
      else [.word "IS", .word "NULL"]
  | .isIn s items negated =>
    s.tokens ++ (if negated then [.word "NOT", .word "IN"] else [.word "IN"]) ++
      group (listed (items.map Scalar.tokens))
  | .like s pattern =>
    s.tokens ++ .word "LIKE" :: pattern.tokens ++
      if e.dialect.statesLikeEscape then [.word "ESCAPE", .literal "\\"] else []
  | .and operands => Token.combined "AND" (Pred.tokensAll operands)
  | .or operands => Token.combined "OR" (Pred.tokensAll operands)
  | .not operand => .word "NOT" :: group operand.tokens
  | .related negated table tag conditions =>
    let filter :=
      match conditions with
      | [] => []
      | _ :: _ => .word "WHERE" :: Token.combined "AND" (Pred.tokensAll conditions)
    (if negated then [.word "NOT", .word "EXISTS"] else [.word "EXISTS"]) ++
      group (selectTokens [] [.word "1"] (tableTokens table tag) [filter])

def Pred.tokensAll : List Pred → List (List (Token Value))
  | [] => []
  | p :: ps => p.tokens :: Pred.tokensAll ps

end

def Nulls.tokens : Nulls → List (Token Value)
  | .first => [.word "NULLS", .word "FIRST"]
  | .last => [.word "NULLS", .word "LAST"]

def SortItem.tokens (it : SortItem) : List (Token Value) :=
  it.key.tokens ++ .word it.direction.text :: it.nulls.elim [] Nulls.tokens

def listTokens (start : List (Token Value)) : List (List (Token Value)) → List (Token Value)
  | [] => []
  | items => start ++ listed items

def Engine.unlimitedTokens : Engine → List (Token Value)
  | .postgresql => []
  | .sqlite => [.word "LIMIT", .symbol "-", .word "1"]
  | .mysql => [.word "LIMIT", .word "18446744073709551615"]

def limitTokens : Option Nat → Option Nat → List (Token Value)
  | none, none => []
  | some take, none => [.word "LIMIT", .word (toString take)]
  | none, some skip => e.unlimitedTokens ++ [.word "OFFSET", .word (toString skip)]
  | some take, some skip =>
    [.word "LIMIT", .word (toString take), .word "OFFSET", .word (toString skip)]

def clauseTokens (start : Token Value) (p : Option Pred) : List (Token Value) :=
  p.elim [] fun p => start :: p.tokens e

def Body.tokens (projection lead : List (Token Value)) (b : Body) : List (Token Value) :=
  selectTokens lead projection (tableTokens b.table b.tag)
    [clauseTokens e (.word "WHERE") b.filter,
      listTokens [.word "GROUP", .word "BY"] (b.groupBy.map Column.tokens),
      clauseTokens e (.word "HAVING") b.having,
      listTokens [.word "ORDER", .word "BY"] (b.orderBy.map SortItem.tokens),
      limitTokens e b.take b.skip]

def Engine.objectFunction : Engine → String
  | .postgresql => "json_build_object"
  | .sqlite => "json_object"
  | .mysql => "JSON_OBJECT"

def Engine.arrayOpening : Engine → List (Token Value)
  | .postgresql => [.word "COALESCE", .mark '(', .word "json_agg", .mark '(']
  | .sqlite => [.word "json_group_array", .mark '(']
  | .mysql => [.word "COALESCE", .mark '(', .word "JSON_ARRAYAGG", .mark '(']

def Engine.arrayClosing : Engine → List (Token Value)
  | .postgresql => [.mark ')', .mark ',', .literal "[]", .symbol "::", .word "json", .mark ')']
  | .sqlite => [.mark ')']
  | .mysql => [.mark ')', .mark ',', .word "JSON_ARRAY", .mark '(', .mark ')', .mark ')']

/-- The column of a derived table with its name; a nested document is read again
in the dialect that folds it as text. -/
def pairTokens (tag : Alias) (c : JsonColumn) : List (Token Value) :=
  .literal c.name :: .mark ',' ::
    if c.nested && e = .sqlite then .word "json" :: group (Column.tokens ⟨tag, c.name⟩)
    else Column.tokens ⟨tag, c.name⟩

def foldTokens (toMany : Bool) (tag : Alias) (columns : List JsonColumn) : List (Token Value) :=
  let object := .word e.objectFunction :: group (listed (columns.map (pairTokens e tag)))
  if toMany then e.arrayOpening ++ object ++ e.arrayClosing else object

mutual

def Projection.tokens : Projection → List (Token Value)
  | .column c => c.tokens
  | .aggregate kind c name => aggregateTokens kind c ++ [.word "AS", .name name]
  | .relation name toMany fold columns body =>
    let subquery := body.tokens e (listed (Projection.tokensAll columns)) []
    let keys := columns.map fun p => JsonColumn.mk p.name p.isRelation
    group (.word "SELECT" :: foldTokens e toMany fold keys ++ .word "FROM" :: group subquery ++
      [.word "AS", .word fold.text]) ++ [.word "AS", .name name]

def Projection.tokensAll : List Projection → List (List (Token Value))
  | [] => []
  | p :: ps => p.tokens :: Projection.tokensAll ps

end

def Engine.emptyInsertTokens : Engine → List (Token Value)
  | .postgresql | .sqlite => [.word "DEFAULT", .word "VALUES"]
  | .mysql => group [] ++ .word "VALUES" :: group []

def Engine.deleteTokens (tag : Alias) : Engine → List (Token Value)
  | .postgresql | .sqlite => [.word "DELETE", .word "FROM"]
  | .mysql => [.word "DELETE", .word tag.text, .word "FROM"]

def Statement.tokens : Statement → List (Token Value)
  | .select columns distinct body =>
    let lead :=
      if distinct.isEmpty then []
      else .word "DISTINCT" :: .word "ON" :: group (listed (distinct.map Column.tokens))
    body.tokens e (listed (Projection.tokensAll e columns)) lead
  | .overPage columns tag page body =>
    .word "SELECT" :: listed (Projection.tokensAll e columns) ++
      .word "FROM" :: group (body.tokens e (listed (page.map Column.tokens)) []) ++
        [.word "AS", .word tag.text]
  | .insert table assignments =>
    .word "INSERT" :: .word "INTO" :: .name table ::
      if assignments.isEmpty then e.emptyInsertTokens
      else group (listed (assignments.map fun a => [.name a.1])) ++
        .word "VALUES" :: group (listed (assignments.map fun a => [.slot a.2]))
  | .update table tag assignments filter =>
    .word "UPDATE" :: tableTokens table tag ++
      .word "SET" :: listed (assignments.map fun a => [.name a.1, .symbol "=", .slot a.2]) ++
        clauseTokens e (.word "WHERE") filter
  | .delete table tag filter =>
    e.deleteTokens tag ++ tableTokens table tag ++ clauseTokens e (.word "WHERE") filter

end

namespace Sign

def value? : Sign → Option Value
  | .char _ => none
  | .value v => some v

def isSeparator : Sign → Bool
  | .char c => Lexer.isSeparator c
  | .value _ => false

theorem write_append (placeholder : Nat → String) (count : Nat) (x y : List Sign) :
    write placeholder count (x ++ y) = write placeholder count x ++
      write placeholder (count + (x.filterMap value?).length) y := by
  induction x generalizing count with
  | nil => simp [write]
  | cons s x ih =>
    cases s with
    | char c => rw [List.cons_append, write, ih, write, String.append_assoc]; rfl
    | value v =>
      have hcount : count + ((.value v :: x).filterMap value?).length =
          count + 1 + (x.filterMap value?).length := by
        simp [value?]
        omega
      rw [List.cons_append, write, ih, write, String.append_assoc, hcount]

theorem write_text (placeholder : Nat → String) (count : Nat) (text : String) :
    write placeholder count (ofText text) = text := by
  have hchars : ∀ cs : List Char, write placeholder count (cs.map .char) = String.ofList cs := by
    intro cs
    induction cs with
    | nil => rfl
    | cons c cs ih =>
      rw [List.map_cons, write, ih]
      apply String.toList_injective
      simp
  rw [ofText, hchars, String.ofList_toList]

theorem values_text (text : String) : (ofText text).filterMap value? = [] := by
  simp [ofText, value?]

def Apart (x y : List Sign) : Prop :=
  x.getLast?.all isSeparator = true ∨ y.head?.all isSeparator = true

theorem apart_written (placeholder : Nat → String) {x y : List Sign} (h : Apart x y) (m n : Nat) :
    Lexer.Apart (write placeholder m x).toList (write placeholder n y).toList := by
  rcases h with h | h
  · apply Or.inl
    rcases List.eq_nil_or_concat x with rfl | ⟨init, s, rfl⟩
    · rfl
    · rw [List.concat_eq_append] at h ⊢
      cases s with
      | char c =>
        rw [write_append]
        simpa [write, isSeparator] using h
      | value v => simp [isSeparator] at h
  · apply Or.inr
    cases y with
    | nil => rfl
    | cons s y =>
      cases s with
      | char c => simpa [write, isSeparator] using h
      | value v => simp [isSeparator] at h

end Sign

/-- The signs are written as text that is lexed into the tokens, whatever number
the placeholders start from. -/
structure Spells (e : Engine) (x : List Sign) (ts : List (Token Value)) : Prop where
  values : x.filterMap Sign.value? = Token.slots ts
  lexed : ∀ count, Lexer.lex e.lexis (Sign.write e.dialect.placeholder count x).toList =
    some (Token.written e.dialect.placeholder count ts)

namespace Spells

variable {e : Engine} {x y : List Sign} {a b : List (Token Value)}

theorem nil (e : Engine) : Spells e [] [] := ⟨rfl, fun _ => rfl⟩

theorem append (hx : Spells e x a) (hy : Spells e y b) (h : Sign.Apart x y) :
    Spells e (x ++ y) (a ++ b) where
  values := by rw [List.filterMap_append, hx.values, hy.values, Token.slots_append]
  lexed := by
    intro count
    have hapart := Sign.apart_written e.dialect.placeholder h count
      (count + (Token.slots a).length)
    rw [Sign.write_append, String.toList_append, hx.values,
      Lexer.lex_append e (hx.lexed count) hapart, hy.lexed, Token.written_append]
    rfl

theorem slot (e : Engine) (v : Value) : Spells e [.value v] [.slot v] where
  values := rfl
  lexed := by
    intro count
    have hwrite : Sign.write e.dialect.placeholder count [.value v] =
        e.dialect.placeholder (count + 1) := by
      simp [Sign.write]
    rw [hwrite, Lexer.lex_placeholder]
    rfl

theorem text {t : String} (hslots : Token.slots a = [])
    (h : Lexer.lex e.lexis t.toList = some (a.map (Token.map fun _ => ""))) :
    Spells e (Sign.ofText t) a where
  values := by rw [Sign.values_text, hslots]
  lexed := by
    intro count
    have hwritten : ∀ (ts : List (Token Value)) (n : Nat), Token.slots ts = [] →
        Token.written e.dialect.placeholder n ts = ts.map (Token.map fun _ => "") := by
      intro ts
      induction ts with
      | nil => exact fun _ _ => rfl
      | cons t ts ih =>
        intro n hts
        cases t with
        | slot _ => cases hts
        | word _ | name _ | literal _ | symbol _ | mark _ =>
          rw [Token.written, ih _ hts, List.map_cons]
          rfl
    rw [Sign.write_text, h, hwritten a count hslots]

theorem quote (e : Engine) (s : String) :
    Spells e (Sign.ofText (e.dialect.quote s)) [.name s] :=
  text rfl (Lexer.lex_quote e s)

theorem literal (e : Engine) (s : String) :
    Spells e (Sign.ofText (e.dialect.stringLiteral s)) [.literal s] :=
  text rfl (Lexer.lex_literal e s)

theorem tag (e : Engine) (tag : Alias) : Spells e (Sign.ofText tag.text) [.word tag.text] :=
  text rfl (Lexer.lex_alias e tag)

theorem number (e : Engine) (n : Nat) : Spells e (Sign.ofText (toString n)) [.word (toString n)] :=
  text rfl (Lexer.lex_number e n)

theorem closing (e : Engine) : Spells e (Sign.ofText ")") [.mark ')'] :=
  text rfl (by cases e <;> rfl)

theorem selecting (e : Engine) : Spells e (Sign.ofText "SELECT ") [.word "SELECT"] :=
  text rfl (by cases e <;> rfl)

theorem source (e : Engine) : Spells e (Sign.ofText " FROM ") [.word "FROM"] :=
  text rfl (by cases e <;> rfl)

theorem renamed (e : Engine) {x : List Sign} {a : List (Token Value)} (h : Spells e x a) :
    Spells e (Sign.ofText " AS " ++ x) (.word "AS" :: a) := by
  have has : Spells e (Sign.ofText " AS ") [.word "AS"] := text rfl (by cases e <;> rfl)
  exact has.append h (.inl rfl)

theorem as_tag (e : Engine) (tag : Alias) :
    Spells e (Sign.ofText " AS " ++ Sign.ofText tag.text) [.word "AS", .word tag.text] :=
  renamed e (Spells.tag e tag)

theorem as_name (e : Engine) (name : String) :
    Spells e (Sign.ofText " AS " ++ Sign.ofText (e.dialect.quote name)) [.word "AS", .name name] :=
  renamed e (quote e name)

end Spells

open Piece (signsAll word quoted)

@[simp] abbrev Spelled (e : Engine) (ps : List Piece) (ts : List (Token Value)) : Prop :=
  Spells e (signsAll ps) ts

/-- The text is written as one token that stands apart on both sides. -/
structure Separates (e : Engine) (text : String) (t : Token Value) : Prop where
  spells : Spells e (Sign.ofText text) [t]
  before : ∀ rest, (Sign.ofText text ++ rest).head?.all Sign.isSeparator = true
  after : (Sign.ofText text).getLast?.all Sign.isSeparator = true

theorem separates_comma (e : Engine) : Separates e ", " (.mark ',') where
  spells := .text rfl (by cases e <;> rfl)
  before := fun _ => rfl
  after := rfl

theorem separates_and (e : Engine) : Separates e " AND " (.word "AND") where
  spells := .text rfl (by cases e <;> rfl)
  before := fun _ => rfl
  after := rfl

theorem separates_or (e : Engine) : Separates e " OR " (.word "OR") where
  spells := .text rfl (by cases e <;> rfl)
  before := fun _ => rfl
  after := rfl

section

variable {e : Engine}

theorem Spells.group {x : List Sign} {a : List (Token Value)} (h : Spells e x a) :
    Spells e (Sign.ofText "(" ++ (x ++ Sign.ofText ")")) (group a) := by
  have hopen : Spells e (Sign.ofText "(") [.mark '('] := .text rfl (by cases e <;> rfl)
  exact hopen.append (h.append (.closing e) (.inr rfl)) (.inl rfl)

theorem spelled_joined {separator : String} {t : Token Value} (hs : Separates e separator t)
    {pss : List (List Piece)} {tss : List (List (Token Value))}
    (h : List.Forall₂ (Spelled e) pss tss) :
    Spelled e (Piece.joined separator pss) (Token.joined t tss) := by
  have hrest : ∀ {pss : List (List Piece)} {tss : List (List (Token Value))},
      List.Forall₂ (Spelled e) pss tss →
        Spelled e (pss.flatMap fun qs => word separator :: qs) (tss.flatMap (t :: ·)) ∧
          (signsAll (pss.flatMap fun qs => word separator :: qs)).head?.all Sign.isSeparator =
            true := by
    intro pss tss h
    induction h with
    | nil => exact ⟨.nil e, rfl⟩
    | @cons qs ts _ _ hq _ ih =>
      rw [List.flatMap_cons, List.flatMap_cons, Spelled, Piece.signs_all_append]
      rw [Piece.signs_all_cons, Piece.signs_word, List.append_assoc]
      exact ⟨hs.spells.append (hq.append ih.1 (.inr ih.2)) (.inl hs.after), hs.before _⟩
  cases h with
  | nil => exact .nil e
  | cons hp h =>
    rw [Piece.joined, Spelled, Piece.signs_all_append]
    exact hp.append (hrest h).1 (.inr (hrest h).2)

theorem spelled_list {α : Type} {outline : α → List Piece} {tokens : α → List (Token Value)}
    (xs : List α) (h : ∀ x, Spelled e (outline x) (tokens x)) :
    Spelled e (Piece.joined ", " (xs.map outline)) (listed (xs.map tokens)) := by
  apply spelled_joined (separates_comma e)
  induction xs with
  | nil => exact .nil
  | cons x xs ih => exact .cons (h x) ih

theorem spelled_combined {operator text : String} (hs : Separates e text (.word operator))
    {pss : List (List Piece)} {tss : List (List (Token Value))}
    (h : List.Forall₂ (Spelled e) pss tss) :
    Spelled e (Piece.combined text pss) (Token.combined operator tss) := by
  have hgroup := (spelled_joined hs h).group
  cases h with
  | nil => simpa [Piece.combined, Token.combined] using hgroup
  | cons hp h =>
    cases h with
    | nil => exact hp
    | cons hq h => simpa [Piece.combined, Token.combined] using hgroup

/-- A clause that is left out has no tokens. -/
inductive ClauseSpelled (e : Engine) : Option (List Piece) → List (Token Value) → Prop
  | none : ClauseSpelled e none []
  | some {ps : List Piece} {ts : List (Token Value)} (h : Spelled e ps ts) :
      ClauseSpelled e (some ps) ts

theorem spelled_select {lead projection source : List Piece}
    {clauses : List (Option (List Piece))} {a b c : List (Token Value)}
    {tss : List (List (Token Value))} (hl : Spelled e lead a)
    (hlast : (signsAll lead).getLast?.all Sign.isSeparator = true) (hp : Spelled e projection b)
    (hs : Spelled e source c) (hc : List.Forall₂ (ClauseSpelled e) clauses tss) :
    Spelled e [Piece.select lead projection source clauses] (selectTokens a b c tss) := by
  have hblank : Spells e (Sign.ofText " ") [] := .text rfl (by cases e <;> rfl)
  have hclauses : Spelled e ((clauses.filterMap id).flatMap fun ps => word " " :: ps) tss.flatten ∧
      (signsAll ((clauses.filterMap id).flatMap fun ps => word " " :: ps)).head?.all
        Sign.isSeparator = true := by
    induction hc with
    | nil => exact ⟨.nil e, rfl⟩
    | cons hclause _ ih =>
      cases hclause with
      | none => exact ih
      | some h =>
        rw [List.filterMap_cons, id_eq, List.flatMap_cons, Spelled, Piece.signs_all_append,
          Piece.signs_all_cons, Piece.signs_word, List.append_assoc]
        exact ⟨hblank.append (h.append ih.1 (.inr ih.2)) (.inl rfl), rfl⟩
  have hrest := hs.append hclauses.1 (.inr hclauses.2)
  have hsource := hp.append ((Spells.source e).append hrest (.inl rfl)) (.inr rfl)
  have hall := (Spells.selecting e).append (hl.append hsource (.inl hlast)) (.inl rfl)
  simpa [Piece.select, Piece.signs, selectTokens] using hall

end

section

variable (e : Engine)

theorem Column.spelled (c : Column) : Spelled e (c.outline e.dialect) c.tokens := by
  have hdot : Spells e (Sign.ofText ".") [.mark '.'] := .text rfl (by cases e <;> rfl)
  have hcolumn := (Spells.tag e c.tag).append (hdot.append (Spells.quote e c.name) (.inl rfl))
    (.inr rfl)
  simpa [Column.outline, Piece.signs, Column.tokens] using hcolumn

theorem aggregate_spelled (kind : Aggregate) (c : Option Column) :
    Spelled e (e.dialect.aggregateOutline kind c) (aggregateTokens kind c) := by
  cases c with
  | none =>
    have hrows : Spells e (Sign.ofText "COUNT(*)")
        [.word "COUNT", .mark '(', .symbol "*", .mark ')'] := .text rfl (by cases e <;> rfl)
    simpa [Dialect.aggregateOutline, aggregateTokens, group] using hrows
  | some c =>
    have hname : Spells e (Sign.ofText (Dialect.aggregateName kind))
        [.word (Dialect.aggregateName kind)] := .text rfl (by cases kind <;> cases e <;> rfl)
    have hcall := hname.append (c.spelled e).group (.inr rfl)
    simpa [Dialect.aggregateOutline, aggregateTokens] using hcall

theorem Scalar.spelled (s : Scalar) : Spelled e (s.outline e.dialect) s.tokens := by
  induction s with
  | column c => exact c.spelled e
  | aggregate kind c => exact aggregate_spelled e kind c
  | bound value => simpa [Scalar.outline, Scalar.tokens] using Spells.slot e value
  | folded s ih =>
    have hlower : Spells e (Sign.ofText "LOWER(") [.word "LOWER", .mark '('] :=
      .text rfl (by cases e <;> rfl)
    have hcall := hlower.append (ih.append (.closing e) (.inr rfl)) (.inl rfl)
    simpa [Scalar.outline, Scalar.tokens, group] using hcall

theorem table_spelled (name : String) (tag : Alias) :
    Spelled e (e.dialect.tableOutline name tag) (tableTokens name tag) := by
  have htable := (Spells.quote e name).append (.as_tag e tag) (.inr rfl)
  simpa [Dialect.tableOutline, Piece.signs, tableTokens] using htable

theorem operator_spelled (op : Comparison) :
    Spells e (Sign.ofText (" " ++ op.text ++ " ")) [.symbol op.text] :=
  .text rfl (by cases op <;> cases e <;> rfl)

mutual

theorem Pred.spelled (p : Pred) : Spelled e (p.outline e.dialect) (p.tokens e) := by
  match p with
  | .truth value =>
    have hword : Spells e (Sign.ofText (if value then "TRUE" else "FALSE"))
        [.word (if value then "TRUE" else "FALSE")] :=
      .text rfl (by cases value <;> cases e <;> rfl)
    simpa [Pred.outline, Pred.tokens] using hword
  | .compare lhs op rhs =>
    have hcompare := (lhs.spelled e).append ((operator_spelled e op).append (rhs.spelled e)
      (.inl (by cases op <;> rfl))) (.inr (by cases op <;> rfl))
    simpa [Pred.outline, Pred.tokens] using hcompare
  | .compareRows columns op values =>
    have hcolumns := spelled_list columns (Column.spelled e)
    have hvalues := spelled_list values fun v => (Scalar.bound v).spelled e
    have hrows := hcolumns.group.append ((operator_spelled e op).append hvalues.group
      (.inl (by cases op <;> rfl))) (.inr (by cases op <;> rfl))
    simpa [Pred.outline, Pred.tokens, Scalar.outline, Scalar.tokens] using hrows
  | .isNull s negated =>
    have htest : Spells e (Sign.ofText (if negated then " IS NOT NULL" else " IS NULL"))
        (if negated then [.word "IS", .word "NOT", .word "NULL"] else [.word "IS", .word "NULL"]) :=
      .text (by cases negated <;> rfl) (by cases negated <;> cases e <;> rfl)
    have hnull := (s.spelled e).append htest (.inr (by cases negated <;> rfl))
    simpa [Pred.outline, Pred.tokens] using hnull
  | .isIn s items negated =>
    have hopen : Spells e (Sign.ofText (if negated then " NOT IN (" else " IN ("))
        ((if negated then [.word "NOT", .word "IN"] else [.word "IN"]) ++ [.mark '(']) :=
      .text (by cases negated <;> rfl) (by cases negated <;> cases e <;> rfl)
    have hitems := spelled_list items (Scalar.spelled e)
    have hin := (s.spelled e).append (hopen.append (hitems.append (.closing e) (.inr rfl))
      (.inl (by cases negated <;> rfl))) (.inr (by cases negated <;> rfl))
    simpa [Pred.outline, Pred.tokens, group] using hin
  | .like s pattern =>
    have hlike : Spells e (Sign.ofText " LIKE ") [.word "LIKE"] := .text rfl (by cases e <;> rfl)
    have hescape : Spells e
        (Sign.ofText (if e.dialect.statesLikeEscape then " ESCAPE '\\'" else ""))
        (if e.dialect.statesLikeEscape then [.word "ESCAPE", .literal "\\"] else []) :=
      .text (by cases e <;> rfl) (by cases e <;> rfl)
    have hpattern := (s.spelled e).append (hlike.append ((pattern.spelled e).append hescape
      (.inr (by cases e <;> rfl))) (.inl rfl)) (.inr rfl)
    simpa [Pred.outline, Pred.tokens] using hpattern
  | .and operands => exact spelled_combined (separates_and e) (Pred.spelled_all operands)
  | .or operands => exact spelled_combined (separates_or e) (Pred.spelled_all operands)
  | .not operand =>
    have hnot : Spells e (Sign.ofText "NOT ") [.word "NOT"] := .text rfl (by cases e <;> rfl)
    have hnegation := hnot.append (Pred.spelled operand).group (.inl rfl)
    have htext : Sign.ofText "NOT (" = Sign.ofText "NOT " ++ Sign.ofText "(" := by
      rw [← Sign.of_text_append]
      rfl
    simpa [Pred.outline, Pred.tokens, htext] using hnegation
  | .related negated table tag conditions =>
    have hopen : Spells e (Sign.ofText (if negated then "NOT EXISTS (" else "EXISTS ("))
        ((if negated then [.word "NOT", .word "EXISTS"] else [.word "EXISTS"]) ++ [.mark '(']) :=
      .text (by cases negated <;> rfl) (by cases negated <;> cases e <;> rfl)
    have hone : Spelled e [word "1"] [.word "1"] := by
      simpa using (Spells.text rfl (by cases e <;> rfl) : Spells e (Sign.ofText "1") [.word "1"])
    have hselect : ∀ {filter : Option (List Piece)} {ts : List (Token Value)},
        ClauseSpelled e filter ts → Spelled e
          [word (if negated then "NOT EXISTS (" else "EXISTS ("),
            Piece.select [] [word "1"] (e.dialect.tableOutline table tag) [filter], word ")"]
          ((if negated then [.word "NOT", .word "EXISTS"] else [.word "EXISTS"]) ++
            group (selectTokens [] [.word "1"] (tableTokens table tag) [ts])) := by
      intro filter ts hfilter
      have hlead : Spelled e [] [] := .nil e
      have hquery := spelled_select hlead rfl hone (table_spelled e table tag)
        (.cons hfilter .nil)
      have hexists := hopen.append (hquery.append (.closing e) (.inr rfl))
        (.inl (by cases negated <;> rfl))
      simpa [group] using hexists
    match conditions with
    | [] => exact hselect .none
    | q :: qs =>
      have hwhere : Spells e (Sign.ofText "WHERE ") [.word "WHERE"] :=
        .text rfl (by cases e <;> rfl)
      have hall := spelled_combined (separates_and e) (Pred.spelled_all (q :: qs))
      exact hselect (.some (hwhere.append hall (.inl rfl)))

theorem Pred.spelled_all (ps : List Pred) :
    List.Forall₂ (Spelled e) (Pred.outlineAll e.dialect ps) (Pred.tokensAll e ps) := by
  match ps with
  | [] => exact .nil
  | p :: ps => exact .cons (Pred.spelled p) (Pred.spelled_all ps)

end

theorem SortItem.spelled (it : SortItem) : Spelled e (it.outline e.dialect) it.tokens := by
  have hdirection : Spells e (Sign.ofText (" " ++ it.direction.text)) [.word it.direction.text] :=
    .text rfl (by cases it.direction <;> cases e <;> rfl)
  have hnulls : Spells e (Sign.ofText (it.nulls.elim "" fun nulls => " " ++ nulls.text))
      (it.nulls.elim [] Nulls.tokens) := by
    match it.nulls with
    | none => exact .text rfl (by cases e <;> rfl)
    | some .first => exact .text rfl (by cases e <;> rfl)
    | some .last => exact .text rfl (by cases e <;> rfl)
  have hstart : (Sign.ofText (it.nulls.elim "" fun nulls => " " ++ nulls.text)).head?.all
      Sign.isSeparator = true := by
    match it.nulls with
    | none | some .first | some .last => rfl
  have hitem := (it.key.spelled e).append (hdirection.append hnulls (.inr hstart))
    (.inr (by cases it.direction <;> rfl))
  simpa [SortItem.outline, SortItem.tokens] using hitem

theorem clause_spelled {text : String} {t : Token Value}
    (ht : Spells e (Sign.ofText text) [t])
    (hlast : (Sign.ofText text).getLast?.all Sign.isSeparator = true) (p : Option Pred) :
    ClauseSpelled e (p.map fun p => word text :: p.outline e.dialect) (clauseTokens e t p) := by
  cases p with
  | none => exact .none
  | some p =>
    exact .some (by simpa [clauseTokens] using ht.append (p.spelled e) (.inl hlast))

theorem list_clause_spelled {α : Type} {outline : α → List Piece}
    {tokens : α → List (Token Value)} {text : String} {start : List (Token Value)}
    (ht : Spells e (Sign.ofText text) start)
    (hlast : (Sign.ofText text).getLast?.all Sign.isSeparator = true)
    (h : ∀ x, Spelled e (outline x) (tokens x)) (xs : List α) :
    ClauseSpelled e (listClause text (xs.map outline)) (listTokens start (xs.map tokens)) := by
  have hlist := spelled_list xs h
  cases xs with
  | nil => exact .none
  | cons x xs => exact .some (by simpa [listTokens] using ht.append hlist (.inl hlast))

theorem limit_spelled (take skip : Option Nat) :
    ClauseSpelled e (e.dialect.limitOutline take skip) (limitTokens e take skip) := by
  have hlimit : Spells e (Sign.ofText "LIMIT ") [.word "LIMIT"] := .text rfl (by cases e <;> rfl)
  have hoffset : Spells e (Sign.ofText "OFFSET ") [.word "OFFSET"] :=
    .text rfl (by cases e <;> rfl)
  have hthen : Spells e (Sign.ofText " OFFSET ") [.word "OFFSET"] :=
    .text rfl (by cases e <;> rfl)
  match take, skip with
  | none, none => exact .none
  | some take, none =>
    have htake := hlimit.append (.number e take) (.inl rfl)
    exact .some (by simpa [Piece.signs, limitTokens] using htake)
  | none, some skip =>
    have hskip := hthen.append (.number e skip) (.inl rfl)
    cases e with
    | postgresql =>
      have honly := hoffset.append (.number .postgresql skip) (.inl rfl)
      exact .some (by simpa [Piece.signs, limitTokens, Engine.unlimitedTokens] using honly)
    | sqlite =>
      have hnone : Spells .sqlite (Sign.ofText "-1") [.symbol "-", .word "1"] := .text rfl rfl
      have hboth := hlimit.append (hnone.append hskip (.inr rfl)) (.inl rfl)
      exact .some (by simpa [Piece.signs, limitTokens, Engine.unlimitedTokens] using hboth)
    | mysql =>
      have hnone : Spells .mysql (Sign.ofText "18446744073709551615")
          [.word "18446744073709551615"] := .text rfl rfl
      have hboth := hlimit.append (hnone.append hskip (.inr rfl)) (.inl rfl)
      exact .some (by simpa [Piece.signs, limitTokens, Engine.unlimitedTokens] using hboth)
  | some take, some skip =>
    have hskip := hthen.append (.number e skip) (.inl rfl)
    have hboth := hlimit.append ((Spells.number e take).append hskip (.inr rfl)) (.inl rfl)
    exact .some (by simpa [Piece.signs, limitTokens] using hboth)

theorem Body.spelled {projection lead : List Piece} {a b : List (Token Value)} (body : Body)
    (hp : Spelled e projection a) (hl : Spelled e lead b)
    (hlast : (signsAll lead).getLast?.all Sign.isSeparator = true) :
    Spelled e [body.outline e.dialect projection lead] (body.tokens e a b) := by
  have hwhere : Spells e (Sign.ofText "WHERE ") [.word "WHERE"] := .text rfl (by cases e <;> rfl)
  have hgroup : Spells e (Sign.ofText "GROUP BY ") [.word "GROUP", .word "BY"] :=
    .text rfl (by cases e <;> rfl)
  have hhaving : Spells e (Sign.ofText "HAVING ") [.word "HAVING"] :=
    .text rfl (by cases e <;> rfl)
  have horder : Spells e (Sign.ofText "ORDER BY ") [.word "ORDER", .word "BY"] :=
    .text rfl (by cases e <;> rfl)
  exact spelled_select hl hlast hp (table_spelled e body.table body.tag)
    (.cons (clause_spelled e hwhere rfl body.filter)
      (.cons (list_clause_spelled e hgroup rfl (Column.spelled e) body.groupBy)
        (.cons (clause_spelled e hhaving rfl body.having)
          (.cons (list_clause_spelled e horder rfl (SortItem.spelled e) body.orderBy)
            (.cons (limit_spelled e body.take body.skip) .nil)))))

theorem pair_spelled (tag : Alias) (reparsed : Bool) (hr : reparsed = decide (e = .sqlite))
    (c : JsonColumn) : Spelled e (e.dialect.pairOutline tag reparsed c) (pairTokens e tag c) := by
  have hcolumn := Column.spelled e ⟨tag, c.name⟩
  have hjson : Spells e (Sign.ofText "json(") [.word "json", .mark '('] :=
    .text rfl (by cases e <;> rfl)
  have hcall := hjson.append (hcolumn.append (.closing e) (.inr rfl)) (.inl rfl)
  have hcomma := (separates_comma e).spells
  subst hr
  by_cases hnested : (c.nested && decide (e = .sqlite)) = true
  · have hpair := (Spells.literal e c.name).append (hcomma.append hcall (.inl rfl)) (.inr rfl)
    simpa [Dialect.pairOutline, pairTokens, hnested, group] using hpair
  · have hpair := (Spells.literal e c.name).append (hcomma.append hcolumn (.inl rfl)) (.inr rfl)
    simpa [Dialect.pairOutline, pairTokens, hnested] using hpair

theorem fold_spelled (toMany : Bool) (tag : Alias) (columns : List JsonColumn) :
    Spelled e (e.dialect.foldOutline toMany tag columns) (foldTokens e toMany tag columns) := by
  have hfunction : Spells e (Sign.ofText (e.objectFunction ++ "("))
      [.word e.objectFunction, .mark '('] := .text rfl (by cases e <;> rfl)
  have hlast : (Sign.ofText (e.objectFunction ++ "(")).getLast?.all Sign.isSeparator = true := by
    cases e <;> rfl
  have hpairs := spelled_list columns (pair_spelled e tag (decide (e = .sqlite)) rfl)
  have hobject := hfunction.append (hpairs.append (.closing e) (.inr rfl)) (.inl hlast)
  cases toMany with
  | false =>
    have hrow : Spelled e (word (e.objectFunction ++ "(") ::
        Piece.joined ", " (columns.map (e.dialect.pairOutline tag (decide (e = .sqlite)))) ++
          [word ")"]) (foldTokens e false tag columns) := by
      simpa [foldTokens, group] using hobject
    cases e <;> exact hrow
  | true =>
    have harray : ∀ (opening closing : String), Spells e (Sign.ofText opening) e.arrayOpening →
        (Sign.ofText opening).getLast?.all Sign.isSeparator = true →
        Spells e (Sign.ofText closing) e.arrayClosing →
        (Sign.ofText closing).head?.all Sign.isSeparator = true →
        Spelled e (word opening :: (word (e.objectFunction ++ "(") ::
          Piece.joined ", " (columns.map (e.dialect.pairOutline tag (decide (e = .sqlite)))) ++
            [word ")"]) ++ [word closing]) (foldTokens e true tag columns) := by
      intro opening closing ho hfirst hc hnext
      have hall := ho.append (hobject.append hc (.inr hnext)) (.inl hfirst)
      simpa [foldTokens, group] using hall
    cases e with
    | postgresql =>
      exact harray "COALESCE(json_agg(" "), '[]'::json)" (.text rfl rfl) rfl (.text rfl rfl) rfl
    | sqlite => exact harray "json_group_array(" ")" (.text rfl rfl) rfl (.text rfl rfl) rfl
    | mysql =>
      exact harray "COALESCE(JSON_ARRAYAGG(" "), JSON_ARRAY())" (.text rfl rfl) rfl
        (.text rfl rfl) rfl

mutual

theorem Projection.spelled (p : Projection) : Spelled e (p.outline e.dialect) (p.tokens e) := by
  match p with
  | .column c =>
    rw [Projection.outline, Projection.tokens]
    exact c.spelled e
  | .aggregate kind c name =>
    have hall := (aggregate_spelled e kind c).append
      (.as_name e name) (.inr rfl)
    simpa [Projection.outline, Projection.tokens] using hall
  | .relation name toMany fold columns body =>
    have htext : Sign.ofText " FROM (" = Sign.ofText " FROM " ++ Sign.ofText "(" := by
      rw [← Sign.of_text_append]
      rfl
    have hlead : Spelled e [] [] := .nil e
    have hcolumns := spelled_joined (separates_comma e) (Projection.spelled_all columns)
    have hbody := Body.spelled e body hcolumns hlead rfl
    have hfold := fold_spelled e toMany fold
      (columns.map fun p => JsonColumn.mk p.name p.isRelation)
    have hsource := (Spells.source e).append (hbody.group.append (.as_tag e fold)
      (.inr rfl)) (.inl rfl)
    have hquery := (Spells.selecting e).append (hfold.append hsource (.inr rfl)) (.inl rfl)
    have hall := hquery.group.append (.as_name e name) (.inr rfl)
    simpa [Projection.outline, Projection.tokens, Piece.signs, htext, listed] using hall

theorem Projection.spelled_all (ps : List Projection) :
    List.Forall₂ (Spelled e) (Projection.outlineAll e.dialect ps) (Projection.tokensAll e ps) := by
  match ps with
  | [] => exact .nil
  | p :: ps => exact .cons (Projection.spelled p) (Projection.spelled_all ps)

end

theorem filter_spelled (filter : Option Pred) :
    Spelled e (filterOutline e.dialect filter) (clauseTokens e (.word "WHERE") filter) := by
  have hwhere : Spells e (Sign.ofText " WHERE ") [.word "WHERE"] := .text rfl (by cases e <;> rfl)
  cases filter with
  | none => exact .nil e
  | some p => simpa [filterOutline, clauseTokens] using hwhere.append (p.spelled e) (.inl rfl)

theorem filter_apart (filter : Option Pred) :
    (signsAll (filterOutline e.dialect filter)).head?.all Sign.isSeparator = true := by
  cases filter <;> rfl

theorem distinct_spelled (columns : List Column) :
    Spelled e (word "DISTINCT ON (" ::
        Piece.joined ", " (columns.map (·.outline e.dialect)) ++ [word ") "])
      (.word "DISTINCT" :: .word "ON" :: group (listed (columns.map Column.tokens))) := by
  have hopen : Spells e (Sign.ofText "DISTINCT ON (") [.word "DISTINCT", .word "ON", .mark '('] :=
    .text rfl (by cases e <;> rfl)
  have hclose : Spells e (Sign.ofText ") ") [.mark ')'] := .text rfl (by cases e <;> rfl)
  have hlist := spelled_list columns (Column.spelled e)
  simpa [group] using hopen.append (hlist.append hclose (.inr rfl)) (.inl rfl)

theorem over_page_spelled (columns : List Projection) (tag : Alias) (page : List Column)
    (body : Body) : Spelled e [(Statement.overPage columns tag page body).outline e.dialect]
      ((Statement.overPage columns tag page body).tokens e) := by
  have htext : Sign.ofText " FROM (" = Sign.ofText " FROM " ++ Sign.ofText "(" := by
    rw [← Sign.of_text_append]
    rfl
  have hlead : Spelled e [] [] := .nil e
  have hcolumns := spelled_joined (separates_comma e) (Projection.spelled_all e columns)
  have hbody := Body.spelled e body (spelled_list page (Column.spelled e)) hlead rfl
  have hsource := (Spells.source e).append (hbody.group.append (.as_tag e tag)
    (.inr rfl)) (.inl rfl)
  have hquery := (Spells.selecting e).append (hcolumns.append hsource (.inr rfl)) (.inl rfl)
  simpa [Statement.outline, Statement.tokens, Piece.signs, htext, listed] using hquery

theorem insert_spelled (table : String) (assignments : List (String × Value)) :
    Spelled e [(Statement.insert table assignments).outline e.dialect]
      ((Statement.insert table assignments).tokens e) := by
  have hinto : Spells e (Sign.ofText "INSERT INTO ") [.word "INSERT", .word "INTO"] :=
    .text rfl (by cases e <;> rfl)
  cases hempty : assignments.isEmpty with
  | true =>
    have hnone : Spells e (Sign.ofText (" " ++ e.dialect.emptyInsert)) e.emptyInsertTokens :=
      .text (by cases e <;> rfl) (by cases e <;> rfl)
    have hall := hinto.append ((Spells.quote e table).append hnone (.inr (by cases e <;> rfl)))
      (.inl rfl)
    simpa [Statement.outline, Statement.tokens, Piece.signs, hempty] using hall
  | false =>
    have hopen : Spells e (Sign.ofText " (") [.mark '('] := .text rfl (by cases e <;> rfl)
    have hvalues : Spells e (Sign.ofText ") VALUES (") [.mark ')', .word "VALUES", .mark '('] :=
      .text rfl (by cases e <;> rfl)
    have hnames : Spelled e
        (Piece.joined ", " (assignments.map fun a => [quoted (e.dialect.quote a.1)]))
        (listed (assignments.map fun a => [.name a.1])) :=
      spelled_list assignments fun a => by simpa using Spells.quote e a.1
    have hslots : Spelled e (Piece.joined ", " (assignments.map fun a => [.value a.2]))
        (listed (assignments.map fun a => [.slot a.2])) :=
      spelled_list assignments fun a => by simpa using Spells.slot e a.2
    have hrows := hvalues.append (hslots.append (.closing e) (.inr rfl)) (.inl rfl)
    have hall := hinto.append ((Spells.quote e table).append (hopen.append
      (hnames.append hrows (.inr rfl)) (.inl rfl)) (.inr rfl)) (.inl rfl)
    simpa [Statement.outline, Statement.tokens, Piece.signs, hempty, group] using hall

theorem update_spelled (table : String) (tag : Alias) (assignments : List (String × Value))
    (filter : Option Pred) :
    Spelled e [(Statement.update table tag assignments filter).outline e.dialect]
      ((Statement.update table tag assignments filter).tokens e) := by
  have hupdate : Spells e (Sign.ofText "UPDATE ") [.word "UPDATE"] :=
    .text rfl (by cases e <;> rfl)
  have hset : Spells e (Sign.ofText " SET ") [.word "SET"] := .text rfl (by cases e <;> rfl)
  have hequals : Spells e (Sign.ofText " = ") [.symbol "="] := .text rfl (by cases e <;> rfl)
  have hassigned : Spelled e
      (Piece.joined ", " (assignments.map fun a =>
        [quoted (e.dialect.quote a.1), word " = ", .value a.2]))
      (listed (assignments.map fun a => [.name a.1, .symbol "=", .slot a.2])) := by
    refine spelled_list assignments fun a => ?_
    have hvalue := hequals.append (Spells.slot e a.2) (.inl rfl)
    simpa using (Spells.quote e a.1).append hvalue (.inr rfl)
  have hrest := hset.append (hassigned.append (filter_spelled e filter)
    (.inr (filter_apart e filter))) (.inl rfl)
  have hall := hupdate.append ((table_spelled e table tag).append hrest (.inr rfl)) (.inl rfl)
  simpa [Statement.outline, Statement.tokens, Piece.signs] using hall

theorem delete_spelled (table : String) (tag : Alias) (filter : Option Pred) :
    Spelled e [(Statement.delete table tag filter).outline e.dialect]
      ((Statement.delete table tag filter).tokens e) := by
  have hrest := (table_spelled e table tag).append (filter_spelled e filter)
    (.inr (filter_apart e filter))
  have hdelete : Spells e (Sign.ofText "DELETE ") [.word "DELETE"] :=
    .text rfl (by cases e <;> rfl)
  have hstart : Spells e (Sign.ofText "DELETE FROM ") [.word "DELETE", .word "FROM"] :=
    .text rfl (by cases e <;> rfl)
  have hplain := hstart.append hrest (.inl rfl)
  cases e with
  | postgresql | sqlite =>
    simpa [Statement.outline, Statement.tokens, Piece.signs, Engine.deleteTokens, Engine.dialect,
      Dialect.postgresql, Dialect.sqlite] using hplain
  | mysql =>
    have hsource := (Spells.source .mysql).append hrest (.inl rfl)
    have hall := hdelete.append ((Spells.tag .mysql tag).append hsource (.inr rfl)) (.inl rfl)
    simpa [Statement.outline, Statement.tokens, Piece.signs, Engine.deleteTokens, Engine.dialect,
      Dialect.mysql] using hall

/-- The text of a statement is lexed into the statement's tokens. -/
theorem Statement.spelled (st : Statement) :
    Spells e (st.render e.dialect).signs (st.tokens e) := by
  rw [← Statement.signs_outline]
  suffices hall : Spelled e [st.outline e.dialect] (st.tokens e) by simpa using hall
  cases st with
  | select columns distinct body =>
    have hcolumns := spelled_joined (separates_comma e) (Projection.spelled_all e columns)
    have hlead : Spelled e [] [] := .nil e
    rw [Statement.outline, Statement.tokens]
    cases hd : distinct.isEmpty with
    | true => exact Body.spelled e body hcolumns hlead rfl
    | false =>
      refine Body.spelled e body hcolumns (distinct_spelled e distinct) ?_
      rw [if_neg Bool.false_ne_true, Piece.signs_all_append, List.getLast?_append]
      rfl
  | overPage columns tag page body => exact over_page_spelled e columns tag page body
  | insert table assignments => exact insert_spelled e table assignments
  | update table tag assignments filter => exact update_spelled e table tag assignments filter
  | delete table tag filter => exact delete_spelled e table tag filter

end

end QuerySql
