import QuerySql.Proofs.Tokens

/-!
# Reading predicates

A reader for the predicates of `WHERE` and `HAVING` by the precedence of SQL:
`NOT` binds tighter than `AND`, and `AND` tighter than `OR`. Comparisons, row
comparisons, `LIKE`, `IN`, null tests and `EXISTS` are its operands, and so is
anything between parentheses. The reader knows nothing of how a predicate is
written; what a dialect writes is read back as the predicate that it was given.
-/

set_option autoImplicit false

namespace QuerySql

open Token (listed group)

/-- A reader takes tokens off the front and returns the rest. -/
abbrev Reader (α : Type) := List (Token Value) → Option (α × List (Token Value))

namespace Reader

variable {α β : Type}

def chain (separator : Token Value) (item : Reader α) : Nat → Reader (List α)
  | 0, _ => none
  | n + 1, ts => do
    let (x, rest) ← item ts
    match rest with
    | t :: more =>
      if t = separator then do
        let (xs, rest) ← chain separator item n more
        return (x :: xs, rest)
      else return ([x], rest)
    | [] => return ([x], [])

def closed (item : Reader α) : Reader α := fun ts => do
  let (x, rest) ← item ts
  match rest with
  | .mark ')' :: rest => return (x, rest)
  | _ => none

def alias? (text : String) : Option Alias :=
  match text.toList with
  | 't' :: digits => if digits.all Char.isDigit then some ⟨Nat.ofDigitChars 10 digits 0⟩ else none
  | _ => none

def aggregate? (text : String) : Option Aggregate :=
  Aggregate.all.find? fun kind => Dialect.aggregateName kind = text

def comparison? (text : String) : Option Comparison :=
  [Comparison.eq, .ne, .lt, .le, .gt, .ge].find? fun op => op.text = text

def column : Reader Column
  | .word text :: .mark '.' :: .name name :: rest => do
    let tag ← alias? text
    return (⟨tag, name⟩, rest)
  | _ => none

def value : Reader Value
  | .slot v :: rest => some (v, rest)
  | _ => none

def scalar : Reader Scalar
  | .slot v :: rest => some (.bound v, rest)
  | .word function :: .mark '(' :: rest =>
    if function = "LOWER" then do
      let (s, rest) ← scalar rest
      match rest with
      | .mark ')' :: rest => return (.folded s, rest)
      | _ => none
    else do
      let kind ← aggregate? function
      let (c, rest) ← closed column rest
      return (.aggregate kind (some c), rest)
  | ts => do
    let (c, rest) ← column ts
    return (.column c, rest)

def rows (n : Nat) : Reader Pred := fun ts => do
  let (columns, rest) ← closed (chain (.mark ',') column n) ts
  match rest with
  | .symbol text :: .mark '(' :: rest => do
    let op ← comparison? text
    let (values, rest) ← closed (chain (.mark ',') value n) rest
    return (.compareRows columns op values, rest)
  | _ => none

def condition (n : Nat) (s : Scalar) : Reader Pred
  | .symbol text :: rest => do
    let op ← comparison? text
    let (rhs, rest) ← scalar rest
    return (.compare s op rhs, rest)
  | .word "IS" :: .word "NULL" :: rest => return (.isNull s false, rest)
  | .word "IS" :: .word "NOT" :: .word "NULL" :: rest => return (.isNull s true, rest)
  | .word "IN" :: .mark '(' :: rest => do
    let (items, rest) ← closed (chain (.mark ',') scalar n) rest
    return (.isIn s items false, rest)
  | .word "NOT" :: .word "IN" :: .mark '(' :: rest => do
    let (items, rest) ← closed (chain (.mark ',') scalar n) rest
    return (.isIn s items true, rest)
  | .word "LIKE" :: rest => do
    let (pattern, rest) ← scalar rest
    match rest with
    | .word "ESCAPE" :: .literal _ :: rest => return (.like s pattern, rest)
    | rest => return (.like s pattern, rest)
  | _ => none

def subquery (negated : Bool) (predicate : Reader Pred) : Reader Pred
  | .word "SELECT" :: .word "1" :: .word "FROM" :: .name table :: .word "AS" :: .word text ::
      rest => do
    let tag ← alias? text
    match rest with
    | .word "WHERE" :: rest => do
      let (p, rest) ← predicate rest
      return (.related negated table tag [p], rest)
    | rest => return (.related negated table tag [], rest)
  | _ => none

def conjoined (n : Nat) (operand : Reader Pred) : Reader Pred := fun ts => do
  let (ps, rest) ← chain (.word "AND") operand n ts
  return (Pred.all ps, rest)

def connected (n : Nat) (operand : Reader Pred) : Reader Pred := fun ts => do
  let (ps, rest) ← chain (.word "OR") (conjoined n operand) n ts
  return (Pred.any ps, rest)

/-- One operand of a connective. Parentheses and `NOT` nest, each to the depth
that is left. -/
def operand : Nat → Reader Pred
  | 0, _ => none
  | n + 1, ts =>
    match ts with
    | .mark '(' :: rest => (rows n rest).or (closed (connected n (operand n)) rest)
    | .word "TRUE" :: rest => return (.truth true, rest)
    | .word "FALSE" :: rest => return (.truth false, rest)
    | .word "EXISTS" :: .mark '(' :: rest => closed (subquery false (connected n (operand n))) rest
    | .word "NOT" :: .word "EXISTS" :: .mark '(' :: rest =>
      closed (subquery true (connected n (operand n))) rest
    | .word "NOT" :: rest => do
      let (p, rest) ← operand n rest
      return (.not p, rest)
    | ts => do
      let (s, rest) ← scalar ts
      condition n s rest

def predicate (ts : List (Token Value)) : Option Pred :=
  match connected ts.length (operand ts.length) ts with
  | some (p, []) => some p
  | _ => none

theorem chain_single {separator : Token Value} {item : Reader α} {ts rest : List (Token Value)}
    {x : α} (h : item ts = some (x, rest)) (hrest : rest.head? ≠ some separator) (n : Nat) :
    chain separator item (n + 1) ts = some ([x], rest) := by
  cases rest with
  | nil => simp [chain, h]
  | cons t more =>
    have ht : t ≠ separator := fun ht => hrest (by simp [ht])
    simp [chain, h, ht]

theorem chain_joined {separator : Token Value} {item : Reader β}
    {tss : List (List (Token Value))} {ys : List β} {Ends : List (Token Value) → Prop}
    (h : List.Forall₂ (fun ts y => ∀ rest, Ends rest → item (ts ++ rest) = some (y, rest)) tss ys)
    (hne : tss ≠ []) (hseparator : ∀ rest, Ends (separator :: rest)) {n : Nat}
    (hn : tss.length ≤ n) {rest : List (Token Value)} (hends : Ends rest)
    (hrest : rest.head? ≠ some separator) :
    chain separator item n (Token.joined separator tss ++ rest) = some (ys, rest) := by
  induction h generalizing n with
  | nil => exact absurd rfl hne
  | @cons ts y tss ys hy h ih =>
    cases n with
    | zero => simp at hn
    | succ n =>
      cases h with
      | nil =>
        have hlast := chain_single (hy rest hends) hrest n
        simpa [Token.joined] using hlast
      | @cons us z tss ys hz h =>
        have hnext := ih (List.cons_ne_nil _ _) (by simpa using hn)
        have hitem := hy (separator :: (Token.joined separator (us :: tss) ++ rest))
          (hseparator _)
        have hjoined : Token.joined separator (ts :: us :: tss) ++ rest =
            ts ++ separator :: (Token.joined separator (us :: tss) ++ rest) := by
          simp [Token.joined]
        rw [hjoined, chain, hitem]
        simp [hnext]

theorem closed_read {item : Reader α} {ts rest : List (Token Value)} {x : α}
    (h : item ts = some (x, .mark ')' :: rest)) : closed item ts = some (x, rest) := by
  simp [closed, h]

theorem alias_text (tag : Alias) : alias? tag.text = some tag := by
  have htext : tag.text.toList = 't' :: (toString tag.index).toList := String.toList_append
  have hdigits : (toString tag.index).toList.all Char.isDigit = true :=
    List.all_eq_true.mpr fun _ hc => Lexer.is_digit_of_number hc
  rw [alias?, htext]
  simp only [hdigits, if_true]
  simp

theorem aggregate_name (kind : Aggregate) :
    aggregate? (Dialect.aggregateName kind) = some kind := by
  cases kind <;> rfl

theorem comparison_text (op : Comparison) : comparison? op.text = some op := by
  cases op <;> rfl

theorem column_read (c : Column) (rest : List (Token Value)) :
    column (c.tokens ++ rest) = some (c, rest) := by
  simp [Column.tokens, column, alias_text]

theorem value_read (v : Value) (rest : List (Token Value)) :
    value ([.slot v] ++ rest) = some (v, rest) := rfl

end Reader

def Scalar.Filled : Scalar → Prop
  | .aggregate _ c => c.isSome = true
  | .folded s => s.Filled
  | .column _ | .bound _ => True

namespace Reader

variable {α β : Type}

theorem scalar_read {s : Scalar} (hs : s.Filled) (rest : List (Token Value)) :
    scalar (s.tokens ++ rest) = some (s, rest) := by
  induction s generalizing rest with
  | column c => simp [Scalar.tokens, Column.tokens, scalar, column, alias_text]
  | bound v => rfl
  | aggregate kind c =>
    obtain ⟨c, rfl⟩ := Option.isSome_iff_exists.mp hs
    have hlower : Dialect.aggregateName kind ≠ "LOWER" := by cases kind <;> decide
    have hcolumn := closed_read (column_read c (.mark ')' :: rest))
    simp [Scalar.tokens, aggregateTokens, group, scalar, hlower, aggregate_name, hcolumn]
  | folded s ih =>
    have hinner := ih hs (.mark ')' :: rest)
    simp [Scalar.tokens, group, scalar, hinner]

end Reader

mutual

/-- No list in the predicate is empty, and a connective has several operands. -/
def Pred.Filled : Pred → Prop
  | .truth _ => True
  | .compare lhs _ rhs => lhs.Filled ∧ rhs.Filled
  | .compareRows columns _ values => columns ≠ [] ∧ values ≠ []
  | .isNull s _ => s.Filled
  | .isIn s items _ => s.Filled ∧ items ≠ [] ∧ ∀ item ∈ items, item.Filled
  | .like s pattern => s.Filled ∧ pattern.Filled
  | .and operands | .or operands => 2 ≤ operands.length ∧ Pred.FilledAll operands
  | .not operand => operand.Filled
  | .related _ _ _ conditions => Pred.FilledAll conditions

def Pred.FilledAll : List Pred → Prop
  | [] => True
  | p :: ps => p.Filled ∧ Pred.FilledAll ps

end

mutual

/-- The predicate with the conditions of each subquery taken as one. -/
def Pred.gathered : Pred → Pred
  | .truth value => .truth value
  | .compare lhs op rhs => .compare lhs op rhs
  | .compareRows columns op values => .compareRows columns op values
  | .isNull s negated => .isNull s negated
  | .isIn s items negated => .isIn s items negated
  | .like s pattern => .like s pattern
  | .and operands => .and (Pred.gatheredAll operands)
  | .or operands => .or (Pred.gatheredAll operands)
  | .not operand => .not operand.gathered
  | .related negated table tag conditions =>
    .related negated table tag (Pred.all? (Pred.gatheredAll conditions)).toList

def Pred.gatheredAll : List Pred → List Pred
  | [] => []
  | p :: ps => p.gathered :: Pred.gatheredAll ps

end

namespace Reader

/-- The tokens are read as the predicate, whatever follows, to any depth that is
at least their number. They are never taken for the columns of a row. -/
structure Reads (ts : List (Token Value)) (p : Pred) : Prop where
  nonempty : ts ≠ []
  noRow : ∀ n rest, rows n (ts ++ rest) = none
  operand : ∀ n rest, ts.length ≤ n → rest.head? ≠ some (.word "ESCAPE") →
    operand n (ts ++ rest) = some (p, rest)

section

variable {α : Type} {ts rest : List (Token Value)} {tss : List (List (Token Value))} {p : Pred}
  {ps : List Pred} {n : Nat}

theorem joined_length (separator : Token Value) (h : ∀ ts ∈ tss, ts ≠ []) :
    tss.length ≤ (Token.joined separator tss).length ∧
      ∀ ts ∈ tss, ts.length ≤ (Token.joined separator tss).length := by
  have htail : ∀ tss : List (List (Token Value)),
      tss.length ≤ (tss.flatMap (separator :: ·)).length ∧
        ∀ ts ∈ tss, ts.length ≤ (tss.flatMap (separator :: ·)).length := by
    intro tss
    induction tss with
    | nil => simp
    | cons us tss ih =>
      rw [List.flatMap_cons, List.length_append, List.length_cons, List.length_cons]
      refine ⟨by omega, List.forall_mem_cons.mpr ⟨by omega, fun ts hts => ?_⟩⟩
      have hle := ih.2 ts hts
      omega
  cases tss with
  | nil => simp
  | cons ts tss =>
    have hpos := List.length_pos_iff.mpr (h ts List.mem_cons_self)
    obtain ⟨hcount, hitems⟩ := htail tss
    rw [Token.joined, List.length_append, List.length_cons]
    refine ⟨by omega, List.forall_mem_cons.mpr ⟨by omega, fun us hus => ?_⟩⟩
    have hle := hitems us hus
    omega

theorem reads_nonempty (h : List.Forall₂ Reads tss ps) : ∀ ts ∈ tss, ts ≠ [] := by
  induction h with
  | nil => simp
  | cons hread _ ih => exact List.forall_mem_cons.mpr ⟨hread.nonempty, ih⟩

theorem reads_within {Q : List (Token Value) → Pred → Prop} (h : List.Forall₂ Reads tss ps)
    (hn : ∀ ts ∈ tss, ts.length ≤ n) (hQ : ∀ ts p, Reads ts p → ts.length ≤ n → Q ts p) :
    List.Forall₂ Q tss ps := by
  induction h with
  | nil => exact .nil
  | cons hread _ ih =>
    rw [List.forall_mem_cons] at hn
    exact .cons (hQ _ _ hread hn.1) (ih hn.2)

theorem conjoined_single (h : Reads ts p) (hn : ts.length ≤ n)
    (hescape : rest.head? ≠ some (.word "ESCAPE")) (hand : rest.head? ≠ some (.word "AND")) :
    conjoined n (Reader.operand n) (ts ++ rest) = some (p, rest) := by
  have hpos := List.length_pos_iff.mpr h.nonempty
  obtain ⟨m, rfl⟩ : ∃ m, n = m + 1 := ⟨n - 1, by omega⟩
  rw [conjoined, chain_single (h.operand _ rest hn hescape) hand m]
  rfl

theorem connected_of_conjoined {ts' : List (Token Value)}
    (h : conjoined n (Reader.operand n) ts' = some (p, rest))
    (hor : rest.head? ≠ some (.word "OR")) (hn : 0 < n) :
    connected n (Reader.operand n) ts' = some (p, rest) := by
  obtain ⟨m, rfl⟩ : ∃ m, n = m + 1 := ⟨n - 1, by omega⟩
  rw [connected, chain_single h hor m]
  rfl

theorem connected_and (h : List.Forall₂ Reads tss ps) (hne : tss ≠ [])
    (hn : (Token.joined (.word "AND") tss).length ≤ n) (rest : List (Token Value)) :
    connected n (Reader.operand n) (Token.joined (.word "AND") tss ++ .mark ')' :: rest) =
      some (Pred.all ps, .mark ')' :: rest) := by
  obtain ⟨hcount, hitems⟩ := joined_length (.word "AND") (reads_nonempty h)
  have hread := reads_within h (fun ts hts => Nat.le_trans (hitems ts hts) hn)
    fun ts p hts hlen rest => hts.operand n rest hlen
  have hchain : chain (.word "AND") (Reader.operand n) n
      (Token.joined (.word "AND") tss ++ .mark ')' :: rest) = some (ps, .mark ')' :: rest) :=
    chain_joined hread hne (by simp) (Nat.le_trans hcount hn) (by simp) (by simp)
  apply connected_of_conjoined
  · rw [conjoined, hchain]
    rfl
  · simp
  · have hpos := List.length_pos_iff.mpr hne
    omega

theorem connected_or (h : List.Forall₂ Reads tss ps) (hne : tss ≠ [])
    (hn : (Token.joined (.word "OR") tss).length ≤ n) (rest : List (Token Value)) :
    connected n (Reader.operand n) (Token.joined (.word "OR") tss ++ .mark ')' :: rest) =
      some (Pred.any ps, .mark ')' :: rest) := by
  obtain ⟨hcount, hitems⟩ := joined_length (.word "OR") (reads_nonempty h)
  have hread : List.Forall₂ (fun ts p => ∀ rest : List (Token Value),
      (rest.head? ≠ some (.word "ESCAPE") ∧ rest.head? ≠ some (.word "AND")) →
        conjoined n (Reader.operand n) (ts ++ rest) = some (p, rest)) tss ps :=
    reads_within h (fun ts hts => Nat.le_trans (hitems ts hts) hn)
      fun ts p hts hlen rest hrest => conjoined_single hts hlen hrest.1 hrest.2
  have hchain : chain (.word "OR") (conjoined n (Reader.operand n)) n
      (Token.joined (.word "OR") tss ++ .mark ')' :: rest) = some (ps, .mark ')' :: rest) :=
    chain_joined hread hne (by simp) (Nat.le_trans hcount hn) (by simp) (by simp)
  rw [connected, hchain]
  rfl

theorem no_row_group (ts rest : List (Token Value)) (n : Nat) :
    rows n (group ts ++ rest) = none := by
  cases n <;> simp [rows, closed, chain, group, column]

theorem group_reads (hrow : ∀ n rest, rows n (ts ++ rest) = none)
    (h : ∀ n rest, ts.length ≤ n → connected n (Reader.operand n) (ts ++ .mark ')' :: rest) =
      some (p, .mark ')' :: rest)) : Reads (group ts) p where
  nonempty := by simp [group]
  noRow := fun n rest => no_row_group ts rest n
  operand := by
    intro n rest hn _
    obtain ⟨m, rfl⟩ : ∃ m, n = m + 1 := ⟨n - 1, by simp [group] at hn; omega⟩
    have hm : ts.length ≤ m := by simp [group] at hn; omega
    have hclosed := closed_read (h m rest hm)
    simp [group, Reader.operand, hrow, hclosed]

theorem no_row_joined (separator : Token Value) (h : List.Forall₂ Reads tss ps) (hne : tss ≠ [])
    (n : Nat) (rest : List (Token Value)) :
    rows n (Token.joined separator tss ++ rest) = none := by
  cases h with
  | nil => exact absurd rfl hne
  | cons hread _ =>
    rw [Token.joined, List.append_assoc]
    exact hread.noRow n _

theorem and_reads (h : List.Forall₂ Reads tss ps) (hne : tss ≠ []) :
    Reads (Token.combined "AND" tss) (Pred.all ps) := by
  have hgroup := group_reads (no_row_joined (.word "AND") h hne) fun n rest hn =>
    connected_and h hne hn rest
  cases h with
  | nil => exact absurd rfl hne
  | cons hread h =>
    cases h with
    | nil => exact hread
    | cons _ _ => exact hgroup

theorem or_reads (h : List.Forall₂ Reads tss ps) (hne : tss ≠ []) :
    Reads (Token.combined "OR" tss) (Pred.any ps) := by
  have hgroup := group_reads (no_row_joined (.word "OR") h hne) fun n rest hn =>
    connected_or h hne hn rest
  cases h with
  | nil => exact absurd rfl hne
  | cons hread h =>
    cases h with
    | nil => exact hread
    | cons _ _ => exact hgroup

theorem connected_single (h : Reads ts p) (hn : ts.length ≤ n)
    (hescape : rest.head? ≠ some (.word "ESCAPE")) (hand : rest.head? ≠ some (.word "AND"))
    (hor : rest.head? ≠ some (.word "OR")) :
    connected n (Reader.operand n) (ts ++ rest) = some (p, rest) := by
  have hpos := List.length_pos_iff.mpr h.nonempty
  exact connected_of_conjoined (conjoined_single h hn hescape hand) hor (by omega)

theorem no_column_word {word : String} (h : alias? word = none) (rest : List (Token Value)) :
    column (.word word :: rest) = none := by
  unfold column
  split
  · simp_all
  · rfl

theorem no_row_word {word : String} (h : alias? word = none) (n : Nat)
    (rest : List (Token Value)) : rows n (.word word :: rest) = none := by
  cases n <;> simp [rows, closed, chain, no_column_word h]

theorem not_reads (h : Reads ts p) : Reads (.word "NOT" :: group ts) (.not p) where
  nonempty := by simp
  noRow := fun n rest => no_row_word rfl n _
  operand := by
    intro n rest hn hescape
    have hgroup : Reads (group ts) p := group_reads h.noRow fun n rest hn =>
      connected_single h hn (by simp) (by simp) (by simp)
    obtain ⟨m, rfl⟩ : ∃ m, n = m + 1 := ⟨n - 1, by simp [group] at hn; omega⟩
    have hread := hgroup.operand m rest (by simpa using hn) hescape
    simp only [group, List.cons_append, List.append_assoc, List.nil_append] at hread
    simp [group, Reader.operand, hread]

theorem alias_ne (tag : Alias) {word : String} (h : word.toList.head? ≠ some 't') :
    tag.text ≠ word := by
  rintro rfl
  apply h
  rw [Alias.text, String.toList_append]
  rfl

theorem operand_scalar {s : Scalar} (hs : s.Filled) (n : Nat) (rest : List (Token Value)) :
    Reader.operand (n + 1) (s.tokens ++ rest) = condition n s rest := by
  have hread := scalar_read hs rest
  cases s with
  | column c =>
    have htrue : c.tag.text ≠ "TRUE" := alias_ne c.tag (by decide)
    have hfalse : c.tag.text ≠ "FALSE" := alias_ne c.tag (by decide)
    have hnot : c.tag.text ≠ "NOT" := alias_ne c.tag (by decide)
    simp only [Scalar.tokens, Column.tokens, List.cons_append, List.nil_append] at hread ⊢
    simp [Reader.operand, htrue, hfalse, hnot, hread]
  | bound v => rfl
  | aggregate kind c =>
    obtain ⟨c, rfl⟩ := Option.isSome_iff_exists.mp hs
    simp only [Scalar.tokens, aggregateTokens, group, List.cons_append, List.append_assoc,
      List.nil_append] at hread ⊢
    cases kind <;> simp [Reader.operand, Dialect.aggregateName] at hread ⊢ <;> simp [hread]
  | folded s =>
    simp only [Scalar.tokens, group, List.cons_append, List.append_assoc, List.nil_append]
      at hread ⊢
    simp [Reader.operand, hread]

theorem no_row_scalar (s : Scalar) {t : Token Value} (hcomma : t ≠ .mark ',')
    (hclosing : t ≠ .mark ')') (n : Nat) (rest : List (Token Value)) :
    rows n (s.tokens ++ t :: rest) = none := by
  cases n with
  | zero => rfl
  | succ n =>
    cases s with
    | column c =>
      have hchain := chain_single (column_read c (t :: rest)) (by simpa using hcomma) n
      cases t with
      | mark m => simp_all [rows, closed, Scalar.tokens]
      | word _ | name _ | literal _ | symbol _ | slot _ =>
        simp [rows, closed, Scalar.tokens, hchain]
    | bound v => rfl
    | aggregate kind c => cases c <;> rfl
    | folded s => rfl

theorem scalar_nonempty (s : Scalar) : s.tokens ≠ [] := by
  cases s with
  | aggregate kind c => cases c <;> simp [Scalar.tokens, aggregateTokens]
  | column _ | bound _ | folded _ => simp [Scalar.tokens, Column.tokens]

theorem condition_reads {s : Scalar} (hs : s.Filled) {t : Token Value} {more : List (Token Value)}
    (hcomma : t ≠ .mark ',') (hclosing : t ≠ .mark ')')
    (h : ∀ n rest, more.length ≤ n → rest.head? ≠ some (.word "ESCAPE") →
      condition n s (t :: more ++ rest) = some (p, rest)) : Reads (s.tokens ++ t :: more) p where
  nonempty := by simp
  noRow := by
    intro n rest
    rw [List.append_assoc]
    exact no_row_scalar s hcomma hclosing n (more ++ rest)
  operand := by
    intro n rest hn hescape
    have hpos := List.length_pos_iff.mpr (scalar_nonempty s)
    rw [List.length_append, List.length_cons] at hn
    obtain ⟨m, rfl⟩ : ∃ m, n = m + 1 := ⟨n - 1, by omega⟩
    rw [List.append_assoc, operand_scalar hs]
    exact h m rest (by omega) hescape

theorem compare_reads {lhs rhs : Scalar} (hl : lhs.Filled) (hr : rhs.Filled) (op : Comparison) :
    Reads (lhs.tokens ++ .symbol op.text :: rhs.tokens) (.compare lhs op rhs) := by
  apply condition_reads hl (by simp) (by simp)
  intro n rest _ _
  simp [condition, comparison_text, scalar_read hr]

theorem null_reads {s : Scalar} (hs : s.Filled) (negated : Bool) :
    Reads (s.tokens ++ if negated then [.word "IS", .word "NOT", .word "NULL"]
      else [.word "IS", .word "NULL"]) (.isNull s negated) := by
  cases negated <;> exact condition_reads hs (by simp) (by simp) fun _ _ _ _ => rfl

theorem list_read {item : Reader α} {tokens : α → List (Token Value)} {xs : List α}
    (hne : xs ≠ []) (hread : ∀ x ∈ xs, ∀ rest, item (tokens x ++ rest) = some (x, rest))
    (hn : xs.length ≤ n) (rest : List (Token Value)) :
    closed (chain (.mark ',') item n) (listed (xs.map tokens) ++ .mark ')' :: rest) =
      some (xs, rest) := by
  have hitems : List.Forall₂ (fun ts x => ∀ rest, True → item (ts ++ rest) = some (x, rest))
      (xs.map tokens) xs := by
    rw [List.forall₂_map_left_iff, List.forall₂_same]
    exact fun x hx rest _ => hread x hx rest
  exact closed_read (chain_joined hitems (by simpa using hne) (fun _ => trivial) (by simpa using hn)
    trivial (by simp))

theorem listed_length {tokens : α → List (Token Value)} (h : ∀ x, tokens x ≠ []) (xs : List α) :
    xs.length ≤ (listed (xs.map tokens)).length := by
  have hall : ∀ ts ∈ xs.map tokens, ts ≠ [] := by
    intro ts hts
    obtain ⟨x, _, rfl⟩ := List.mem_map.mp hts
    exact h x
  simpa [listed] using (joined_length (.mark ',') hall).1

theorem in_reads {s : Scalar} (hs : s.Filled) {items : List Scalar} (hne : items ≠ [])
    (hitems : ∀ item ∈ items, item.Filled) (negated : Bool) :
    Reads (s.tokens ++ (if negated then [.word "NOT", .word "IN"] else [.word "IN"]) ++
      group (listed (items.map Scalar.tokens))) (.isIn s items negated) := by
  have hlength := listed_length scalar_nonempty items
  have hread : ∀ n rest, items.length ≤ n →
      closed (chain (.mark ',') scalar n)
        (listed (items.map Scalar.tokens) ++ .mark ')' :: rest) = some (items, rest) :=
    fun n rest hn => list_read hne (fun item hitem => scalar_read (hitems item hitem)) hn rest
  rw [List.append_assoc]
  cases negated with
  | false =>
    apply condition_reads hs (by simp) (by simp)
    intro n rest hn _
    have hlist := hread n rest (by simp [group] at hn; omega)
    simp [condition, group, hlist]
  | true =>
    apply condition_reads hs (by simp) (by simp)
    intro n rest hn _
    have hlist := hread n rest (by simp [group] at hn; omega)
    simp [condition, group, hlist]

/-- A pattern may be followed by its escape character, or by nothing that could be
taken for one. -/
theorem like_reads {s pattern : Scalar} (hs : s.Filled) (hp : pattern.Filled) (stated : Bool) :
    Reads (s.tokens ++ .word "LIKE" :: pattern.tokens ++
      if stated then [.word "ESCAPE", .literal "\\"] else []) (.like s pattern) := by
  rw [List.append_assoc, List.cons_append]
  apply condition_reads hs (by simp) (by simp)
  intro n rest _ hescape
  cases stated with
  | true => simp [condition, scalar_read hp]
  | false =>
    have hread := scalar_read hp rest
    cases rest with
    | nil => simp_all [condition]
    | cons t rest =>
      cases t with
      | word text =>
        have htext : text ≠ "ESCAPE" := by simpa using hescape
        simp [condition, hread, htext]
      | name _ | literal _ | symbol _ | mark _ | slot _ => simp [condition, hread]

theorem rows_reads {columns : List Column} {values : List Value} (hc : columns ≠ [])
    (hv : values ≠ []) (op : Comparison) :
    Reads (group (listed (columns.map Column.tokens)) ++
      .symbol op.text :: group (listed (values.map fun v => [.slot v])))
      (.compareRows columns op values) where
  nonempty := by simp
  noRow := by
    intro n rest
    rw [List.append_assoc]
    exact no_row_group _ _ n
  operand := by
    intro n rest hn _
    have hcolumns : columns.length ≤ (listed (columns.map Column.tokens)).length :=
      listed_length (fun c => scalar_nonempty (.column c)) columns
    have hvalues := listed_length (fun v : Value => List.cons_ne_nil (Token.slot v) []) values
    obtain ⟨m, rfl⟩ : ∃ m, n = m + 1 := ⟨n - 1, by simp [group] at hn; omega⟩
    simp only [group, List.length_append, List.length_cons, List.length_nil] at hn
    have hright := list_read hv (fun v _ => value_read v) (n := m) (by omega) rest
    have hleft := list_read hc (fun c _ => column_read c) (n := m) (by omega)
      (.symbol op.text :: .mark '(' ::
        (listed (values.map fun v => [.slot v]) ++ .mark ')' :: rest))
    simp [group, Reader.operand, rows, hleft, comparison_text, hright]

theorem related_reads (negated : Bool) (table : String) (tag : Alias) {ts : List (Token Value)}
    {conditions : List Pred}
    (h : ts = [] ∧ conditions = [] ∨
      ∃ us p, ts = .word "WHERE" :: us ∧ Reads us p ∧ conditions = [p]) :
    Reads ((if negated then [.word "NOT", .word "EXISTS"] else [.word "EXISTS"]) ++
      group (selectTokens [] [.word "1"] (tableTokens table tag) [ts]))
      (.related negated table tag conditions) := by
  have hquery : ∀ n rest, ts.length ≤ n →
      closed (subquery negated (connected n (Reader.operand n)))
        (selectTokens [] [.word "1"] (tableTokens table tag) [ts] ++ .mark ')' :: rest) =
          some (.related negated table tag conditions, rest) := by
    intro n rest hn
    apply closed_read
    rcases h with ⟨rfl, rfl⟩ | ⟨us, p, rfl, hread, rfl⟩
    · simp [selectTokens, tableTokens, subquery, alias_text]
    · have hlength : us.length ≤ n := by simp at hn; omega
      have hp : connected n (Reader.operand n) (us ++ .mark ')' :: rest) =
          some (p, .mark ')' :: rest) :=
        connected_single hread hlength (by simp) (by simp) (by simp)
      simp [selectTokens, tableTokens, subquery, alias_text, hp]
  constructor
  · cases negated <;> simp
  · intro n rest
    cases negated <;> exact no_row_word rfl n _
  · intro n rest hn _
    cases negated with
    | false =>
      obtain ⟨m, rfl⟩ : ∃ m, n = m + 1 := ⟨n - 1, by simp [group] at hn; omega⟩
      have hq := hquery m rest (by simp [group, selectTokens] at hn; omega)
      simp [group, Reader.operand, hq]
    | true =>
      obtain ⟨m, rfl⟩ : ∃ m, n = m + 1 := ⟨n - 1, by simp [group] at hn; omega⟩
      have hq := hquery m rest (by simp [group, selectTokens] at hn; omega)
      simp [group, Reader.operand, hq]

end

end Reader

section

variable (e : Engine)

theorem Pred.gathered_all_length (ps : List Pred) : (Pred.gatheredAll ps).length = ps.length := by
  induction ps with
  | nil => rfl
  | cons p ps ih => simp [Pred.gatheredAll, ih]

theorem Pred.tokens_all_ne_nil {ps : List Pred} (h : ps ≠ []) : Pred.tokensAll e ps ≠ [] := by
  cases ps with
  | nil => exact absurd rfl h
  | cons p ps => simp [Pred.tokensAll]

theorem Pred.all_of_several {ps : List Pred} (h : 2 ≤ ps.length) : Pred.all ps = .and ps := by
  match ps with
  | [] | [_] => simp at h
  | _ :: _ :: _ => rfl

theorem Pred.any_of_several {ps : List Pred} (h : 2 ≤ ps.length) : Pred.any ps = .or ps := by
  match ps with
  | [] | [_] => simp at h
  | _ :: _ :: _ => rfl

theorem Reader.truth_reads (value : Bool) :
    Reads [.word (if value then "TRUE" else "FALSE")] (.truth value) where
  nonempty := by simp
  noRow := by
    intro n rest
    apply no_row_word
    cases value <;> rfl
  operand := by
    intro n rest hn _
    obtain ⟨m, rfl⟩ : ∃ m, n = m + 1 := ⟨n - 1, by simp at hn; omega⟩
    cases value <;> simp [Reader.operand]

mutual

theorem Pred.reads (p : Pred) (h : p.Filled) : Reader.Reads (p.tokens e) p.gathered := by
  match p with
  | .truth value => exact Reader.truth_reads value
  | .compare lhs op rhs => exact Reader.compare_reads h.1 h.2 op
  | .compareRows columns op values => exact Reader.rows_reads h.1 h.2 op
  | .isNull s negated => exact Reader.null_reads h negated
  | .isIn s items negated => exact Reader.in_reads h.1 h.2.1 h.2.2 negated
  | .like s pattern => exact Reader.like_reads h.1 h.2 _
  | .and operands =>
    have hne : operands ≠ [] := List.ne_nil_of_length_pos (by have := h.1; omega)
    have hread := Reader.and_reads (Pred.reads_all operands h.2) (Pred.tokens_all_ne_nil e hne)
    rwa [Pred.all_of_several (by rw [Pred.gathered_all_length]; exact h.1)] at hread
  | .or operands =>
    have hne : operands ≠ [] := List.ne_nil_of_length_pos (by have := h.1; omega)
    have hread := Reader.or_reads (Pred.reads_all operands h.2) (Pred.tokens_all_ne_nil e hne)
    rwa [Pred.any_of_several (by rw [Pred.gathered_all_length]; exact h.1)] at hread
  | .not operand => exact Reader.not_reads (Pred.reads operand h)
  | .related negated table tag [] => exact Reader.related_reads negated table tag (.inl ⟨rfl, rfl⟩)
  | .related negated table tag (c :: cs) =>
    have hread := Reader.and_reads (Pred.reads_all (c :: cs) h) (by simp [Pred.tokensAll])
    exact Reader.related_reads negated table tag (.inr ⟨_, _, rfl, hread, rfl⟩)

theorem Pred.reads_all (ps : List Pred) (h : Pred.FilledAll ps) :
    List.Forall₂ Reader.Reads (Pred.tokensAll e ps) (Pred.gatheredAll ps) := by
  match ps with
  | [] => exact .nil
  | p :: ps => exact .cons (Pred.reads p h.1) (Pred.reads_all ps h.2)

end

/-- Reading is the inverse of writing: the tokens of a whole predicate are read
back as its own tree of connectives. -/
theorem Pred.read_tokens {p : Pred} (h : p.Filled) :
    Reader.predicate (p.tokens e) = some p.gathered := by
  have hread : Reader.connected (p.tokens e).length (Reader.operand (p.tokens e).length)
      (p.tokens e ++ []) = some (p.gathered, []) :=
    Reader.connected_single (p.reads e h) (Nat.le_refl _) (by simp) (by simp) (by simp)
  rw [List.append_nil] at hread
  rw [Reader.predicate, hread]

end

end QuerySql
