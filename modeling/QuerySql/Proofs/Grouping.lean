import Mathlib.Data.List.Infix
import QuerySql.Proofs.WellFormed

/-!
# Grouping

The predicates of a compiled query stand in its text so that the precedence of
SQL reads each of them back as it was combined: a connective never takes an
operand of its neighbour, and `NOT` covers its own operand. No group of a
predicate is empty.
-/

set_option autoImplicit false

namespace QuerySql

open Piece (word joined)

namespace Token

variable {α : Type}

/-- Puts values in the places of the placeholders, which are counted up from those
that are bound already. -/
def bind (placeholder : Nat → String) :
    Nat → List (Token String) → List Value → Option (List (Token Value))
  | _, [], [] => some []
  | _, [], _ :: _ => none
  | count, .slot text :: ts, values =>
    match values with
    | v :: values =>
      if text = placeholder (count + 1) then
        (bind placeholder (count + 1) ts values).map (.slot v :: ·)
      else none
    | [] => none
  | count, .word text :: ts, values => (bind placeholder count ts values).map (.word text :: ·)
  | count, .name text :: ts, values => (bind placeholder count ts values).map (.name text :: ·)
  | count, .literal text :: ts, values =>
    (bind placeholder count ts values).map (.literal text :: ·)
  | count, .symbol text :: ts, values =>
    (bind placeholder count ts values).map (.symbol text :: ·)
  | count, .mark c :: ts, values => (bind placeholder count ts values).map (.mark c :: ·)

theorem bind_written (placeholder : Nat → String) (count : Nat) (ts : List (Token Value)) :
    bind placeholder count (written placeholder count ts) (slots ts) = some ts := by
  induction ts generalizing count with
  | nil => rfl
  | cons t ts ih =>
    cases t with
    | slot v =>
      have hrest := ih (count + 1)
      simpa [written, map, slots, value?, bind] using hrest
    | word _ | name _ | literal _ | symbol _ | mark _ =>
      change (bind placeholder count (written placeholder count ts) (slots ts)).map _ = _
      rw [ih]
      rfl

theorem written_eq_append {placeholder : Nat → String} {count : Nat} {ts : List (Token α)}
    {xs ys : List (Token String)} (h : written placeholder count ts = xs ++ ys) :
    ∃ us vs, ts = us ++ vs ∧ xs = written placeholder count us ∧
      ys = written placeholder (count + (slots us).length) vs := by
  induction xs generalizing count ts with
  | nil => exact ⟨[], ts, rfl, rfl, h.symm⟩
  | cons x xs ih =>
    cases ts with
    | nil => cases h
    | cons t ts =>
      rw [written, List.cons_append, List.cons.injEq] at h
      obtain ⟨us, vs, rfl, rfl, rfl⟩ := ih h.2
      refine ⟨t :: us, vs, rfl, ?_, ?_⟩
      · rw [written, h.1]
      · have hslots : slots (t :: us) = slots [t] ++ slots us := slots_append [t] us
        rw [hslots, List.length_append, Nat.add_assoc]

def emptyGroup : List (Token α) := [.mark '(', .mark ')']

theorem map_eq_mark {β : Type} {f : α → β} {t : Token α} {c : Char} (h : t.map f = .mark c) :
    t = .mark c := by
  cases t with
  | mark c' =>
    cases h
    rfl
  | word _ | name _ | literal _ | symbol _ | slot _ => cases h

theorem empty_group_written {placeholder : Nat → String} {count : Nat} {ts : List (Token α)}
    (h : emptyGroup <:+: written placeholder count ts) : emptyGroup <:+: ts := by
  obtain ⟨before, after, hts⟩ := h
  rw [List.append_assoc] at hts
  obtain ⟨us, vs, rfl, -, hvs⟩ := written_eq_append hts.symm
  cases vs with
  | nil => cases hvs
  | cons t vs =>
    cases vs with
    | nil => simp [emptyGroup, written] at hvs
    | cons u vs =>
      simp only [emptyGroup, written, List.cons_append, List.nil_append, List.cons.injEq] at hvs
      rw [map_eq_mark hvs.1.symm, map_eq_mark hvs.2.1.symm]
      exact ⟨us, vs, by simp [emptyGroup]⟩

/-- No group is empty, whatever stands before the tokens or after them. -/
structure Tidy (ts : List (Token α)) : Prop where
  nonempty : ts ≠ []
  head : ts.head? ≠ some (.mark ')')
  last : ts.getLast? ≠ some (.mark '(')
  inside : ¬ emptyGroup <:+: ts

namespace Tidy

variable {xs ys : List (Token α)}

theorem plain (hne : xs ≠ []) (ho : .mark '(' ∉ xs) (hc : .mark ')' ∉ xs) : Tidy xs where
  nonempty := hne
  head := fun h => hc (List.mem_of_head? h)
  last := fun h => ho (List.mem_of_getLast? h)
  inside := fun h => ho (h.subset List.mem_cons_self)

theorem append (hx : Tidy xs) (hy : Tidy ys) : Tidy (xs ++ ys) := by
  refine ⟨by simp [hx.nonempty], ?_, ?_, ?_⟩
  · rw [List.head?_append_of_ne_nil _ hx.nonempty]
    exact hx.head
  · rw [List.getLast?_append_of_ne_nil _ hy.nonempty]
    exact hy.last
  · rw [List.infix_append_iff]
    rintro (h | h | ⟨first, second, hsplit, hsuffix, hprefix⟩)
    · exact hx.inside h
    · exact hy.inside h
    · -- the border goes through the group
      match first, hsplit with
      | [], hsplit =>
        rw [List.nil_append] at hsplit
        exact hy.inside (hsplit ▸ hprefix.isInfix)
      | [t], hsplit =>
        simp only [emptyGroup, List.singleton_append, List.cons.injEq] at hsplit
        obtain ⟨init, rfl⟩ := hsuffix
        exact hx.last (by simp [hsplit.1])
      | t :: u :: first, hsplit =>
        have hfirst : t :: u :: first = emptyGroup := by
          simp [emptyGroup] at hsplit ⊢
          exact ⟨hsplit.1.symm, hsplit.2.1.symm, hsplit.2.2.1⟩
        exact hx.inside (hfirst ▸ hsuffix.isInfix)

theorem group (h : Tidy xs) : Tidy (Token.group xs) := by
  have hlast : (Token.group xs).getLast? = some (.mark ')') := List.getLast?_concat
  refine ⟨by simp [Token.group], by simp [Token.group], by simp [hlast], ?_⟩
  rw [Token.group, List.cons_append, List.infix_cons_iff, List.infix_concat_iff]
  rintro (hfirst | hlast | hinside)
  · obtain ⟨t, ts, rfl⟩ := List.exists_cons_of_ne_nil h.nonempty
    obtain ⟨rest, hrest⟩ := hfirst
    simp only [emptyGroup, List.cons_append, List.cons.injEq] at hrest
    exact h.head (by simp [hrest.2.1])
  · obtain ⟨init, hinit⟩ := hlast
    have hconcat : init ++ [.mark '('] ++ [.mark ')'] = xs ++ [.mark ')'] := by
      rw [← hinit]
      simp [emptyGroup]
    exact h.last (by simp [← List.append_cancel_right hconcat])
  · exact h.inside hinside

theorem joined {separator : Token α} (hs : Tidy [separator]) {tss : List (List (Token α))}
    (hne : tss ≠ []) (h : ∀ ts ∈ tss, Tidy ts) : Tidy (Token.joined separator tss) := by
  have hrest : ∀ (tss : List (List (Token α))) (xs : List (Token α)), Tidy xs →
      (∀ ts ∈ tss, Tidy ts) → Tidy (xs ++ tss.flatMap (separator :: ·)) := by
    intro tss
    induction tss with
    | nil => exact fun xs hx _ => by simpa using hx
    | cons ts tss ih =>
      intro xs hx hall
      rw [List.forall_mem_cons] at hall
      have hnext := ih _ (hx.append (hs.append hall.1)) hall.2
      simpa using hnext
  cases tss with
  | nil => exact absurd rfl hne
  | cons ts tss =>
    rw [List.forall_mem_cons] at h
    exact hrest tss ts h.1 h.2

theorem combined (operator : String) {tss : List (List (Token α))} (hne : tss ≠ [])
    (h : ∀ ts ∈ tss, Tidy ts) : Tidy (Token.combined operator tss) := by
  have hword : Tidy [(.word operator : Token α)] := .plain (by simp) (by simp) (by simp)
  match tss with
  | [] => exact absurd rfl hne
  | [ts] => exact h ts List.mem_cons_self
  | ts :: us :: tss => exact (joined hword hne h).group

theorem listed {β : Type} {tokens : β → List (Token α)} {xs : List β} (hne : xs ≠ [])
    (h : ∀ x, Tidy (tokens x)) : Tidy (Token.listed (xs.map tokens)) := by
  have hcomma : Tidy [(.mark ',' : Token α)] := .plain (by simp) (by simp) (by simp)
  refine joined hcomma (by simpa using hne) fun ts hts => ?_
  obtain ⟨x, _, rfl⟩ := List.mem_map.mp hts
  exact h x

end Tidy

end Token

section

open Token (Tidy)

variable (e : Engine)

theorem Column.tidy (c : Column) : Tidy c.tokens :=
  .plain (by simp [Column.tokens]) (by simp [Column.tokens]) (by simp [Column.tokens])

theorem Scalar.tidy (s : Scalar) : Tidy s.tokens := by
  have hword : ∀ text, Tidy [(.word text : Token Value)] :=
    fun _ => .plain (by simp) (by simp) (by simp)
  induction s with
  | column c => exact c.tidy
  | bound v =>
    rw [Scalar.tokens]
    exact .plain (by simp) (by simp) (by simp)
  | aggregate kind c =>
    cases c with
    | none =>
      have hrows : Tidy [(.symbol "*" : Token Value)] := .plain (by simp) (by simp) (by simp)
      exact (hword "COUNT").append hrows.group
    | some c => exact (hword _).append c.tidy.group
  | folded s ih => exact (hword "LOWER").append ih.group

theorem related_tidy (negated : Bool) (table : String) (tag : Alias) {ts : List (Token Value)}
    (h : ts = [] ∨ Tidy ts) :
    Tidy ((if negated then [.word "NOT", .word "EXISTS"] else [.word "EXISTS"]) ++
      Token.group (selectTokens [] [.word "1"] (tableTokens table tag) [ts])) := by
  have hstart : Tidy ((if negated then [.word "NOT", .word "EXISTS"] else [.word "EXISTS"]) :
      List (Token Value)) := by
    cases negated <;> exact .plain (by simp) (by simp) (by simp)
  have hselect : Tidy ([.word "SELECT", .word "1", .word "FROM", .name table, .word "AS",
      .word tag.text] : List (Token Value)) := .plain (by simp) (by simp) (by simp)
  rcases h with rfl | h
  · exact hstart.append hselect.group
  · have hquery := hstart.append (hselect.append h).group
    simpa [selectTokens, tableTokens] using hquery

mutual

theorem Pred.tidy (p : Pred) (h : p.Filled) : Tidy (p.tokens e) := by
  have hword : ∀ text, Tidy [(.word text : Token Value)] :=
    fun _ => .plain (by simp) (by simp) (by simp)
  have hop : ∀ op : Comparison, Tidy [(.symbol op.text : Token Value)] :=
    fun _ => .plain (by simp) (by simp) (by simp)
  match p with
  | .truth value => exact hword _
  | .compare lhs op rhs => exact lhs.tidy.append ((hop op).append rhs.tidy)
  | .compareRows columns op values =>
    have hcolumns := Tidy.listed h.1 Column.tidy
    have hvalues := Tidy.listed h.2 fun v => (Scalar.bound v).tidy
    exact hcolumns.group.append ((hop op).append hvalues.group)
  | .isNull s negated =>
    apply s.tidy.append
    cases negated <;> exact .plain (by simp) (by simp) (by simp)
  | .isIn s items negated =>
    have hin : Tidy ((if negated then [.word "NOT", .word "IN"] else [.word "IN"]) :
        List (Token Value)) := by
      cases negated <;> exact .plain (by simp) (by simp) (by simp)
    exact (s.tidy.append hin).append (Tidy.listed h.2.1 Scalar.tidy).group
  | .like s pattern =>
    have hlike := s.tidy.append ((hword "LIKE").append pattern.tidy)
    have hescape : Tidy ([.word "ESCAPE", .literal "\\"] : List (Token Value)) :=
      .plain (by simp) (by simp) (by simp)
    cases hstated : e.dialect.statesLikeEscape with
    | false => simpa [Pred.tokens, hstated] using hlike
    | true => simpa [Pred.tokens, hstated] using hlike.append hescape
  | .and operands =>
    have hne : operands ≠ [] := List.ne_nil_of_length_pos (by have := h.1; omega)
    exact .combined "AND" (Pred.tokens_all_ne_nil e hne) (Pred.tidy_all operands h.2)
  | .or operands =>
    have hne : operands ≠ [] := List.ne_nil_of_length_pos (by have := h.1; omega)
    exact .combined "OR" (Pred.tokens_all_ne_nil e hne) (Pred.tidy_all operands h.2)
  | .not operand => exact (hword "NOT").append (Pred.tidy operand h).group
  | .related negated table tag [] => exact related_tidy negated table tag (.inl rfl)
  | .related negated table tag (c :: cs) =>
    have hall := Tidy.combined "AND" (by simp [Pred.tokensAll]) (Pred.tidy_all (c :: cs) h)
    exact related_tidy negated table tag (.inr ((hword "WHERE").append hall))

theorem Pred.tidy_all (ps : List Pred) (h : Pred.FilledAll ps) :
    ∀ ts ∈ Pred.tokensAll e ps, Tidy ts := by
  match ps with
  | [] => exact List.forall_mem_nil _
  | p :: ps => exact List.forall_mem_cons.mpr ⟨Pred.tidy p h.1, Pred.tidy_all ps h.2⟩

end

theorem Fragment.bindings_of_signs (f : Fragment) :
    f.bindings = f.signs.filterMap Sign.value? := by
  have hparts : ∀ parts : List Part,
      parts.filterMap Part.value? = (parts.flatMap Part.signs).filterMap Sign.value? := by
    intro parts
    induction parts with
    | nil => rfl
    | cons part parts ih =>
      rw [List.flatMap_cons, List.filterMap_append, ← ih]
      cases part with
      | sql text => rw [Part.signs, Sign.values_text]; rfl
      | bound v => rfl
  exact hparts f.parts

def readPredicate (bound : Nat) (text : String) (values : List Value) : Option Pred := do
  let tokens ← Lexer.lex e.lexis text.toList
  let tokens ← Token.bind e.dialect.placeholder bound tokens values
  Reader.predicate tokens

/-- By the precedence of SQL the text is the predicate, and no group in it is
empty. -/
structure ReadAs (bound : Nat) (text : String) (values : List Value) (p : Pred) : Prop where
  read : readPredicate e bound text values = some p
  groups : ∀ tokens, Lexer.lex e.lexis text.toList = some tokens → ¬ Token.emptyGroup <:+: tokens

theorem Pred.spells (p : Pred) : Spells e (p.render e.dialect).signs (p.tokens e) := by
  rw [← Pred.signs_outline]
  exact p.spelled e

theorem Pred.read_text {p : Pred} (h : p.Filled) (bound : Nat) :
    ReadAs e bound (Fragment.textFrom e.dialect.placeholder bound (p.render e.dialect).parts)
      (p.render e.dialect).bindings p.gathered := by
  have hspells := p.spells e
  have hlexed := hspells.lexed bound
  have htext : Fragment.textFrom e.dialect.placeholder bound (p.render e.dialect).parts =
      Sign.write e.dialect.placeholder bound (p.render e.dialect).signs :=
    Fragment.text_of_signs e.dialect.placeholder bound (p.render e.dialect).parts
  rw [htext, Fragment.bindings_of_signs, hspells.values]
  constructor
  · simp [readPredicate, hlexed, Token.bind_written, Pred.read_tokens e h]
  · intro tokens htokens hempty
    rw [hlexed, Option.some.injEq] at htokens
    subst htokens
    exact (p.tidy e h).inside (Token.empty_group_written hempty)

end

namespace Piece

theorem signs_infix {ps qs : List Piece} (h : ps <:+: qs) : signsAll ps <:+: signsAll qs := by
  obtain ⟨before, after, rfl⟩ := h
  exact ⟨signsAll before, signsAll after, by simp⟩

theorem signs_infix_of_mem {q : Piece} {qs : List Piece} (h : q ∈ qs) :
    q.signs <:+: signsAll qs := by
  obtain ⟨before, after, rfl⟩ := List.mem_iff_append.mp h
  exact ⟨signsAll before, signsAll after, by simp⟩

theorem infix_joined {separator : String} {ps : List Piece} {pss : List (List Piece)}
    (h : ps ∈ pss) : ps <:+: joined separator pss := by
  obtain ⟨before, after, rfl⟩ := List.mem_iff_append.mp h
  cases before with
  | nil => exact ⟨[], _, rfl⟩
  | cons qs before =>
    refine ⟨qs ++ before.flatMap (word separator :: ·) ++ [word separator],
      after.flatMap (word separator :: ·), ?_⟩
    simp [joined]

theorem projection_occurs (lead projection source : List Piece)
    (clauses : List (Option (List Piece))) :
    signsAll projection <:+: (select lead projection source clauses).signs := by
  rw [select, signs]
  exact signs_infix ⟨_, _, (List.append_assoc _ _ _).symm⟩

theorem clause_occurs (lead projection source : List Piece) {clauses : List (Option (List Piece))}
    {ps : List Piece} (h : some ps ∈ clauses) :
    signsAll ps <:+: (select lead projection source clauses).signs := by
  have hmem : ps ∈ clauses.filterMap id := List.mem_filterMap.mpr ⟨some ps, h, rfl⟩
  obtain ⟨before, after, hclauses⟩ := List.mem_iff_append.mp hmem
  have hflat : ps <:+: (clauses.filterMap id).flatMap fun ps => word " " :: ps := by
    rw [hclauses]
    exact ⟨(before.flatMap fun ps => word " " :: ps) ++ [word " "],
      after.flatMap fun ps => word " " :: ps, by simp⟩
  rw [select, signs]
  exact signs_infix (hflat.trans (List.suffix_append _ _).isInfix)

end Piece

section

variable (d : Dialect)

theorem Body.predicate_occurs {b : Body} {p : Pred} (h : p ∈ b.predicates)
    (projection lead : List Piece) :
    Piece.signsAll (p.outline d) <:+: (b.outline d projection lead).signs := by
  have hclause : ∀ text, some (word text :: p.outline d) ∈
      [b.filter.map fun p => word "WHERE " :: p.outline d,
        listClause "GROUP BY " (b.groupBy.map (·.outline d)),
        b.having.map fun p => word "HAVING " :: p.outline d,
        listClause "ORDER BY " (b.orderBy.map (·.outline d)),
        d.limitOutline b.take b.skip] →
      Piece.signsAll (p.outline d) <:+: (b.outline d projection lead).signs := by
    intro text hmem
    have hpieces : p.outline d <:+: word text :: p.outline d := ⟨[word text], [], by simp⟩
    exact (Piece.signs_infix hpieces).trans (Piece.clause_occurs lead projection _ hmem)
  rcases List.mem_append.mp h with h | h
  · apply hclause "WHERE "
    simp [Option.mem_toList.mp h]
  · apply hclause "HAVING "
    simp [Option.mem_toList.mp h]

mutual

theorem Projection.predicate_occurs (p : Projection) {q : Pred} (h : q ∈ p.predicates) :
    Piece.signsAll (q.outline d) <:+: Piece.signsAll (p.outline d) := by
  match p with
  | .column _ | .aggregate _ _ _ => exact absurd h List.not_mem_nil
  | .relation name toMany fold columns body =>
    have hbody : Piece.signsAll (q.outline d) <:+:
        (body.outline d (joined ", " (Projection.outlineAll d columns)) []).signs := by
      rcases List.mem_append.mp h with h | h
      · obtain ⟨o, ho, hocc⟩ := Projection.predicates_occur columns h
        exact (hocc.trans (Piece.signs_infix (Piece.infix_joined ho))).trans
          (Piece.projection_occurs _ _ _ _)
      · exact Body.predicate_occurs d h _ _
    -- the rows are folded by a query around the body's own
    have hquery : ∀ pieces : List Piece, ∀ inner ∈ pieces,
        inner.signs <:+: (Piece.query pieces).signs := by
      intro pieces inner hinner
      rw [Piece.signs]
      exact Piece.signs_infix_of_mem hinner
    rw [Projection.outline]
    exact (hbody.trans (hquery _ _ (by simp))).trans
      (Piece.signs_infix_of_mem (List.mem_cons_of_mem _ List.mem_cons_self))

theorem Projection.predicates_occur (ps : List Projection) {q : Pred}
    (h : q ∈ Projection.predicatesAll ps) : ∃ o ∈ Projection.outlineAll d ps,
      Piece.signsAll (q.outline d) <:+: Piece.signsAll o := by
  match ps with
  | [] => exact absurd h List.not_mem_nil
  | p :: ps =>
    rcases List.mem_append.mp h with h | h
    · exact ⟨_, List.mem_cons_self, Projection.predicate_occurs p h⟩
    · obtain ⟨o, ho, hocc⟩ := Projection.predicates_occur ps h
      exact ⟨o, List.mem_cons_of_mem _ ho, hocc⟩

end

theorem Statement.predicate_occurs {st : Statement} {p : Pred} (h : p ∈ st.predicates) :
    (p.render d).signs <:+: (st.render d).signs := by
  rw [← Pred.signs_outline, ← Statement.signs_outline]
  have hcolumns : ∀ columns : List Projection, p ∈ Projection.predicatesAll columns →
      Piece.signsAll (p.outline d) <:+:
        Piece.signsAll (joined ", " (Projection.outlineAll d columns)) := by
    intro columns hp
    obtain ⟨o, ho, hocc⟩ := Projection.predicates_occur d columns hp
    exact hocc.trans (Piece.signs_infix (Piece.infix_joined ho))
  have hfilter : ∀ filter : Option Pred, p ∈ filter.toList →
      p.outline d <:+: filterOutline d filter := by
    intro filter hp
    cases Option.mem_toList.mp hp
    exact ⟨[word " WHERE "], [], by simp [filterOutline]⟩
  cases st with
  | select columns distinct body =>
    rcases List.mem_append.mp h with h | h
    · exact (hcolumns columns h).trans (Piece.projection_occurs _ _ _ _)
    · exact Body.predicate_occurs d h _ _
  | overPage columns tag page body =>
    rw [Statement.outline, Piece.signs]
    rcases List.mem_append.mp h with h | h
    · exact (hcolumns columns h).trans (Piece.signs_infix ⟨[word "SELECT "], _, rfl⟩)
    · have hbody := Body.predicate_occurs d h (joined ", " (page.map (·.outline d))) []
      exact hbody.trans (Piece.signs_infix_of_mem (by simp))
  | insert table assignments => exact absurd h List.not_mem_nil
  | update table tag assignments filter =>
    rw [Statement.outline, Piece.signs]
    exact Piece.signs_infix ((hfilter filter h).trans (List.suffix_append _ _).isInfix)
  | delete table tag filter =>
    rw [Statement.outline, Piece.signs]
    exact Piece.signs_infix ((hfilter filter h).trans (List.suffix_append _ _).isInfix)

end

/-- The predicate stands in the text of a prepared statement, and what stands there
is read as it with the parameters that belong to its placeholders. -/
def Prepared.States (e : Engine) (prepared : Prepared) (p : Pred) : Prop :=
  ∃ (before text after : String) (earlier values later : List Value),
    prepared.sql = before ++ text ++ after ∧ prepared.params = earlier ++ values ++ later ∧
      text = Fragment.textFrom e.dialect.placeholder earlier.length (p.render e.dialect).parts ∧
        ReadAs e earlier.length text values p.gathered

theorem Statement.prepared_states (e : Engine) {st : Statement} {p : Pred}
    (h : p ∈ st.predicates) (hp : p.Filled) :
    ((st.render e.dialect).prepare e.dialect).States e p := by
  obtain ⟨x, y, hsigns⟩ := Statement.predicate_occurs e.dialect h
  have hsql : ((st.render e.dialect).prepare e.dialect).sql =
      Sign.write e.dialect.placeholder 0 (st.render e.dialect).signs :=
    Fragment.text_of_signs e.dialect.placeholder 0 (st.render e.dialect).parts
  have hparams : ((st.render e.dialect).prepare e.dialect).params =
      (st.render e.dialect).signs.filterMap Sign.value? :=
    (List.nil_append _).trans (Fragment.bindings_of_signs _)
  have htext := Fragment.text_of_signs e.dialect.placeholder (x.filterMap Sign.value?).length
    (p.render e.dialect).parts
  refine ⟨Sign.write e.dialect.placeholder 0 x, _, Sign.write e.dialect.placeholder
      ((x ++ (p.render e.dialect).signs).filterMap Sign.value?).length y,
    x.filterMap Sign.value?, (p.render e.dialect).bindings, y.filterMap Sign.value?, ?_, ?_, rfl,
    p.read_text e hp _⟩
  · rw [hsql, ← hsigns, htext, Sign.write_append, Sign.write_append, Nat.zero_add, Nat.zero_add]
    rfl
  · rw [hparams, ← hsigns, List.filterMap_append, List.filterMap_append,
      Fragment.bindings_of_signs]

theorem Compiler.predicate_ok {c : Compiler} {model : String} {filter : Json.Entries}
    {f : Fragment} (h : c.filter model filter = .ok (some f)) : ∃ p,
      c.predicate model filter = .ok (some p) ∧ f = p.render c.dialect ∧ p.Filled := by
  have hfilter := h
  simp only [Compiler.filter, except_bind_ok, except_pure_ok] at hfilter
  obtain ⟨q, hq, hf⟩ := hfilter
  obtain ⟨p, rfl, rfl⟩ := Option.map_eq_some_iff.mp hf.symm
  refine ⟨p, hq, rfl, ?_⟩
  simp only [Compiler.predicate, except_map_ok] at hq
  obtain ⟨⟨o, b⟩, hrun, ho⟩ := hq
  obtain ⟨m, hm, hcompile⟩ := Compiler.run_ok hrun
  obtain ⟨ps, hps, rfl⟩ := Filter.compile_runs hcompile
  have hall := Pred.WellFormed.optional (Filter.runs_well_formed hps (Schema.model_mem hm))
  exact (hall p (Option.mem_toList.mpr ho.symm)).filled

/-- The precedence of SQL reads a predicate back as it was combined, whether it is
compiled alone or stands in a statement: as a filter, with a cursor or not, as a
condition on groups, or in the subquery of a relation. -/
theorem predicates_are_read_back (c : Compiler) (e : Engine) (model : String)
    (hd : c.dialect = e.dialect) :
    (∀ filter f bound, c.filter model filter = .ok (some f) → ∃ p,
      c.predicate model filter = .ok (some p) ∧ f = p.render c.dialect ∧
        ReadAs e bound.length (f.prepareAfter c.dialect bound).sql f.bindings p.gathered) ∧
    ∀ op args prepared, c.compile model op args = .ok prepared → ∃ st as,
      c.statement model op args = .ok (st, as) ∧
        prepared = (st.render c.dialect).prepare c.dialect ∧
          ∀ p ∈ st.predicates, prepared.States e p := by
  constructor
  · intro filter f bound h
    obtain ⟨p, hp, rfl, hfilled⟩ := Compiler.predicate_ok h
    refine ⟨p, hp, rfl, ?_⟩
    rw [hd]
    exact p.read_text e hfilled bound.length
  · intro op args prepared h
    obtain ⟨st, as, hst, rfl⟩ := Compiler.compile_ok h
    have hformed := Compiler.statement_well_formed hst
    refine ⟨st, as, hst, rfl, fun p hp => ?_⟩
    rw [hd]
    exact Statement.prepared_states e hp (hformed.filled p hp)

namespace Sample

def nested : Json.Entries :=
  [("OR", .arr [.obj [("name", .str "a"), ("age", .obj [("gt", .num (.int 1)),
      ("not", .obj [("in", .arr [.num (.int 7)])])])],
    .obj [("NOT", .obj [("posts", .obj [("every", .obj [("title", .obj
      [("contains", .str "x")])])])])]]),
    ("age", .null)]

def grouped : Args where
  grouping := some ["name"]
  filter := some [("age", .obj [("gt", .num (.int 1)), ("lt", .num (.int 9))])]
  having := some [("NOT", .obj [("OR", .arr [.obj [("age", .obj [("_avg", .num (.int 3))])],
    .obj [("name", .str "b")]])])]
  count := some (.bool true)

end Sample

theorem sample_predicates_are_read_back : ∃ f prepared,
    (Sample.compiler .postgresql).filter "User" Sample.nested = .ok (some f) ∧
      (Sample.compiler .postgresql).compile "User" .groupBy Sample.grouped = .ok prepared ∧
      (∃ p, (Sample.compiler .postgresql).predicate "User" Sample.nested = .ok (some p) ∧
        ReadAs .postgresql 0 (f.prepareAfter .postgresql []).sql f.bindings p.gathered) ∧
      ∃ st as, (Sample.compiler .postgresql).statement "User" .groupBy Sample.grouped =
        .ok (st, as) ∧ st.predicates.length = 2 ∧
          ∀ p ∈ st.predicates, prepared.States .postgresql p := by
  have hback := predicates_are_read_back (Sample.compiler .postgresql) .postgresql "User" rfl
  obtain ⟨p, hp, -, hread⟩ := hback.1 Sample.nested _ [] rfl
  obtain ⟨st, as, hst, -, hstates⟩ := hback.2 .groupBy Sample.grouped _ rfl
  have hlength : ((Sample.compiler .postgresql).statement "User" .groupBy Sample.grouped).map
      (fun r => r.1.predicates.length) = .ok 2 := rfl
  rw [hst] at hlength
  exact ⟨_, _, rfl, rfl, ⟨p, hp, hread⟩, st, as, hst, Except.ok.inj hlength, hstates⟩

end QuerySql
