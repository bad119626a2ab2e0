import QuerySql.Proofs.Grouping

/-!
# Naming

Whatever characters the names of a schema consist of, they stay inside of their
quotes: the text of a compiled query is lexed to its end, each quoted name and
each string is a name of the schema or of a result column, and the placeholders
outside of quotes are numbered as the parameters are.
-/

set_option autoImplicit false

namespace QuerySql

namespace Token

variable {α : Type}

def text? : Token α → Option String
  | .name text | .literal text => some text
  | _ => none

/-- The strings that belong to the language: the escape character of a pattern, and
the document of an array without elements. -/
def Fixed (before : List (Token α)) (t : Token α) (after : List (Token α)) : Prop :=
  t = .literal "\\" ∧ before.getLast? = some (.word "ESCAPE") ∨
    t = .literal "[]" ∧ [.symbol "::", .word "json"] <+: after

/-- What stands between quotes is of the given kind, strings of the language apart. -/
def Named (N : String → Prop) (ts : List (Token α)) : Prop :=
  ∀ before t after, ts = before ++ t :: after → ∀ n ∈ t.text?, N n ∨ Fixed before t after

namespace Named

variable {N : String → Prop} {xs ys : List (Token α)}

theorem of_texts (h : ∀ t ∈ xs, ∀ n ∈ t.text?, N n) : Named N xs := by
  rintro before t after rfl n hn
  exact .inl (h t (by simp) n hn)

theorem append (hx : Named N xs) (hy : Named N ys) : Named N (xs ++ ys) := by
  intro before t after hsplit n hn
  rcases List.append_eq_append_iff.mp hsplit with ⟨rest, rfl, rfl⟩ | ⟨rest, rfl, hrest⟩
  · -- the token stands on the right, with all of the left before it
    rcases hy rest t after rfl n hn with hN | ⟨ht, hlast⟩ | hfixed
    · exact .inl hN
    · exact .inr (.inl ⟨ht, by rw [List.getLast?_append, hlast]; rfl⟩)
    · exact .inr (.inr hfixed)
  · cases rest with
    | nil =>
      rcases hy [] t after hrest.symm n hn with hN | ⟨_, hlast⟩ | hfixed
      · exact .inl hN
      · cases hlast
      · exact .inr (.inr hfixed)
    | cons u rest =>
      obtain ⟨rfl, rfl⟩ := List.cons.inj hrest
      rcases hx before t rest rfl n hn with hN | hfixed | ⟨ht, hnext⟩
      · exact .inl hN
      · exact .inr (.inl hfixed)
      · exact .inr (.inr ⟨ht, hnext.trans (List.prefix_append rest ys)⟩)

theorem nil : Named N ([] : List (Token α)) := of_texts (List.forall_mem_nil _)

theorem cons {t : Token α} (ht : ∀ n ∈ t.text?, N n) (h : Named N xs) : Named N (t :: xs) := by
  have hsingle : Named N [t] := of_texts (List.forall_mem_singleton.mpr ht)
  exact hsingle.append h

theorem keyword {t : Token α} (ht : t.text? = none) (h : Named N xs) : Named N (t :: xs) :=
  cons (by simp [ht]) h

theorem group (h : Named N xs) : Named N (Token.group xs) :=
  (keyword rfl h).append (of_texts (by simp [text?]))

theorem joined {separator : Token α} (hs : separator.text? = none) {tss : List (List (Token α))}
    (h : ∀ ts ∈ tss, Named N ts) : Named N (Token.joined separator tss) := by
  have hrest : ∀ tss : List (List (Token α)), (∀ ts ∈ tss, Named N ts) →
      Named N (tss.flatMap (separator :: ·)) := by
    intro tss h
    induction tss with
    | nil => exact nil
    | cons ts tss ih =>
      rw [List.forall_mem_cons] at h
      exact (keyword hs h.1).append (ih h.2)
  cases tss with
  | nil => exact nil
  | cons ts tss =>
    rw [List.forall_mem_cons] at h
    exact h.1.append (hrest tss h.2)

theorem combined (operator : String) {tss : List (List (Token α))} (h : ∀ ts ∈ tss, Named N ts) :
    Named N (Token.combined operator tss) := by
  have hjoined : Named N (Token.joined (.word operator) tss) := joined rfl h
  match tss with
  | [] => exact hjoined.group
  | [ts] => exact h ts List.mem_cons_self
  | ts :: us :: tss => exact hjoined.group

theorem listed {β : Type} {tokens : β → List (Token α)} {xs : List β}
    (h : ∀ x ∈ xs, Named N (tokens x)) : Named N (Token.listed (xs.map tokens)) := by
  refine joined rfl fun ts hts => ?_
  obtain ⟨x, hx, rfl⟩ := List.mem_map.mp hts
  exact h x hx

theorem written (placeholder : Nat → String) (count : Nat) (h : Named N xs) :
    Named N (Token.written placeholder count xs) := by
  intro before t after hsplit n hn
  obtain ⟨us, vs, rfl, rfl, hvs⟩ := written_eq_append hsplit
  cases vs with
  | nil => cases hvs
  | cons v vs =>
    rw [Token.written, List.cons.injEq] at hvs
    obtain ⟨rfl, rfl⟩ := hvs
    have htext : n ∈ v.text? := by
      cases v <;> exact hn
    rcases h us v vs rfl n htext with hN | ⟨rfl, hlast⟩ | ⟨rfl, rest, rfl⟩
    · exact .inl hN
    · obtain ⟨init, rfl⟩ := List.getLast?_eq_some_iff.mp hlast
      refine .inr (.inl ⟨rfl, ?_⟩)
      rw [written_append]
      exact List.getLast?_concat
    · exact .inr (.inr ⟨rfl, _, rfl⟩)

end Named

end Token

section

open Token (Named)

variable {N : String → Prop}

theorem Column.named {c : Column} (h : N c.name) : Named N c.tokens :=
  .of_texts (by simpa [Column.tokens, Token.text?] using h)

theorem columns_named {cs : List Column} (h : ∀ n ∈ cs.map (·.name), N n) :
    Named N (Token.listed (cs.map Column.tokens)) :=
  .listed fun c hc => Column.named (h _ (List.mem_map.mpr ⟨c, hc, rfl⟩))

theorem aggregate_named (kind : Aggregate) {c : Option Column}
    (h : ∀ n ∈ c.toList.map (·.name), N n) : Named N (aggregateTokens kind c) := by
  cases c with
  | none => exact .of_texts (by simp [aggregateTokens, Token.group, Token.text?])
  | some c => exact .keyword rfl (Column.named (h c.name (by simp))).group

theorem Scalar.named_tokens {s : Scalar} (h : ∀ n ∈ s.names, N n) : Named N s.tokens := by
  induction s with
  | column c => exact Column.named (h c.name (by simp [Scalar.names]))
  | aggregate kind c => exact aggregate_named kind h
  | bound v => exact .of_texts (by simp [Scalar.tokens, Token.text?])
  | folded s ih => exact .keyword rfl (ih h).group

theorem table_named {name : String} (h : N name) (tag : Alias) :
    Named N (tableTokens name tag) :=
  .of_texts (by simpa [tableTokens, Token.text?] using h)

theorem escape_named : Named N ([.word "ESCAPE", .literal "\\"] : List (Token Value)) := by
  intro before t after hsplit n hn
  match before, hsplit with
  | [], hsplit =>
    obtain ⟨rfl, -⟩ := List.cons.inj hsplit
    cases hn
  | [_], hsplit =>
    simp only [List.singleton_append, List.cons.injEq] at hsplit
    obtain ⟨rfl, rfl, -⟩ := hsplit
    exact .inr (.inl ⟨rfl, rfl⟩)
  | _ :: _ :: _, hsplit => simp at hsplit

theorem cast_named :
    Named N ([.literal "[]", .symbol "::", .word "json"] : List (Token Value)) := by
  intro before t after hsplit n hn
  match before, hsplit with
  | [], hsplit =>
    obtain ⟨rfl, rfl⟩ := List.cons.inj hsplit
    exact .inr (.inr ⟨rfl, List.prefix_rfl⟩)
  | _ :: before, hsplit =>
    have ht : t ∈ ([.symbol "::", .word "json"] : List (Token Value)) := by
      rw [(List.cons.inj hsplit).2]
      exact List.mem_append_right before List.mem_cons_self
    simp only [List.mem_cons, List.not_mem_nil, or_false] at ht
    rcases ht with rfl | rfl <;> cases hn

theorem select_named {lead projection source : List (Token Value)}
    {clauses : List (List (Token Value))} (hl : Named N lead) (hp : Named N projection)
    (hs : Named N source) (hc : ∀ ts ∈ clauses, Named N ts) :
    Named N (selectTokens lead projection source clauses) := by
  have hclauses : Named N clauses.flatten := by
    clear hl hp hs
    induction clauses with
    | nil => exact .nil
    | cons ts clauses ih =>
      rw [List.forall_mem_cons] at hc
      exact hc.1.append (ih hc.2)
  have hfront : Named N (.word "SELECT" :: lead ++ projection) :=
    (Named.keyword rfl hl).append hp
  exact (hfront.append (.keyword rfl hs)).append hclauses

section

variable (e : Engine)

mutual

theorem Pred.named_tokens (p : Pred) (h : ∀ n ∈ p.names, N n) : Named N (p.tokens e) := by
  match p with
  | .truth value => exact .of_texts (by simp [Pred.tokens, Token.text?])
  | .compare lhs op rhs =>
    rw [Pred.names, List.forall_mem_append] at h
    exact (Scalar.named_tokens h.1).append
      (.keyword rfl (Scalar.named_tokens h.2))
  | .compareRows columns op values =>
    have hvalues : Named N (Token.listed (values.map fun v => [.slot v])) :=
      .listed fun v _ => .of_texts (by simp [Token.text?])
    exact (columns_named h).group.append (.keyword rfl hvalues.group)
  | .isNull s negated =>
    refine (Scalar.named_tokens h).append (.of_texts ?_)
    cases negated <;> simp [Token.text?]
  | .isIn s items negated =>
    rw [Pred.names, List.forall_mem_append] at h
    have hitems : Named N (Token.listed (items.map Scalar.tokens)) :=
      .listed fun item hitem => Scalar.named_tokens fun n hn =>
        h.2 n (List.mem_flatMap.mpr ⟨item, hitem, hn⟩)
    refine ((Scalar.named_tokens h.1).append (.of_texts ?_)).append hitems.group
    cases negated <;> simp [Token.text?]
  | .like s pattern =>
    rw [Pred.names, List.forall_mem_append] at h
    have hlike : Named N (s.tokens ++ .word "LIKE" :: pattern.tokens) :=
      (Scalar.named_tokens h.1).append
        (.keyword rfl (Scalar.named_tokens h.2))
    cases hstated : e.dialect.statesLikeEscape with
    | false => simpa [Pred.tokens, hstated] using hlike
    | true => simpa [Pred.tokens, hstated] using hlike.append escape_named
  | .and operands => exact .combined "AND" (Pred.named_all operands h)
  | .or operands => exact .combined "OR" (Pred.named_all operands h)
  | .not operand => exact .keyword rfl (Pred.named_tokens operand h).group
  | .related negated table tag conditions =>
    rw [Pred.names, List.forall_mem_cons] at h
    have hfilter : Named N (match conditions with
        | [] => []
        | _ :: _ => .word "WHERE" :: Token.combined "AND" (Pred.tokensAll e conditions)) := by
      match conditions with
      | [] => exact .nil
      | c :: cs =>
        exact .keyword rfl (.combined "AND" (Pred.named_all (c :: cs) h.2))
    have hquery := (select_named .nil (.of_texts (by simp [Token.text?])) (table_named h.1 tag)
      (List.forall_mem_singleton.mpr hfilter) : Named N
        (selectTokens [] [.word "1"] (tableTokens table tag) [_])).group
    refine Named.append (.of_texts ?_) hquery
    cases negated <;> simp [Token.text?]

theorem Pred.named_all (ps : List Pred) (h : ∀ n ∈ Pred.namesAll ps, N n) :
    ∀ ts ∈ Pred.tokensAll e ps, Named N ts := by
  match ps with
  | [] => exact List.forall_mem_nil _
  | p :: ps =>
    rw [Pred.namesAll, List.forall_mem_append] at h
    exact List.forall_mem_cons.mpr ⟨Pred.named_tokens p h.1, Pred.named_all ps h.2⟩

end

theorem clause_named {start : Token Value} (hs : start.text? = none) {o : Option Pred}
    (h : ∀ p ∈ o, ∀ n ∈ p.names, N n) : Named N (clauseTokens e start o) := by
  cases o with
  | none => exact .nil
  | some p => exact .keyword hs (Pred.named_tokens e p (h p rfl))

theorem list_named {β : Type} {start : List (Token Value)} (hs : Named N start)
    {tokens : β → List (Token Value)} {xs : List β} (h : ∀ x ∈ xs, Named N (tokens x)) :
    Named N (listTokens start (xs.map tokens)) := by
  cases xs with
  | nil => exact .nil
  | cons x xs => exact hs.append (.listed h)

theorem SortItem.named_tokens {it : SortItem} (h : ∀ n ∈ it.key.names, N n) :
    Named N it.tokens := by
  refine (Scalar.named_tokens h).append (.of_texts ?_)
  rcases it.nulls with _ | _ | _ <;> simp [Nulls.tokens, Token.text?]

theorem limit_named (take skip : Option Nat) : Named N (limitTokens e take skip) := by
  apply Named.of_texts
  cases e <;> cases take <;> cases skip <;>
    simp [limitTokens, Engine.unlimitedTokens, Token.text?]

theorem Body.named_tokens {b : Body} (h : ∀ n ∈ b.names, N n)
    {projection lead : List (Token Value)} (hp : Named N projection) (hl : Named N lead) :
    Named N (b.tokens e projection lead) := by
  rw [Body.names, List.forall_mem_append, List.forall_mem_append, List.forall_mem_cons] at h
  obtain ⟨⟨⟨htable, hpredicates⟩, hgroups⟩, horder⟩ := h
  have hpredicate : ∀ p ∈ b.predicates, ∀ n ∈ p.names, N n := fun p hp n hn =>
    hpredicates n (List.mem_flatMap.mpr ⟨p, hp, hn⟩)
  have hfilter : ∀ p ∈ b.filter, ∀ n ∈ p.names, N n := fun p hp =>
    hpredicate p (List.mem_append_left _ (Option.mem_toList.mpr hp))
  have hhaving : ∀ p ∈ b.having, ∀ n ∈ p.names, N n := fun p hp =>
    hpredicate p (List.mem_append_right _ (Option.mem_toList.mpr hp))
  have hgroup : ∀ c ∈ b.groupBy, Named N c.tokens := fun c hc =>
    Column.named (hgroups _ (List.mem_map.mpr ⟨c, hc, rfl⟩))
  have hitem : ∀ it ∈ b.orderBy, Named N it.tokens := fun it hit =>
    SortItem.named_tokens fun n hn => horder n (List.mem_flatMap.mpr ⟨it, hit, hn⟩)
  refine select_named hl hp (table_named htable b.tag) ?_
  simp only [List.forall_mem_cons]
  exact ⟨clause_named e rfl hfilter, list_named (.of_texts (by simp [Token.text?])) hgroup,
    clause_named e rfl hhaving, list_named (.of_texts (by simp [Token.text?])) hitem,
    limit_named e b.take b.skip, List.forall_mem_nil _⟩

theorem array_closing_named : Named N e.arrayClosing := by
  cases e with
  | sqlite | mysql => exact .of_texts (by simp [Engine.arrayClosing, Token.text?])
  | postgresql =>
    have hclosing : Named N ([.mark ')'] : List (Token Value)) :=
      .of_texts (by simp [Token.text?])
    exact .keyword rfl (.keyword rfl (cast_named.append hclosing))

theorem pair_named (tag : Alias) {c : JsonColumn} (h : N c.name) :
    Named N (pairTokens e tag c) := by
  have hcolumn : Named N (Column.tokens ⟨tag, c.name⟩) := Column.named h
  refine .cons (by simpa [Token.text?] using h) (.keyword rfl ?_)
  split
  · exact .keyword rfl hcolumn.group
  · exact hcolumn

theorem fold_named (toMany : Bool) (tag : Alias) {columns : List JsonColumn}
    (h : ∀ c ∈ columns, N c.name) : Named N (foldTokens e toMany tag columns) := by
  have hobject : Named N
      (.word e.objectFunction :: Token.group (Token.listed (columns.map (pairTokens e tag)))) :=
    .keyword rfl (Named.listed fun c hc => pair_named e tag (h c hc)).group
  have hopening : Named N e.arrayOpening := by
    cases e <;> exact .of_texts (by simp [Engine.arrayOpening, Token.text?])
  cases toMany with
  | false => exact hobject
  | true => exact (hopening.append hobject).append (array_closing_named e)

theorem Projection.name_mem (p : Projection) : p.name ∈ p.names := by
  cases p <;> simp [Projection.name, Projection.names]

theorem Projection.names_all_eq (ps : List Projection) :
    Projection.namesAll ps = ps.flatMap Projection.names := by
  induction ps with
  | nil => rfl
  | cons p ps ih => rw [Projection.namesAll, ih, List.flatMap_cons]

mutual

theorem Projection.named_tokens (p : Projection) (h : ∀ n ∈ p.names, N n) :
    Named N (p.tokens e) := by
  match p with
  | .column c => exact Column.named (h c.name List.mem_cons_self)
  | .aggregate kind c name =>
    rw [Projection.names, List.forall_mem_cons] at h
    exact (aggregate_named kind h.2).append (.of_texts (by simpa [Token.text?] using h.1))
  | .relation name toMany fold columns body =>
    rw [Projection.names, List.forall_mem_append, List.forall_mem_cons] at h
    obtain ⟨⟨hname, hcolumns⟩, hbody⟩ := h
    have hkeys : ∀ c ∈ columns.map fun p => JsonColumn.mk p.name p.isRelation, N c.name := by
      intro c hc
      obtain ⟨p, hp, rfl⟩ := List.mem_map.mp hc
      rw [Projection.names_all_eq] at hcolumns
      exact hcolumns _ (List.mem_flatMap.mpr ⟨p, hp, p.name_mem⟩)
    have hlist : Named N (Token.listed (Projection.tokensAll e columns)) :=
      .joined rfl (Projection.named_all_tokens columns hcolumns)
    have hsubquery := Body.named_tokens e hbody hlist .nil
    have hfolded : Named N (.word "SELECT" :: foldTokens e toMany fold
        (columns.map fun p => JsonColumn.mk p.name p.isRelation)) :=
      .keyword rfl (fold_named e toMany fold hkeys)
    have hsource : Named N (.word "FROM" :: Token.group _) := .keyword rfl hsubquery.group
    refine ((hfolded.append hsource).append (.of_texts ?_)).group.append (.of_texts ?_)
    · simp [Token.text?]
    · simpa [Token.text?] using hname

theorem Projection.named_all_tokens (ps : List Projection)
    (h : ∀ n ∈ Projection.namesAll ps, N n) : ∀ ts ∈ Projection.tokensAll e ps, Named N ts := by
  match ps with
  | [] => exact List.forall_mem_nil _
  | p :: ps =>
    rw [Projection.namesAll, List.forall_mem_append] at h
    exact List.forall_mem_cons.mpr
      ⟨Projection.named_tokens p h.1, Projection.named_all_tokens ps h.2⟩

end

theorem Statement.named_tokens {st : Statement} (h : ∀ n ∈ st.names, N n) :
    Named N (st.tokens e) := by
  cases st with
  | select columns distinct body =>
    rw [Statement.names, List.forall_mem_append, List.forall_mem_append] at h
    obtain ⟨⟨hcolumns, hdistinct⟩, hbody⟩ := h
    have hlist : Named N (Token.listed (Projection.tokensAll e columns)) :=
      .joined rfl (Projection.named_all_tokens e columns hcolumns)
    refine Body.named_tokens e hbody hlist ?_
    split
    · exact .nil
    · exact .keyword rfl (.keyword rfl (columns_named hdistinct).group)
  | overPage columns tag page body =>
    rw [Statement.names, List.forall_mem_append, List.forall_mem_append] at h
    obtain ⟨⟨hcolumns, hpage⟩, hbody⟩ := h
    have hsubquery := Body.named_tokens e hbody (columns_named hpage) .nil
    have hread : Named N (.word "SELECT" :: Token.listed (Projection.tokensAll e columns)) :=
      .keyword rfl (.joined rfl (Projection.named_all_tokens e columns hcolumns))
    exact (hread.append (.keyword rfl hsubquery.group)).append
      (Named.of_texts (by simp [Token.text?]))
  | insert table assignments =>
    rw [Statement.names, List.forall_mem_cons] at h
    obtain ⟨htable, hassigned⟩ := h
    refine .keyword rfl (.keyword rfl (.cons (by simpa [Token.text?] using htable) ?_))
    split
    · cases e <;> exact Named.of_texts (by simp [Engine.emptyInsertTokens, Token.group, Token.text?])
    · have hnames : Named N (Token.listed (assignments.map fun a => [(.name a.1 : Token Value)])) :=
        .listed fun a ha => .of_texts (by
          simpa [Token.text?] using hassigned _ (List.mem_map.mpr ⟨a, ha, rfl⟩))
      have hvalues : Named N (Token.listed (assignments.map fun a => [.slot a.2])) :=
        .listed fun a _ => Named.of_texts (by simp [Token.text?])
      exact hnames.group.append (.keyword rfl hvalues.group)
  | update table tag assignments filter =>
    rw [Statement.names, List.forall_mem_append, List.forall_mem_cons] at h
    obtain ⟨⟨htable, hassigned⟩, hfilter⟩ := h
    have hassignments : Named N
        (Token.listed (assignments.map fun a => [.name a.1, .symbol "=", .slot a.2])) :=
      .listed fun a ha => .of_texts (by
        simpa [Token.text?] using hassigned _ (List.mem_map.mpr ⟨a, ha, rfl⟩))
    have htarget : Named N (.word "UPDATE" :: tableTokens table tag) :=
      .keyword rfl (table_named htable tag)
    exact (htarget.append (.keyword rfl hassignments)).append (clause_named e rfl fun p hp n hn =>
      hfilter n (List.mem_flatMap.mpr ⟨p, Option.mem_toList.mpr hp, hn⟩))
  | delete table tag filter =>
    rw [Statement.names, List.forall_mem_cons] at h
    obtain ⟨htable, hfilter⟩ := h
    have hdelete : Named N (e.deleteTokens tag) := by
      cases e <;> exact Named.of_texts (by simp [Engine.deleteTokens, Token.text?])
    exact (hdelete.append (table_named htable tag)).append (clause_named e rfl fun p hp n hn =>
      hfilter n (List.mem_flatMap.mpr ⟨p, Option.mem_toList.mpr hp, hn⟩))

end

end

/-- Whatever the names of the schema are, the text of a compiled query is lexed to its
end into the tokens of the statement: what stands between quotes is a name of the
schema or of a result column, strings of the language apart, and the placeholders
are numbered as the parameters are. -/
theorem names_stay_in_quotes (c : Compiler) (e : Engine) (model : String) (op : Operation)
    (args : Args) (prepared : Prepared) (hd : c.dialect = e.dialect)
    (h : c.compile model op args = .ok prepared) : ∃ st as tokens,
      c.statement model op args = .ok (st, as) ∧
        Lexer.lex e.lexis prepared.sql.toList = some tokens ∧
        tokens = Token.written e.dialect.placeholder 0 (st.tokens e) ∧
        Token.Named c.schema.Vocabulary tokens ∧
        Token.slots tokens =
          (List.range' 1 prepared.params.length).map e.dialect.placeholder := by
  obtain ⟨st, as, hst, rfl⟩ := Compiler.compile_ok h
  rw [hd]
  have hspelled := Statement.spelled e st
  have hsql : ((st.render e.dialect).prepare e.dialect).sql =
      Sign.write e.dialect.placeholder 0 (st.render e.dialect).signs :=
    Fragment.text_of_signs e.dialect.placeholder 0 (st.render e.dialect).parts
  have hparams : ((st.render e.dialect).prepare e.dialect).params = Token.slots (st.tokens e) := by
    rw [← hspelled.values, ← Fragment.bindings_of_signs]
    rfl
  refine ⟨st, as, _, hst, ?_, rfl, ?_, ?_⟩
  · rw [hsql]
    exact hspelled.lexed 0
  · exact (Statement.named_tokens e (Compiler.statement_well_formed hst).named).written _ 0
  · rw [Token.slots_written, hparams]

namespace Sample

def hostile : Schema where
  models := [
    { name := "M", table := some "a`b\"",
      fields := [Field.asId ⟨"?", .int, false, false, false⟩, { name := "$1'\\", type := .string }],
      relations := [
        { name := "`)(\"'\\", cardinality := .manyToMany, target := "M", fields := ["?"],
          references := ["?"], through := some ⟨"j\\'", "``", "''"⟩ }] }]

def linked : Args where
  filter := some [("`)(\"'\\", .obj [("some", .obj [("$1'\\", .str "x")])])]
  inclusion := some [("`)(\"'\\", .bool true)]
  orderBy := some [[("$1'\\", .str "asc")]]
  take := some 3

theorem linked_compiles : ∃ prepared, (Compiler.ofConfig hostile { engine := .mysql }).compile "M"
    .findMany linked = .ok prepared ∧ prepared.params.length = 1 := by
  have hcount : (((Compiler.ofConfig hostile { engine := .mysql }).compile "M" .findMany
      linked).map (·.params.length)).toOption = some 1 := by
    decide +kernel
  exact except_ok_of_read hcount

end Sample

theorem sample_names_stay_in_quotes : ∃ prepared,
    (Compiler.ofConfig Sample.hostile { engine := .mysql }).compile "M" .findMany Sample.linked =
      .ok prepared ∧ ∃ tokens, Lexer.lex Engine.mysql.lexis prepared.sql.toList = some tokens ∧
        Token.Named Sample.hostile.Vocabulary tokens ∧ Token.slots tokens = ["?"] := by
  obtain ⟨prepared, hc, hcount⟩ := Sample.linked_compiles
  obtain ⟨st, as, tokens, -, hlex, -, hnamed, hslots⟩ :=
    names_stay_in_quotes (.ofConfig Sample.hostile { engine := .mysql }) .mysql "M" .findMany
      Sample.linked prepared rfl hc
  rw [hcount] at hslots
  exact ⟨prepared, hc, tokens, hlex, hnamed, hslots⟩

end QuerySql
