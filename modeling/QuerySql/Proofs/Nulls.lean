import QuerySql.Proofs.Paging

/-!
# Pages with nulls

A row may have a null in a column where the cursor has a value. The ordering of the page
places that row before the cursor or after it, but the comparison with the cursor is
unknown of the row once the null decides. So rows whose nulls come first sort before the
cursor and are left out, as they should be, and rows whose nulls come last sort after it
and are lost.
-/

set_option autoImplicit false

namespace QuerySql

namespace Ordering

variable {s : Settings} {cx : Context} {ms : List Mention}

theorem plain_of_mentions {grouped : Option (List String)} {entries : List Json.Entries}
    (hop : cx.operation.isAggregate = false) (h : mentions s cx grouped entries = .ok ms) :
    ∀ entry ∈ entries, ∀ key ∈ entry.keys, Aggregate.ofKey? key = none := by
  have hkey : ∀ {key value ms}, keyMentions s cx grouped key value = .ok ms →
      Aggregate.ofKey? key = none := by
    intro key value ms h
    cases hk : Aggregate.ofKey? key with
    | none => rfl
    | some kind =>
      simp only [keyMentions, hk, aggregateMentions, hop, Bool.not_false, if_true, except_bind_ok,
        except_throw_ok, false_and, exists_false] at h
  have hentry : ∀ {entry : Json.Entries} {ms}, entryMentions s cx grouped entry = .ok ms →
      ∀ key ∈ entry.keys, Aggregate.ofKey? key = none := by
    intro entry
    induction entry with
    | nil => exact fun _ => List.forall_mem_nil _
    | cons e rest ih =>
      intro ms h
      simp only [entryMentions, except_bind_ok] at h
      obtain ⟨_, hhere, _, hlater, -⟩ := h
      exact List.forall_mem_cons.mpr ⟨hkey hhere, ih hlater⟩
  induction entries generalizing ms with
  | nil => exact List.forall_mem_nil _
  | cons entry rest ih =>
    rw [mentions] at h
    split at h
    · simp only [except_bind_ok, except_throw_ok, false_and, exists_false] at h
    · simp only [except_bind_ok] at h
      obtain ⟨_, hhere, _, hlater, -⟩ := h
      exact List.forall_mem_cons.mpr ⟨hentry hhere, ih hlater⟩

/-- The item of a mention sorts as its entry says. -/
def Says (m : Model) (e : String × Json) (mention : Mention) : Prop :=
  order m e.1 e.2 = .ok (mention.item.direction, mention.item.nulls)

theorem entry_mentions_say {entry : Json.Entries}
    (hplain : ∀ key ∈ entry.keys, Aggregate.ofKey? key = none)
    (h : entryMentions s cx none entry = .ok ms) : List.Forall₂ (Says cx.model) entry ms := by
  induction entry generalizing ms with
  | nil =>
    cases h
    exact .nil
  | cons e rest ih =>
    simp only [Json.Entries.keys, List.map_cons, List.forall_mem_cons] at hplain
    simp only [entryMentions, except_bind_ok, except_pure_ok] at h
    obtain ⟨_, hhere, later, hlater, rfl⟩ := h
    obtain ⟨it, rfl, -, horder⟩ := Keyset.mention_of_field hplain.1 hhere
    exact .cons horder (ih hplain.2 hlater)

theorem mentions_say {entries : List Json.Entries}
    (hplain : ∀ entry ∈ entries, ∀ key ∈ entry.keys, Aggregate.ofKey? key = none)
    (h : mentions s cx none entries = .ok ms) :
    List.Forall₂ (Says cx.model) entries.flatten ms := by
  induction entries generalizing ms with
  | nil =>
    cases h
    exact .nil
  | cons entry rest ih =>
    rw [List.forall_mem_cons] at hplain
    rw [mentions] at h
    split at h
    · simp only [except_bind_ok, except_throw_ok, false_and, exists_false] at h
    · simp only [except_bind_ok, except_pure_ok] at h
      obtain ⟨here, hhere, later, hlater, rfl⟩ := h
      exact List.rel_append (entry_mentions_say hplain.1 hhere) (ih hplain.2 hlater)

theorem entry_of_mention {m : Model} {entries : Json.Entries}
    (h : List.Forall₂ (Says m) entries ms) {mention : Mention} (hmention : mention ∈ ms) :
    ∃ e ∈ entries, Says m e mention := by
  obtain ⟨i, hi, rfl⟩ := List.getElem_of_mem hmention
  have hlt : i < entries.length := h.length_eq ▸ hi
  exact ⟨entries[i], List.getElem_mem hlt, h.get hlt hi⟩

theorem compile_starts {orderBy : Option (List Json.Entries)} {grouped : Option (List String)}
    {items : List SortItem} (hlead : distinctFields cx = .ok [])
    (h : compile s cx orderBy grouped = .ok items) :
    ∃ ms rest, mentions s cx grouped (orderBy.getD []) = .ok ms ∧
      items = ms.map (·.item) ++ rest := by
  obtain ⟨ms, _, hms, _, rfl⟩ := compile_unled hlead h
  exact ⟨ms, _, hms, rfl⟩

end Ordering

section

variable {α : Type} [LinearOrder α] {db : Database α} {σ τ : Scope α} {items : List SortItem}

theorem Ordering.before_iff_of_departs {nulls : Nulls} (nullsLow : Bool)
    (hplaced : ∀ it ∈ items, it.nulls = some nulls) (h : DepartsByNull db σ τ items) :
    Before db nullsLow σ τ items ↔ nulls = .first := by
  induction items with
  | nil => cases h
  | cons it rest ih =>
    rw [List.forall_mem_cons] at hplaced
    by_cases heq : it.key.eval db σ = it.key.eval db τ
    · rw [departs_of_eq heq] at h
      rw [before_of_eq db nullsLow heq]
      exact ih hplaced.2 h
    · have hnull : it.key.eval db σ = none := by
        rcases h with ⟨hnull, -⟩ | ⟨hsame, -⟩
        · exact hnull
        · exact absurd hsame heq
      obtain ⟨y, hy⟩ : ∃ y, it.key.eval db τ = some y :=
        Option.ne_none_iff_exists'.mp fun hnone => heq (hnull.trans hnone.symm)
      rw [before_of_ne db nullsLow heq, hnull, hy, SortItem.Before, SortItem.nullsFirst, hplaced.1]
      cases nulls <;> simp

end

namespace Keyset

variable {tag : Alias} {orderBy : Option (List Json.Entries)} {cursor : Json.Entries}
  {direction : Direction} {bounds : List (Column × Value)} {page : List SortItem}

/-- The ordering names every field of the cursor, and each time has its nulls in that
place. -/
structure Places (nulls : Nulls) (m : Model) (orderBy : Option (List Json.Entries))
    (cursor : Json.Entries) : Prop where
  named : ∀ name ∈ cursor.keys, ∃ entry ∈ orderBy.getD [], name ∈ entry.keys
  placed : ∀ entry ∈ orderBy.getD [], ∀ e ∈ entry,
    ∃ direction, Ordering.order m e.1 e.2 = .ok (direction, some nulls)

theorem Places.names_eq {nulls : Nulls} {m : Model} (h : Places nulls m orderBy cursor) :
    pageNames orderBy cursor = (orderBy.getD []).flatMap Json.Entries.keys := by
  have hnone : Ordering.unseen ((orderBy.getD []).flatMap Json.Entries.keys) cursor.keys = [] := by
    refine List.filter_eq_nil_iff.mpr fun name hname => ?_
    obtain ⟨entry, hentry, hin⟩ := h.named name hname
    simpa using ⟨entry, hentry, hin⟩
  rw [pageNames, hnone, List.append_nil]

theorem Places.page_placed {s : Settings} {cx : Context} {nulls : Nulls}
    {items rest : List SortItem} (h : Places nulls cx.model orderBy cursor)
    (hlead : Ordering.distinctFields cx = .ok [])
    (hplain : ∀ entry ∈ orderBy.getD [], ∀ key ∈ entry.keys, Aggregate.ofKey? key = none)
    (horder : Ordering.compile s cx orderBy none = .ok items) (hitems : items = page ++ rest)
    (hagrees : Agrees tag orderBy cursor direction bounds page) :
    ∀ it ∈ page, it.nulls = some nulls := by
  obtain ⟨ms, tail, hms, htail⟩ := Ordering.compile_starts hlead horder
  have hsay := Ordering.mentions_say hplain hms
  have hlength : page.length = (ms.map (·.item)).length := by
    have hkeys := congrArg List.length hagrees.page_eq
    rw [List.length_map, List.length_map, h.names_eq] at hkeys
    rw [hkeys, List.length_map, ← hsay.length_eq]
    simp [List.length_flatMap, Json.Entries.keys, List.length_flatten]
  have hpage : page = ms.map (·.item) := List.append_inj_left (hitems.symm.trans htail) hlength
  rw [hpage, List.forall_mem_map]
  intro mention hmention
  obtain ⟨e, he, hsays⟩ := Ordering.entry_of_mention hsay hmention
  obtain ⟨entry, hentry, hin⟩ := List.mem_flatten.mp he
  obtain ⟨d, hd⟩ := h.placed entry hentry e hin
  rw [Ordering.Says, hd] at hsays
  exact (Prod.mk.inj (Except.ok.inj hsays)).2.symm

end Keyset

theorem Statement.find_order {s : Settings} {m : Model} {op : Operation} {args : Args}
    {cursor : Json.Entries} {st : Statement} {b : Aliases} (hop : op.isRead = true)
    (hcursor : args.cursor = some cursor)
    (h : Statement.Runs s (Context.atRoot m op args) args op st b) :
    ∃ body, st.body? = some body ∧
      Ordering.distinctFields (Context.atRoot m op args) = .ok [] ∧
      Ordering.compile s (Context.atRoot m op args) args.orderBy none = .ok body.orderBy := by
  cases h with
  | find _ _ hdistinct _ order =>
    have hmutation : op.isMutation = false := by
      cases op <;> first | rfl | cases hop
    have hroot := Context.root_cursor m op args hmutation
    exact ⟨_, rfl, Read.no_distinct_of_cursor hdistinct (hroot.trans hcursor), order⟩
  | aggregate hop' | overPage hop' => rcases hop' with rfl | rfl <;> cases hop
  | groupBy | create | update | delete => cases hop

/-- A page leaves out the rows that sort before its cursor, and besides them those that
first differ from it by a null. Where nulls come first such rows sort before the cursor
anyway; where nulls come last they do not, and are lost. -/
theorem cursor_loses_rows_by_nulls_alone (c : Compiler) (model : String) (op : Operation)
    (args : Args) (cursor : Json.Entries) (prepared : Prepared) (hop : op.isRead = true)
    (hcursor : args.cursor = some cursor) (h : c.compile model op args = .ok prepared) :
    ∃ m st as body conditions page direction bounds, c.schema.model? model = some m ∧
      c.statement model op args = .ok (st, as) ∧
      prepared = (st.render c.dialect).prepare c.dialect ∧ st.body? = some body ∧
      body.filter = Pred.all? (conditions ++ [Keyset.row (Keyset.pastOp direction) bounds]) ∧
      body.orderBy = page ++ Ordering.ties c.settings (Context.atRoot m op args) page ∧
      Keyset.Agrees body.tag args.orderBy cursor direction bounds page ∧
      ∀ (β : Type) [LinearOrder β] (db : Database β) (nullsLow : Bool) (σ : Scope β)
        (row : Row β), db.Ordered →
          let here := σ.bind body.tag row
          let there := σ.bind body.tag (Keyset.position db cursor)
          let kept := (Keyset.row (Keyset.pastOp direction) bounds).eval db here = .yes
          (kept ↔ ¬Ordering.Before db nullsLow here there page ∧
            ¬Ordering.DepartsByNull db here there page) ∧
          (Keyset.Places .first m args.orderBy cursor →
            (kept ↔ ¬Ordering.Before db nullsLow here there page)) ∧
          (Keyset.Places .last m args.orderBy cursor →
            Ordering.DepartsByNull db here there page →
              ¬Ordering.Before db nullsLow here there page ∧ ¬kept) := by
  obtain ⟨st, as, hst, rfl⟩ := Compiler.compile_ok h
  obtain ⟨m, hm, hcheck, hruns⟩ := Compiler.statement_ok hst
  obtain ⟨sorted, hsorted, hlead, hcompiled⟩ := Statement.find_order hop hcursor hruns
  obtain ⟨ms, _, hms, -⟩ := Ordering.compile_starts hlead hcompiled
  have hplain := Ordering.plain_of_mentions (by cases op <;> first | rfl | cases hop) hms
  obtain ⟨body, conditions, page, direction, bounds, hbody, hfilter, horder, hagrees⟩ :=
    Statement.cursor_agrees hcursor (.inl hop) hplain hcheck hruns
  obtain rfl : sorted = body := Option.some.inj (hsorted.symm.trans hbody)
  have hplaced : ∀ {nulls}, Keyset.Places nulls m args.orderBy cursor →
      ∀ it ∈ page, it.nulls = some nulls :=
    fun hplaces => hplaces.page_placed hlead hplain hcompiled horder hagrees
  refine ⟨m, st, as, sorted, conditions, page, direction, bounds, hm, hst, rfl, hbody, hfilter,
    horder, hagrees, ?_⟩
  intro β _ db nullsLow σ row hdb here there kept
  have hkept : kept ↔ ¬Ordering.Before db nullsLow here there page ∧
      ¬Ordering.DepartsByNull db here there page := hagrees.kept_iff hdb nullsLow σ row
  refine ⟨hkept, fun hfirst => ?_, fun hlast hdeparts => ?_⟩
  · rw [hkept]
    refine and_iff_left_of_imp fun hbefore hdeparts => hbefore ?_
    exact (Ordering.before_iff_of_departs nullsLow (hplaced hfirst) hdeparts).mpr rfl
  · refine ⟨fun hbefore => ?_, fun hyes => (hkept.mp hyes).2 hdeparts⟩
    cases (Ordering.before_iff_of_departs nullsLow (hplaced hlast) hdeparts).mp hbefore

namespace Sample

def locker : Model where
  name := "Locker"
  fields := [Field.asId ⟨"id", .bigInt, false, false, false⟩,
    Field.asUnique ⟨"room", .int, true, false, false⟩,
    Field.asUnique ⟨"badge", .int, true, false, false⟩]

def lockers : Compiler := .ofConfig ⟨[locker]⟩ { engine := .postgresql }

def placing (nulls : String) : Json := .obj [("sort", .str "asc"), ("nulls", .str nulls)]

def pastLocker : Json.Entries := [("room", .num (.int 3)), ("badge", .num (.int 7))]

def emptyFirst : Args where
  orderBy := some [[("room", placing "first")], [("badge", placing "first")]]
  cursor := some pastLocker

theorem empty_first_places : Keyset.Places .first locker emptyFirst.orderBy pastLocker where
  named := by decide
  placed := by
    intro entry hentry e he
    simp only [emptyFirst, Option.getD_some, List.mem_cons, List.not_mem_nil, or_false] at hentry
    rcases hentry with rfl | rfl <;>
    · rw [List.mem_singleton.mp he]
      exact ⟨.asc, by with_unfolding_all rfl⟩

theorem empty_first_compile : ∃ prepared,
    lockers.compile "Locker" .findMany emptyFirst = .ok prepared ∧
      prepared.params = [.int 3, .int 7] := by
  have hparams : ((lockers.compile "Locker" .findMany emptyFirst).map (·.params)).toOption =
      some [.int 3, .int 7] := by
    decide +kernel
  exact except_ok_of_read hparams

def emptyLast : Args where
  select := some [("badge", .bool true)]
  orderBy := some [[("badge", placing "last")]]
  cursor := some [("badge", .num (.int 7))]

def emptyLastRows : Body where
  table := "Locker"
  tag := ⟨0⟩
  filter := some (.compare (.column ⟨⟨0⟩, "badge"⟩) .ge (.bound (.int 7)))
  orderBy := [{ key := .column ⟨⟨0⟩, "badge"⟩, direction := .asc, nulls := some .last }]

end Sample

theorem sample_cursor_loses_rows_by_nulls_alone : ∃ prepared,
    Sample.lockers.compile "Locker" .findMany Sample.emptyFirst = .ok prepared ∧
      prepared.params = [.int 3, .int 7] ∧
      ∃ (tag : Alias) (page : List SortItem) (direction : Direction)
        (bounds : List (Column × Value)),
        Keyset.Agrees tag Sample.emptyFirst.orderBy Sample.pastLocker direction bounds page ∧
          ∀ (σ : Scope Int) (row : Row Int),
            (Keyset.row (Keyset.pastOp direction) bounds).eval Sample.integers
                (σ.bind tag row) = .yes ↔
              ¬Ordering.Before Sample.integers false (σ.bind tag row)
                (σ.bind tag (Keyset.position Sample.integers Sample.pastLocker)) page := by
  obtain ⟨prepared, hc, hparams⟩ := Sample.empty_first_compile
  obtain ⟨m, st, as, body, _, page, direction, bounds, hm, -, -, -, -, -, hagrees, hkept⟩ :=
    cursor_loses_rows_by_nulls_alone Sample.lockers "Locker" .findMany Sample.emptyFirst
      Sample.pastLocker prepared rfl rfl hc
  obtain rfl : m = Sample.locker := (Option.some.inj hm).symm
  refine ⟨prepared, hc, hparams, body.tag, page, direction, bounds, hagrees, fun σ row => ?_⟩
  exact (hkept Int Sample.integers false σ row Sample.integers_ordered).2.1
    Sample.empty_first_places

/-- A locker without a badge is last in the order of the page, and yet it is not past the
cursor. -/
theorem empty_locker_is_lost :
    (Schema.Builder.build ⟨none, [Sample.locker]⟩).1 = .ok Sample.lockers.schema ∧
    Sample.lockers.statement "Locker" .findMany Sample.emptyLast =
      .ok (.select [.column ⟨⟨0⟩, "badge"⟩] [] Sample.emptyLastRows, ⟨1⟩) ∧
    Sample.lockers.dialect.checkNulls (some .last) = .ok () ∧
    ∀ σ : Scope Int,
      let here := σ.bind ⟨0⟩ fun _ => none
      let there := σ.bind ⟨0⟩ fun _ => Sample.integers.bound (.int 7)
      Ordering.Before Sample.integers true there here Sample.emptyLastRows.orderBy ∧
        ¬Ordering.Before Sample.integers true here there Sample.emptyLastRows.orderBy ∧
          Sample.emptyLastRows.filter.map (·.eval Sample.integers here) = some .unknown := by
  refine ⟨rfl, by with_unfolding_all rfl, rfl, fun σ => ⟨?_, ?_, ?_⟩⟩
  · simp [Sample.emptyLastRows, Ordering.Before, Scalar.eval, Scope.cell, SortItem.Before,
      SortItem.nullsFirst, Sample.integers]
  · simp [Sample.emptyLastRows, Ordering.Before, Scalar.eval, Scope.cell, SortItem.Before,
      SortItem.nullsFirst, Sample.integers]
  · simp [Sample.emptyLastRows, Pred.eval, Database.compareCells, Scope.cell, Scalar.eval]

end QuerySql
