import Mathlib.Data.List.Forall2
import QuerySql.Proofs.Ties

/-!
# Leading fields

`DISTINCT ON` keeps the first row for each combination of its columns, so that
the rows have to be sorted by these columns first. An ordering puts them in the
lead and keeps all that a query asks for behind them. What a field is sorted in
is told by its first mention, or by its last one where the field is moved to
the lead.
-/

set_option autoImplicit false

namespace QuerySql

namespace Ordering

variable {s : Settings} {cx : Context}

/-- What an ordering asks for, field after field in the order written. -/
def asked (orderBy : Option (List Json.Entries)) : Json.Entries := (orderBy.getD []).flatten

/-- The item sorts by the field that is asked for, and in the way asked for. -/
structure Answers (m : Model) (tag : Alias) (e : String × Json) (it : SortItem) : Prop where
  key_eq : it.key = .column ⟨tag, e.1⟩
  order_eq : order m e.1 e.2 = .ok (it.direction, it.nulls)

structure Mentions (cx : Context) (e : String × Json) (mention : Mention) : Prop where
  field_eq : mention.field = some e.1
  answers : Answers cx.model cx.tag e mention.item

theorem key_mentions_asked {key : String} {value : Json} {ms : List Mention}
    (hop : cx.operation.isAggregate = false) (h : keyMentions s cx none key value = .ok ms) :
    ∃ mention, ms = [mention] ∧ Mentions cx (key, value) mention := by
  cases hkind : Aggregate.ofKey? key with
  | some kind =>
    rw [keyMentions, hkind] at h
    simp only [aggregateMentions, hop, Bool.not_false, if_true, except_bind_ok, except_throw_ok,
      false_and, exists_false] at h
  | none =>
    obtain ⟨it, rfl, hkey, horder⟩ := Keyset.mention_of_field hkind h
    exact ⟨_, rfl, rfl, hkey, horder⟩

theorem entry_mentions_asked {entries : Json.Entries} {ms : List Mention}
    (hop : cx.operation.isAggregate = false) (h : entryMentions s cx none entries = .ok ms) :
    List.Forall₂ (Mentions cx) entries ms := by
  induction entries generalizing ms with
  | nil =>
    cases h
    exact .nil
  | cons e rest ih =>
    simp only [entryMentions, except_bind_ok, except_pure_ok] at h
    obtain ⟨here, hh, later, hl, rfl⟩ := h
    obtain ⟨mention, rfl, hmention⟩ := key_mentions_asked hop hh
    exact .cons hmention (ih hl)

theorem mentions_asked {orderBy : List Json.Entries} {ms : List Mention}
    (hop : cx.operation.isAggregate = false) (h : mentions s cx none orderBy = .ok ms) :
    List.Forall₂ (Mentions cx) orderBy.flatten ms := by
  induction orderBy generalizing ms with
  | nil =>
    cases h
    exact .nil
  | cons entry rest ih =>
    rw [mentions] at h
    split at h
    · simp only [except_bind_ok, except_throw_ok, false_and, exists_false] at h
    · simp only [except_bind_ok, except_pure_ok] at h
      obtain ⟨here, hh, later, hl, rfl⟩ := h
      exact List.rel_append (entry_mentions_asked hop hh) (ih hl)

theorem find_related {α β : Type} {R : α → β → Prop} {p : α → Bool} {q : β → Bool}
    (hpq : ∀ a b, R a b → p a = q b) {as : List α} {bs : List β} (h : List.Forall₂ R as bs)
    {a : α} (hfound : as.find? p = some a) : ∃ b, bs.find? q = some b ∧ R a b := by
  induction h with
  | nil => cases hfound
  | @cons a' b' as bs hab _ ih =>
    rw [List.find?_cons] at hfound ⊢
    rw [← hpq a' b' hab]
    cases hp : p a' with
    | true =>
      rw [hp] at hfound
      cases hfound
      exact ⟨b', rfl, hab⟩
    | false =>
      rw [hp] at hfound
      exact ih hfound

section

variable {entries : Json.Entries} {ms : List Mention}

theorem named_of_asked (h : List.Forall₂ (Mentions cx) entries ms) : Named cx.tag ms := by
  induction h with
  | nil => exact List.forall_mem_nil _
  | @cons e _ _ _ he _ ih =>
    exact List.forall_mem_cons.mpr ⟨⟨e.1, he.field_eq, he.answers.key_eq⟩, ih⟩

theorem names_of_asked (h : List.Forall₂ (Mentions cx) entries ms) :
    ms.filterMap (·.field) = entries.keys := by
  induction h with
  | nil => rfl
  | cons he _ ih =>
    rw [List.filterMap_cons, he.field_eq, ih]
    rfl

theorem others_asked (h : List.Forall₂ (Mentions cx) entries ms) (lead : List String) :
    List.Forall₂ (Answers cx.model cx.tag) (entries.filter fun e => e.1 ∉ lead)
      ((ms.filter fun m => !(m.field.any lead.contains)).map (·.item)) := by
  have hkept : List.Forall₂ (Mentions cx) (entries.filter fun e => e.1 ∉ lead)
      (ms.filter fun m => !(m.field.any lead.contains)) := by
    refine List.rel_filter (fun e m hm => ?_) h
    simp [hm.field_eq]
  exact List.forall₂_map_right_iff.mpr (hkept.imp fun _ _ hm => hm.answers)

theorem lead_item_asked (h : List.Forall₂ (Mentions cx) entries ms) {e : String × Json}
    {name : String} (hlast : entries.reverse.find? (·.1 = name) = some e) :
    Answers cx.model cx.tag e (leadItem cx ms name) := by
  obtain ⟨mention, hfound, hmention⟩ := find_related (q := fun m => m.field = some name)
    (fun e m hm => by simp [hm.field_eq]) (List.forall₂_reverse_iff.mpr h) hlast
  rw [leadItem, hfound]
  exact hmention.answers

end

theorem find_lead {ms : List Mention} (hms : Named cx.tag ms) {name : String}
    {seen lead : List String} (hlead : name ∈ lead) (hseen : name ∉ seen) :
    (leadItems cx ms seen lead).find? (fun it => it.key = .column ⟨cx.tag, name⟩) =
      some (leadItem cx ms name) := by
  induction lead generalizing seen with
  | nil => cases hlead
  | cons other rest ih =>
    have hkeys := lead_items_keys hms seen (other :: rest)
    rw [leadItems] at hkeys ⊢
    have hkey := (List.cons.inj hkeys).1
    rw [List.find?_cons]
    by_cases heq : name = other
    · subst heq
      simp only [hkey, decide_true]
      simp [hseen]
    · have hother : Scalar.column ⟨cx.tag, other⟩ ≠ .column ⟨cx.tag, name⟩ := by
        simpa using Ne.symm heq
      simp only [hkey, hother, decide_false]
      exact ih (List.mem_of_ne_of_mem heq hlead) (by simp [heq, hseen])

theorem find_lead_none {ms : List Mention} (hms : Named cx.tag ms) {name : String}
    {lead : List String} (hlead : name ∉ lead) (seen : List String) :
    (leadItems cx ms seen lead).find? (fun it => it.key = .column ⟨cx.tag, name⟩) = none := by
  have hkeys := lead_items_keys hms seen lead
  rw [List.find?_eq_none]
  intro it hit hkey
  have hmem : it.key ∈ lead.map fun name => Scalar.column ⟨cx.tag, name⟩ :=
    hkeys ▸ List.mem_map_of_mem hit
  rw [of_decide_eq_true hkey] at hmem
  simp [hlead] at hmem

/-- The mention that tells how a field is sorted. -/
def deciding (lead : List String) (entries : Json.Entries) (name : String) :
    Option (String × Json) :=
  (if name ∈ lead then entries.reverse else entries).find? fun e => e.1 = name

/-- The item of a column that comes first, which alone has an effect. -/
def firstItem? (tag : Alias) (items : List SortItem) (name : String) : Option SortItem :=
  items.find? fun it => it.key = .column ⟨tag, name⟩

/-- A field is asked for in one way, however often. -/
def Unanimous (m : Model) (entries : Json.Entries) (name : String) : Prop :=
  ∀ e ∈ entries, ∀ e' ∈ entries, e.1 = name → e'.1 = name → order m e.1 e.2 = order m e'.1 e'.2

theorem Answers.unique {m : Model} {tag : Alias} {e : String × Json} {it it' : SortItem}
    (h : Answers m tag e it) (h' : Answers m tag e it') : it = it' := by
  obtain ⟨hkey, horder⟩ := h
  obtain ⟨hkey', horder'⟩ := h'
  rw [horder, Except.ok.injEq, Prod.mk.injEq] at horder'
  cases it
  cases it'
  simp_all

theorem Answers.first {m : Model} {tag : Alias} {lead : List String} {entries : Json.Entries}
    {name : String} {e : String × Json} {it : SortItem} (h : Answers m tag e it)
    (he : deciding lead entries name = some e) (hname : name ∈ lead → Unanimous m entries name) :
    ∃ e', deciding [] entries name = some e' ∧ Answers m tag e' it := by
  by_cases hlead : name ∈ lead
  · rw [deciding, if_pos hlead] at he
    have hmem : e ∈ entries := List.mem_reverse.mp (List.mem_of_find?_eq_some he)
    have heq : e.1 = name := by simpa using List.find?_some he
    obtain ⟨e', he'⟩ := Option.isSome_iff_exists.mp
      (List.find?_isSome (p := fun e => e.1 = name).mpr ⟨e, hmem, decide_eq_true heq⟩)
    have heq' : e'.1 = name := by simpa using List.find?_some he'
    refine ⟨e', he', by rw [heq', ← heq]; exact h.key_eq, ?_⟩
    rw [hname hlead e' (List.mem_of_find?_eq_some he') e hmem heq' heq]
    exact h.order_eq
  · rw [deciding, if_neg hlead] at he
    exact ⟨e, he, h⟩

theorem distinct_names {fields : List Field} (h : distinctFields cx = .ok fields) :
    fields.map (·.name) = (cx.pagination?.bind (·.distinct)).getD [] ∧
      cx.pagination?.bind (·.distinct) ≠ some [] := by
  unfold distinctFields at h
  split at h
  · rename_i hnone
    cases h
    simp [hnone]
  · rename_i names hsome
    split at h
    · simp only [except_bind_ok, except_throw_ok, false_and, exists_false] at h
    · rename_i hne
      refine ⟨by rw [hsome, (Model.expect_fields_ok h).1]; rfl, ?_⟩
      rintro hnil
      rw [hsome, Option.some.injEq] at hnil
      simp [hnil] at hne

theorem compile_led {orderBy : Option (List Json.Entries)} {items : List SortItem}
    (hop : cx.operation.isAggregate = false) (h : compile s cx orderBy none = .ok items) :
    ∃ fields ms cursor, distinctFields cx = .ok fields ∧
      List.Forall₂ (Mentions cx) (asked orderBy) ms ∧
      (((cx.pagination?.bind (·.cursor)).getD []).map (·.1)).mapM cx.model.expectField =
        .ok cursor ∧
      let lead := fields.map (·.name)
      let seen := lead ++ (asked orderBy).keys
      let rest := unseen seen (cursor.map (·.name))
      let ties := if breaksTies s cx then
          unseen (seen ++ rest) (cx.model.identifiers.map (·.name))
        else []
      items = leadItems cx ms [] lead ++
        (ms.filter fun m => !(m.field.any lead.contains)).map (·.item) ++
          (rest ++ ties).map (ascending cx) := by
  simp only [compile, except_bind_ok, except_pure_ok] at h
  obtain ⟨fields, hfields, ms, hms, cursor, hcursor, rfl⟩ := h
  have hasked := mentions_asked hop hms
  refine ⟨fields, ms, cursor, hfields, hasked, hcursor, ?_⟩
  rw [names_of_asked hasked]
  rfl

theorem first_item_asked {orderBy : Option (List Json.Entries)} {items : List SortItem}
    (hop : cx.operation.isAggregate = false) (h : compile s cx orderBy none = .ok items)
    {name : String} (hname : name ∈ (asked orderBy).keys) : ∃ e it,
      deciding ((cx.pagination?.bind (·.distinct)).getD []) (asked orderBy) name = some e ∧
        firstItem? cx.tag items name = some it ∧ Answers cx.model cx.tag e it := by
  obtain ⟨fields, ms, cursor, hfields, hasked, -, rfl⟩ := compile_led hop h
  rw [← (distinct_names hfields).1]
  generalize fields.map (·.name) = lead
  have hnamed := named_of_asked hasked
  have hfound : ∀ entries : Json.Entries, name ∈ entries.keys →
      ∃ e, entries.find? (fun e => e.1 = name) = some e := by
    intro entries hmem
    obtain ⟨e, he, heq⟩ := List.mem_map.mp hmem
    exact Option.isSome_iff_exists.mp
      (List.find?_isSome.mpr ⟨e, he, decide_eq_true heq⟩)
  simp only [deciding, firstItem?, List.append_assoc, List.find?_append]
  by_cases hlead : name ∈ lead
  · have hreverse : name ∈ Json.Entries.keys (asked orderBy).reverse := by
      simpa [Json.Entries.keys] using hname
    obtain ⟨e, he⟩ := hfound _ hreverse
    rw [if_pos hlead, find_lead hnamed hlead List.not_mem_nil]
    exact ⟨e, _, he, rfl, lead_item_asked hasked he⟩
  · obtain ⟨e, he⟩ := hfound _ hname
    have hname : e.1 = name := by simpa using List.find?_some he
    have hother : ((asked orderBy).filter fun e => e.1 ∉ lead).find? (fun e => e.1 = name) =
        some e := by
      rw [← he, List.find?_filter]
      congr 1
      funext e
      by_cases heq : e.1 = name <;> simp [heq, hlead]
    obtain ⟨it, hit, hanswers⟩ := find_related
      (q := fun it : SortItem => it.key = .column ⟨cx.tag, name⟩)
      (fun e it hm => by simp [hm.key_eq]) (others_asked hasked lead) hother
    rw [if_neg hlead, find_lead_none hnamed hlead, hit]
    exact ⟨e, it, he, rfl, hanswers⟩

/-- The items of records that are distinct in some fields: these in the lead, the others
that are asked for in the order written, and the identifiers beyond both where ties are to
be broken. -/
structure Backs (m : Model) (tag : Alias) (names : List String) (entries : Json.Entries)
    (stable : Bool) (leading others ties : List SortItem) : Prop where
  leading_eq : leading.map (·.key) = names.map fun name => .column ⟨tag, name⟩
  others_asked : List.Forall₂ (Answers m tag) (entries.filter fun e => e.1 ∉ names) others
  ties_eq : ties = if stable then
      (m.identifiers.filter fun f => f.name ∉ names ++ entries.keys).map fun f =>
        { key := .column ⟨tag, f.name⟩, direction := .asc }
    else []
  sorted : ∀ name ∈ entries.keys, .column ⟨tag, name⟩ ∈ (leading ++ others).map (·.key)

theorem compile_backs {orderBy : Option (List Json.Entries)} {items : List SortItem}
    (hop : cx.operation.isAggregate = false) (hcursor : cx.pagination?.bind (·.cursor) = none)
    (h : compile s cx orderBy none = .ok items) : ∃ leading others ties,
      items = leading ++ others ++ ties ∧
        Backs cx.model cx.tag ((cx.pagination?.bind (·.distinct)).getD []) (asked orderBy)
          (breaksTies s cx) leading others ties := by
  obtain ⟨fields, ms, cursor, hfields, hasked, hadded, rfl⟩ := compile_led hop h
  have hnone : cursor.map (·.name) = [] := by
    rw [(Model.expect_fields_ok hadded).1, hcursor]
    rfl
  rw [← (distinct_names hfields).1, hnone]
  generalize fields.map (·.name) = lead
  have hnamed := named_of_asked hasked
  refine ⟨_, _, _, rfl, lead_items_keys hnamed [] lead, others_asked hasked lead, ?_, ?_⟩
  · simp only [unseen, List.filter_nil, List.nil_append, List.append_nil]
    split
    · rw [List.filter_map, List.map_map]
      congr 1
      exact List.filter_congr fun f _ => by simp
    · rfl
  · intro name hname
    have hseen := (sorted_iff_seen hnamed lead [] name).mpr
      (List.mem_append_left _ (List.mem_append_right _ ((names_of_asked hasked).symm ▸ hname)))
    rwa [List.map_nil, List.append_nil] at hseen

end Ordering

section

variable {m : Model} {op : Operation} {args : Args}

theorem Context.root_distinct (m : Model) (op : Operation) (args : Args)
    (hop : op.isMutation = false) :
    (Context.atRoot m op args).pagination?.bind (·.distinct) = args.distinct := by
  simp only [Context.atRoot, hop]
  rfl

theorem Operation.read_alone (hop : op.isRead = true) :
    op.isMutation = false ∧ op.isAggregate = false := by
  cases op <;> first | exact ⟨rfl, rfl⟩ | cases hop

theorem Ordering.root_breaks_ties (s : Settings) (m : Model) (args : Args)
    (hop : op.isRead = true) : breaksTies s (Context.atRoot m op args) =
      (s.orderTiebreaker && (args.take.isSome || args.skip.isSome)) := by
  have hread : (Context.atRoot m op args).operation.isRead = true := hop
  have hpage : (Context.atRoot m op args).pagination? =
      some { take := args.take, skip := args.skip, cursor := args.cursor,
             distinct := args.distinct } := by
    simp only [Context.atRoot, (Operation.read_alone hop).1]
    rfl
  simp [breaksTies, hread, hpage]

theorem Read.distinct_named {s : Settings} {cx : Context} {columns : List Column}
    {names : List String} (h : Read.distinct s cx = .ok columns)
    (hnames : cx.pagination?.bind (·.distinct) = some names) :
    columns = names.map (fun name => ⟨cx.tag, name⟩) ∧ names ≠ [] ∧
      cx.pagination?.bind (·.cursor) = none := by
  simp only [Read.distinct, except_bind_ok] at h
  obtain ⟨fields, hfields, h⟩ := h
  obtain ⟨hfound, hne⟩ := Ordering.distinct_names hfields
  rw [hnames] at hfound hne
  have hnames : fields.map (·.name) = names := hfound
  have hne : names ≠ [] := fun hnil => hne (congrArg some hnil)
  split at h
  · rename_i hempty
    rw [List.isEmpty_iff.mp hempty] at hnames
    exact absurd hnames.symm hne
  · split at h
    · simp only [except_bind_ok, except_throw_ok, false_and, exists_false] at h
    · rename_i hcursor
      simp only [except_bind_ok, except_pure_ok] at h
      obtain ⟨_, _, rfl⟩ := h
      refine ⟨?_, hne, by simpa using hcursor⟩
      rw [← hnames, List.map_map]
      rfl

end

/-- The rows of a read that are distinct in some fields are sorted by the columns of
`DISTINCT ON` first, as many of them and in their order. Behind these stands all that is
asked for otherwise, in the order written, and then only identifiers that are not mentioned
before, where the ties of a page are to be broken. Nothing that is asked for is left out. -/
theorem distinct_is_backed_by_ordering (c : Compiler) (model : String) (op : Operation)
    (args : Args) (names : List String) (prepared : Prepared) (hop : op.isRead = true)
    (hdistinct : args.distinct = some names) (h : c.compile model op args = .ok prepared) :
    ∃ m st as columns distinct body leading others ties, c.schema.model? model = some m ∧
      c.statement model op args = .ok (st, as) ∧
      prepared = (st.render c.dialect).prepare c.dialect ∧ st = .select columns distinct body ∧
      distinct = names.map (fun name => ⟨body.tag, name⟩) ∧ names ≠ [] ∧
      body.orderBy = leading ++ others ++ ties ∧
      Ordering.Backs m body.tag names (Ordering.asked args.orderBy)
        (c.config.orderTiebreaker && (args.take.isSome || args.skip.isSome))
        leading others ties := by
  obtain ⟨st, as, hst, rfl⟩ := Compiler.compile_ok h
  obtain ⟨m, hm, -, hruns⟩ := Compiler.statement_ok hst
  obtain ⟨hmutation, haggregate⟩ := Operation.read_alone hop
  have hroot := Context.root_distinct m op args hmutation
  rw [hdistinct] at hroot
  cases hruns with
  | find _ _ hcolumns _ order =>
    obtain ⟨rfl, hne, hcursor⟩ := Read.distinct_named hcolumns hroot
    obtain ⟨leading, others, ties, horder, hbacks⟩ :=
      Ordering.compile_backs haggregate hcursor order
    rw [hroot, Ordering.root_breaks_ties c.settings m args hop] at hbacks
    refine ⟨m, _, as, _, _, _, leading, others, ties, hm, hst, rfl, rfl, rfl, hne, ?_, ?_⟩
    · exact horder
    · exact hbacks
  | aggregate hagg | overPage hagg => rcases hagg with rfl | rfl <;> cases hop
  | groupBy | create | update | delete => cases hop

namespace Sample

def distinctUsers : Args where
  distinct := some ["name"]
  orderBy := some [[("age", .obj [("sort", .str "desc"), ("nulls", .str "last")])],
    [("name", .str "desc"), ("age", .str "asc")]]
  take := some 10

def steadyDistinct : Compiler := .ofConfig schema { engine := .postgresql, orderTiebreaker := true }

end Sample

theorem sample_distinct_is_backed_by_ordering :
    Operation.isRead .findMany = true ∧ Sample.distinctUsers.distinct = some ["name"] ∧
    ∃ prepared columns body as, Sample.steadyDistinct.compile "User" .findMany
        Sample.distinctUsers = .ok prepared ∧
      Sample.steadyDistinct.statement "User" .findMany Sample.distinctUsers =
        .ok (.select columns [⟨body.tag, "name"⟩] body, as) ∧
      ∃ leading others ties, body.orderBy = leading ++ others ++ ties ∧
        Ordering.Backs Sample.user body.tag ["name"]
          [("age", .obj [("sort", .str "desc"), ("nulls", .str "last")]), ("name", .str "desc"),
            ("age", .str "asc")] true leading others ties := by
  have hcompiles : ∃ prepared, Sample.steadyDistinct.compile "User" .findMany
      Sample.distinctUsers = .ok prepared := ⟨_, by with_unfolding_all rfl⟩
  obtain ⟨prepared, hc⟩ := hcompiles
  obtain ⟨m, st, as, columns, _, body, leading, others, ties, hm, hst, -, rfl, rfl, -, horder,
    hbacks⟩ := distinct_is_backed_by_ordering _ _ _ _ ["name"] _ rfl rfl hc
  obtain rfl : m = Sample.user := (Option.some.inj hm).symm
  exact ⟨rfl, rfl, prepared, columns, body, as, hc, hst, leading, others, ties, horder, hbacks⟩

theorem Statement.first_items {s : Settings} {m : Model} {op : Operation} {args : Args}
    {st : Statement} {b : Aliases} (hop : op.isRead = true)
    (h : Statement.Runs s (Context.atRoot m op args) args op st b) :
    ∃ columns distinct body, st = .select columns distinct body ∧ body.tag = ⟨0⟩ ∧
      ∀ name ∈ (Ordering.asked args.orderBy).keys, ∃ e it,
        Ordering.deciding (args.distinct.getD []) (Ordering.asked args.orderBy) name = some e ∧
        Ordering.firstItem? body.tag body.orderBy name = some it ∧
        Ordering.Answers m body.tag e it := by
  obtain ⟨hmutation, haggregate⟩ := Operation.read_alone hop
  cases h with
  | find _ _ _ _ order =>
    refine ⟨_, _, _, rfl, rfl, fun name hname => ?_⟩
    have hfirst := Ordering.first_item_asked haggregate order hname
    rwa [Context.root_distinct m op args hmutation] at hfirst
  | aggregate hagg | overPage hagg => rcases hagg with rfl | rfl <;> cases hop
  | groupBy | create | update | delete => cases hop

/-- In any read of records the first item on a field that is asked for sorts in the way of
its first mention, or of its last one where the field is among those of `distinct`. Unless
such a field is asked for in two ways, its first mention is answered, and by the item that
answers it without `distinct`. -/
theorem requested_direction_wins (c : Compiler) (model : String) (op : Operation) (args : Args)
    (prepared : Prepared) (hop : op.isRead = true) (h : c.compile model op args = .ok prepared) :
    ∃ m st as columns distinct body, c.schema.model? model = some m ∧
      c.statement model op args = .ok (st, as) ∧
      prepared = (st.render c.dialect).prepare c.dialect ∧ st = .select columns distinct body ∧
      ∀ name ∈ (Ordering.asked args.orderBy).keys, ∃ it,
        Ordering.firstItem? body.tag body.orderBy name = some it ∧
        (∃ e, Ordering.deciding (args.distinct.getD []) (Ordering.asked args.orderBy) name =
          some e ∧ Ordering.Answers m body.tag e it) ∧
        ((name ∈ args.distinct.getD [] →
            Ordering.Unanimous m (Ordering.asked args.orderBy) name) →
          (∃ e, (Ordering.asked args.orderBy).find? (fun e => e.1 = name) = some e ∧
            Ordering.Answers m body.tag e it) ∧
          ∀ st' as', c.statement model op { args with distinct := none } = .ok (st', as') →
            ∃ columns' distinct' body', st' = .select columns' distinct' body' ∧
              Ordering.firstItem? body'.tag body'.orderBy name = some it) := by
  obtain ⟨st, as, hst, rfl⟩ := Compiler.compile_ok h
  obtain ⟨m, hm, -, hruns⟩ := Compiler.statement_ok hst
  obtain ⟨columns, distinct, body, rfl, htag, hfirst⟩ := Statement.first_items hop hruns
  refine ⟨m, _, as, columns, distinct, body, hm, hst, rfl, rfl, fun name hname => ?_⟩
  obtain ⟨e, it, he, hit, hanswers⟩ := hfirst name hname
  refine ⟨it, hit, ⟨e, he, hanswers⟩, fun hone => ?_⟩
  obtain ⟨first, hasked, hanswered⟩ := hanswers.first he hone
  refine ⟨⟨first, hasked, hanswered⟩, fun st' as' hst' => ?_⟩
  obtain ⟨m', hm', -, hruns'⟩ := Compiler.statement_ok hst'
  obtain ⟨columns', distinct', body', rfl, htag', hfirst'⟩ := Statement.first_items hop hruns'
  obtain ⟨e', it', he', hit', hanswers'⟩ := hfirst' name hname
  obtain rfl : m = m' := Option.some.inj (hm.symm.trans hm')
  obtain rfl : first = e' := Option.some.inj (hasked.symm.trans he')
  rw [htag'] at hanswers'
  rw [htag] at hanswered
  exact ⟨columns', distinct', body', rfl, hit'.trans (congrArg some (hanswers'.unique hanswered))⟩

namespace Sample

def twiceSorted (distinct : Option (List String)) : Args where
  distinct := distinct
  orderBy := some [[("name", .str "asc")], [("name", .str "desc")]]

end Sample

theorem sample_requested_direction_wins : Operation.isRead .findMany = true ∧
    ∃ prepared columns distinct body as, Sample.steadyDistinct.compile "User" .findMany
        Sample.distinctUsers = .ok prepared ∧
      Sample.steadyDistinct.statement "User" .findMany Sample.distinctUsers =
        .ok (.select columns distinct body, as) ∧
      Ordering.firstItem? body.tag body.orderBy "age" =
        some ⟨.column ⟨body.tag, "age"⟩, .desc, some .last⟩ := by
  have hcompiles : ∃ prepared, Sample.steadyDistinct.compile "User" .findMany
      Sample.distinctUsers = .ok prepared := ⟨_, by with_unfolding_all rfl⟩
  obtain ⟨prepared, hc⟩ := hcompiles
  obtain ⟨m, st, as, columns, distinct, body, hm, hst, -, rfl, hfirst⟩ :=
    requested_direction_wins _ _ _ _ _ rfl hc
  obtain ⟨it, hit, ⟨e, he, hanswers⟩, -⟩ := hfirst "age" (by decide)
  obtain rfl : m = Sample.user := (Option.some.inj hm).symm
  cases he
  have hsame : it = ⟨.column ⟨body.tag, "age"⟩, .desc, some .last⟩ :=
    hanswers.unique ⟨rfl, by with_unfolding_all rfl⟩
  exact ⟨rfl, prepared, columns, distinct, body, as, hc, hst, hsame ▸ hit⟩

/-- A field of `distinct` that is asked for in two ways is sorted in the way of its last
mention, where it would be sorted in that of its first one otherwise. -/
theorem distinct_turns_direction :
    (Schema.Builder.build ⟨none, Sample.schema.models⟩).1 = .ok Sample.schema ∧
    ∃ columns body as body' as',
      (Sample.compiler .postgresql).statement "User" .findMany
          (Sample.twiceSorted (some ["name"])) =
        .ok (.select columns [⟨⟨0⟩, "name"⟩] body, as) ∧
      (Sample.compiler .postgresql).statement "User" .findMany (Sample.twiceSorted none) =
        .ok (.select columns [] body', as') ∧
      (Ordering.asked (Sample.twiceSorted (some ["name"])).orderBy).find?
        (fun e => e.1 = "name") = some ("name", .str "asc") ∧
      Ordering.order Sample.user "name" (.str "asc") = .ok (.asc, none) ∧
      Ordering.firstItem? ⟨0⟩ body.orderBy "name" = some ⟨.column ⟨⟨0⟩, "name"⟩, .desc, none⟩ ∧
      Ordering.firstItem? ⟨0⟩ body'.orderBy "name" = some ⟨.column ⟨⟨0⟩, "name"⟩, .asc, none⟩ := by
  exact ⟨rfl, _, _, _, _, _, by with_unfolding_all rfl, by with_unfolding_all rfl, rfl,
    by with_unfolding_all rfl, by with_unfolding_all rfl, by with_unfolding_all rfl⟩

end QuerySql
