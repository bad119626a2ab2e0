import QuerySql.Proofs.Parameters

/-!
# The limit on nesting

The chains of relations that a query follows from its root are read off its
arguments. A compilation under a limit succeeds exactly where the same one
succeeds under some limit and no chain is longer than its own; what it gives does
not depend on the limit. Both facts are one statement about families of
compilations, one for each limit, and it is put together bind by bind.
-/

set_option autoImplicit false

namespace QuerySql

/-- The chains that begin with a relation, given those that go on from its target.
The relation alone is one of them. -/
def Schema.followed (schema : Schema) (r : Relation) (onward : Model → List (List String)) :
    List (List String) :=
  match schema.model? r.target with
  | some target => [r.name] :: (onward target).map (r.name :: ·)
  | none => []

namespace Filter

mutual

def trails (schema : Schema) (m : Model) : List (String × Json) → List (List String)
  | [] => []
  | (key, value) :: rest =>
    (match Connective.ofKey? key, m.field? key, m.relation? key with
      | some _, _, _ => operandTrails schema m value
      | none, some _, _ => []
      | none, none, some r => relationTrails schema r value
      | none, none, none => []) ++ trails schema m rest

def operandTrails (schema : Schema) (m : Model) : Json → List (List String)
  | .obj entries => trails schema m entries
  | .arr items => itemTrails schema m items
  | _ => []

def itemTrails (schema : Schema) (m : Model) : List Json → List (List String)
  | [] => []
  | .obj entries :: rest => trails schema m entries ++ itemTrails schema m rest
  | _ :: rest => itemTrails schema m rest

def relationTrails (schema : Schema) (r : Relation) : Json → List (List String)
  | .null => schema.followed r fun _ => []
  | .obj entries =>
    if Quantifier.count entries = 0 then
      schema.followed r fun target => trails schema target entries
    else quantifierTrails schema r entries
  | _ => []

def quantifierTrails (schema : Schema) (r : Relation) : List (String × Json) → List (List String)
  | [] => []
  | (key, value) :: rest =>
    (match Quantifier.ofKey? key with
      | some q => quantifiedTrails schema r q value
      | none => []) ++ quantifierTrails schema r rest

/-- Nothing is asked of the related records under `every` with an empty filter. -/
def quantifiedTrails (schema : Schema) (r : Relation) (q : Quantifier) : Json → List (List String)
  | .null => schema.followed r fun _ => []
  | .obj entries =>
    if entries.isEmpty && q = .every then []
    else schema.followed r fun target => trails schema target entries
  | _ => []

end

end Filter

namespace Records

mutual

def trails (schema : Schema) (m : Model) : List (String × Json) → List (List String)
  | [] => []
  | (key, value) :: rest =>
    (match m.field? key, m.relation? key with
      | none, some r => relationTrails schema r value
      | _, _ => []) ++ trails schema m rest

def relationTrails (schema : Schema) (r : Relation) : Json → List (List String)
  | .bool true => schema.followed r fun _ => []
  | .obj args => schema.followed r fun target =>
      nestedTrails schema target args ++
        Filter.trails schema target ((RelationArgs.filterOf args).getD [])
  | _ => []

def nestedTrails (schema : Schema) (target : Model) : List (String × Json) → List (List String)
  | [] => []
  | (key, .obj entries) :: rest =>
    if key = "select" || key = "include" then trails schema target entries
    else nestedTrails schema target rest
  | _ :: rest => nestedTrails schema target rest

end

end Records

def Args.trails (schema : Schema) (m : Model) (args : Args) (op : Operation) :
    List (List String) :=
  let selection := Records.trails schema m (args.select.getD []) ++
    Records.trails schema m (args.inclusion.getD [])
  let filter := Filter.trails schema m (args.filter.getD [])
  match op with
  | .findMany | .findFirst | .findUnique => selection ++ filter
  | .count | .aggregate | .groupBy | .update | .delete => filter
  | .create => []

/-- The length of the longest chain of relations that a query follows. -/
def Args.nesting (schema : Schema) (m : Model) (args : Args) (op : Operation) : Nat :=
  ((args.trails schema m op).map List.length).foldr Nat.max 0

theorem Args.nesting_le {schema : Schema} {m : Model} {args : Args} {op : Operation} {d : Nat} :
    args.nesting schema m op ≤ d ↔ ∀ t ∈ args.trails schema m op, t.length ≤ d := by
  have hmax : ∀ ns : List Nat, ns.foldr Nat.max 0 ≤ d ↔ ∀ n ∈ ns, n ≤ d := by
    intro ns
    induction ns with
    | nil => simp
    | cons n ns ih => simp only [List.foldr_cons, Nat.max_le, ih, List.forall_mem_cons]
  rw [Args.nesting, hmax, List.forall_mem_map]

def Settings.within (s : Settings) (d : Nat) : Settings := { s with maxDepth := d }

namespace Compile

/-- Compilations under each limit, `k` relations away from the root. One under the
limit `d` succeeds exactly where one under some limit does and the chains, taken on
from here, are no longer than `d`; its result is the same. -/
def Limited {α : Type} (k : Nat) (ts : List (List String)) (f : Nat → Compile α) : Prop :=
  ∀ d a r, f d a = .ok r ↔ (∃ d', f d' a = .ok r) ∧ ∀ t ∈ ts, k + t.length ≤ d

namespace Limited

variable {α β : Type} {k : Nat} {ts us : List (List String)} {f : Nat → Compile α}
  {g : Nat → α → Compile β}

theorem const (x : Compile α) : Limited k [] fun _ => x :=
  fun _ _ _ => ⟨fun h => ⟨⟨0, h⟩, List.forall_mem_nil _⟩, fun h => h.1.elim fun _ => id⟩

theorem fails (h : ∀ d a r, f d a ≠ .ok r) : Limited k ts f := by
  intro d a r
  constructor
  · exact fun hr => absurd hr (h d a r)
  · rintro ⟨⟨d', hr⟩, _⟩
    exact absurd hr (h d' a r)

theorem throw {e : Error} : Limited k ts fun _ => (MonadExcept.throw e : Compile α) :=
  fails fun _ _ _ h => throw_ok.mp h

theorem throw_bind {e : Error} :
    Limited k ts fun d => (MonadExcept.throw e : Compile α) >>= g d := by
  refine fails fun d a r h => ?_
  obtain ⟨_, _, hthrow, _⟩ := bind_ok.mp h
  exact throw_ok.mp hthrow

theorem bind (hf : Limited k ts f) (hg : ∀ y, Limited k us fun d => g d y) :
    Limited k (ts ++ us) fun d => f d >>= g d := by
  intro d a r
  simp only [bind_ok, List.forall_mem_append]
  constructor
  · rintro ⟨y, b, hy, hr⟩
    exact ⟨⟨d, y, b, hy, hr⟩, ((hf d a (y, b)).mp hy).2, ((hg y d b r).mp hr).2⟩
  · rintro ⟨⟨d', y, b, hy, hr⟩, hts, hus⟩
    exact ⟨y, b, (hf d a (y, b)).mpr ⟨⟨d', hy⟩, hts⟩, (hg y d b r).mpr ⟨⟨d', hr⟩, hus⟩⟩

theorem after {x : Compile α} (hg : ∀ y, Limited k us fun d => g d y) :
    Limited k us fun d => x >>= g d :=
  (const x).bind hg

theorem after_lift {x : Except Error α} (hg : ∀ y, x = .ok y → Limited k us fun d => g d y) :
    Limited k us fun d => (liftM x : Compile α) >>= g d := by
  cases x with
  | error e => exact throw_bind (e := e)
  | ok y => exact hg y rfl

theorem ending (hf : Limited k ts f) {x : α → Compile β} :
    Limited k ts fun d => f d >>= x := by
  have hall := hf.bind (g := fun _ => x) fun y => const (x y)
  rwa [List.append_nil] at hall

theorem map (hf : Limited k ts f) (h : α → β) : Limited k ts fun d => h <$> f d := by
  simp only [map_eq_pure_bind]
  exact hf.ending

theorem descend {s : Settings} {cx : Context} {r : Relation} {onward : Model → List (List String)}
    {g : Nat → Context → Compile β}
    (h : ∀ target tag, s.schema.model? r.target = some target →
      Limited (cx.depth + 1) (onward target) fun d => g d (cx.nested r target tag)) :
    Limited cx.depth (s.schema.followed r onward) fun d =>
      Compile.descend (s.within d) cx r >>= g d := by
  intro d a res
  simp only [bind_ok, descend_ok]
  unfold Schema.followed
  constructor
  · rintro ⟨_, _, ⟨target, ht, hd, rfl, rfl⟩, hres⟩
    have hon := ((h target _ ht d _ res).mp hres).2
    refine ⟨⟨d, _, _, ⟨target, ht, hd, rfl, rfl⟩, hres⟩, ?_⟩
    have htarget : s.schema.model? r.target = some target := ht
    rw [htarget]
    refine List.forall_mem_cons.mpr ⟨hd, List.forall_mem_map.mpr fun t hin => ?_⟩
    rw [List.length_cons, ← Nat.add_assoc, Nat.add_right_comm]
    exact hon t hin
  · rintro ⟨⟨d', _, _, ⟨target, ht, _, rfl, rfl⟩, hres⟩, hts⟩
    have htarget : s.schema.model? r.target = some target := ht
    rw [htarget] at hts
    obtain ⟨hd, hon⟩ := List.forall_mem_cons.mp hts
    refine ⟨_, _, ⟨target, ht, hd, rfl, rfl⟩, (h target _ ht d _ res).mpr ⟨⟨d', hres⟩, ?_⟩⟩
    intro t hin
    have hlength := List.forall_mem_map.mp hon t hin
    rwa [List.length_cons, ← Nat.add_assoc, Nat.add_right_comm] at hlength

end Limited

end Compile

open Compile (Limited)

variable {s : Settings}

namespace Filter

theorem subquery_limited {cx : Context} {r : Relation} {c : Connective} {negated : Bool}
    {entries : Json.Entries}
    (h : ∀ child : Context, Limited child.depth (trails s.schema child.model entries)
      fun d => conditions (s.within d) child entries) :
    Limited cx.depth (s.schema.followed r fun target => trails s.schema target entries)
      fun d => (do
        let child ← Compile.descend (s.within d) cx r
        let nested ← conditions (s.within d) child entries
        let p ← c.apply child.model [Pred.all? nested]
        linked r cx child negated [p]) := by
  refine Limited.descend fun target tag _ => ?_
  have hnested := h (cx.nested r target tag)
  rw [Context.depth_nested] at hnested
  exact hnested.ending

theorem unfiltered_limited (cx : Context) (r : Relation) (negated : Bool) :
    Limited cx.depth (s.schema.followed r fun _ => [])
      fun d => unfiltered (s.within d) cx r negated :=
  Limited.descend fun _ _ _ => .const _

mutual

theorem conditions_limited (cx : Context) (entries : List (String × Json)) :
    Limited cx.depth (trails s.schema cx.model entries)
      fun d => conditions (s.within d) cx entries := by
  match entries with
  | [] => exact .const _
  | (key, value) :: rest =>
    have hrest := conditions_limited cx rest
    simp only [conditions, trails]
    refine .after_lift fun k hk => ?_
    rcases FilterKey.resolve_ok hk with ⟨c, hc, rfl⟩ | ⟨hc, f, hf, rfl⟩ | ⟨hc, hf, r, hr, rfl⟩
    · simp only [hc]
      exact ((connective_limited cx c value).map some).bind fun _ => hrest.ending
    · simp only [hc, hf]
      exact .after fun _ => hrest.ending
    · simp only [hc, hf, hr]
      exact ((relation_limited cx r value).map some).bind fun _ => hrest.ending

theorem connective_limited (cx : Context) (c : Connective) (value : Json) :
    Limited cx.depth (operandTrails s.schema cx.model value)
      fun d => connective (s.within d) cx c value := by
  match value with
  | .obj entries =>
    simp only [connective, operandTrails]
    exact .after fun _ => ((conditions_limited cx entries).map _).ending
  | .arr items =>
    simp only [connective, operandTrails]
    exact .after fun _ => (each_limited cx items).ending
  | .null | .bool _ | .num _ | .str _ =>
    simp only [connective]
    exact .const _

theorem each_limited (cx : Context) (items : List Json) :
    Limited cx.depth (itemTrails s.schema cx.model items)
      fun d => each (s.within d) cx items := by
  match items with
  | [] => exact .const _
  | .obj entries :: rest =>
    simp only [each, itemTrails]
    exact (conditions_limited cx entries).bind fun _ => (each_limited cx rest).ending
  | .null :: rest | .bool _ :: rest | .num _ :: rest | .str _ :: rest | .arr _ :: rest =>
    simp only [each, itemTrails]
    exact each_limited cx rest

theorem relation_limited (cx : Context) (r : Relation) (value : Json) :
    Limited cx.depth (relationTrails s.schema r value)
      fun d => relation (s.within d) cx r value := by
  match value with
  | .null =>
    simp only [relation, relationTrails]
    split
    · exact unfiltered_limited cx r true
    · exact .throw
  | .obj entries =>
    simp only [relation, relationTrails]
    split
    · split
      · rename_i hempty
        rw [List.isEmpty_iff.mp hempty]
        exact unfiltered_limited cx r false
      · exact subquery_limited fun child => conditions_limited child entries
    · split
      · exact .throw
      · exact (quantifiers_limited cx r entries).map _
  | .bool _ | .num _ | .str _ | .arr _ =>
    simp only [relation]
    exact .throw

theorem quantifiers_limited (cx : Context) (r : Relation) (entries : List (String × Json)) :
    Limited cx.depth (quantifierTrails s.schema r entries)
      fun d => quantifiers (s.within d) cx r entries := by
  match entries with
  | [] => exact .const _
  | (key, value) :: rest =>
    have hrest := quantifiers_limited cx r rest
    simp only [quantifiers, quantifierTrails]
    cases Quantifier.ofKey? key with
    | none => exact .after fun _ => hrest.ending
    | some q => exact ((quantified_limited cx r q value).map _).bind fun _ => hrest.ending

theorem quantified_limited (cx : Context) (r : Relation) (q : Quantifier) (value : Json) :
    Limited cx.depth (quantifiedTrails s.schema r q value)
      fun d => quantified (s.within d) cx r q value := by
  simp only [quantified.eq_def]
  split
  · exact .throw
  · match value with
    | .obj [] =>
      by_cases hq : q = .every
      · simp only [quantifiedTrails, hq]
        exact .const _
      · simp only [quantifiedTrails, List.isEmpty_nil, if_true, if_neg hq, Bool.true_and,
          decide_eq_true_eq]
        exact unfiltered_limited cx r q.negated
    | .obj (e :: rest) =>
      simp only [quantifiedTrails, List.isEmpty_cons, Bool.false_and, Bool.false_eq_true, if_false]
      exact subquery_limited fun child => conditions_limited child (e :: rest)
    | .null =>
      simp only [quantifiedTrails]
      split
      · exact .throw
      · exact unfiltered_limited cx r (!q.negated)
    | .bool _ | .num _ | .str _ | .arr _ => exact .throw

end

theorem compile_limited (cx : Context) (entries : Json.Entries) :
    Limited cx.depth (trails s.schema cx.model entries)
      fun d => compile (s.within d) cx entries :=
  (conditions_limited cx entries).map _

theorem optional_limited (cx : Context) (filter : Option Json.Entries) :
    Limited cx.depth (trails s.schema cx.model (filter.getD []))
      fun d => compile? (s.within d) cx filter := by
  cases filter with
  | none => exact .const _
  | some entries => exact compile_limited cx entries

end Filter

/-! No ordering looks at the limit. -/

namespace Ordering

variable (d : Nat) (cx : Context)

theorem aggregate_fields_within (kind : Aggregate) (entries : List (String × Json)) :
    aggregateFields (s.within d) cx kind entries = aggregateFields s cx kind entries := by
  induction entries with
  | nil => rfl
  | cons e rest ih =>
    simp only [aggregateFields, ih]
    rfl

theorem key_mentions_within (grouped : Option (List String)) (key : String) (value : Json) :
    keyMentions (s.within d) cx grouped key value = keyMentions s cx grouped key value := by
  simp only [keyMentions, aggregateMentions, aggregate_fields_within]
  rfl

theorem entry_mentions_within (grouped : Option (List String)) (entries : List (String × Json)) :
    entryMentions (s.within d) cx grouped entries = entryMentions s cx grouped entries := by
  induction entries with
  | nil => rfl
  | cons e rest ih => simp only [entryMentions, key_mentions_within, ih]

theorem mentions_within (grouped : Option (List String)) (orderBy : List Json.Entries) :
    mentions (s.within d) cx grouped orderBy = mentions s cx grouped orderBy := by
  induction orderBy with
  | nil => rfl
  | cons entry rest ih => simp only [mentions, entry_mentions_within, ih]

theorem compile_within (orderBy : Option (List Json.Entries)) (grouped : Option (List String)) :
    compile (s.within d) cx orderBy grouped = compile s cx orderBy grouped := by
  simp only [compile, mentions_within]
  rfl

end Ordering

namespace Records

variable {α : Type}

theorem enter_limited {cx : Context} {r : Relation} {args : RelationArgs}
    {onward : Model → List (List String)} {g : Nat → Context → Compile α}
    (h : ∀ child : Context, child.depth = cx.depth + 1 →
      Limited child.depth (onward child.model) fun d => g d child) :
    Limited cx.depth (s.schema.followed r onward)
      fun d => enter (s.within d) cx r args >>= g d := by
  simp only [enter]
  split
  · simp only [bind_assoc]
    exact .throw_bind
  · simp only [bind_assoc]
    refine .descend fun target tag _ => ?_
    have hdepth := Context.depth_nested cx r target tag
    split
    · simp only [bind_assoc]
      exact .throw_bind
    · simp only [pure_bind]
      exact hdepth ▸ h ((cx.nested r target tag).withPagination _) hdepth

theorem close_limited (cx child : Context) (r : Relation) (args : RelationArgs)
    (columns : List Projection) :
    Limited child.depth (Filter.trails s.schema child.model (args.filter.getD []))
      fun d => close (s.within d) cx child r args columns := by
  have hover : ∀ d ps, closeOver (s.within d) cx child r args columns ps =
      closeOver s cx child r args columns ps := by
    intro d ps
    simp only [closeOver, Ordering.compile_within]
  simp only [close_over, hover]
  cases args.filter with
  | none => exact .const _
  | some entries => exact (Filter.compile_limited child entries).ending

theorem column_limited {cx : Context} {r : Relation} {args : RelationArgs}
    {onward : Model → List (List String)} {columns : Nat → Context → Compile (List Projection)}
    (h : ∀ child : Context, Limited child.depth (onward child.model) fun d => columns d child) :
    Limited cx.depth
      (s.schema.followed r fun target =>
        onward target ++ Filter.trails s.schema target (args.filter.getD []))
      fun d => (do
        let child ← enter (s.within d) cx r args
        let columns ← columns d child
        return [← close (s.within d) cx child r args columns]) :=
  enter_limited fun child _ =>
    (h child).bind fun columns => (close_limited cx child r args columns).ending

mutual

theorem selected_limited (cx : Context) (entries : List (String × Json)) :
    Limited cx.depth (trails s.schema cx.model entries)
      fun d => selected (s.within d) cx entries := by
  match entries with
  | [] => exact .const _
  | (key, value) :: rest =>
    have hrest := selected_limited cx rest
    simp only [selected, trails]
    rcases hfield : cx.model.field? key with _ | f
    · rcases hrelation : cx.model.relation? key with _ | r
      · simp only
        split
        · exact .throw_bind
        · exact .throw_bind
      · exact (relation_limited cx r value).bind fun _ => hrest.ending
    · exact .after fun _ => .after fun _ => hrest.ending

theorem inclusions_limited (cx : Context) (entries : List (String × Json)) :
    Limited cx.depth (trails s.schema cx.model entries)
      fun d => inclusions (s.within d) cx entries := by
  match entries with
  | [] => exact .const _
  | (key, value) :: rest =>
    simp only [inclusions, trails]
    refine .after_lift fun r hr => ?_
    obtain ⟨hfield, hrelation⟩ := included_ok hr
    simp only [hfield, hrelation]
    exact (relation_limited cx r value).bind fun _ => (inclusions_limited cx rest).ending

theorem relation_limited (cx : Context) (r : Relation) (value : Json) :
    Limited cx.depth (relationTrails s.schema r value)
      fun d => relation (s.within d) cx r value := by
  match value with
  | .bool false =>
    simp only [relation, relationTrails]
    exact .const _
  | .bool true =>
    simp only [relation, relationTrails]
    refine enter_limited fun child _ => ?_
    exact (close_limited cx child r {} (fieldColumns child)).ending
  | .obj entries =>
    simp only [relation, relationTrails]
    refine .after_lift fun args hargs => ?_
    have hfilter := read_filter hargs
    rw [Option.or_none] at hfilter
    rw [← hfilter]
    exact column_limited fun child => nested_limited child entries
  | .null | .num _ | .str _ | .arr _ =>
    simp only [relation]
    exact .throw

theorem nested_limited (cx : Context) (entries : List (String × Json)) :
    Limited cx.depth (nestedTrails s.schema cx.model entries)
      fun d => nested (s.within d) cx entries := by
  match entries with
  | [] => exact .const _
  | (key, .obj entries) :: rest =>
    simp only [nested, nestedTrails]
    by_cases hselect : key = "select"
    · simp only [hselect]
      exact (selected_limited cx entries).ending
    · by_cases hinclude : key = "include"
      · simp only [hinclude]
        exact (inclusions_limited cx entries).ending
      · simp only [hselect, hinclude]
        exact nested_limited cx rest
  | (_, .null) :: rest | (_, .bool _) :: rest | (_, .num _) :: rest | (_, .str _) :: rest
  | (_, .arr _) :: rest =>
    simp only [nested, nestedTrails]
    exact nested_limited cx rest

end

theorem columns_limited (cx : Context) (select inclusion : Option Json.Entries) :
    Limited cx.depth
      (trails s.schema cx.model (select.getD []) ++ trails s.schema cx.model (inclusion.getD []))
      fun d => columns (s.within d) cx select inclusion := by
  match select, inclusion with
  | some _, some _ => exact .throw
  | some entries, none =>
    rw [Option.getD_none, trails, List.append_nil]
    exact (selected_limited cx entries).ending
  | none, some entries => exact (inclusions_limited cx entries).ending
  | none, none => exact .const _

end Records

namespace Read

theorem filter_limited (cx : Context) (args : Args) :
    Limited cx.depth (Filter.trails s.schema cx.model (args.filter.getD []))
      fun d => filter (s.within d) cx args :=
  (Filter.optional_limited cx args.filter).ending

theorem columns_within {cx : Context} (args : Args) (d : Nat)
    (hop : cx.operation.isAggregate = true) :
    columns (s.within d) cx args = columns s cx args := by
  unfold columns
  cases hcx : cx.operation <;> simp [hcx, Operation.isAggregate] at hop ⊢

theorem distinct_within (cx : Context) (d : Nat) : distinct (s.within d) cx = distinct s cx := rfl

theorem find_limited (cx : Context) (args : Args) (hop : cx.operation.isRead = true) :
    Limited cx.depth
      (Records.trails s.schema cx.model (args.select.getD []) ++
        Records.trails s.schema cx.model (args.inclusion.getD []) ++
        Filter.trails s.schema cx.model (args.filter.getD []))
      fun d => find (s.within d) cx args := by
  have hcolumns := fun d => columns_of_read (s.within d) args hop
  have hrows : Limited cx.depth
      (Records.trails s.schema cx.model (args.select.getD []) ++
        Records.trails s.schema cx.model (args.inclusion.getD []) ++
        Filter.trails s.schema cx.model (args.filter.getD []))
      fun d => findRows (s.within d) cx args := by
    simp only [findRows, hcolumns, distinct_within, Ordering.compile_within]
    refine (Records.columns_limited cx args.select args.inclusion).bind fun columns => ?_
    exact .after fun _ => (filter_limited cx args).ending
  simp only [find_rows]
  split
  · exact .after fun _ => hrows
  · exact hrows

theorem aggregate_limited (cx : Context) (args : Args) (hop : cx.operation.isAggregate = true) :
    Limited cx.depth (Filter.trails s.schema cx.model (args.filter.getD []))
      fun d => aggregate (s.within d) cx args := by
  have houter : ∀ tag d, columns (s.within d) (cx.withTag tag) args =
      columns s (cx.withTag tag) args := fun tag d => columns_within args d hop
  simp only [aggregate, Ordering.compile_within, columns_within args _ hop, houter]
  exact (filter_limited cx args).ending

theorem group_by_limited (cx : Context) (args : Args) (hop : cx.operation.isAggregate = true) :
    Limited cx.depth (Filter.trails s.schema cx.model (args.filter.getD []))
      fun d => groupBy (s.within d) cx args := by
  simp only [groupBy, Ordering.compile_within, columns_within args _ hop]
  exact .after fun _ => .after fun _ => (filter_limited cx args).ending

end Read

namespace Write

theorem update_limited (cx : Context) (args : Args) :
    Limited cx.depth (Filter.trails s.schema cx.model (args.filter.getD []))
      fun d => update (s.within d) cx args := by
  simp only [update]
  refine .after fun data => .after fun assigned => ?_
  split
  · exact .throw_bind
  · exact (Filter.optional_limited cx args.filter).ending

theorem delete_limited (cx : Context) (args : Args) :
    Limited cx.depth (Filter.trails s.schema cx.model (args.filter.getD []))
      fun d => delete (s.within d) cx args :=
  (Filter.optional_limited cx args.filter).ending

end Write

namespace Compiler

def within (c : Compiler) (d : Nat) : Compiler :=
  { c with config := { c.config with maxDepth := d } }

def nesting (c : Compiler) (model : String) (op : Operation) (args : Args) : Nat :=
  match c.schema.model? model with
  | some m => args.nesting c.schema m op
  | none => 0

theorem compile_at_limited (args : Args) (cx : Context) :
    Limited cx.depth (args.trails s.schema cx.model cx.operation)
      fun d => compileAt (s.within d) args cx := by
  unfold compileAt
  cases hop : cx.operation with
  | findMany => exact Read.find_limited cx args (by rw [hop]; rfl)
  | findFirst => exact Read.find_limited cx args (by rw [hop]; rfl)
  | findUnique => exact Read.find_limited cx args (by rw [hop]; rfl)
  | count => exact Read.aggregate_limited cx args (by rw [hop]; rfl)
  | aggregate => exact Read.aggregate_limited cx args (by rw [hop]; rfl)
  | groupBy => exact Read.group_by_limited cx args (by rw [hop]; rfl)
  | create => exact .const _
  | update => exact Write.update_limited cx args
  | delete => exact Write.delete_limited cx args

theorem statement_within (c : Compiler) (model : String) (op : Operation) (args : Args) (d : Nat)
    (r : Statement × Aliases) :
    (c.within d).statement model op args = .ok r ↔
      (∃ d', (c.within d').statement model op args = .ok r) ∧ c.nesting model op args ≤ d := by
  have hstatement : ∀ d, (c.within d).statement model op args = (do
      let found ← c.schema.expectModel model
      args.check found.name op
      (c.within d).run model op args (compileAt (c.settings.within d) args)) := fun _ => rfl
  simp only [hstatement, except_bind_ok, Schema.expect_model_ok, nesting]
  cases hm : c.schema.model? model with
  | none => simp
  | some m =>
    have hrun : ∀ d, (c.within d).run model op args (compileAt (c.settings.within d) args) =
        compileAt (c.settings.within d) args (Context.atRoot m op args) ⟨1⟩ :=
      fun d => run_at (c := c.within d) hm
    have hlimited := compile_at_limited (s := c.settings) args (Context.atRoot m op args) d ⟨1⟩ r
    have hroot : (Context.atRoot m op args).depth = 0 := rfl
    simp only [hroot, Nat.zero_add] at hlimited
    simp only [hrun, hlimited, Option.some.injEq, exists_eq_left', Args.nesting_le]
    constructor
    · rintro ⟨u, hcheck, ⟨d', hr⟩, hts⟩
      exact ⟨⟨d', u, hcheck, hr⟩, hts⟩
    · rintro ⟨⟨d', u, hcheck, hr⟩, hts⟩
      exact ⟨u, hcheck, ⟨d', hr⟩, hts⟩

theorem compile_within (c : Compiler) (model : String) (op : Operation) (args : Args) (d : Nat)
    (p : Prepared) :
    (c.within d).compile model op args = .ok p ↔
      (∃ d', (c.within d').compile model op args = .ok p) ∧ c.nesting model op args ≤ d := by
  have hdialect : ∀ d, (c.within d).dialect = c.dialect := fun _ => rfl
  simp only [compile, hdialect, except_bind_ok, except_pure_ok]
  constructor
  · rintro ⟨r, hr, hp⟩
    obtain ⟨⟨d', hr⟩, hle⟩ := (statement_within c model op args d r).mp hr
    exact ⟨⟨d', r, hr, hp⟩, hle⟩
  · rintro ⟨⟨d', r, hr, hp⟩, hle⟩
    exact ⟨r, (statement_within c model op args d r).mpr ⟨⟨d', hr⟩, hle⟩, hp⟩

end Compiler

/-- A query compiles under a limit exactly if it compiles under some limit and its
longest chain of relations is within this one. Whatever limit admits it, its
statement is the same. -/
theorem nesting_limit_is_exact (c : Compiler) (model : String) (op : Operation) (args : Args) :
    (∀ d, (∃ p, (c.within d).compile model op args = .ok p) ↔
      (∃ d' p, (c.within d').compile model op args = .ok p) ∧ c.nesting model op args ≤ d) ∧
    ∀ d d' p p', (c.within d).compile model op args = .ok p →
      (c.within d').compile model op args = .ok p' → p = p' := by
  have hwithin := Compiler.compile_within c model op args
  refine ⟨fun d => ⟨?_, ?_⟩, fun d d' p p' hp hp' => ?_⟩
  · rintro ⟨p, hp⟩
    exact ⟨⟨d, p, hp⟩, ((hwithin d p).mp hp).2⟩
  · rintro ⟨⟨d', p, hp⟩, hle⟩
    exact ⟨p, (hwithin d p).mpr ⟨⟨d', hp⟩, hle⟩⟩
  · -- under the limit of the second both would be the result
    have hboth := (hwithin d' p).mpr ⟨⟨d, hp⟩, ((hwithin d' p').mp hp').2⟩
    rw [hp'] at hboth
    exact (Except.ok.inj hboth).symm

theorem sample_nesting_limit_is_exact :
    (∃ p, ((Sample.compiler .sqlite).within 2).compile "User" .findMany Sample.page = .ok p) ∧
      ¬ ∃ p, ((Sample.compiler .sqlite).within 1).compile "User" .findMany Sample.page = .ok p := by
  have hexact := (nesting_limit_is_exact (Sample.compiler .sqlite) "User" .findMany Sample.page).1
  have hnesting : (Sample.compiler .sqlite).nesting "User" .findMany Sample.page = 2 := rfl
  obtain ⟨prepared, hcompiles⟩ := Sample.page_compiles
  refine ⟨(hexact 2).mpr ⟨⟨_, prepared, hcompiles⟩, Nat.le_of_eq hnesting⟩, fun hone => ?_⟩
  have hle := ((hexact 1).mp hone).2
  rw [hnesting] at hle
  exact absurd hle (by decide)

end QuerySql
