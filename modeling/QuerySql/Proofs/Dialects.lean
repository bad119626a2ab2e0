import QuerySql.Proofs.Parameters
import QuerySql.Proofs.Shifting

/-!
# Agreement of the dialects

A compilation asks its dialect for two things only: whether it can place nulls,
and whether it can select distinct rows by fields. PostgreSQL can do both. So
every other dialect gives the statement that PostgreSQL gives, under the same
aliases, or refuses a query that asks for one of the two.
-/

set_option autoImplicit false

namespace QuerySql

/-- The first computation ends like the second, or refuses where `G` holds. -/
def Concedes {α : Type} (G : Prop) (x y : Except Error α) : Prop :=
  x = y ∨ G ∧ ∃ e, x = .error e

namespace Concedes

variable {α β : Type} {G G' : Prop} {x y : Except Error α}

theorem refl (x : Except Error α) : Concedes G x x := .inl rfl

theorem mono (h : Concedes G x y) (hg : G → G') : Concedes G' x y := by
  rcases h with h | ⟨hG, he⟩
  · exact .inl h
  · exact .inr ⟨hg hG, he⟩

theorem bind {k l : α → Except Error β} (hx : Concedes G x y)
    (hk : ∀ u, y = .ok u → Concedes G (k u) (l u)) : Concedes G (x >>= k) (y >>= l) := by
  rcases hx with rfl | ⟨hG, e, rfl⟩
  · cases x with
    | error e => exact refl _
    | ok u => exact hk u rfl
  · exact .inr ⟨hG, e, rfl⟩

theorem append {x y xs ys : Except Error (List α)} (hx : Concedes G x y) (hxs : Concedes G xs ys) :
    Concedes G (do let here ← x; let later ← xs; return here ++ later)
      (do let here ← y; let later ← ys; return here ++ later) :=
  hx.bind fun _ _ => hxs.bind fun _ _ => refl _

theorem ok_of_ok {u : α} (h : Concedes G x y) (hx : x = .ok u) : y = .ok u := by
  rcases h with h | ⟨_, e, he⟩
  · rw [← h, hx]
  · rw [hx] at he
    cases he

end Concedes

namespace Compile

def Concedes {α : Type} (G : Prop) (x y : Compile α) : Prop :=
  ∀ a, QuerySql.Concedes G (x a) (y a)

namespace Concedes

variable {α β : Type} {G G' : Prop}

theorem refl (x : Compile α) : Concedes G x x := fun a => .refl (x a)

theorem mono {x y : Compile α} (h : Concedes G x y) (hg : G → G') : Concedes G' x y :=
  fun a => (h a).mono hg

theorem bind {x y : Compile α} {k l : α → Compile β} (hx : Concedes G x y)
    (hk : ∀ u, Concedes G (k u) (l u)) : Concedes G (x >>= k) (y >>= l) :=
  fun a => (hx a).bind fun r _ => hk r.1 r.2

theorem after {x : Compile α} {k l : α → Compile β} (hk : ∀ u, Concedes G (k u) (l u)) :
    Concedes G (x >>= k) (x >>= l) :=
  (refl x).bind hk

theorem lift {x y : Except Error α} (h : QuerySql.Concedes G x y) :
    Concedes G (liftM x : Compile α) (liftM y) :=
  fun _ => h.bind fun _ _ => .refl _

theorem after_lift {x : Except Error α} {k l : α → Compile β}
    (hk : ∀ u, x = .ok u → Concedes G (k u) (l u)) :
    Concedes G ((liftM x : Compile α) >>= k) (liftM x >>= l) := by
  cases x with
  | error e => exact refl _
  | ok u => exact hk u rfl

theorem throw_bind {e : Error} {k l : α → Compile β} :
    Concedes G ((throw e : Compile α) >>= k) (throw e >>= l) :=
  fun _ => .inl rfl

theorem append {x y xs ys : Compile (List α)} (hx : Concedes G x y) (hxs : Concedes G xs ys) :
    Concedes G (do let here ← x; let later ← xs; return here ++ later)
      (do let here ← y; let later ← ys; return here ++ later) :=
  hx.bind fun _ => hxs.bind fun _ => refl _

end Concedes

end Compile

/-- The second settings differ in the dialect only, and theirs can do everything. -/
structure Settings.Fuller (s s' : Settings) : Prop extends s.SameReach s' where
  orderTiebreaker : s'.orderTiebreaker = s.orderTiebreaker
  nulls : s'.dialect.nulls = .written
  distinctOn : s'.dialect.distinctOn = true

variable {s s' : Settings}

namespace Ordering

def placesNulls : Json → Bool
  | .obj options => options.any fun o => o.1 = "nulls"
  | _ => false

def keyPlacesNulls (key : String) (value : Json) : Bool :=
  match Aggregate.ofKey? key, value with
  | none, value => placesNulls value
  | some _, .obj fields => fields.any fun f => placesNulls f.2
  | some _, _ => false

def anyPlacesNulls (orderBy : List Json.Entries) : Bool :=
  orderBy.any fun entry => entry.any fun e => keyPlacesNulls e.1 e.2

theorem options_nulls {m : Model} {key : String} {found : Option Direction × Option Nulls}
    {entries : Json.Entries} {direction : Option Direction} {nulls : Nulls}
    (h : options m key found entries = .ok (direction, some nulls)) :
    found.2.isSome = true ∨ (entries.any fun o => o.1 = "nulls") = true := by
  induction entries generalizing found with
  | nil =>
    cases h
    exact .inl rfl
  | cons e rest ih =>
    obtain ⟨option, value⟩ := e
    have hlater : ∀ found', found'.2 = found.2 →
        options m key found' rest = .ok (direction, some nulls) →
          found.2.isSome = true ∨
            (((option, value) :: rest).any fun o => o.1 = "nulls") = true := by
      intro found' hkept h
      rcases ih h with hf | hrest
      · exact .inl (hkept ▸ hf)
      · exact .inr (by simp [hrest])
    by_cases hn : option = "nulls"
    · exact .inr (by simp [hn])
    · cases value with
      | str text =>
        by_cases hsort : option = "sort"
        · simp only [options, if_pos hsort, except_bind_ok, except_pure_ok] at h
          obtain ⟨d, _, found', rfl, h⟩ := h
          exact hlater (some d, found.2) rfl h
        · simp only [options, if_neg hsort, if_neg hn, except_bind_ok, except_throw_ok, false_and,
            exists_false] at h
      | null | bool _ | num _ | arr _ | obj _ =>
        simp only [options, except_bind_ok, except_throw_ok, false_and, exists_false] at h

theorem order_nulls {m : Model} {key : String} {value : Json} {direction : Direction}
    {nulls : Option Nulls} (h : order m key value = .ok (direction, nulls))
    (hn : nulls.isSome = true) : placesNulls value = true := by
  obtain ⟨n, rfl⟩ := Option.isSome_iff_exists.mp hn
  cases value with
  | str text =>
    simp only [order, except_bind_ok, except_pure_ok] at h
    obtain ⟨d, _, heq⟩ := h
    cases heq
  | obj entries =>
    simp only [order, except_bind_ok] at h
    obtain ⟨⟨found, placed⟩, hfound, h⟩ := h
    cases found with
    | none => simp only [except_throw_ok] at h
    | some d =>
      cases except_pure_ok.mp h
      rcases options_nulls hfound with hnone | hany
      · cases hnone
      · exact hany
  | null | bool _ | num _ | arr _ => cases h

theorem item_concedes (hs : s.Fuller s') (key : Scalar) (direction : Direction)
    (nulls : Option Nulls) :
    Concedes (nulls.isSome = true) (item s key direction nulls) (item s' key direction nulls) := by
  refine Concedes.bind ?_ fun _ _ => .refl _
  cases nulls with
  | none =>
    have hnone : ∀ d : Dialect, d.checkNulls none = .ok () := by
      intro d
      cases hd : d.nulls <;> simp [Dialect.checkNulls, hd]
    rw [hnone, hnone]
    exact .refl _
  | some n =>
    simp only [Dialect.checkNulls, hs.nulls]
    cases s.dialect.nulls with
    | written => exact .refl _
    | refused product => exact .inr ⟨rfl, _, rfl⟩

theorem aggregate_fields_concede (hs : s.Fuller s') (cx : Context) (kind : Aggregate)
    (entries : Json.Entries) :
    Concedes ((entries.any fun f => placesNulls f.2) = true) (aggregateFields s cx kind entries)
      (aggregateFields s' cx kind entries) := by
  induction entries with
  | nil => exact .refl _
  | cons e rest ih =>
    obtain ⟨name, value⟩ := e
    have hrest : Concedes ((((name, value) :: rest).any fun f => placesNulls f.2) = true)
        (aggregateFields s cx kind rest) (aggregateFields s' cx kind rest) := by
      refine ih.mono fun h => ?_
      simp [h]
    rw [aggregateFields, aggregateFields]
    refine (Concedes.refl _).bind fun f _ => (Concedes.refl _).bind fun order ho => ?_
    obtain ⟨direction, nulls⟩ := order
    by_cases hop : cx.operation = .groupBy
    · simp only [if_pos hop]
      refine Concedes.bind ((item_concedes hs _ direction nulls).mono fun hn => ?_)
        fun it _ => Concedes.append (.refl _) hrest
      simp [order_nulls ho hn]
    · simp only [if_neg hop]
      exact Concedes.append (.refl _) hrest

theorem aggregate_mentions_concede (hs : s.Fuller s') (cx : Context) {kind : Aggregate}
    {key : String} (hk : Aggregate.ofKey? key = some kind) (value : Json) :
    Concedes (keyPlacesNulls key value = true) (aggregateMentions s cx kind value)
      (aggregateMentions s' cx kind value) := by
  cases hagg : cx.operation.isAggregate with
  | false =>
    simp only [aggregateMentions, hagg, Bool.not_false, if_true]
    exact .inl rfl
  | true =>
    simp only [aggregateMentions, hagg, Bool.not_true, Bool.false_eq_true, if_false]
    cases value with
    | obj fields =>
      refine (aggregate_fields_concede hs cx kind fields).mono fun h => ?_
      simpa [keyPlacesNulls, hk] using h
    | str text =>
      simp only
      split
      · refine (Concedes.refl _).bind fun order ho => ?_
        obtain ⟨direction, nulls⟩ := order
        simp only
        split
        · refine Concedes.bind ((item_concedes hs _ direction nulls).mono fun hn => ?_)
            fun _ _ => .refl _
          cases order_nulls ho hn
        · exact .refl _
      · exact .refl _
    | null | bool _ | num _ | arr _ => exact .refl _

theorem key_mentions_concede (hs : s.Fuller s') (cx : Context) (grouped : Option (List String))
    (key : String) (value : Json) :
    Concedes (keyPlacesNulls key value = true) (keyMentions s cx grouped key value)
      (keyMentions s' cx grouped key value) := by
  rw [keyMentions, keyMentions]
  cases hk : Aggregate.ofKey? key with
  | some kind => exact aggregate_mentions_concede hs cx hk value
  | none =>
    cases cx.model.field? key with
    | none => exact .refl _
    | some f =>
      simp only
      split
      · exact .refl _
      · refine (Concedes.refl _).bind fun ⟨direction, nulls⟩ ho => ?_
        refine Concedes.bind ((item_concedes hs _ direction nulls).mono fun hn => ?_)
          fun _ _ => .refl _
        simpa [keyPlacesNulls, hk] using order_nulls ho hn

theorem entry_mentions_concede (hs : s.Fuller s') (cx : Context) (grouped : Option (List String))
    (entries : Json.Entries) :
    Concedes ((entries.any fun e => keyPlacesNulls e.1 e.2) = true)
      (entryMentions s cx grouped entries) (entryMentions s' cx grouped entries) := by
  induction entries with
  | nil => exact .refl _
  | cons e rest ih =>
    rw [entryMentions, entryMentions]
    refine Concedes.append ((key_mentions_concede hs cx grouped e.1 e.2).mono ?_) (ih.mono ?_)
    · intro h
      simp [h]
    · intro h
      simp [h]

theorem mentions_concede (hs : s.Fuller s') (cx : Context) (grouped : Option (List String))
    (orderBy : List Json.Entries) :
    Concedes (anyPlacesNulls orderBy = true) (mentions s cx grouped orderBy)
      (mentions s' cx grouped orderBy) := by
  induction orderBy with
  | nil => exact .refl _
  | cons entry rest ih =>
    rw [mentions, mentions]
    split
    · exact .refl _
    · refine Concedes.append ((entry_mentions_concede hs cx grouped entry).mono ?_) (ih.mono ?_)
      · intro h
        simp [anyPlacesNulls, h]
      · intro h
        rw [anyPlacesNulls, List.any_cons, Bool.or_eq_true]
        exact .inr h

theorem compile_concedes (hs : s.Fuller s') (cx : Context) (orderBy : Option (List Json.Entries))
    (grouped : Option (List String)) :
    Concedes (anyPlacesNulls (orderBy.getD []) = true) (compile s cx orderBy grouped)
      (compile s' cx orderBy grouped) := by
  have hties : breaksTies s' cx = breaksTies s cx := by
    rw [breaksTies, breaksTies, hs.orderTiebreaker]
  simp only [compile, hties]
  refine (Concedes.refl _).bind fun fields _ => ?_
  exact (mentions_concede hs cx grouped _).bind fun ms _ => .refl _

end Ordering

namespace Records

mutual

def placesNulls : List (String × Json) → Bool
  | [] => false
  | (_, value) :: rest => relationPlacesNulls value || placesNulls rest

def relationPlacesNulls : Json → Bool
  | .obj arguments => argumentsPlaceNulls arguments
  | _ => false

def argumentsPlaceNulls : List (String × Json) → Bool
  | [] => false
  | (key, value) :: rest =>
    (key = "orderBy" && (Decode.ordering? value).any Ordering.anyPlacesNulls) ||
      nestedPlacesNulls key value || argumentsPlaceNulls rest

def nestedPlacesNulls (key : String) : Json → Bool
  | .obj entries => (key = "select" || key = "include") && placesNulls entries
  | _ => false

end

theorem set_order {m : Model} {r : Relation} {args next : RelationArgs} {key : String}
    {value : Json} (h : RelationArgs.set m r args key value = .ok next) :
    next.orderBy = (if key = "orderBy" then Decode.ordering? value else none).or args.orderBy := by
  unfold RelationArgs.set at h
  split at h
  · simp only [except_bind_ok, except_pure_ok] at h
    obtain ⟨_, _, rfl⟩ := h
    rfl
  · simp only [except_bind_ok, except_pure_ok] at h
    obtain ⟨_, _, rfl⟩ := h
    rfl
  · simp only [except_bind_ok, except_pure_ok] at h
    obtain ⟨_, _, rfl⟩ := h
    rfl
  · simp only [except_bind_ok, except_pure_ok, RelationArgs.ordering] at h
    obtain ⟨entries, he, rfl⟩ := h
    split at he
    · rename_i hordering
      cases he
      rw [if_pos rfl, hordering]
      rfl
    · cases he
  · simp only [except_bind_ok, except_pure_ok] at h
    obtain ⟨_, _, rfl⟩ := h
    rfl
  · simp only [except_bind_ok, except_pure_ok] at h
    obtain ⟨_, _, rfl⟩ := h
    rfl
  · cases h

theorem read_places {m : Model} {r : Relation} {args args' : RelationArgs}
    {entries : Json.Entries} (h : RelationArgs.read m r args entries = .ok args')
    (hp : args'.orderBy.any Ordering.anyPlacesNulls = true) :
    args.orderBy.any Ordering.anyPlacesNulls = true ∨ argumentsPlaceNulls entries = true := by
  induction entries generalizing args with
  | nil =>
    cases h
    exact .inl hp
  | cons e rest ih =>
    obtain ⟨key, value⟩ := e
    rw [RelationArgs.read, except_bind_ok] at h
    obtain ⟨next, hset, h⟩ := h
    rcases ih h with hnext | hrest
    · rw [set_order hset] at hnext
      by_cases hk : key = "orderBy"
      · rw [if_pos hk] at hnext
        cases ho : Decode.ordering? value with
        | none =>
          rw [ho] at hnext
          exact .inl hnext
        | some orderBy =>
          rw [ho] at hnext
          refine .inr ?_
          simp [argumentsPlaceNulls, hk, ho, show Ordering.anyPlacesNulls orderBy = true from hnext]
      · rw [if_neg hk] at hnext
        exact .inl hnext
    · exact .inr (by simp [argumentsPlaceNulls, hrest])

theorem enter_same (hs : s.SameReach s') (cx : Context) (r : Relation) (args : RelationArgs) :
    enter s' cx r args = enter s cx r args := by
  have hdescend : Compile.descend s' cx r = Compile.descend s cx r := by
    simp only [Compile.descend, hs.schema, hs.maxDepth]
  simp only [enter, hdescend]

theorem close_concedes (hs : s.Fuller s') (cx child : Context) (r : Relation) (args : RelationArgs)
    (columns : List Projection) :
    Compile.Concedes (args.orderBy.any Ordering.anyPlacesNulls = true)
      (close s cx child r args columns) (close s' cx child r args columns) := by
  have hover : ∀ ps, Compile.Concedes (args.orderBy.any Ordering.anyPlacesNulls = true)
      (closeOver s cx child r args columns ps) (closeOver s' cx child r args columns ps) := by
    intro ps
    refine .after fun links => ?_
    refine .bind (.lift ((Ordering.compile_concedes hs child args.orderBy none).mono ?_))
      fun orderBy => .refl _
    cases args.orderBy with
    | none => exact fun h => absurd h (by decide)
    | some orderBy => exact id
  rw [close_over, close_over]
  cases args.filter with
  | none => exact hover []
  | some entries =>
    simp only [Filter.compile_same hs.toSameReach]
    exact .after fun p => .after fun q => hover [q]

mutual

theorem selected_concedes (hs : s.Fuller s') (cx : Context) (entries : List (String × Json)) :
    Compile.Concedes (placesNulls entries = true) (selected s cx entries)
      (selected s' cx entries) := by
  match entries with
  | [] =>
    rw [selected, selected]
    exact .refl _
  | (key, value) :: rest =>
    have hrest : Compile.Concedes (placesNulls ((key, value) :: rest) = true) (selected s cx rest)
        (selected s' cx rest) := by
      refine (selected_concedes hs cx rest).mono fun h => ?_
      simp [placesNulls, h]
    rw [selected, selected]
    cases cx.model.field? key with
    | some f => exact .after fun flag => .append (.refl _) hrest
    | none =>
      cases cx.model.relation? key with
      | some r =>
        refine .append ((relation_concedes hs cx r value).mono ?_) hrest
        intro h
        simp [placesNulls, h]
      | none =>
        simp only
        split
        · exact .throw_bind
        · exact .throw_bind

theorem inclusions_concede (hs : s.Fuller s') (cx : Context) (entries : List (String × Json)) :
    Compile.Concedes (placesNulls entries = true) (inclusions s cx entries)
      (inclusions s' cx entries) := by
  match entries with
  | [] =>
    rw [inclusions, inclusions]
    exact .refl _
  | (key, value) :: rest =>
    rw [inclusions, inclusions]
    refine .after fun r => .append ((relation_concedes hs cx r value).mono ?_)
      ((inclusions_concede hs cx rest).mono ?_)
    · intro h
      simp [placesNulls, h]
    · intro h
      simp [placesNulls, h]

theorem relation_concedes (hs : s.Fuller s') (cx : Context) (r : Relation) (value : Json) :
    Compile.Concedes (relationPlacesNulls value = true) (relation s cx r value)
      (relation s' cx r value) := by
  match value with
  | .bool false =>
    rw [relation, relation]
    exact .refl _
  | .bool true =>
    simp only [relation, enter_same hs.toSameReach]
    refine .after fun child => .bind ((close_concedes hs cx child r {} _).mono ?_) fun _ => .refl _
    exact fun h => absurd h (by decide)
  | .obj entries =>
    simp only [relation, relationPlacesNulls, enter_same hs.toSameReach]
    refine .after_lift fun args hargs => .after fun child => ?_
    refine .bind (nested_concedes hs child entries) fun columns => ?_
    refine .bind ((close_concedes hs cx child r args columns).mono fun h => ?_) fun _ => .refl _
    rcases read_places hargs h with hnone | hentries
    · cases hnone
    · exact hentries
  | .null | .num _ | .str _ | .arr _ =>
    simp only [relation]
    exact .refl _

theorem nested_concedes (hs : s.Fuller s') (cx : Context) (entries : List (String × Json)) :
    Compile.Concedes (argumentsPlaceNulls entries = true) (nested s cx entries)
      (nested s' cx entries) := by
  match entries with
  | [] =>
    rw [nested, nested]
    exact .refl _
  | (key, value) :: rest =>
    have hrest : Compile.Concedes (argumentsPlaceNulls ((key, value) :: rest) = true)
        (nested s cx rest) (nested s' cx rest) := by
      refine (nested_concedes hs cx rest).mono fun h => ?_
      simp [argumentsPlaceNulls, h]
    match value with
    | .obj entries =>
      rw [nested, nested]
      split
      · rename_i hk
        refine .bind ((selected_concedes hs cx entries).mono fun h => ?_) fun _ => .refl _
        simp [argumentsPlaceNulls, nestedPlacesNulls, hk, h]
      · split
        · rename_i hk
          refine .bind ((inclusions_concede hs cx entries).mono fun h => ?_) fun _ => .refl _
          simp [argumentsPlaceNulls, nestedPlacesNulls, hk, h]
        · exact hrest
    | .null | .bool _ | .num _ | .str _ | .arr _ =>
      simp only [nested]
      exact hrest

end

theorem columns_concede (hs : s.Fuller s') (cx : Context)
    (select inclusion : Option Json.Entries) :
    Compile.Concedes
      ((placesNulls (select.getD []) || placesNulls (inclusion.getD [])) = true)
      (columns s cx select inclusion) (columns s' cx select inclusion) := by
  match select, inclusion with
  | some _, some _ | none, none => exact .refl _
  | some entries, none =>
    refine .bind ((selected_concedes hs cx entries).mono fun h => ?_) fun _ => .refl _
    simp [h]
  | none, some entries =>
    refine .bind ((inclusions_concede hs cx entries).mono fun h => ?_) fun _ => .refl _
    simp [h]

end Records

/-- The query says somewhere where nulls go, in its own ordering or in that of a
relation that it selects. -/
def Args.placesNulls (args : Args) : Bool :=
  Ordering.anyPlacesNulls (args.orderBy.getD []) || Records.placesNulls (args.select.getD []) ||
    Records.placesNulls (args.inclusion.getD [])

/-- The query asks for what not every dialect can do. -/
def Args.Demands (args : Args) : Prop := args.placesNulls = true ∨ args.distinct.isSome = true

theorem Args.demands_of_order {args : Args}
    (h : Ordering.anyPlacesNulls (args.orderBy.getD []) = true) : args.Demands :=
  .inl (by simp [Args.placesNulls, h])

theorem Filter.optional_same (hs : s.SameReach s') (cx : Context)
    (filter : Option Json.Entries) :
    Filter.compile? s' cx filter = Filter.compile? s cx filter := by
  cases filter with
  | none => rfl
  | some entries => exact Filter.compile_same hs cx entries

namespace Read

theorem columns_concede (hs : s.Fuller s') (cx : Context) (args : Args) :
    Compile.Concedes args.Demands (columns s cx args) (columns s' cx args) := by
  unfold columns
  split
  · exact .refl _
  · exact .refl _
  · exact .refl _
  · refine (Records.columns_concede hs cx args.select args.inclusion).mono fun h => ?_
    rw [Bool.or_eq_true] at h
    refine .inl ?_
    rcases h with h | h <;> simp [Args.placesNulls, h]

theorem filter_same (hs : s.SameReach s') (cx : Context) (args : Args) :
    filter s' cx args = filter s cx args := by
  simp only [filter, Filter.optional_same hs]

theorem distinct_concedes (hs : s.Fuller s') (cx : Context) :
    Concedes ((cx.pagination?.bind (·.distinct)).isSome = true) (distinct s cx)
      (distinct s' cx) := by
  refine (Concedes.refl _).bind fun fields hfields => ?_
  by_cases hempty : fields.isEmpty = true
  · simp only [if_pos hempty]
    exact .refl _
  · simp only [if_neg hempty]
    split
    · exact .inl rfl
    · refine Concedes.bind ?_ fun _ _ => .refl _
      simp only [Dialect.checkDistinctOn, hs.distinctOn, if_true]
      split
      · exact .refl _
      · refine .inr ⟨?_, _, rfl⟩
        cases hd : cx.pagination?.bind (·.distinct) with
        | some names => rfl
        | none =>
          simp only [Ordering.distinctFields, hd] at hfields
          cases hfields
          exact absurd rfl hempty

theorem order_concedes (hs : s.Fuller s') (cx : Context) (args : Args)
    (grouped : Option (List String)) :
    Compile.Concedes args.Demands (liftM (Ordering.compile s cx args.orderBy grouped))
      (liftM (Ordering.compile s' cx args.orderBy grouped)) :=
  .lift ((Ordering.compile_concedes hs cx args.orderBy grouped).mono Args.demands_of_order)

theorem find_concedes (hs : s.Fuller s') (cx : Context) (args : Args)
    (hd : (cx.pagination?.bind (·.distinct)).isSome = true → args.Demands) :
    Compile.Concedes args.Demands (find s cx args) (find s' cx args) := by
  have hrows : Compile.Concedes args.Demands (findRows s cx args) (findRows s' cx args) := by
    simp only [findRows, filter_same hs.toSameReach]
    refine .bind (columns_concede hs cx args) fun columns => ?_
    refine .bind (.lift ((distinct_concedes hs cx).mono hd)) fun distinct => ?_
    exact .after fun filter => .bind (order_concedes hs cx args none) fun orderBy => .refl _
  rw [find_rows, find_rows]
  split
  · exact .after fun _ => hrows
  · exact hrows

theorem aggregate_concedes (hs : s.Fuller s') (cx : Context) (args : Args) :
    Compile.Concedes args.Demands (aggregate s cx args) (aggregate s' cx args) := by
  simp only [aggregate, filter_same hs.toSameReach]
  refine .after fun filter => .bind (order_concedes hs cx args none) fun orderBy => ?_
  split
  · exact .bind (columns_concede hs cx args) fun _ => .refl _
  · exact .after fun page => .after fun tag =>
      .bind (columns_concede hs (cx.withTag tag) args) fun _ => .refl _

theorem group_by_concedes (hs : s.Fuller s') (cx : Context) (args : Args) :
    Compile.Concedes args.Demands (groupBy s cx args) (groupBy s' cx args) := by
  simp only [groupBy, filter_same hs.toSameReach]
  refine .after fun grouping => .bind (columns_concede hs cx args) fun columns => ?_
  exact .after fun filter => .after fun having =>
    .bind (order_concedes hs cx args _) fun orderBy => .refl _

end Read

theorem Write.update_same (hs : s.SameReach s') (cx : Context) (args : Args) :
    Write.update s' cx args = Write.update s cx args := by
  simp only [Write.update, Filter.optional_same hs]

theorem Write.delete_same (hs : s.SameReach s') (cx : Context) (args : Args) :
    Write.delete s' cx args = Write.delete s cx args := by
  simp only [Write.delete, Filter.optional_same hs]

theorem Context.root_demands (m : Model) (op : Operation) (args : Args)
    (h : ((Context.atRoot m op args).pagination?.bind (·.distinct)).isSome = true) :
    args.Demands := by
  cases hop : op.isMutation with
  | false =>
    simp only [Context.atRoot, hop] at h
    exact .inr h
  | true =>
    cases hdata : args.data <;>
      simp [Context.atRoot, Context.pagination?, hop, hdata] at h

namespace Compiler

theorem compile_at_concedes (hs : s.Fuller s') (m : Model) (op : Operation) (args : Args) :
    Compile.Concedes args.Demands (compileAt s args (Context.atRoot m op args))
      (compileAt s' args (Context.atRoot m op args)) := by
  cases op with
  | findMany => exact Read.find_concedes hs _ args (Context.root_demands m .findMany args)
  | findFirst => exact Read.find_concedes hs _ args (Context.root_demands m .findFirst args)
  | findUnique => exact Read.find_concedes hs _ args (Context.root_demands m .findUnique args)
  | count | aggregate => exact Read.aggregate_concedes hs _ args
  | groupBy => exact Read.group_by_concedes hs _ args
  | create => exact .refl _
  | update =>
    simp only [compileAt, Context.atRoot, Write.update_same hs.toSameReach]
    exact .refl _
  | delete =>
    simp only [compileAt, Context.atRoot, Write.delete_same hs.toSameReach]
    exact .refl _

theorem statement_concedes {c c' : Compiler} (hs : c.settings.Fuller c'.settings)
    (model : String) (op : Operation) (args : Args) :
    Concedes args.Demands (c.statement model op args) (c'.statement model op args) := by
  have hschema : c'.schema = c.schema := hs.schema
  rw [statement, statement, hschema]
  refine (Concedes.refl _).bind fun m hm => (Concedes.refl _).bind fun _ _ => ?_
  rw [Schema.expect_model_ok] at hm
  rw [run_at hm, run_at (hschema ▸ hm)]
  exact compile_at_concedes hs m op args ⟨1⟩

theorem compile_eq_map (c : Compiler) (model : String) (op : Operation) (args : Args) :
    c.compile model op args =
      (fun r => (r.1.render c.dialect).prepare c.dialect) <$> c.statement model op args := by
  rw [compile, map_eq_pure_bind]

end Compiler

def Engine.compiler (e : Engine) (schema : Schema) (config : Config) : Compiler :=
  .ofConfig schema { config with engine := e }

theorem Engine.fuller (e : Engine) (schema : Schema) (config : Config) :
    (e.compiler schema config).settings.Fuller
      (Engine.postgresql.compiler schema config).settings :=
  ⟨⟨rfl, rfl⟩, rfl, rfl, rfl⟩

/-- The dialects agree on everything but the spelling. Those that compile a query give
one statement under the same aliases and so bind the same values, PostgreSQL compiles
whatever another does, and a query without distinct rows and placed nulls compiles in
all of them or is refused by all with one error. -/
theorem dialects_agree (schema : Schema) (config : Config) (model : String) (op : Operation)
    (args : Args) :
    (∀ (e e' : Engine) (prepared prepared' : Prepared),
      (e.compiler schema config).compile model op args = .ok prepared →
      (e'.compiler schema config).compile model op args = .ok prepared' →
        prepared.params = prepared'.params ∧
        ∃ st as, (e.compiler schema config).statement model op args = .ok (st, as) ∧
          (e'.compiler schema config).statement model op args = .ok (st, as)) ∧
    (args.distinct = none → args.placesNulls = false →
      (∀ e : Engine, ∃ prepared,
        (e.compiler schema config).compile model op args = .ok prepared) ∨
      ∃ error, ∀ e : Engine, (e.compiler schema config).compile model op args = .error error) ∧
    ∀ (e : Engine) (prepared : Prepared),
      (e.compiler schema config).compile model op args = .ok prepared →
      ∃ prepared', (Engine.postgresql.compiler schema config).compile model op args =
        .ok prepared' := by
  have hconcedes : ∀ e : Engine, Concedes args.Demands
      ((e.compiler schema config).statement model op args)
      ((Engine.postgresql.compiler schema config).statement model op args) :=
    fun e => Compiler.statement_concedes (e.fuller schema config) model op args
  have hparams : ∀ (d d' : Dialect) (st : Statement),
      ((st.render d).prepare d).params = ((st.render d').prepare d').params := by
    intro d d' st
    simp only [Fragment.prepare, Fragment.prepareAfter, List.nil_append,
      Statement.bindings_render]
  refine ⟨?_, ?_, ?_⟩
  · intro e e' prepared prepared' h h'
    obtain ⟨st, as, hst, rfl⟩ := Compiler.compile_ok h
    obtain ⟨st', as', hst', rfl⟩ := Compiler.compile_ok h'
    have hsame := ((hconcedes e).ok_of_ok hst).symm.trans ((hconcedes e').ok_of_ok hst')
    cases hsame
    exact ⟨hparams _ _ st, st, as, hst, hst'⟩
  · intro hdistinct hnulls
    have hequal : ∀ e : Engine, (e.compiler schema config).statement model op args =
        (Engine.postgresql.compiler schema config).statement model op args := by
      intro e
      rcases hconcedes e with h | ⟨hplaced | hnamed, _⟩
      · exact h
      · rw [hnulls] at hplaced
        cases hplaced
      · rw [hdistinct] at hnamed
        cases hnamed
    simp only [Compiler.compile_eq_map, hequal]
    cases (Engine.postgresql.compiler schema config).statement model op args with
    | ok r => exact .inl fun e => ⟨_, rfl⟩
    | error err => exact .inr ⟨err, fun e => rfl⟩
  · intro e prepared h
    obtain ⟨st, as, hst, rfl⟩ := Compiler.compile_ok h
    rw [Compiler.compile_eq_map, (hconcedes e).ok_of_ok hst]
    exact ⟨_, rfl⟩

theorem sample_dialects_agree : Sample.page.distinct = none ∧ Sample.page.placesNulls = false ∧
    ∃ prepared, (Engine.sqlite.compiler Sample.schema {}).compile "User" .findMany Sample.page =
      .ok prepared ∧ ∀ e : Engine, ∃ prepared',
        (e.compiler Sample.schema {}).compile "User" .findMany Sample.page = .ok prepared' ∧
          prepared.params = prepared'.params := by
  obtain ⟨prepared, hc⟩ := Sample.page_compiles
  obtain ⟨hsame, hall, -⟩ := dialects_agree Sample.schema {} "User" .findMany Sample.page
  refine ⟨rfl, by decide, prepared, hc, fun e => ?_⟩
  rcases hall rfl (by decide) with hok | ⟨error, herror⟩
  · obtain ⟨prepared', he⟩ := hok e
    exact ⟨prepared', he, (hsame .sqlite e prepared prepared' hc he).1⟩
  · have hfail := (herror .sqlite).symm.trans hc
    cases hfail

end QuerySql
