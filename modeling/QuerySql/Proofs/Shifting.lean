import QuerySql.Proofs.Renaming
import QuerySql.Proofs.Success.Filter

/-!
# Filters under later aliases

A filter hands out aliases in the order in which it meets its relations, and
never looks at their numbers. So where more aliases were handed out before it,
it fails alike, or gives the same predicate under later aliases. The aliases of
the tables around it, which came first, stay as they are.
-/

set_option autoImplicit false

namespace QuerySql

/-- The alias moved up by `m`, unless it is one of the first `n`. -/
def Alias.shift (n m : Nat) (tag : Alias) : Alias :=
  if tag.index < n then tag else ⟨tag.index + m⟩

def Aliases.shift (m : Nat) (a : Aliases) : Aliases := ⟨a.used + m⟩

theorem Alias.shift_zero : Alias.shift 0 0 = id := rfl

theorem Alias.shift_used {n : Nat} {a : Aliases} (h : n ≤ a.used) (m : Nat) :
    Alias.shift n m ⟨a.used⟩ = ⟨(a.shift m).used⟩ :=
  if_neg (Nat.not_lt.mpr h)

namespace Compile

/-- Past the first `n` aliases, the second compilation does with `m` more handed out
what the first does without them: it fails alike, or gives what `f` makes of the
result. -/
structure Follows {α β : Type} (n m : Nat) (f : α → β) (x : Compile α) (y : Compile β) : Prop where
  result : ∀ a : Aliases, n ≤ a.used → y (a.shift m) = Prod.map f (Aliases.shift m) <$> x a
  used : ∀ a : Aliases, n ≤ a.used → ∀ u b, x a = .ok (u, b) → n ≤ b.used

namespace Follows

variable {α β γ δ : Type} {n m : Nat} {f : α → β} {g : γ → δ}

theorem of_pure {u : α} {v : β} (h : v = f u) : Follows n m f (pure u) (pure v) where
  result := by
    intro a _
    rw [h]
    rfl
  used := by
    intro a ha u b hx
    exact (pure_ok.mp hx).2 ▸ ha

theorem lift {x : Except Error α} {y : Except Error β} (h : y = f <$> x) :
    Follows n m f (liftM x) (liftM y) where
  result := by
    intro a _
    subst h
    cases x <;> rfl
  used := by
    intro a ha u b hx
    exact (lift_ok.mp hx).2 ▸ ha

theorem throw {e : Error} : Follows n m f (throw e) (throw e) where
  result := fun _ _ => rfl
  used := fun _ _ _ _ hx => absurd hx throw_ok.mp

theorem throw_bind {e : Error} {k : α → Compile γ} {l : β → Compile δ} :
    Follows n m g (MonadExcept.throw e >>= k) (MonadExcept.throw e >>= l) where
  result := fun _ _ => rfl
  used := by
    intro a _ u b hx
    obtain ⟨_, _, hthrow, _⟩ := bind_ok.mp hx
    exact absurd hthrow throw_ok.mp

theorem bind {x : Compile α} {y : Compile β} {k : α → Compile γ} {l : β → Compile δ}
    (hx : Follows n m f x y) (hk : ∀ u, Follows n m g (k u) (l (f u))) :
    Follows n m g (x >>= k) (y >>= l) where
  result := by
    intro a ha
    change (y (a.shift m) >>= fun r => l r.1 r.2) =
      Prod.map g (Aliases.shift m) <$> (x a >>= fun r => k r.1 r.2)
    rw [hx.result a ha]
    cases hxa : x a with
    | error e => rfl
    | ok r => exact (hk r.1).result r.2 (hx.used a ha r.1 r.2 hxa)
  used := by
    intro a ha u b h
    obtain ⟨v, c, hv, hc⟩ := bind_ok.mp h
    exact (hk v).used c (hx.used a ha v c hv) u b hc

theorem map {x : Compile α} {y : Compile β} {h : α → γ} {h' : β → δ} (hx : Follows n m f x y)
    (hh : ∀ u, h' (f u) = g (h u)) : Follows n m g (h <$> x) (h' <$> y) := by
  simp only [map_eq_pure_bind]
  exact bind hx fun u => of_pure (hh u)

theorem present {x : Compile α} {y : Compile β} (hx : Follows n m f x y) :
    Follows n m (Option.map f) (some <$> x) (some <$> y) :=
  map hx fun _ => rfl

theorem append {x xs : Compile (List α)} {y ys : Compile (List β)}
    (hx : Follows n m (List.map f) x y) (hxs : Follows n m (List.map f) xs ys) :
    Follows n m (List.map f) (do let here ← x; let later ← xs; return here ++ later)
      (do let here ← y; let later ← ys; return here ++ later) :=
  bind hx fun _ => bind hxs fun _ => of_pure List.map_append.symm

theorem prepend {x : Compile (Option α)} {y : Compile (Option β)} {xs : Compile (List α)}
    {ys : Compile (List β)} (hx : Follows n m (Option.map f) x y)
    (hxs : Follows n m (List.map f) xs ys) :
    Follows n m (List.map f) (do let here ← x; let later ← xs; return here.toList ++ later)
      (do let here ← y; let later ← ys; return here.toList ++ later) := by
  refine bind hx fun here => bind hxs fun later => of_pure ?_
  rw [Option.toList_map, List.map_append]

theorem fresh : Follows n m (Alias.shift n m) fresh fresh where
  result := by
    intro a ha
    change Except.ok (_, _) = Except.ok (Alias.shift n m ⟨a.used⟩, _)
    rw [Alias.shift_used ha]
    simp [Aliases.shift]
    omega
  used := by
    intro a ha tag b hx
    rw [(fresh_ok.mp hx).2]
    exact Nat.le_succ_of_le ha

end Follows

end Compile

open Compile (Follows)

/-- The same place of a query with `m` more aliases handed out after the first `n`. -/
structure Context.Shifted (n m : Nat) (cx cx' : Context) : Prop where
  model : cx'.model = cx.model
  tag : cx'.tag = cx.tag.shift n m
  ancestors : cx'.ancestors = cx.ancestors

/-- Settings under which the same relations can be followed. -/
structure Settings.SameReach (s s' : Settings) : Prop where
  schema : s'.schema = s.schema
  maxDepth : s'.maxDepth = s.maxDepth

variable {n m : Nat} {s s' : Settings} {cx cx' child child' : Context}

theorem Context.Shifted.nested (h : cx.Shifted n m cx') (r : Relation) (target : Model)
    (tag : Alias) : (cx.nested r target tag).Shifted n m (cx'.nested r target (tag.shift n m)) where
  model := rfl
  tag := rfl
  ancestors := by simp only [Context.nested, Context.path, h.ancestors, h.model]

theorem Context.Shifted.column (h : cx.Shifted n m cx') (f : Field) :
    Compile.column cx' f = (Compile.column cx f).rename (Alias.shift n m) := by
  simp only [Compile.column, Column.rename, h.tag]

namespace Condition

variable (ρ : Alias → Alias) (m : Model) (f : Field) (lhs : Scalar)

theorem fold_rename (mode : Mode) (s : Scalar) :
    mode.fold (s.rename ρ) = (mode.fold s).rename ρ := by
  cases mode <;> rfl

theorem fold_bound (mode : Mode) (v : Value) :
    (mode.fold (.bound v)).rename ρ = mode.fold (.bound v) := by
  cases mode <;> rfl

theorem compare_rename (mode : Mode) (op : Comparison) (json : Json) :
    compare m f (lhs.rename ρ) mode op json = Pred.rename ρ <$> compare m f lhs mode op json := by
  simp only [compare, map_bind, map_pure, Pred.rename, fold_rename, fold_bound]

theorem is_in_rename (mode : Mode) (negated : Bool) (json : Json) :
    isIn m f (lhs.rename ρ) mode negated json =
      Pred.rename ρ <$> isIn m f lhs mode negated json := by
  unfold isIn
  split
  · rfl
  · simp only [map_bind, map_pure, Pred.rename, fold_rename, List.map_map, Function.comp_def,
      fold_bound]
  · rfl

theorem pattern_rename (mode : Mode) (p : Pattern) (json : Json) :
    pattern m f (lhs.rename ρ) mode p json = Pred.rename ρ <$> pattern m f lhs mode p json := by
  unfold pattern
  split
  · rfl
  · split
    · refine congrArg Except.ok ?_
      rw [Pred.rename, fold_rename, fold_bound]
    · rfl

theorem operator_rename (mode : Mode) (key : String) (json : Json) :
    operator m f (lhs.rename ρ) mode key json =
      Pred.rename ρ <$> operator m f lhs mode key json := by
  unfold operator
  split
  · rfl
  · rfl
  · exact pattern_rename ρ m f lhs mode _ json
  · exact compare_rename ρ m f lhs mode _ json
  · exact is_in_rename ρ m f lhs mode _ json
  · split
    · rfl
    · exact compare_rename ρ m f lhs mode .eq _
  · split
    · rfl
    · exact compare_rename ρ m f lhs mode .ne _

mutual

theorem operators_rename (mode : Mode) (entries : List (String × Json)) :
    operators m f (lhs.rename ρ) mode entries =
      List.map (Pred.rename ρ) <$> operators m f lhs mode entries := by
  match entries with
  | [] => rfl
  | (key, value) :: rest =>
    rw [operators, operators, operators_rename mode rest]
    by_cases hk : key = modeKey
    · simp only [if_pos hk, pure_bind, Option.toList_none, List.nil_append, bind_pure]
    · simp only [if_neg hk, entry_rename mode key value, map_bind, map_pure, bind_map_left,
        Option.toList_map, List.map_append]

theorem entry_rename (mode : Mode) (key : String) (value : Json) :
    entry m f (lhs.rename ρ) mode key value =
      Option.map (Pred.rename ρ) <$> entry m f lhs mode key value := by
  have hop : ∀ json, some <$> operator m f (lhs.rename ρ) mode key json =
      Option.map (Pred.rename ρ) <$> some <$> operator m f lhs mode key json := by
    intro json
    rw [operator_rename, Functor.map_map, Functor.map_map]
    rfl
  match value with
  | .obj nested =>
    by_cases hk : key = "not"
    · have hnot : ∀ ps : List Pred,
          (Pred.all? (ps.map (Pred.rename ρ))).map Pred.not =
            ((Pred.all? ps).map Pred.not).map (Pred.rename ρ) := by
        intro ps
        rw [← (Pred.rename_through _).map_optional]
        cases Pred.all? ps <;> rfl
      simp only [entry, if_pos hk, map_bind, map_pure]
      refine bind_congr fun inner => ?_
      simp only [operators_rename inner nested, bind_map_left, hnot]
    · simp only [entry, if_neg hk]
      exact hop _
  | .arr _ | .null | .bool _ | .num _ | .str _ => exact hop _

end

theorem compile_rename (json : Json) :
    compile m f (lhs.rename ρ) json = Option.map (Pred.rename ρ) <$> compile m f lhs json := by
  cases json with
  | null | arr _ => rfl
  | obj entries =>
    simp only [compile, map_bind, map_pure]
    refine bind_congr fun mode => ?_
    simp only [operators_rename, bind_map_left, (Pred.rename_through _).map_optional]
  | bool _ | num _ | str _ =>
    simp only [compile, map_bind, map_pure]
    rfl

end Condition

namespace Link

theorem junction_follows (h : cx.Shifted n m cx') (hc : child.Shifted n m child') (r : Relation) :
    Follows n m (Pred.rename (Alias.shift n m)) (junction r cx child) (junction r cx' child') := by
  unfold junction
  split
  · refine Follows.fresh.bind fun tag => Follows.of_pure ?_
    simp only [Pred.rename, Pred.renameAll, Scalar.rename, Column.rename, h.tag, hc.tag]
  · rw [h.model]
    exact .throw

theorem guard_shift (h : cx.Shifted n m cx') (hc : child.Shifted n m child') (r : Relation)
    (own referenced : String) : guard r cx' child' own referenced =
      (guard r cx child own referenced).rename (Alias.shift n m) := by
  unfold guard
  rw [h.model, h.tag, hc.tag]
  split <;> rfl

theorem equality_shift (h : cx.Shifted n m cx') (hc : child.Shifted n m child')
    (own referenced : String) : equality cx' child' own referenced =
      (equality cx child own referenced).rename (Alias.shift n m) := by
  simp only [equality, Pred.rename, Scalar.rename, Column.rename, h.tag, hc.tag]

theorem conditions_follow (h : cx.Shifted n m cx') (hc : child.Shifted n m child') (r : Relation) :
    Follows n m (List.map (Pred.rename (Alias.shift n m))) (conditions r cx child)
      (conditions r cx' child') := by
  unfold conditions
  split
  · exact (junction_follows h hc r).bind fun p => Follows.of_pure rfl
  · refine Follows.of_pure ?_
    simp only [List.map_append, List.map_map, Function.comp_def, equality_shift h hc,
      guard_shift h hc]

end Link

theorem Compile.Follows.descend {γ δ : Type} {g : γ → δ} (hs : s.SameReach s')
    (h : cx.Shifted n m cx') {r : Relation} {k : Context → Compile γ}
    {l : Context → Compile δ}
    (hk : ∀ child child', child.Shifted n m child' → Follows n m g (k child) (l child')) :
    Follows n m g (Compile.descend s cx r >>= k) (Compile.descend s' cx' r >>= l) := by
  have hdepth : cx'.depth = cx.depth := congrArg List.length h.ancestors
  have hpath : cx'.path = cx.path := by rw [Context.path, Context.path, h.ancestors, h.model]
  simp only [Compile.descend, bind_assoc, hs.schema, hs.maxDepth, hdepth, hpath, h.model]
  refine Follows.bind (f := id) (.lift (id_map _).symm) fun target => ?_
  split
  · exact .throw_bind
  · simp only [bind_assoc, pure_bind]
    exact Follows.fresh.bind fun tag => hk _ _ (h.nested r target tag)

namespace Filter

theorem linked_follows (h : cx.Shifted n m cx') (hc : child.Shifted n m child') (r : Relation)
    (negated : Bool) (ps : List Pred) :
    Follows n m (Pred.rename (Alias.shift n m)) (linked r cx child negated ps)
      (linked r cx' child' negated (ps.map (Pred.rename (Alias.shift n m)))) := by
  refine (Link.conditions_follow h hc r).bind fun links => Follows.of_pure ?_
  simp only [Pred.rename, Pred.rename_all_eq, List.map_append, hc.model, hc.tag]

theorem unfiltered_follows (hs : s.SameReach s') (h : cx.Shifted n m cx') (r : Relation)
    (negated : Bool) :
    Follows n m (Pred.rename (Alias.shift n m)) (unfiltered s cx r negated)
      (unfiltered s' cx' r negated) :=
  Follows.descend hs h fun _ _ hc => linked_follows h hc r negated []

theorem subquery_follows (hs : s.SameReach s') (h : cx.Shifted n m cx') (r : Relation)
    (c : Connective) (negated : Bool) {entries : Json.Entries}
    (hnested : ∀ child child', child.Shifted n m child' →
      Follows n m (List.map (Pred.rename (Alias.shift n m))) (conditions s child entries)
        (conditions s' child' entries)) :
    Follows n m (Pred.rename (Alias.shift n m))
      (do
        let child ← Compile.descend s cx r
        let nested ← conditions s child entries
        let p ← c.apply child.model [Pred.all? nested]
        linked r cx child negated [p])
      (do
        let child ← Compile.descend s' cx' r
        let nested ← conditions s' child entries
        let p ← c.apply child.model [Pred.all? nested]
        linked r cx' child negated [p]) := by
  refine Follows.descend hs h fun child child' hc => (hnested child child' hc).bind fun ps => ?_
  refine (Follows.lift ?_).bind fun p => linked_follows h hc r negated [p]
  rw [hc.model, ← (Pred.rename_through _).map_optional]
  exact (Pred.rename_through _).map_apply child.model c [Pred.all? ps]

mutual

/-- A filter with more aliases handed out before it fails alike, or gives the
same predicates under later aliases. -/
theorem conditions_follow {cx cx' : Context} (hs : s.SameReach s') (h : cx.Shifted n m cx')
    (entries : List (String × Json)) :
    Follows n m (List.map (Pred.rename (Alias.shift n m))) (conditions s cx entries)
      (conditions s' cx' entries) := by
  match entries with
  | [] => exact Follows.of_pure rfl
  | (key, value) :: rest =>
    have hrest := conditions_follow hs h rest
    rw [conditions, conditions, h.model]
    refine Follows.bind (f := id) (.lift (id_map _).symm) fun k => ?_
    cases k with
    | connective c => exact (connective_follows hs h c value).present.prepend hrest
    | field f =>
      refine (Follows.lift ?_).prepend hrest
      rw [h.column]
      exact Condition.compile_rename _ cx.model f (.column (Compile.column cx f)) value
    | relation r => exact (relation_follows hs h r value).present.prepend hrest

theorem connective_follows {cx cx' : Context} (hs : s.SameReach s') (h : cx.Shifted n m cx')
    (c : Connective) (value : Json) :
    Follows n m (Pred.rename (Alias.shift n m)) (connective s cx c value)
      (connective s' cx' c value) := by
  have happly : ∀ operands, Follows n m (Pred.rename (Alias.shift n m))
      (liftM (c.apply cx.model operands))
      (liftM (c.apply cx.model (operands.map (Option.map (Pred.rename (Alias.shift n m)))))) :=
    fun operands => .lift ((Pred.rename_through _).map_apply cx.model c operands)
  rw [connective, connective, h.model]
  refine Follows.bind (f := id) (.lift (id_map _).symm) fun _ => ?_
  match value with
  | .obj entries =>
    refine Follows.bind (f := List.map (Option.map (Pred.rename (Alias.shift n m))))
      ((conditions_follow hs h entries).map fun ps => ?_) happly
    rw [List.map_singleton, (Pred.rename_through _).map_optional]
  | .arr items => exact (each_follow hs h items).bind happly
  | .null | .bool _ | .num _ | .str _ =>
    exact Follows.bind (f := List.map (Option.map (Pred.rename (Alias.shift n m)))) (.of_pure rfl)
      happly

theorem each_follow {cx cx' : Context} (hs : s.SameReach s') (h : cx.Shifted n m cx')
    (items : List Json) :
    Follows n m (List.map (Option.map (Pred.rename (Alias.shift n m)))) (each s cx items)
      (each s' cx' items) := by
  match items with
  | [] => exact Follows.of_pure rfl
  | .obj entries :: rest =>
    rw [each, each]
    refine (conditions_follow hs h entries).bind fun ps =>
      (each_follow hs h rest).bind fun os => Follows.of_pure ?_
    rw [List.map_cons, (Pred.rename_through _).map_optional]
  | .null :: rest | .bool _ :: rest | .num _ :: rest | .str _ :: rest | .arr _ :: rest =>
    simp only [each]
    exact each_follow hs h rest

theorem relation_follows {cx cx' : Context} (hs : s.SameReach s') (h : cx.Shifted n m cx')
    (r : Relation) (value : Json) :
    Follows n m (Pred.rename (Alias.shift n m)) (relation s cx r value)
      (relation s' cx' r value) := by
  match value with
  | .null =>
    rw [relation, relation, h.model]
    split
    · exact unfiltered_follows hs h r true
    · exact .throw
  | .obj entries =>
    rw [relation, relation, h.model]
    split
    · split
      · exact unfiltered_follows hs h r false
      · exact subquery_follows hs h r .and false fun _ _ hc => conditions_follow hs hc entries
    · split
      · exact .throw
      · exact (quantifiers_follow hs h r entries).map fun ps =>
          ((Pred.rename_through _).map_all ps).symm
  | .bool _ | .num _ | .str _ | .arr _ =>
    simp only [relation, h.model]
    exact .throw

theorem quantifiers_follow {cx cx' : Context} (hs : s.SameReach s') (h : cx.Shifted n m cx')
    (r : Relation) (entries : List (String × Json)) :
    Follows n m (List.map (Pred.rename (Alias.shift n m))) (quantifiers s cx r entries)
      (quantifiers s' cx' r entries) := by
  match entries with
  | [] => exact Follows.of_pure rfl
  | (key, value) :: rest =>
    have hrest := quantifiers_follow hs h r rest
    rw [quantifiers, quantifiers]
    cases Quantifier.ofKey? key with
    | none => exact Follows.append (Follows.of_pure rfl) hrest
    | some q => exact Follows.append ((quantified_follows hs h r q value).map fun _ => rfl) hrest

theorem quantified_follows {cx cx' : Context} (hs : s.SameReach s') (h : cx.Shifted n m cx')
    (r : Relation) (q : Quantifier) (value : Json) :
    Follows n m (Pred.rename (Alias.shift n m)) (quantified s cx r q value)
      (quantified s' cx' r q value) := by
  rw [quantified.eq_def, quantified.eq_def, h.model]
  split
  · exact .throw
  · match value with
    | .obj entries =>
      simp only
      split
      · split
        · exact Follows.of_pure rfl
        · exact unfiltered_follows hs h r q.negated
      · exact subquery_follows hs h r _ q.negated fun _ _ hc => conditions_follow hs hc entries
    | .null =>
      simp only
      split
      · exact .throw
      · exact unfiltered_follows hs h r (!q.negated)
    | .bool _ | .num _ | .str _ | .arr _ => exact .throw

end

theorem compile_follows (hs : s.SameReach s') (h : cx.Shifted n m cx') (entries : Json.Entries) :
    Follows n m (Option.map (Pred.rename (Alias.shift n m))) (compile s cx entries)
      (compile s' cx' entries) :=
  (conditions_follow hs h entries).map fun ps => ((Pred.rename_through _).map_optional ps).symm

/-- A filter reads nothing of its place but the table there and the models passed on the
way, and nothing of the settings but what relations it can follow. -/
theorem compile_at_same (hs : s.SameReach s') (h : cx.Shifted 0 0 cx') (entries : Json.Entries) :
    compile s' cx' entries = compile s cx entries := by
  have hpred : Option.map (Pred.rename id) = id := by
    funext p
    cases p <;> simp [Pred.rename_id]
  have hsupply : Aliases.shift 0 = id := rfl
  funext a
  have hresult := (compile_follows hs h entries).result a (Nat.zero_le _)
  rw [Alias.shift_zero, hpred, hsupply, Prod.map_id, id_map] at hresult
  exact hresult

theorem compile_same (hs : s.SameReach s') (cx : Context) (entries : Json.Entries) :
    compile s' cx entries = compile s cx entries :=
  compile_at_same hs ⟨rfl, rfl, rfl⟩ entries

end Filter

end QuerySql
