import QuerySql.Proofs.Connectives
import QuerySql.Proofs.Retabled
import QuerySql.Proofs.Success.Records

/-!
# Compilations side by side

Two compilations of one query, under other settings or against another schema, run
alike if they hand out the same aliases and either fail with one error or succeed with
results that correspond. What corresponds is for the caller to say: a relation of
predicates that connectives and subqueries keep, or one of selected columns that
subqueries keep, carries over to everything that is built from them.
-/

set_option autoImplicit false

namespace QuerySql

variable {α β γ δ : Type}

/-- One error, or results that correspond. -/
inductive Alike (R : α → β → Prop) : Except Error α → Except Error β → Prop
  | error (e : Error) : Alike R (.error e) (.error e)
  | ok {u : α} {v : β} (h : R u v) : Alike R (.ok u) (.ok v)

namespace Alike

variable {R : α → β → Prop} {Q : γ → δ → Prop} {x : Except Error α} {y : Except Error β}

theorem of_eq {x y : Except Error α} (h : y = x) : Alike Eq x y := by
  subst h
  cases y with
  | error e => exact .error e
  | ok u => exact .ok rfl

theorem mono {R' : α → β → Prop} (h : Alike R x y) (hR : ∀ u v, R u v → R' u v) :
    Alike R' x y := by
  cases h with
  | error e => exact .error e
  | ok h => exact .ok (hR _ _ h)

theorem bind {k : α → Except Error γ} {l : β → Except Error δ} (h : Alike R x y)
    (hk : ∀ u v, R u v → Alike Q (k u) (l v)) : Alike Q (x >>= k) (y >>= l) := by
  cases h with
  | error e => exact .error e
  | ok h => exact hk _ _ h

theorem after {x y : Except Error α} {k : α → Except Error γ} {l : α → Except Error δ}
    (h : y = x) (hk : ∀ u, x = .ok u → Alike Q (k u) (l u)) : Alike Q (x >>= k) (y >>= l) := by
  subst h
  cases hy : y with
  | error e => exact .error e
  | ok u => exact hk u hy

theorem ok_of_ok {v : β} (h : Alike R x y) (hy : y = .ok v) : ∃ u, x = .ok u ∧ R u v := by
  subst hy
  cases h with
  | ok h => exact ⟨_, rfl, h⟩

end Alike

namespace Compile

/-- From every supply of aliases both fail with one error, or both succeed and leave the
same supply. -/
def Alike (R : α → β → Prop) (x : Compile α) (y : Compile β) : Prop :=
  ∀ a, QuerySql.Alike (fun p q => R p.1 q.1 ∧ q.2 = p.2) (x a) (y a)

namespace Alike

variable {R : α → β → Prop} {Q : γ → δ → Prop} {x : Compile α} {y : Compile β}

theorem of_pure {u : α} {v : β} (h : R u v) : Alike R (pure u) (pure v) :=
  fun _ => .ok ⟨h, rfl⟩

theorem of_eq {x y : Compile α} (h : y = x) : Alike Eq x y := by
  subst h
  intro a
  exact (QuerySql.Alike.of_eq rfl).mono fun p q hpq => by simp [hpq]

theorem mono {R' : α → β → Prop} (h : Alike R x y) (hR : ∀ u v, R u v → R' u v) :
    Alike R' x y :=
  fun a => (h a).mono fun _ _ hpq => ⟨hR _ _ hpq.1, hpq.2⟩

theorem lift {x : Except Error α} {y : Except Error β} (h : QuerySql.Alike R x y) :
    Alike R (liftM x) (liftM y) := by
  intro a
  cases h with
  | error e => exact .error e
  | ok h => exact .ok ⟨h, rfl⟩

theorem throw {e : Error} : Alike R (throw e) (throw e) := fun _ => .error e

theorem bind {k : α → Compile γ} {l : β → Compile δ} (h : Alike R x y)
    (hk : ∀ u v, R u v → Alike Q (k u) (l v)) : Alike Q (x >>= k) (y >>= l) := by
  intro a
  change QuerySql.Alike _ (x a >>= fun p => k p.1 p.2) (y a >>= fun p => l p.1 p.2)
  refine (h a).bind fun p q ⟨hpq, hsupply⟩ => ?_
  rw [hsupply]
  exact hk p.1 q.1 hpq p.2

theorem after {x y : Except Error α} {k : α → Compile γ} {l : α → Compile δ} (h : y = x)
    (hk : ∀ u, x = .ok u → Alike Q (k u) (l u)) :
    Alike Q (liftM x >>= k) (liftM y >>= l) := by
  subst h
  cases hy : y with
  | error e => exact fun a => .error e
  | ok u => exact hk u hy

theorem after_step {x : Compile α} {k : α → Compile γ} {l : α → Compile δ}
    (hk : ∀ a u b, x a = .ok (u, b) → Alike Q (k u) (l u)) : Alike Q (x >>= k) (x >>= l) := by
  intro a
  change QuerySql.Alike _ (x a >>= fun p => k p.1 p.2) (x a >>= fun p => l p.1 p.2)
  cases hx : x a with
  | error e => exact .error e
  | ok p => exact hk a p.1 p.2 hx p.2

theorem throw_bind {e : Error} {k : α → Compile γ} {l : β → Compile δ} :
    Alike Q (MonadExcept.throw e >>= k) (MonadExcept.throw e >>= l) :=
  fun _ => .error e

theorem map {f : α → γ} {g : β → δ} (h : Alike R x y) (hf : ∀ u v, R u v → Q (f u) (g v)) :
    Alike Q (f <$> x) (g <$> y) := by
  simp only [map_eq_pure_bind]
  exact h.bind fun u v huv => of_pure (hf u v huv)

theorem present (h : Alike R x y) : Alike (Option.Rel R) (some <$> x) (some <$> y) :=
  h.map fun _ _ => .some

theorem append {x xs : Compile (List α)} {y ys : Compile (List β)}
    (h : Alike (List.Forall₂ R) x y) (hs : Alike (List.Forall₂ R) xs ys) :
    Alike (List.Forall₂ R) (do let here ← x; let later ← xs; return here ++ later)
      (do let here ← y; let later ← ys; return here ++ later) :=
  h.bind fun _ _ hhere => hs.bind fun _ _ hlater => of_pure (List.rel_append hhere hlater)

theorem prepend {x : Compile (Option α)} {y : Compile (Option β)} {xs : Compile (List α)}
    {ys : Compile (List β)} (h : Alike (Option.Rel R) x y) (hs : Alike (List.Forall₂ R) xs ys) :
    Alike (List.Forall₂ R) (do let here ← x; let later ← xs; return here.toList ++ later)
      (do let here ← y; let later ← ys; return here.toList ++ later) := by
  refine h.bind fun _ _ hhere => hs.bind fun _ _ hlater => of_pure ?_
  cases hhere with
  | none => exact hlater
  | some hp => exact .cons hp hlater

end Alike

end Compile

structure Pred.Congruence (R : Pred → Pred → Prop) : Prop where
  truth : ∀ value, R (.truth value) (.truth value)
  and : ∀ ps qs, List.Forall₂ R ps qs → R (.and ps) (.and qs)
  or : ∀ ps qs, List.Forall₂ R ps qs → R (.or ps) (.or qs)
  not : ∀ p q, R p q → R (.not p) (.not q)

theorem Alike.eq_map {x : Except Error α} {y : Except Error β} {f : α → β}
    (h : Alike (fun u v => f u = v) x y) : y = f <$> x := by
  cases h with
  | error e => rfl
  | ok h => exact congrArg Except.ok h.symm

theorem forall₂_eq_map_iff {f : α → β} {us : List α} {vs : List β} :
    List.Forall₂ (fun u v => f u = v) us vs ↔ us.map f = vs := by
  rw [← List.forall₂_eq_eq_eq, List.forall₂_map_left_iff]

theorem option_rel_eq_map_iff {f : α → β} {u : Option α} {v : Option β} :
    Option.Rel (fun u v => f u = v) u v ↔ u.map f = v := by
  constructor
  · rintro (⟨⟨⟩⟩ | _) <;> rfl
  · rintro rfl
    cases u with
    | none => exact .none
    | some u => exact .some rfl

theorem Pred.Through.congruence {f : Pred → Pred} (hf : Pred.Through f) :
    Pred.Congruence fun p q => f p = q where
  truth := hf.truth
  and _ _ h := by rw [hf.and, forall₂_eq_map_iff.mp h]
  or _ _ h := by rw [hf.or, forall₂_eq_map_iff.mp h]
  not _ _ h := by rw [hf.not, h]

theorem Pred.stated_related {R : Pred → Pred → Prop} {os os' : List (Option Pred)}
    (h : List.Forall₂ (Option.Rel R) os os') :
    List.Forall₂ R (os.filterMap id) (os'.filterMap id) := by
  induction h with
  | nil => exact .nil
  | cons ho _ ih =>
    cases ho with
    | none => exact ih
    | some hp => exact .cons hp ih

namespace Pred.Congruence

variable {R : Pred → Pred → Prop} (hR : Pred.Congruence R) {ps qs : List Pred}
include hR

theorem all (h : List.Forall₂ R ps qs) : R (Pred.all ps) (Pred.all qs) := by
  match ps, qs, h with
  | [], [], h => exact hR.and _ _ h
  | [_], [_], .cons h _ => exact h
  | _ :: _ :: _, _ :: _ :: _, h => exact hR.and _ _ h

theorem any (h : List.Forall₂ R ps qs) : R (Pred.any ps) (Pred.any qs) := by
  match ps, qs, h with
  | [], [], h => exact hR.or _ _ h
  | [_], [_], .cons h _ => exact h
  | _ :: _ :: _, _ :: _ :: _, h => exact hR.or _ _ h

theorem optional (h : List.Forall₂ R ps qs) : Option.Rel R (Pred.all? ps) (Pred.all? qs) := by
  cases h with
  | nil => exact .none
  | cons hp hps => exact .some (hR.all (.cons hp hps))

theorem present {o o' : Option Pred} (h : Option.Rel R o o') :
    R (o.getD (.truth true)) (o'.getD (.truth true)) := by
  cases h with
  | none => exact hR.truth true
  | some h => exact h

theorem apply (m : Model) (c : Connective) {os os' : List (Option Pred)}
    (h : List.Forall₂ (Option.Rel R) os os') : Alike R (c.apply m os) (c.apply m os') := by
  have hstated := Pred.stated_related h
  cases c with
  | and => exact .ok (hR.present (hR.optional hstated))
  | or =>
    refine .ok (hR.any ?_)
    rw [List.forall₂_map_left_iff, List.forall₂_map_right_iff]
    exact h.imp fun _ _ => hR.present
  | not =>
    simp only [Connective.apply]
    generalize os.filterMap id = ps at hstated
    generalize os'.filterMap id = qs at hstated
    cases hstated with
    | nil => exact .error _
    | cons hp hrest =>
      cases hrest with
      | nil => exact .ok (hR.not _ _ hp)
      | cons _ hrest =>
        simp only [List.length_cons, hrest.length_eq]
        exact .error _

end Pred.Congruence

theorem Model.relation_self {m : Model} {key : String} {r : Relation}
    (h : m.relation? key = some r) : m.relation? r.name = some r := by
  have hname : r.name = key := by simpa using List.find?_some h
  rwa [hname]

theorem FilterKey.resolve_self {m : Model} {key : String} {r : Relation}
    (h : resolve m key = .ok (.relation r)) : m.relation? r.name = some r := by
  obtain ⟨_, _, hk⟩ | ⟨_, _, _, hk⟩ | ⟨_, _, _, hr, hk⟩ := resolve_ok h
  · cases hk
  · cases hk
  · cases hk
    exact Model.relation_self hr

namespace Filter

/-- The relation of predicates passes through connectives and subqueries: a condition on
a field is related to itself, and a relation of the model, opened on both sides and asked
for related conditions, gives related predicates. The contexts that it is asked of are
those of `C`. -/
structure Simulation (s s' : Settings) (t : Model → Option String) (C : Context → Prop)
    (R : Pred → Pred → Prop) : Prop extends Pred.Congruence R where
  condition : ∀ (cx : Context) (f : Field) (json : Json) (p : Pred),
    Condition.Compiles cx.model f (.column (Compile.column cx f)) json (some p) → R p p
  subquery : ∀ (cx : Context) (r : Relation) (negated : Bool)
    (own own' : Context → Compile (List Pred)), C cx → cx.model.relation? r.name = some r →
    (∀ child, C child →
      Compile.Alike (List.Forall₂ R) (own child) (own' (child.retable t))) →
    Compile.Alike R
      (do
        let child ← Compile.descend s cx r
        let ps ← own child
        linked r cx child negated ps)
      (do
        let child ← Compile.descend s' (cx.retable t) r
        let ps ← own' child
        linked r (cx.retable t) child negated ps)

namespace Simulation

variable {s s' : Settings} {t : Model → Option String} {C : Context → Prop}
  {R : Pred → Pred → Prop}

theorem unfiltered_alike (h : Simulation s s' t C R) {cx : Context} (hcx : C cx) {r : Relation}
    (hr : cx.model.relation? r.name = some r) (negated : Bool) :
    Compile.Alike R (unfiltered s cx r negated) (unfiltered s' (cx.retable t) r negated) :=
  h.subquery cx r negated (fun _ => pure []) (fun _ => pure []) hcx hr fun _ _ => .of_pure .nil

theorem nested_alike (h : Simulation s s' t C R) {cx : Context} (hcx : C cx) {r : Relation}
    (hr : cx.model.relation? r.name = some r) (c : Connective) (negated : Bool)
    {entries : Json.Entries}
    (hnested : ∀ child, C child → Compile.Alike (List.Forall₂ R) (conditions s child entries)
      (conditions s' (child.retable t) entries)) :
    Compile.Alike R
      (do
        let child ← Compile.descend s cx r
        let nested ← conditions s child entries
        let p ← c.apply child.model [Pred.all? nested]
        linked r cx child negated [p])
      (do
        let child ← Compile.descend s' (cx.retable t) r
        let nested ← conditions s' child entries
        let p ← c.apply child.model [Pred.all? nested]
        linked r (cx.retable t) child negated [p]) := by
  have hsubquery := h.subquery cx r negated
    (fun child => do
      let nested ← conditions s child entries
      let p ← c.apply child.model [Pred.all? nested]
      return [p])
    (fun child => do
      let nested ← conditions s' child entries
      let p ← c.apply child.model [Pred.all? nested]
      return [p])
    hcx hr fun child hchild => (hnested child hchild).bind fun _ _ hps =>
      (Compile.Alike.lift (h.apply child.model c (.cons (h.optional hps) .nil))).bind
        fun _ _ hp => .of_pure (.cons hp .nil)
  simpa only [bind_assoc, pure_bind] using hsubquery

mutual

theorem conditions_alike (h : Simulation s s' t C R) {cx : Context} (hcx : C cx)
    (entries : List (String × Json)) :
    Compile.Alike (List.Forall₂ R) (conditions s cx entries)
      (conditions s' (cx.retable t) entries) := by
  match entries with
  | [] =>
    rw [conditions, conditions]
    exact .of_pure .nil
  | (key, value) :: rest =>
    have hrest := conditions_alike h hcx rest
    rw [conditions, conditions]
    refine .after rfl fun k hk => ?_
    cases k with
    | connective c => exact (connective_alike h hcx c value).present.prepend hrest
    | field f =>
      refine .after (Condition.compile_retable t cx.model f _ value) fun p hp => ?_
      refine hrest.bind fun _ _ hlater => .of_pure ?_
      cases p with
      | none => exact hlater
      | some p => exact .cons (h.condition cx f value p (Condition.compile_ok hp)) hlater
    | relation r =>
      exact (relation_alike h hcx (FilterKey.resolve_self hk) value).present.prepend hrest

theorem connective_alike (h : Simulation s s' t C R) {cx : Context} (hcx : C cx) (c : Connective)
    (value : Json) :
    Compile.Alike R (connective s cx c value) (connective s' (cx.retable t) c value) := by
  have happly : ∀ os os', List.Forall₂ (Option.Rel R) os os' →
      Compile.Alike R (liftM (c.apply cx.model os)) (liftM (c.apply (cx.retable t).model os')) :=
    fun _ _ hos => .lift (h.apply cx.model c hos)
  rw [connective, connective]
  refine .after (Connective.check_operand_retable t cx.model c value) fun _ _ => ?_
  match value with
  | .obj entries =>
    exact ((conditions_alike h hcx entries).map fun _ _ hps =>
      .cons (h.optional hps) .nil).bind happly
  | .arr items => exact (each_alike h hcx items).bind happly
  | .null | .bool _ | .num _ | .str _ => exact (Compile.Alike.of_pure .nil).bind happly

theorem each_alike (h : Simulation s s' t C R) {cx : Context} (hcx : C cx) (items : List Json) :
    Compile.Alike (List.Forall₂ (Option.Rel R)) (each s cx items)
      (each s' (cx.retable t) items) := by
  match items with
  | [] =>
    rw [each, each]
    exact .of_pure .nil
  | .obj entries :: rest =>
    rw [each, each]
    exact (conditions_alike h hcx entries).bind fun _ _ hps =>
      (each_alike h hcx rest).bind fun _ _ hos => .of_pure (.cons (h.optional hps) hos)
  | .null :: rest | .bool _ :: rest | .num _ :: rest | .str _ :: rest | .arr _ :: rest =>
    simp only [each]
    exact each_alike h hcx rest

theorem relation_alike (h : Simulation s s' t C R) {cx : Context} (hcx : C cx) {r : Relation}
    (hr : cx.model.relation? r.name = some r) (value : Json) :
    Compile.Alike R (relation s cx r value) (relation s' (cx.retable t) r value) := by
  match value with
  | .null =>
    rw [relation, relation]
    split
    · exact unfiltered_alike h hcx hr true
    · exact .throw
  | .obj entries =>
    rw [relation, relation]
    split
    · split
      · exact unfiltered_alike h hcx hr false
      · exact nested_alike h hcx hr .and false fun _ hchild => conditions_alike h hchild entries
    · split
      · exact .throw
      · exact (quantifiers_alike h hcx hr entries).map fun _ _ hps => h.all hps
  | .bool _ | .num _ | .str _ | .arr _ =>
    simp only [relation]
    exact .throw

theorem quantifiers_alike (h : Simulation s s' t C R) {cx : Context} (hcx : C cx) {r : Relation}
    (hr : cx.model.relation? r.name = some r) (entries : List (String × Json)) :
    Compile.Alike (List.Forall₂ R) (quantifiers s cx r entries)
      (quantifiers s' (cx.retable t) r entries) := by
  match entries with
  | [] =>
    rw [quantifiers, quantifiers]
    exact .of_pure .nil
  | (key, value) :: rest =>
    have hrest := quantifiers_alike h hcx hr rest
    rw [quantifiers, quantifiers]
    cases Quantifier.ofKey? key with
    | none => exact .append (.of_pure .nil) hrest
    | some q =>
      exact .append ((quantified_alike h hcx hr q value).map fun _ _ hp => .cons hp .nil) hrest

theorem quantified_alike (h : Simulation s s' t C R) {cx : Context} (hcx : C cx) {r : Relation}
    (hr : cx.model.relation? r.name = some r) (q : Quantifier) (value : Json) :
    Compile.Alike R (quantified s cx r q value) (quantified s' (cx.retable t) r q value) := by
  rw [quantified.eq_def, quantified.eq_def]
  split
  · exact .throw
  · match value with
    | .obj entries =>
      simp only
      split
      · split
        · exact .of_pure (h.truth true)
        · exact unfiltered_alike h hcx hr q.negated
      · exact nested_alike h hcx hr _ q.negated fun _ hchild => conditions_alike h hchild entries
    | .null =>
      simp only
      split
      · exact .throw
      · exact unfiltered_alike h hcx hr (!q.negated)
    | .bool _ | .num _ | .str _ | .arr _ => exact .throw

end

theorem compile_alike (h : Simulation s s' t C R) {cx : Context} (hcx : C cx)
    (entries : Json.Entries) :
    Compile.Alike (Option.Rel R) (compile s cx entries) (compile s' (cx.retable t) entries) :=
  (conditions_alike h hcx entries).map fun _ _ => h.optional

theorem optional_alike (h : Simulation s s' t C R) {cx : Context} (hcx : C cx)
    (filter : Option Json.Entries) :
    Compile.Alike (Option.Rel R) (compile? s cx filter) (compile? s' (cx.retable t) filter) := by
  cases filter with
  | none => exact .of_pure .none
  | some entries => exact compile_alike h hcx entries

end Simulation

end Filter

namespace Records

/-- The relation of selected columns passes through subqueries: a relation of the model,
opened on both sides and closed over related columns, gives related columns. The
contexts that it is asked of are those of `C`. -/
structure Simulation (s s' : Settings) (t : Model → Option String) (C : Context → Prop)
    (R : Context → Projection → Projection → Prop) : Prop where
  column : ∀ cx c, R cx (.column c) (.column c)
  subquery : ∀ (cx : Context) (r : Relation) (args : RelationArgs)
    (own own' : Context → Compile (List Projection)), C cx →
    cx.model.relation? r.name = some r →
    (∀ child, C child →
      Compile.Alike (List.Forall₂ (R child)) (own child) (own' (child.retable t))) →
    Compile.Alike (R cx)
      (do
        let child ← enter s cx r args
        let columns ← own child
        close s cx child r args columns)
      (do
        let child ← enter s' (cx.retable t) r args
        let columns ← own' child
        close s' (cx.retable t) child r args columns)

namespace Simulation

variable {s s' : Settings} {t : Model → Option String} {C : Context → Prop}
  {R : Context → Projection → Projection → Prop}

theorem fields (h : Simulation s s' t C R) (cx : Context) :
    List.Forall₂ (R cx) (fieldColumns cx) (fieldColumns (cx.retable t)) := by
  have hsame : fieldColumns (cx.retable t) = fieldColumns cx := rfl
  rw [hsame, List.forall₂_same]
  intro p hp
  obtain ⟨f, _, rfl⟩ := List.mem_map.mp hp
  exact h.column cx _

theorem nonempty_alike {m : Model} {Q : Projection → Projection → Prop} {ps qs : List Projection}
    (h : List.Forall₂ Q ps qs) :
    QuerySql.Alike (List.Forall₂ Q) (nonempty m ps) (nonempty (m.retable t) qs) := by
  cases h with
  | nil => exact .error _
  | cons hp hps => exact .ok (.cons hp hps)

mutual

theorem selected_alike (h : Simulation s s' t C R) {cx : Context} (hcx : C cx)
    (entries : List (String × Json)) :
    Compile.Alike (List.Forall₂ (R cx)) (selected s cx entries)
      (selected s' (cx.retable t) entries) := by
  match entries with
  | [] =>
    rw [selected, selected]
    exact .of_pure .nil
  | (key, value) :: rest =>
    have hrest := selected_alike h hcx rest
    rw [selected, selected]
    have hfield : (cx.retable t).model.field? key = cx.model.field? key := rfl
    have hrelation : (cx.retable t).model.relation? key = cx.model.relation? key := rfl
    rw [hfield, hrelation]
    cases cx.model.field? key with
    | some f =>
      refine .after rfl fun flag _ => .append (.of_pure ?_) hrest
      cases flag with
      | false => exact .nil
      | true => exact .cons (h.column cx _) .nil
    | none =>
      cases hr : cx.model.relation? key with
      | some r => exact .append (relation_alike h hcx (Model.relation_self hr) value) hrest
      | none =>
        simp only
        split
        · exact .throw_bind
        · exact .throw_bind

theorem inclusions_alike (h : Simulation s s' t C R) {cx : Context} (hcx : C cx)
    (entries : List (String × Json)) :
    Compile.Alike (List.Forall₂ (R cx)) (inclusions s cx entries)
      (inclusions s' (cx.retable t) entries) := by
  match entries with
  | [] =>
    rw [inclusions, inclusions]
    exact .of_pure .nil
  | (key, value) :: rest =>
    rw [inclusions, inclusions]
    refine .after rfl fun r hr => ?_
    exact .append (relation_alike h hcx (Model.relation_self (included_ok hr).2) value)
      (inclusions_alike h hcx rest)

theorem relation_alike (h : Simulation s s' t C R) {cx : Context} (hcx : C cx) {r : Relation}
    (hr : cx.model.relation? r.name = some r) (value : Json) :
    Compile.Alike (List.Forall₂ (R cx)) (relation s cx r value)
      (relation s' (cx.retable t) r value) := by
  have hsingle : ∀ p q, R cx p q → List.Forall₂ (R cx) [p] [q] := fun _ _ hp => .cons hp .nil
  match value with
  | .bool false =>
    rw [relation, relation]
    exact .of_pure .nil
  | .bool true =>
    have hclose := h.subquery cx r {} (fun child => pure (fieldColumns child))
      (fun child => pure (fieldColumns child)) hcx hr fun child _ => .of_pure (h.fields child)
    simp only [relation]
    simpa only [bind_assoc, pure_bind, map_eq_pure_bind] using hclose.map hsingle
  | .obj entries =>
    simp only [relation, Context.retable_model, RelationArgs.read_retable]
    refine .after rfl fun args _ => ?_
    have hclose := h.subquery cx r args (fun child => nested s child entries)
      (fun child => nested s' child entries) hcx hr fun child hchild =>
        nested_alike h hchild entries
    simpa only [bind_assoc, map_eq_pure_bind] using hclose.map hsingle
  | .null | .num _ | .str _ | .arr _ =>
    simp only [relation]
    exact .throw

theorem nested_alike (h : Simulation s s' t C R) {cx : Context} (hcx : C cx)
    (entries : List (String × Json)) :
    Compile.Alike (List.Forall₂ (R cx)) (nested s cx entries)
      (nested s' (cx.retable t) entries) := by
  match entries with
  | [] =>
    rw [nested, nested]
    exact .of_pure (h.fields cx)
  | (key, .obj entries) :: rest =>
    rw [nested, nested]
    split
    · exact (selected_alike h hcx entries).bind fun _ _ hps => .lift (nonempty_alike hps)
    · split
      · exact (inclusions_alike h hcx entries).bind fun _ _ hps =>
          .of_pure (List.rel_append (h.fields cx) hps)
      · exact nested_alike h hcx rest
  | (key, .null) :: rest | (key, .bool _) :: rest | (key, .num _) :: rest
  | (key, .str _) :: rest | (key, .arr _) :: rest =>
    simp only [nested]
    exact nested_alike h hcx rest

end

theorem columns_alike (h : Simulation s s' t C R) {cx : Context} (hcx : C cx)
    (select inclusion : Option Json.Entries) :
    Compile.Alike (List.Forall₂ (R cx)) (columns s cx select inclusion)
      (columns s' (cx.retable t) select inclusion) := by
  match select, inclusion with
  | some _, some _ => exact .throw
  | none, none => exact .of_pure (h.fields cx)
  | some entries, none =>
    exact (selected_alike h hcx entries).bind fun _ _ hps => .lift (nonempty_alike hps)
  | none, some entries =>
    exact (inclusions_alike h hcx entries).bind fun _ _ hps =>
      .of_pure (List.rel_append (h.fields cx) hps)

end Simulation

end Records

end QuerySql
