import QuerySql.Proofs.Conjunction

/-!
# Quantifiers

A condition on a relation asks for a row of one subquery: over the related table, with
the nested filter under a connective. The forms of a condition differ in the connective
and in whether the row has to be there. So they reduce to each other: a filter without a
quantifier is one under `some` or `is`, `every` is `none` of the negation, and `isNot`
is `is` with the other answer.

`AND` takes any filter, but `NOT` needs a condition to negate. So `every` accepts what
`some` and `none` accept, but for a filter that has entries and no condition.
-/

set_option autoImplicit false

namespace QuerySql

structure Subquery where
  table : String
  tag : Alias
  conditions : List Pred

namespace Subquery

def pred (negated : Bool) (q : Subquery) : Pred := .related negated q.table q.tag q.conditions

def render (d : Dialect) (q : Subquery) : Fragment :=
  selectFragment (Fragment.sql "1") none (d.table q.table q.tag)
    [match q.conditions with
      | [] => none
      | _ :: _ => some (Dialect.whereClause (Dialect.conjunction (Pred.renderAll d q.conditions)))]

theorem render_pred (d : Dialect) (negated : Bool) (q : Subquery) :
    (q.pred negated).render d = Dialect.presence (q.render d) negated := by
  rw [pred, Pred.render.eq_def]
  rfl

end Subquery

namespace Quantifier

theorem of_key_key (q : Quantifier) : ofKey? q.key = Option.some q := by
  cases q <;> rfl

def implied (r : Relation) : Quantifier := if r.cardinality.isToMany then .some else .is

theorem implied_to_many (r : Relation) : (implied r).isToMany = r.cardinality.isToMany := by
  unfold implied
  cases r.cardinality.isToMany <;> rfl

end Quantifier

namespace Filter

def nestedConditions (s : Settings) (child : Context) :
    Option (Connective × Json.Entries) → Compile (List Pred)
  | none => return []
  | some (c, entries) => do
    let ps ← conditions s child entries
    let p ← c.apply child.model [Pred.all? ps]
    return [p]

def subquery (s : Settings) (cx : Context) (r : Relation)
    (nested : Option (Connective × Json.Entries)) : Compile Subquery := do
  let child ← Compile.descend s cx r
  let own ← nestedConditions s child nested
  let links ← Link.conditions r cx child
  return ⟨child.model.tableName, child.tag, own ++ links⟩

section

variable (s : Settings) (cx : Context) (r : Relation)

theorem unfiltered_subquery (negated : Bool) :
    unfiltered s cx r negated = Subquery.pred negated <$> subquery s cx r none := by
  simp only [unfiltered, linked, subquery, nestedConditions, map_eq_pure_bind, bind_assoc,
    pure_bind, Subquery.pred]

theorem filtered_subquery (negated : Bool) (c : Connective) (entries : Json.Entries) :
    (do
      let child ← Compile.descend s cx r
      let nested ← conditions s child entries
      let p ← c.apply child.model [Pred.all? nested]
      linked r cx child negated [p]) =
        Subquery.pred negated <$> subquery s cx r (some (c, entries)) := by
  simp only [linked, subquery, nestedConditions, map_eq_pure_bind, bind_assoc, pure_bind,
    Subquery.pred]

theorem relation_bare {entries : Json.Entries} (h : Quantifier.count entries = 0) :
    relation s cx r (.obj entries) =
      Subquery.pred false <$> subquery s cx r (nestedFilter .and entries) := by
  rw [relation, if_pos h, nestedFilter]
  cases entries with
  | nil => exact unfiltered_subquery s cx r false
  | cons e rest => exact filtered_subquery s cx r false .and (e :: rest)

/-- A filter under a quantifier. Only `every` asks nothing of an empty one. -/
theorem quantified_subquery {q : Quantifier} {entries : Json.Entries}
    (hm : q.isToMany = r.cardinality.isToMany) (hne : q = .every → entries ≠ []) :
    quantified s cx r q (.obj entries) =
      Subquery.pred q.negated <$> subquery s cx r (nestedFilter q.connective entries) := by
  rw [quantified.eq_def, if_neg (not_not.mpr hm), nestedFilter]
  cases entries with
  | nil =>
    have hq : q ≠ .every := fun hq => hne hq rfl
    simp only [List.isEmpty_nil, if_true, if_neg hq]
    exact unfiltered_subquery s cx r q.negated
  | cons e rest => exact filtered_subquery s cx r q.negated q.connective (e :: rest)

theorem quantified_every_empty (hm : r.cardinality.isToMany = true) :
    quantified s cx r .every (.obj []) = pure (.truth true) := by
  have hmany : Quantifier.every.isToMany = r.cardinality.isToMany := hm.symm
  rw [quantified.eq_def, if_neg (not_not.mpr hmany)]
  rfl

theorem relation_quantifier (q : Quantifier) (value : Json) :
    relation s cx r (.obj [(q.key, value)]) = quantified s cx r q value := by
  have hcount : Quantifier.count [(q.key, value)] = 1 := by
    simp [Quantifier.count, Quantifier.of_key_key]
  rw [relation, if_neg (by omega), if_neg (by simp [hcount])]
  simp only [quantifiers, Quantifier.of_key_key, map_eq_pure_bind, bind_assoc, pure_bind,
    List.append_nil, Pred.all, bind_pure]

theorem relation_subquery {q : Quantifier} (entries : Json.Entries)
    (hm : q.isToMany = r.cardinality.isToMany) (hne : q = .every → entries ≠ []) :
    relation s cx r (.obj [(q.key, .obj entries)]) =
      Subquery.pred q.negated <$> subquery s cx r (nestedFilter q.connective entries) := by
  rw [relation_quantifier, quantified_subquery s cx r hm hne]

theorem conditions_negation (entries : Json.Entries) :
    conditions s cx [(Connective.not.key, .obj entries)] =
      nestedConditions s cx (some (.not, entries)) := by
  have hkey : FilterKey.resolve cx.model Connective.not.key = .ok (.connective .not) := rfl
  have hentry : entry s cx (Connective.not.key, .obj entries) =
      some <$> connective s cx .not (.obj entries) := by
    rw [entry, hkey]
    rfl
  have hchecked : connective s cx .not (.obj entries) = (do
      let ps ← conditions s cx entries
      Connective.not.apply cx.model [Pred.all? ps]) := by
    rw [connective]
    simp only [Connective.checkOperand, map_eq_pure_bind, bind_assoc, pure_bind]
    rfl
  rw [conditions_entry, hentry, hchecked]
  simp only [conditions, nestedConditions, map_eq_pure_bind, bind_assoc, pure_bind,
    Option.toList_some, List.append_nil]

theorem subquery_negation (entries : Json.Entries) :
    subquery s cx r (some (.not, entries)) =
      subquery s cx r (some (.and, [(Connective.not.key, .obj entries)])) := by
  have hnested : ∀ child, nestedConditions s child (some (.not, entries)) =
      nestedConditions s child (some (.and, [(Connective.not.key, .obj entries)])) := by
    intro child
    rw [nestedConditions, nestedConditions, conditions_negation, nestedConditions]
    simp only [bind_assoc, pure_bind]
    rfl
  simp only [subquery, hnested]

end

section

variable {s : Settings} {cx : Context} {r : Relation} {f : Json.Entries}

theorem conditions_nil_iff {ps : List Pred} {a b : Aliases}
    (h : conditions s cx f a = .ok (ps, b)) :
    ps = [] ↔ ∀ e ∈ f, entryStates cx.model e = false := by
  have hlength := one_each_length (conditions_one_each h)
  rw [← List.length_eq_zero_iff, hlength, List.length_eq_zero_iff, List.filter_eq_nil_iff]
  simp only [Bool.not_eq_true]

theorem nested_conditions_step {c : Connective} {ps : List Pred} {a b : Aliases}
    (h : conditions s cx f a = .ok (ps, b)) :
    nestedConditions s cx (some (c, f)) a =
      (fun p => ([p], b)) <$> c.apply cx.model [Pred.all? ps] := by
  rw [nestedConditions, Compile.bind_step h]
  cases c.apply cx.model [Pred.all? ps] <;> rfl

/-- Of the subqueries for matching rows and for rows that do not match, the second fails
for want of a condition, or both fail alike, or both compile. -/
theorem subqueries_compared (s : Settings) (cx : Context) (r : Relation) (f : Json.Entries)
    (a : Aliases) :
    (∃ target, s.schema.model? r.target = some target ∧
      (∀ e ∈ f, entryStates target e = false) ∧
      subquery s cx r (some (.not, f)) a = .error (target.fault (.negationArity 0))) ∨
    (∃ e, subquery s cx r (some (.and, f)) a = .error e ∧
      subquery s cx r (some (.not, f)) a = .error e) ∨
    ∃ target x y, s.schema.model? r.target = some target ∧
      (∃ e ∈ f, entryStates target e = true) ∧
      subquery s cx r (some (.and, f)) a = .ok x ∧
      subquery s cx r (some (.not, f)) a = .ok y := by
  unfold subquery
  rcases hchild : Compile.descend s cx r a with e | ⟨child, b⟩
  · exact .inr (.inl ⟨e, Compile.bind_failed hchild, Compile.bind_failed hchild⟩)
  obtain ⟨target, htarget, -, rfl, rfl⟩ := Compile.descend_ok.mp hchild
  rw [Compile.bind_step hchild, Compile.bind_step hchild]
  rcases hps : conditions s (cx.nested r target ⟨a.used⟩) f ⟨a.used + 1⟩ with e | ⟨ps, d⟩
  · have hown : ∀ c, nestedConditions s (cx.nested r target ⟨a.used⟩) (some (c, f))
        ⟨a.used + 1⟩ = .error e := fun c => Compile.bind_failed hps
    exact .inr (.inl ⟨e, Compile.bind_failed (hown .and), Compile.bind_failed (hown .not)⟩)
  have hown := fun c => nested_conditions_step (c := c) hps
  have hstates := conditions_nil_iff hps
  cases ps with
  | nil => exact .inl ⟨target, htarget, hstates.mp rfl, Compile.bind_failed (hown .not)⟩
  | cons p ps =>
    rw [Compile.bind_step (hown .and), Compile.bind_step (hown .not)]
    rcases hlinks : Link.conditions r cx (cx.nested r target ⟨a.used⟩) d with e | ⟨links, b⟩
    · exact .inr (.inl ⟨e, Compile.bind_failed hlinks, Compile.bind_failed hlinks⟩)
    · refine .inr (.inr ⟨target, _, _, htarget, ?_, Compile.bind_step hlinks,
        Compile.bind_step hlinks⟩)
      by_contra hnone
      have hempty := hstates.mpr fun e he => Bool.not_eq_true _ ▸ fun h => hnone ⟨e, he, h⟩
      cases hempty

end

end Filter

namespace Compiler

variable {c : Compiler} {model key : String} {m : Model} {r : Relation}

theorem filter_relation (hm : c.schema.model? model = some m)
    (hr : FilterKey.resolve m key = .ok (.relation r)) (value : Json) :
    c.filter model [(key, value)] = (fun x => some (x.1.render c.dialect)) <$>
      Filter.relation c.settings (Context.atRoot m .findMany {}) r value ⟨1⟩ := by
  have hkey : FilterKey.resolve (Context.atRoot m .findMany {}).model key =
      .ok (.relation r) := hr
  have hcompile : Filter.compile c.settings (Context.atRoot m .findMany {}) [(key, value)] =
      some <$> Filter.relation c.settings (Context.atRoot m .findMany {}) r value := by
    rw [Filter.compile, Filter.conditions_entry, Filter.entry, hkey]
    change Pred.all? <$> ((some <$> Filter.relation _ _ r value) >>= _) = _
    simp only [Filter.conditions, map_eq_pure_bind, bind_assoc, pure_bind, Option.toList_some,
      List.append_nil]
    rfl
  rw [filter, predicate, run_at hm, hcompile]
  change Prod.fst <$> (Filter.relation _ _ r value ⟨1⟩ >>= _) >>= _ = _
  cases Filter.relation c.settings (Context.atRoot m .findMany {}) r value ⟨1⟩ <;> rfl

def ask (c : Compiler) (model key : String) (q : Quantifier) (f : Json.Entries) :
    Except Error (Option Fragment) :=
  c.filter model [(key, .obj [(q.key, .obj f)])]

section

variable {q : Quantifier} {f : Json.Entries} (hm : c.schema.model? model = some m)
  (hr : FilterKey.resolve m key = .ok (.relation r)) (hq : q.isToMany = r.cardinality.isToMany)
  (hne : q = .every → f ≠ [])
include hm hr hq hne

theorem ask_subquery : c.ask model key q f =
    (fun x => some ((x.1.pred q.negated).render c.dialect)) <$>
      Filter.subquery c.settings (Context.atRoot m .findMany {}) r
        (Filter.nestedFilter q.connective f) ⟨1⟩ := by
  rw [ask, filter_relation hm hr, Filter.relation_subquery _ _ r f hq hne]
  change _ <$> (Filter.subquery _ _ r _ ⟨1⟩ >>= _) = _
  cases Filter.subquery c.settings (Context.atRoot m .findMany {}) r
    (Filter.nestedFilter q.connective f) ⟨1⟩ <;> rfl

theorem ask_ok : (∃ p, c.ask model key q f = .ok p) ↔
    ∃ x, Filter.subquery c.settings (Context.atRoot m .findMany {}) r
      (Filter.nestedFilter q.connective f) ⟨1⟩ = .ok x := by
  rw [ask_subquery hm hr hq hne]
  simp only [except_map_ok]
  constructor
  · rintro ⟨_, x, hx, -⟩
    exact ⟨x, hx⟩
  · rintro ⟨x, hx⟩
    exact ⟨_, x, hx, rfl⟩

theorem ask_error {e : Error} : c.ask model key q f = .error e ↔
    Filter.subquery c.settings (Context.atRoot m .findMany {}) r
      (Filter.nestedFilter q.connective f) ⟨1⟩ = .error e := by
  rw [ask_subquery hm hr hq hne]
  cases Filter.subquery c.settings (Context.atRoot m .findMany {}) r
    (Filter.nestedFilter q.connective f) ⟨1⟩ <;> simp [Functor.map, Except.map]

end

theorem ask_every_empty (hm : c.schema.model? model = some m)
    (hr : FilterKey.resolve m key = .ok (.relation r)) (hmany : r.cardinality.isToMany = true) :
    c.ask model key .every [] = .ok (some (Dialect.truth true)) := by
  rw [ask, filter_relation hm hr, Filter.relation_quantifier,
    Filter.quantified_every_empty _ _ r hmany]
  rfl

end Compiler

theorem Filter.presence_alike (s : Settings) (cx : Context) {r : Relation}
    (hone : r.cardinality.isToMany = false) (f : Json.Entries) (a : Aliases) :
    (∃ e, relation s cx r (.obj [("is", .obj f)]) a = .error e ∧
      relation s cx r (.obj [("isNot", .obj f)]) a = .error e) ∨
    ∃ rows b, relation s cx r (.obj [("is", .obj f)]) a = .ok (Subquery.pred false rows, b) ∧
      relation s cx r (.obj [("isNot", .obj f)]) a = .ok (Subquery.pred true rows, b) := by
  have his := relation_subquery s cx r (q := .is) f hone.symm nofun
  have hnot := relation_subquery s cx r (q := .isNot) f hone.symm nofun
  cases hrows : subquery s cx r (nestedFilter .and f) a with
  | error e =>
    exact .inl ⟨e, (congrFun his a).trans (Compile.map_failed hrows),
      (congrFun hnot a).trans (Compile.map_failed hrows)⟩
  | ok x =>
    exact .inr ⟨x.1, x.2, (congrFun his a).trans (Compile.map_step hrows),
      (congrFun hnot a).trans (Compile.map_step hrows)⟩

/-- Without a quantifier a condition on a relation is one under `some` or `is`; `every`
is `none` of the negation; and `isNot` asks that the row of `is` does not exist. From any
supply of aliases the two give the same, be it an error. -/
theorem relation_conditions_desugar (s : Settings) (cx : Context) (r : Relation)
    (f : Json.Entries) :
    (Quantifier.count f = 0 → Filter.relation s cx r (.obj f) =
      Filter.relation s cx r (.obj [((Quantifier.implied r).key, .obj f)])) ∧
    (r.cardinality.isToMany = true → f ≠ [] →
      Filter.relation s cx r (.obj [("every", .obj f)]) =
        Filter.relation s cx r (.obj [("none", .obj [("NOT", .obj f)])])) ∧
    (r.cardinality.isToOne = true → ∀ a,
      (∃ e, Filter.relation s cx r (.obj [("is", .obj f)]) a = .error e ∧
        Filter.relation s cx r (.obj [("isNot", .obj f)]) a = .error e) ∨
      ∃ (rows : Subquery) (b : Aliases),
        Filter.relation s cx r (.obj [("is", .obj f)]) a = .ok (rows.pred false, b) ∧
        Filter.relation s cx r (.obj [("isNot", .obj f)]) a = .ok (rows.pred true, b)) ∧
    ∀ (d : Dialect) (negated : Bool) (rows : Subquery),
      (rows.pred negated).render d = Dialect.presence (rows.render d) negated := by
  refine ⟨fun hbare => ?_, fun hmany hne => ?_, fun hone => ?_, Subquery.render_pred⟩
  · have himplied := Quantifier.implied_to_many r
    have hplain : (Quantifier.implied r).negated = false ∧
        (Quantifier.implied r).connective = .and := by
      unfold Quantifier.implied
      split <;> exact ⟨rfl, rfl⟩
    have hevery : Quantifier.implied r ≠ .every := by
      unfold Quantifier.implied
      split <;> exact nofun
    rw [Filter.relation_bare s cx r hbare,
      Filter.relation_subquery s cx r f himplied (fun h => absurd h hevery), hplain.1, hplain.2]
  · obtain ⟨e, rest, rfl⟩ := List.exists_cons_of_ne_nil hne
    calc Filter.relation s cx r (.obj [("every", .obj (e :: rest))])
      _ = Subquery.pred true <$> Filter.subquery s cx r (some (.not, e :: rest)) :=
        Filter.relation_subquery s cx r (q := .every) (e :: rest) hmany.symm (fun _ => hne)
      _ = Subquery.pred true <$>
            Filter.subquery s cx r (some (.and, [("NOT", .obj (e :: rest))])) :=
        congrArg _ (Filter.subquery_negation s cx r (e :: rest))
      _ = Filter.relation s cx r (.obj [("none", .obj [("NOT", .obj (e :: rest))])]) :=
        (Filter.relation_subquery s cx r (q := .none) [("NOT", .obj (e :: rest))] hmany.symm
          nofun).symm
  · have hto : r.cardinality.isToMany = false := by simpa [Cardinality.isToOne] using hone
    exact Filter.presence_alike s cx hto f

namespace Sample

def posts : Relation :=
  { name := "posts", cardinality := .oneToMany, target := "Post", fields := ["id"],
    references := ["authorId"] }

def author : Relation :=
  { name := "author", cardinality := .manyToOne, target := "User", fields := ["authorId"],
    references := ["id"] }

def titled : Json.Entries := [("title", .obj [("startsWith", .str "a")])]

def named : Json.Entries := [("name", .str "x")]

def vacuous : Json.Entries := [("title", .obj [])]

def postless : Compiler := .ofConfig ⟨[user]⟩ {}

end Sample

theorem sample_relation_conditions_desugar :
    let s := (Sample.compiler .postgresql).settings
    let users := Context.atRoot Sample.user .findMany {}
    let posts := Context.atRoot Sample.post .findMany {}
    (Quantifier.count Sample.titled = 0 ∧ Sample.posts.cardinality.isToMany = true ∧
      Sample.titled ≠ [] ∧
      Filter.relation s users Sample.posts (.obj Sample.titled) =
        Filter.relation s users Sample.posts (.obj [("some", .obj Sample.titled)]) ∧
      Filter.relation s users Sample.posts (.obj [("every", .obj Sample.titled)]) =
        Filter.relation s users Sample.posts
          (.obj [("none", .obj [("NOT", .obj Sample.titled)])])) ∧
    Quantifier.count Sample.named = 0 ∧ Sample.author.cardinality.isToOne = true ∧
      Filter.relation s posts Sample.author (.obj Sample.named) =
        Filter.relation s posts Sample.author (.obj [("is", .obj Sample.named)]) ∧
      ∃ (rows : Subquery) (b : Aliases),
        Filter.relation s posts Sample.author (.obj [("is", .obj Sample.named)]) ⟨1⟩ =
          .ok (rows.pred false, b) ∧
        Filter.relation s posts Sample.author (.obj [("isNot", .obj Sample.named)]) ⟨1⟩ =
          .ok (rows.pred true, b) := by
  intro s users posts
  have hmany := relation_conditions_desugar s users Sample.posts Sample.titled
  have hone := relation_conditions_desugar s posts Sample.author Sample.named
  refine ⟨⟨rfl, rfl, by decide, hmany.1 rfl, hmany.2.1 rfl (by decide)⟩, rfl, rfl, hone.1 rfl, ?_⟩
  rcases hone.2.2.1 rfl ⟨1⟩ with ⟨e, herror, -⟩ | hrows
  · have hcompiles : ∃ x, Filter.relation s posts Sample.author
        (.obj [("is", .obj Sample.named)]) ⟨1⟩ = .ok x := ⟨_, by with_unfolding_all rfl⟩
    obtain ⟨x, hx⟩ := hcompiles
    cases herror.symm.trans hx
  · exact hrows

/-- `some` and `none` accept the same filters, and `every` accepts the empty one and those
of the others that state a condition. What it refuses beyond the others it refuses for want
of a condition to negate. -/
theorem every_needs_a_condition (c : Compiler) (model key : String) (m : Model) (r : Relation)
    (f : Json.Entries) (hm : c.schema.model? model = some m)
    (hr : FilterKey.resolve m key = .ok (.relation r)) (hmany : r.cardinality.isToMany = true) :
    ((∃ p, c.ask model key .some f = .ok p) ↔ ∃ p, c.ask model key .none f = .ok p) ∧
    ((∃ p, c.ask model key .every f = .ok p) ↔ f = [] ∨
      (∃ p, c.ask model key .some f = .ok p) ∧
        ∃ target, c.schema.model? r.target = some target ∧
          ∃ e ∈ f, Filter.entryStates target e = true) ∧
    ∀ e, c.ask model key .every f = .error e → c.ask model key .some f = .error e ∨
      ∃ target, c.schema.model? r.target = some target ∧
        (∀ e ∈ f, Filter.entryStates target e = false) ∧
          e = target.fault (.negationArity 0) := by
  have hpositive : ∀ q : Quantifier, q.isToMany = true → q ≠ .every →
      ((∃ p, c.ask model key q f = .ok p) ↔
        ∃ x, Filter.subquery c.settings (Context.atRoot m .findMany {}) r
          (Filter.nestedFilter q.connective f) ⟨1⟩ = .ok x) :=
    fun q hq hne => Compiler.ask_ok hm hr (hq.trans hmany.symm) (fun h => absurd h hne)
  have hsome := hpositive .some rfl nofun
  refine ⟨hsome.trans (hpositive .none rfl nofun).symm, ?_⟩
  cases f with
  | nil =>
    have hevery := Compiler.ask_every_empty hm hr hmany
    exact ⟨⟨fun _ => .inl rfl, fun _ => ⟨_, hevery⟩⟩,
      fun e he => nomatch hevery.symm.trans he⟩
  | cons entry rest =>
    have hne : Quantifier.every = .every → entry :: rest ≠ [] := fun _ => List.cons_ne_nil _ _
    have hevery := Compiler.ask_ok hm hr (q := .every) hmany.symm hne
    have hrefused := fun e => Compiler.ask_error hm hr (q := .every) (e := e) hmany.symm hne
    rcases Filter.subqueries_compared c.settings (Context.atRoot m .findMany {}) r
      (entry :: rest) ⟨1⟩ with ⟨target, ht, hnone, hnot⟩ | ⟨e, hand, hnot⟩ |
        ⟨target, x, y, ht, hstates, hand, hnot⟩
    · have hfails := (hrefused _).mpr hnot
      refine ⟨⟨fun ⟨_, hp⟩ => (nomatch hfails.symm.trans hp), ?_⟩, fun e he => .inr ?_⟩
      · rintro (hempty | ⟨-, _, ht', e, hmem, hstates⟩)
        · cases hempty
        · cases ht.symm.trans ht'
          exact nomatch (hnone e hmem).symm.trans hstates
      · cases hfails.symm.trans he
        exact ⟨target, ht, hnone, rfl⟩
    · have hfails := (hrefused _).mpr hnot
      have halike := (Compiler.ask_error hm hr (q := .some) (f := entry :: rest) (e := e)
        hmany.symm nofun).mpr hand
      refine ⟨⟨fun ⟨_, hp⟩ => (nomatch hfails.symm.trans hp), ?_⟩, fun e' he => .inl ?_⟩
      · rintro (hempty | ⟨⟨_, hp⟩, -⟩)
        · cases hempty
        · exact nomatch halike.symm.trans hp
      · cases hfails.symm.trans he
        exact halike
    · refine ⟨⟨fun _ => .inr ⟨hsome.mpr ⟨x, hand⟩, target, ht, hstates⟩,
        fun _ => hevery.mpr ⟨y, hnot⟩⟩, fun e he => ?_⟩
      obtain ⟨_, hp⟩ := hevery.mpr ⟨y, hnot⟩
      exact nomatch he.symm.trans hp

theorem sample_every_needs_a_condition :
    let c := Sample.compiler .postgresql
    (∃ p, c.ask "User" "posts" .some Sample.titled = .ok p) ∧
      (∃ p, c.ask "User" "posts" .none Sample.titled = .ok p) ∧
      (∃ p, c.ask "User" "posts" .every Sample.titled = .ok p) ∧
      ∃ e, c.ask "User" "posts" .every Sample.named = .error e ∧
        c.ask "User" "posts" .some Sample.named = .error e := by
  intro c
  have htitled := every_needs_a_condition c "User" "posts" Sample.user Sample.posts
    Sample.titled rfl rfl rfl
  have hnamed := every_needs_a_condition c "User" "posts" Sample.user Sample.posts
    Sample.named rfl rfl rfl
  have hsome : ∃ p, c.ask "User" "posts" .some Sample.titled = .ok p :=
    ⟨_, by with_unfolding_all rfl⟩
  have hevery := htitled.2.1.mpr (.inr ⟨hsome, Sample.post, rfl, _, List.mem_singleton.mpr rfl,
    by with_unfolding_all rfl⟩)
  refine ⟨hsome, htitled.1.mp hsome, hevery, ?_⟩
  have herror : ∃ e, c.ask "User" "posts" .every Sample.named = .error e :=
    ⟨_, by with_unfolding_all rfl⟩
  obtain ⟨e, he⟩ := herror
  rcases hnamed.2.2 e he with hsome' | ⟨target, ht, hnone, -⟩
  · exact ⟨e, he, hsome'⟩
  · cases ht
    exact absurd (hnone _ (List.mem_singleton.mpr rfl)) (by decide)

/-- Users with some post, and with no post, under a filter that states nothing, but none
with every post. And users with every post of a model that there is not. -/
theorem every_refuses_vacuous_filter :
    (Schema.Builder.build ⟨none, Sample.schema.models⟩).1 = .ok Sample.schema ∧
    (∃ p, (Sample.compiler .postgresql).ask "User" "posts" .some Sample.vacuous = .ok p) ∧
    (∃ p, (Sample.compiler .postgresql).ask "User" "posts" .none Sample.vacuous = .ok p) ∧
    (Sample.compiler .postgresql).ask "User" "posts" .every Sample.vacuous =
      .error (Sample.post.fault (.negationArity 0)) ∧
    (Schema.Builder.build ⟨none, [Sample.user]⟩).1 = .ok Sample.postless.schema ∧
    (∃ p, Sample.postless.ask "User" "posts" .every [] = .ok p) ∧
    ∃ e, Sample.postless.ask "User" "posts" .some [] = .error e :=
  ⟨rfl, ⟨_, by with_unfolding_all rfl⟩, ⟨_, by with_unfolding_all rfl⟩,
    by with_unfolding_all rfl, rfl, ⟨_, by with_unfolding_all rfl⟩,
    ⟨_, by with_unfolding_all rfl⟩⟩

end QuerySql
