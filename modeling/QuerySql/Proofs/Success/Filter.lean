import QuerySql.Proofs.Success.Condition

/-!
# Successful filters

The filters that compile, as rules over what each part of the compiler was
given and gave, with the aliases before and after. The three forms of a
condition on a relation all end in one rule: a subquery over the related table,
with or without a nested filter, linked to the row that it is asked of.
-/

set_option autoImplicit false

namespace QuerySql

theorem FilterKey.resolve_ok {m : Model} {key : String} {k : FilterKey}
    (h : FilterKey.resolve m key = .ok k) :
    (∃ c, Connective.ofKey? key = some c ∧ k = .connective c) ∨
      (Connective.ofKey? key = none ∧ ∃ f, m.field? key = some f ∧ k = .field f) ∨
      (Connective.ofKey? key = none ∧ m.field? key = none ∧
        ∃ r, m.relation? key = some r ∧ k = .relation r) := by
  unfold FilterKey.resolve at h
  split at h
  · rename_i c hc
    cases h
    exact .inl ⟨c, hc, rfl⟩
  · rename_i hc
    split at h
    · cases h
    · split at h
      · rename_i f hf
        cases h
        exact .inr (.inl ⟨hc, f, hf, rfl⟩)
      · rename_i r hf hr
        cases h
        exact .inr (.inr ⟨hc, hf, r, hr, rfl⟩)
      · cases h

theorem Connective.check_items_ok {m : Model} {c : Connective} {items : List Json}
    (h : c.checkItems m items = .ok ()) : ∀ json ∈ items, ∃ entries, json = .obj entries := by
  fun_induction Connective.checkItems m c items with
  | case1 => simp
  | case2 entries rest ih => simpa using ih h
  | case3 json rest _ => cases h

theorem Connective.check_operand_ok {m : Model} {c : Connective} {value : Json}
    (h : c.checkOperand m value = .ok ()) :
    (∃ entries, value = .obj entries) ∨
      ∃ items, items ≠ [] ∧ value = .arr items ∧
        ∀ json ∈ items, ∃ entries, json = .obj entries := by
  unfold Connective.checkOperand at h
  split at h
  · exact .inl ⟨_, rfl⟩
  · cases h
  · rename_i items hne
    exact .inr ⟨items, hne, rfl, check_items_ok h⟩
  · cases h

theorem Quantifier.count_cons {key : String} {value : Json} {rest : Json.Entries}
    (h : Quantifier.count ((key, value) :: rest) = ((key, value) :: rest).length) :
    (Quantifier.ofKey? key).isSome = true ∧ Quantifier.count rest = rest.length := by
  simp only [Quantifier.count, List.countP_eq_length, List.mem_cons] at h ⊢
  exact ⟨h _ (.inl rfl), fun e he => h e (.inr he)⟩

/-- The connective over the filter of a quantifier: `every` looks for records
that do not match. -/
def Quantifier.connective (q : Quantifier) : Connective := if q = .every then .not else .and

namespace Link

def junctionRow (j : Junction) (tag : Alias) (parent child : Context) (own referenced : String) :
    Pred :=
  .related false j.table tag
    [.compare (.column ⟨tag, j.target⟩) .eq (.column ⟨child.tag, referenced⟩),
      .compare (.column ⟨tag, j.source⟩) .eq (.column ⟨parent.tag, own⟩)]

theorem junction_ok {r : Relation} {parent child : Context} {a b : Aliases} {p : Pred}
    (h : junction r parent child a = .ok (p, b)) : ∃ j own referenced rest,
      r.through = some j ∧ r.pairs = (own, referenced) :: rest ∧
        p = junctionRow j ⟨a.used⟩ parent child own referenced ∧ b = ⟨a.used + 1⟩ := by
  unfold junction at h
  rcases hj : r.through with _ | j
  · simp only [hj, Compile.throw_ok] at h
  · rcases hp : r.pairs with _ | ⟨⟨own, referenced⟩, rest⟩
    · simp only [hj, hp, Compile.throw_ok] at h
    · simp only [hj, hp, Compile.bind_ok, Compile.fresh_ok, Compile.pure_ok] at h
      obtain ⟨tag, _, ⟨rfl, rfl⟩, rfl, rfl⟩ := h
      exact ⟨j, own, referenced, rest, rfl, rfl, rfl, rfl⟩

inductive Joins (r : Relation) (parent child : Context) : List Pred → Aliases → Aliases → Prop
  | keys {a : Aliases} (hc : r.cardinality ≠ .manyToMany) :
      Joins r parent child (r.pairs.map (fun p => equality parent child p.1 p.2) ++
        r.pairs.map (fun p => guard r parent child p.1 p.2)) a a
  | junction {a : Aliases} {j : Junction} {own referenced : String}
      {rest : List (String × String)} (hc : r.cardinality = .manyToMany)
      (hj : r.through = some j) (hp : r.pairs = (own, referenced) :: rest) :
      Joins r parent child [junctionRow j ⟨a.used⟩ parent child own referenced] a ⟨a.used + 1⟩

theorem joins_used {r : Relation} {parent child : Context} {ps : List Pred} {a b : Aliases}
    (h : Joins r parent child ps a b) : a.used ≤ b.used := by
  cases h with
  | keys _ => exact Nat.le_refl _
  | junction _ _ _ => exact Nat.le_succ _

theorem conditions_ok {r : Relation} {parent child : Context} {a b : Aliases} {ps : List Pred}
    (h : conditions r parent child a = .ok (ps, b)) : Joins r parent child ps a b := by
  by_cases hc : r.cardinality = .manyToMany
  · simp only [conditions, hc, Compile.bind_ok, Compile.pure_ok] at h
    obtain ⟨p, _, hp, rfl, rfl⟩ := h
    obtain ⟨j, own, referenced, rest, hj, hpairs, rfl, rfl⟩ := junction_ok hp
    exact .junction hc hj hpairs
  · have hk : conditions r parent child =
        pure (r.pairs.map (fun p => equality parent child p.1 p.2) ++
          r.pairs.map (fun p => guard r parent child p.1 p.2)) := by
      unfold conditions
      split
      · contradiction
      · rfl
    rw [hk, Compile.pure_ok] at h
    obtain ⟨rfl, rfl⟩ := h
    exact .keys hc

end Link

namespace Filter

theorem linked_ok {r : Relation} {parent child : Context} {negated : Bool} {ps : List Pred}
    {a b : Aliases} {p : Pred} (h : linked r parent child negated ps a = .ok (p, b)) :
    ∃ links, Link.Joins r parent child links a b ∧
      p = .related negated child.model.tableName child.tag (ps ++ links) := by
  simp only [linked, Compile.bind_ok, Compile.pure_ok] at h
  obtain ⟨links, _, hl, rfl, rfl⟩ := h
  exact ⟨links, Link.conditions_ok hl, rfl⟩

/-- What one part of the compiler was given and gave. A subquery is given the
connective over its nested filter, if it has one. -/
inductive Outcome where
  | conditions (cx : Context) (entries : Json.Entries) (ps : List Pred)
  | connective (cx : Context) (c : Connective) (value : Json) (p : Pred)
  | each (cx : Context) (items : List Json) (ps : List (Option Pred))
  | relation (cx : Context) (r : Relation) (value : Json) (p : Pred)
  | quantifiers (cx : Context) (r : Relation) (entries : Json.Entries) (ps : List Pred)
  | quantified (cx : Context) (r : Relation) (q : Quantifier) (value : Json) (p : Pred)
  | subquery (cx : Context) (r : Relation) (negated : Bool)
      (nested : Option (Connective × Json.Entries)) (p : Pred)

def Outcome.context : Outcome → Context
  | .conditions cx _ _ | .connective cx _ _ _ | .each cx _ _ | .relation cx _ _ _
  | .quantifiers cx _ _ _ | .quantified cx _ _ _ _ | .subquery cx _ _ _ _ => cx

def nestedFilter (c : Connective) (entries : Json.Entries) : Option (Connective × Json.Entries) :=
  if entries.isEmpty then none else some (c, entries)

inductive Runs (s : Settings) : Outcome → Aliases → Aliases → Prop
  | nil {cx : Context} {a : Aliases} : Runs s (.conditions cx [] []) a a
  | connectiveEntry {cx : Context} {key : String} {value : Json} {rest : Json.Entries}
      {c : Connective} {p : Pred} {ps : List Pred} {a b d : Aliases}
      (hk : Connective.ofKey? key = some c) (here : Runs s (.connective cx c value p) a b)
      (later : Runs s (.conditions cx rest ps) b d) :
      Runs s (.conditions cx ((key, value) :: rest) (p :: ps)) a d
  | fieldEntry {cx : Context} {key : String} {value : Json} {rest : Json.Entries}
      {f : Field} {p : Option Pred} {ps : List Pred} {a b : Aliases}
      (hk : Connective.ofKey? key = none) (hf : cx.model.field? key = some f)
      (here : Condition.Compiles cx.model f (.column (Compile.column cx f)) value p)
      (later : Runs s (.conditions cx rest ps) a b) :
      Runs s (.conditions cx ((key, value) :: rest) (p.toList ++ ps)) a b
  | relationEntry {cx : Context} {key : String} {value : Json} {rest : Json.Entries}
      {r : Relation} {p : Pred} {ps : List Pred} {a b d : Aliases}
      (hk : Connective.ofKey? key = none) (hf : cx.model.field? key = none)
      (hr : cx.model.relation? key = some r) (here : Runs s (.relation cx r value p) a b)
      (later : Runs s (.conditions cx rest ps) b d) :
      Runs s (.conditions cx ((key, value) :: rest) (p :: ps)) a d
  | object {cx : Context} {c : Connective} {entries : Json.Entries} {ps : List Pred} {p : Pred}
      {a b : Aliases} (operand : Runs s (.conditions cx entries ps) a b)
      (hp : c.apply cx.model [Pred.all? ps] = .ok p) :
      Runs s (.connective cx c (.obj entries) p) a b
  | array {cx : Context} {c : Connective} {items : List Json} {os : List (Option Pred)} {p : Pred}
      {a b : Aliases} (hne : items ≠ []) (operands : Runs s (.each cx items os) a b)
      (hp : c.apply cx.model os = .ok p) : Runs s (.connective cx c (.arr items) p) a b
  | noItem {cx : Context} {a : Aliases} : Runs s (.each cx [] []) a a
  | item {cx : Context} {entries : Json.Entries} {rest : List Json} {ps : List Pred}
      {os : List (Option Pred)} {a b d : Aliases} (here : Runs s (.conditions cx entries ps) a b)
      (later : Runs s (.each cx rest os) b d) :
      Runs s (.each cx (.obj entries :: rest) (Pred.all? ps :: os)) a d
  | absent {cx : Context} {r : Relation} {p : Pred} {a b : Aliases}
      (ho : r.cardinality.isToOne = true) (sub : Runs s (.subquery cx r true none p) a b) :
      Runs s (.relation cx r .null p) a b
  | bare {cx : Context} {r : Relation} {entries : Json.Entries} {p : Pred} {a b : Aliases}
      (hq : Quantifier.count entries = 0)
      (sub : Runs s (.subquery cx r false (nestedFilter .and entries) p) a b) :
      Runs s (.relation cx r (.obj entries) p) a b
  | keywords {cx : Context} {r : Relation} {entries : Json.Entries} {ps : List Pred}
      {a b : Aliases} (hz : Quantifier.count entries ≠ 0)
      (hq : Quantifier.count entries = entries.length)
      (all : Runs s (.quantifiers cx r entries ps) a b) :
      Runs s (.relation cx r (.obj entries) (Pred.all ps)) a b
  | noQuantifier {cx : Context} {r : Relation} {a : Aliases} : Runs s (.quantifiers cx r [] []) a a
  | quantifier {cx : Context} {r : Relation} {key : String} {value : Json} {rest : Json.Entries}
      {q : Quantifier} {p : Pred} {ps : List Pred} {a b d : Aliases}
      (hk : Quantifier.ofKey? key = some q) (here : Runs s (.quantified cx r q value p) a b)
      (later : Runs s (.quantifiers cx r rest ps) b d) :
      Runs s (.quantifiers cx r ((key, value) :: rest) (p :: ps)) a d
  | everyRecord {cx : Context} {r : Relation} {a : Aliases} (hm : r.cardinality.isToMany = true) :
      Runs s (.quantified cx r .every (.obj []) (.truth true)) a a
  | matching {cx : Context} {r : Relation} {q : Quantifier} {entries : Json.Entries} {p : Pred}
      {a b : Aliases} (hm : q.isToMany = r.cardinality.isToMany)
      (hne : q = .every → entries ≠ [])
      (sub : Runs s (.subquery cx r q.negated (nestedFilter q.connective entries) p) a b) :
      Runs s (.quantified cx r q (.obj entries) p) a b
  | presence {cx : Context} {r : Relation} {q : Quantifier} {p : Pred} {a b : Aliases}
      (hq : q.isToMany = false) (ho : r.cardinality.isToMany = false)
      (sub : Runs s (.subquery cx r (!q.negated) none p) a b) :
      Runs s (.quantified cx r q .null p) a b
  | unfiltered {cx : Context} {r : Relation} {negated : Bool} {target : Model}
      {links : List Pred} {a b : Aliases} (ht : s.schema.model? r.target = some target)
      (hd : cx.depth < s.maxDepth)
      (link : Link.Joins r cx (cx.nested r target ⟨a.used⟩) links ⟨a.used + 1⟩ b) :
      Runs s (.subquery cx r negated none (.related negated target.tableName ⟨a.used⟩ links)) a b
  | filtered {cx : Context} {r : Relation} {negated : Bool} {c : Connective}
      {entries : Json.Entries} {target : Model} {ps links : List Pred} {p : Pred}
      {a b d : Aliases} (ht : s.schema.model? r.target = some target)
      (hd : cx.depth < s.maxDepth)
      (nested : Runs s (.conditions (cx.nested r target ⟨a.used⟩) entries ps) ⟨a.used + 1⟩ b)
      (hp : c.apply target [Pred.all? ps] = .ok p)
      (link : Link.Joins r cx (cx.nested r target ⟨a.used⟩) links b d) :
      Runs s (.subquery cx r negated (some (c, entries))
        (.related negated target.tableName ⟨a.used⟩ (p :: links))) a d

theorem runs_used {s : Settings} {o : Outcome} {a b : Aliases} (h : Runs s o a b) :
    a.used ≤ b.used := by
  induction h with
  | nil | noItem | noQuantifier | everyRecord _ => exact Nat.le_refl _
  | connectiveEntry _ _ _ ih ihl | relationEntry _ _ _ _ _ ih ihl => exact Nat.le_trans ih ihl
  | item _ _ ih ihl | quantifier _ _ _ ih ihl => exact Nat.le_trans ih ihl
  | fieldEntry _ _ _ _ ih => exact ih
  | object _ _ ih | array _ _ _ ih | absent _ _ ih | bare _ _ ih => exact ih
  | keywords _ _ _ ih | matching _ _ _ ih | presence _ _ _ ih => exact ih
  | unfiltered _ _ link => exact Nat.le_trans (Nat.le_succ _) (Link.joins_used link)
  | filtered _ _ _ _ link ih =>
    have hlink := Link.joins_used link
    simp only at ih
    omega

theorem unfiltered_ok {s : Settings} {cx : Context} {r : Relation} {negated : Bool} {p : Pred}
    {a b : Aliases} (h : unfiltered s cx r negated a = .ok (p, b)) :
    Runs s (.subquery cx r negated none p) a b := by
  simp only [unfiltered, Compile.bind_ok, Compile.descend_ok] at h
  obtain ⟨_, _, ⟨target, ht, hd, rfl, rfl⟩, h⟩ := h
  obtain ⟨links, hl, rfl⟩ := linked_ok h
  exact .unfiltered ht hd hl

mutual

theorem conditions_runs (s : Settings) (cx : Context) (entries : List (String × Json))
    {ps : List Pred} {a b : Aliases} (h : conditions s cx entries a = .ok (ps, b)) :
    Runs s (.conditions cx entries ps) a b := by
  match entries with
  | [] =>
    obtain ⟨rfl, rfl⟩ := Compile.pure_ok.mp h
    exact .nil
  | (key, value) :: rest =>
    rw [conditions, Compile.bind_ok] at h
    obtain ⟨k, _, hres, h⟩ := h
    obtain ⟨hkey, rfl⟩ := Compile.lift_ok.mp hres
    rcases FilterKey.resolve_ok hkey with ⟨c, hk, rfl⟩ | ⟨hk, f, hf, rfl⟩ | ⟨hk, hf, r, hr, rfl⟩
    · simp only [Compile.bind_ok, Compile.map_ok, Compile.pure_ok] at h
      obtain ⟨_, _, ⟨p, hp, rfl⟩, later, _, hl, rfl, rfl⟩ := h
      exact .connectiveEntry hk (connective_runs s cx c value hp) (conditions_runs s cx rest hl)
    · simp only [Compile.bind_ok, Compile.lift_ok, Compile.pure_ok] at h
      obtain ⟨p, _, ⟨hp, rfl⟩, later, _, hl, rfl, rfl⟩ := h
      exact .fieldEntry hk hf (Condition.compile_ok hp) (conditions_runs s cx rest hl)
    · simp only [Compile.bind_ok, Compile.map_ok, Compile.pure_ok] at h
      obtain ⟨_, _, ⟨p, hp, rfl⟩, later, _, hl, rfl, rfl⟩ := h
      exact .relationEntry hk hf hr (relation_runs s cx r value hp) (conditions_runs s cx rest hl)

theorem connective_runs (s : Settings) (cx : Context) (c : Connective) (value : Json) {p : Pred}
    {a b : Aliases} (h : connective s cx c value a = .ok (p, b)) :
    Runs s (.connective cx c value p) a b := by
  rw [connective, Compile.bind_ok] at h
  obtain ⟨_, _, hcheck, h⟩ := h
  obtain ⟨hc, rfl⟩ := Compile.lift_ok.mp hcheck
  match value with
  | .obj entries =>
    simp only [Compile.bind_ok, Compile.map_ok, Compile.lift_ok] at h
    obtain ⟨_, _, ⟨ps, hps, rfl⟩, hp, rfl⟩ := h
    exact .object (conditions_runs s cx entries hps) hp
  | .arr items =>
    simp only [Compile.bind_ok, Compile.lift_ok] at h
    obtain ⟨os, _, hos, hp, rfl⟩ := h
    rcases Connective.check_operand_ok hc with ⟨_, he⟩ | ⟨_, hne, he, hobj⟩
    · cases he
    · cases he
      exact .array hne (each_runs s cx items hobj hos) hp
  | .null | .bool _ | .num _ | .str _ => cases hc

theorem each_runs (s : Settings) (cx : Context) (items : List Json)
    (hobj : ∀ json ∈ items, ∃ entries, json = .obj entries) {os : List (Option Pred)}
    {a b : Aliases} (h : each s cx items a = .ok (os, b)) : Runs s (.each cx items os) a b := by
  match items with
  | [] =>
    obtain ⟨rfl, rfl⟩ := Compile.pure_ok.mp h
    exact .noItem
  | .obj entries :: rest =>
    simp only [each, Compile.bind_ok, Compile.pure_ok] at h
    obtain ⟨ps, _, hps, later, _, hl, rfl, rfl⟩ := h
    exact .item (conditions_runs s cx entries hps)
      (each_runs s cx rest (fun json hj => hobj json (by simp [hj])) hl)
  | .null :: _ | .bool _ :: _ | .num _ :: _ | .str _ :: _ | .arr _ :: _ =>
    obtain ⟨_, he⟩ := hobj _ List.mem_cons_self
    cases he

theorem relation_runs (s : Settings) (cx : Context) (r : Relation) (value : Json) {p : Pred}
    {a b : Aliases} (h : relation s cx r value a = .ok (p, b)) :
    Runs s (.relation cx r value p) a b := by
  match value with
  | .null =>
    rw [relation] at h
    split at h
    · rename_i ho
      exact .absent ho (unfiltered_ok h)
    · simp only [Compile.throw_ok] at h
  | .obj entries =>
    rw [relation] at h
    split at h
    · rename_i hq
      refine .bare hq ?_
      unfold nestedFilter
      split at h
      · rename_i he
        rw [if_pos he]
        exact unfiltered_ok h
      · rename_i he
        rw [if_neg he]
        simp only [Compile.bind_ok, Compile.descend_ok, Compile.lift_ok] at h
        obtain ⟨_, _, ⟨target, ht, hd, rfl, rfl⟩, ps, _, hps, _, _, ⟨hp, rfl⟩, h⟩ := h
        obtain ⟨links, hl, rfl⟩ := linked_ok h
        exact .filtered ht hd (conditions_runs s _ entries hps) hp hl
    · rename_i hz
      split at h
      · simp only [Compile.throw_ok] at h
      · rename_i hq
        simp only [Compile.map_ok] at h
        obtain ⟨ps, hps, rfl⟩ := h
        exact .keywords hz (not_not.mp hq)
          (quantifiers_runs s cx r entries (not_not.mp hq) hps)
  | .bool _ | .num _ | .str _ | .arr _ => simp only [relation, Compile.throw_ok] at h

theorem quantifiers_runs (s : Settings) (cx : Context) (r : Relation)
    (entries : List (String × Json)) (hq : Quantifier.count entries = entries.length)
    {ps : List Pred} {a b : Aliases} (h : quantifiers s cx r entries a = .ok (ps, b)) :
    Runs s (.quantifiers cx r entries ps) a b := by
  match entries with
  | [] =>
    obtain ⟨rfl, rfl⟩ := Compile.pure_ok.mp h
    exact .noQuantifier
  | (key, value) :: rest =>
    obtain ⟨hkey, hrest⟩ := Quantifier.count_cons hq
    obtain ⟨q, hk⟩ := Option.isSome_iff_exists.mp hkey
    simp only [quantifiers, hk, Compile.bind_ok, Compile.map_ok, Compile.pure_ok] at h
    obtain ⟨_, _, ⟨p, hp, rfl⟩, later, _, hl, rfl, rfl⟩ := h
    exact .quantifier hk (quantified_runs s cx r q value hp)
      (quantifiers_runs s cx r rest hrest hl)

theorem quantified_runs (s : Settings) (cx : Context) (r : Relation) (q : Quantifier)
    (value : Json) {p : Pred} {a b : Aliases} (h : quantified s cx r q value a = .ok (p, b)) :
    Runs s (.quantified cx r q value p) a b := by
  rw [quantified.eq_def] at h
  split at h
  · simp only [Compile.throw_ok] at h
  · rename_i hm
    match value with
    | .obj [] =>
      by_cases he : q = .every
      · subst he
        obtain ⟨rfl, rfl⟩ := Compile.pure_ok.mp h
        exact .everyRecord (not_not.mp hm).symm
      · simp only [List.isEmpty_nil, if_true, if_neg he] at h
        exact .matching (not_not.mp hm) (fun hq => absurd hq he) (unfiltered_ok h)
    | .obj (e :: rest) =>
      simp only [List.isEmpty_cons, Bool.false_eq_true, if_false, Compile.bind_ok,
        Compile.descend_ok, Compile.lift_ok] at h
      obtain ⟨_, _, ⟨target, ht, hd, rfl, rfl⟩, ps, _, hps, _, _, ⟨hp, rfl⟩, h⟩ := h
      obtain ⟨links, hl, rfl⟩ := linked_ok h
      exact .matching (not_not.mp hm) (fun _ => List.cons_ne_nil e rest)
        (.filtered ht hd (conditions_runs s _ (e :: rest) hps) hp hl)
    | .null =>
      cases hq : q.isToMany with
      | true => simp only [hq, if_true, Compile.throw_ok] at h
      | false =>
        simp only [hq, Bool.false_eq_true, if_false] at h
        exact .presence hq (hq ▸ (not_not.mp hm).symm) (unfiltered_ok h)
    | .bool _ | .num _ | .str _ | .arr _ => simp only [Compile.throw_ok] at h

end

theorem compile_runs {s : Settings} {cx : Context} {entries : Json.Entries} {p : Option Pred}
    {a b : Aliases} (h : compile s cx entries a = .ok (p, b)) :
    ∃ ps, Runs s (.conditions cx entries ps) a b ∧ p = Pred.all? ps := by
  obtain ⟨ps, hps, rfl⟩ := Compile.map_ok.mp h
  exact ⟨ps, conditions_runs s cx entries hps, rfl⟩

end Filter

end QuerySql
