import Mathlib.Data.List.Induction
import QuerySql.Compile.Records
import QuerySql.Proofs.Success.Clauses

/-!
# Successful selections

The selections that compile, as rules like those of filters: what each part of
the compiler was given and gave, with the aliases before and after. A selected
relation takes one alias for its table, those of its own columns and filter, and
a last one for the derived table that its rows are folded from.
-/

set_option autoImplicit false

namespace QuerySql

namespace Link

theorem put_self (found : List (String × String)) (referenced own : String) :
    (referenced, own) ∈ byReference.put found referenced own := by
  induction found with
  | nil => exact List.mem_singleton.mpr rfl
  | cons e rest ih =>
    rw [byReference.put]
    split
    · rename_i hk
      rw [hk]
      exact List.mem_cons_self
    · exact List.mem_cons_of_mem e ih

theorem put_other {found : List (String × String)} {x : String × String} {referenced : String}
    (own : String) (h : x ∈ found) (hk : x.1 ≠ referenced) :
    x ∈ byReference.put found referenced own := by
  induction found with
  | nil => exact absurd h List.not_mem_nil
  | cons e rest ih =>
    rw [byReference.put]
    split
    · rename_i he
      rcases List.mem_cons.mp h with rfl | h
      · exact absurd he hk
      · exact List.mem_cons_of_mem _ h
    · rcases List.mem_cons.mp h with rfl | h
      · exact List.mem_cons_self
      · exact List.mem_cons_of_mem _ (ih h)

theorem put_mem {found : List (String × String)} {referenced own : String}
    {x : String × String} (h : x ∈ byReference.put found referenced own) :
    x = (referenced, own) ∨ x ∈ found := by
  induction found with
  | nil => exact .inl (List.mem_singleton.mp h)
  | cons e rest ih =>
    obtain ⟨k, v⟩ := e
    rw [byReference.put] at h
    split at h
    · rename_i hk
      subst hk
      rcases List.mem_cons.mp h with h | h
      · exact .inl h
      · exact .inr (List.mem_cons_of_mem _ h)
    · rcases List.mem_cons.mp h with rfl | h
      · exact .inr List.mem_cons_self
      · rcases ih h with h | h
        · exact .inl h
        · exact .inr (List.mem_cons_of_mem _ h)

theorem by_reference_append (pairs : List (String × String)) (p : String × String) :
    byReference (pairs ++ [p]) = byReference.put (byReference pairs) p.2 p.1 := by
  rw [byReference, List.foldl_append]
  rfl

theorem by_reference_mem {pairs : List (String × String)} {x : String × String}
    (h : x ∈ byReference pairs) : (x.2, x.1) ∈ pairs := by
  induction pairs using List.reverseRecOn with
  | nil => exact absurd h List.not_mem_nil
  | append_singleton pairs p ih =>
    rw [by_reference_append] at h
    rcases put_mem h with rfl | h
    · exact List.mem_append_right _ List.mem_cons_self
    · exact List.mem_append_left _ (ih h)

theorem by_reference_covers {pairs : List (String × String)} {p : String × String}
    (h : p ∈ pairs) : ∃ own, (p.2, own) ∈ byReference pairs := by
  induction pairs using List.reverseRecOn with
  | nil => exact absurd h List.not_mem_nil
  | append_singleton pairs q ih =>
    rw [by_reference_append]
    rcases List.mem_append.mp h with h | h
    · obtain ⟨own, hown⟩ := ih h
      by_cases hk : p.2 = q.2
      · exact ⟨q.1, hk ▸ put_self _ p.2 q.1⟩
      · exact ⟨own, put_other q.1 hown hk⟩
    · rw [List.mem_singleton.mp h]
      exact ⟨q.1, put_self _ q.2 q.1⟩

theorem by_reference_ne_nil {pairs : List (String × String)} (h : pairs ≠ []) :
    byReference pairs ≠ [] := by
  obtain ⟨p, hp⟩ := List.exists_mem_of_ne_nil pairs h
  obtain ⟨own, hown⟩ := by_reference_covers hp
  exact List.ne_nil_of_mem hown

theorem equalities_ok {parent child : Context} {pairs : List (String × String)} {ps : List Pred}
    (h : equalities parent child pairs = .ok ps) :
    ps = (pairs.map fun p => equality parent child p.2 p.1) ∧
      ∀ p ∈ pairs, p.1 ∈ child.model.fieldNames ∧ p.2 ∈ parent.model.fieldNames := by
  induction pairs generalizing ps with
  | nil =>
    cases h
    exact ⟨rfl, List.forall_mem_nil _⟩
  | cons pair rest ih =>
    simp only [equalities, except_bind_ok, except_pure_ok] at h
    obtain ⟨f, hf, g, hg, later, hl, rfl⟩ := h
    obtain ⟨rfl, hrest⟩ := ih hl
    refine ⟨rfl, List.forall_mem_cons.mpr ⟨⟨?_, ?_⟩, hrest⟩⟩
    · exact List.mem_map.mpr ⟨f, Model.expect_field_ok hf⟩
    · exact List.mem_map.mpr ⟨g, Model.expect_field_ok hg⟩

inductive Correlates (r : Relation) (parent child : Context) :
    List Pred → Aliases → Aliases → Prop
  | keys {a : Aliases} (hc : r.cardinality ≠ .manyToMany)
      (declared : ∀ p ∈ byReference r.pairs,
        p.1 ∈ child.model.fieldNames ∧ p.2 ∈ parent.model.fieldNames) :
      Correlates r parent child
        ((byReference r.pairs).map fun p => equality parent child p.2 p.1) a a
  | junction {a : Aliases} {j : Junction} {own referenced : String}
      {rest : List (String × String)} (hj : r.through = some j)
      (hp : r.pairs = (own, referenced) :: rest) (hc : r.cardinality = .manyToMany) :
      Correlates r parent child [junctionRow j ⟨a.used⟩ parent child own referenced] a
        ⟨a.used + 1⟩

theorem references_ok {parent child : Context} {pairs : List (String × String)} {ps : List Pred} :
    references parent child pairs = .ok ps ↔
      pairs ≠ [] ∧ equalities parent child pairs = .ok ps := by
  cases pairs with
  | nil => simp [references]
  | cons p rest => simp [references]

theorem correlation_ok {r : Relation} {parent child : Context} {a b : Aliases} {ps : List Pred}
    (h : correlation r parent child a = .ok (ps, b)) : Correlates r parent child ps a b := by
  by_cases hc : r.cardinality = .manyToMany
  · simp only [correlation, hc, Compile.bind_ok, Compile.pure_ok] at h
    obtain ⟨p, _, hp, rfl, rfl⟩ := h
    obtain ⟨j, own, referenced, rest, hj, hpairs, rfl, rfl⟩ := junction_ok hp
    exact .junction hj hpairs hc
  · have hk : correlation r parent child =
        liftM (references parent child (byReference r.pairs)) := by
      unfold correlation
      split
      · contradiction
      · rfl
    rw [hk, Compile.lift_ok] at h
    obtain ⟨he, rfl⟩ := h
    obtain ⟨rfl, hdeclared⟩ := equalities_ok (references_ok.mp he).2
    exact .keys hc hdeclared

theorem correlates_used {r : Relation} {parent child : Context} {ps : List Pred} {a b : Aliases}
    (h : Correlates r parent child ps a b) : a.used ≤ b.used := by
  cases h with
  | keys _ _ => exact Nat.le_refl _
  | junction _ _ _ => exact Nat.le_succ _

end Link

namespace Records

theorem field_columns_read (cx : Context) : ∀ p ∈ fieldColumns cx, p.Reads cx := by
  intro p hp
  obtain ⟨f, hf, rfl⟩ := List.mem_map.mp hp
  exact ⟨f, hf, rfl⟩

theorem included_ok {m : Model} {key : String} {r : Relation} (h : included m key = .ok r) :
    m.field? key = none ∧ m.relation? key = some r := by
  unfold included at h
  split at h
  · cases h
  · split at h
    · cases h
    · rename_i hf
      refine ⟨by simpa using hf, ?_⟩
      unfold Model.expectRelation at h
      split at h
      · cases h
        assumption
      · cases h

def closeOver (s : Settings) (cx child : Context) (r : Relation) (args : RelationArgs)
    (columns : List Projection) (filter : List Pred) : Compile Projection := do
  let links ← Link.correlation r cx child
  let orderBy ← Ordering.compile s child args.orderBy none
  let fold ← Compile.fresh
  return .relation r.name r.cardinality.isToMany fold columns
    { table := child.model.tableName, tag := child.tag, filter := Pred.all? (filter ++ links),
      orderBy := orderBy, take := args.take, skip := args.skip }

theorem close_over (s : Settings) (cx child : Context) (r : Relation) (args : RelationArgs)
    (columns : List Projection) :
    close s cx child r args columns =
      match args.filter with
      | some entries => do
        let p ← Filter.compile s child entries
        let q ← Connective.and.apply child.model [p]
        closeOver s cx child r args columns [q]
      | none => closeOver s cx child r args columns [] := by
  unfold close
  cases args.filter <;> rfl

theorem enter_ok {s : Settings} {cx child : Context} {r : Relation} {args : RelationArgs}
    {a b : Aliases} (h : enter s cx r args a = .ok (child, b)) : ∃ target,
      s.schema.model? r.target = some target ∧
        child = (cx.nested r target ⟨a.used⟩).withPagination
          { take := args.take, skip := args.skip } ∧ b = ⟨a.used + 1⟩ := by
  unfold enter at h
  by_cases hpage : (r.cardinality.isToOne && (args.take.isSome || args.skip.isSome)) = true
  · rw [if_pos hpage] at h
    simp only [Compile.bind_ok, Compile.throw_ok, false_and, exists_false] at h
  · rw [if_neg hpage] at h
    simp only [Compile.bind_ok, Compile.descend_ok] at h
    obtain ⟨_, _, ⟨target, ht, -, rfl, rfl⟩, h⟩ := h
    by_cases hboth : (args.select && args.inclusion) = true
    · rw [if_pos hboth] at h
      simp only [Compile.bind_ok, Compile.throw_ok, false_and, exists_false] at h
    · rw [if_neg hboth, Compile.pure_ok] at h
      obtain ⟨rfl, rfl⟩ := h
      exact ⟨target, ht, rfl, rfl⟩

inductive Filtered (s : Settings) (child : Context) :
    Option Json.Entries → List Pred → Aliases → Aliases → Prop
  | none {a : Aliases} : Filtered s child none [] a a
  | some {entries : Json.Entries} {ps : List Pred} {a b : Aliases}
      (conditions : Filter.Runs s (.conditions child entries ps) a b) :
      Filtered s child (some entries) [(Pred.all? ps).getD (.truth true)] a b

theorem filtered_used {s : Settings} {child : Context} {filter : Option Json.Entries}
    {ps : List Pred} {a b : Aliases} (h : Filtered s child filter ps a b) : a.used ≤ b.used := by
  cases h with
  | none => exact Nat.le_refl _
  | some conditions => exact Filter.runs_used conditions

inductive Closes (s : Settings) (cx child : Context) (r : Relation) (args : RelationArgs)
    (columns : List Projection) : Projection → Aliases → Aliases → Prop
  | mk {ps links : List Pred} {orderBy : List SortItem} {a b d : Aliases}
      (filter : Filtered s child args.filter ps a b) (link : Link.Correlates r cx child links b d)
      (order : Ordering.compile s child args.orderBy none = .ok orderBy) :
      Closes s cx child r args columns
        (.relation r.name r.cardinality.isToMany ⟨d.used⟩ columns
          { table := child.model.tableName, tag := child.tag, filter := Pred.all? (ps ++ links),
            orderBy := orderBy, take := args.take, skip := args.skip }) a ⟨d.used + 1⟩

theorem closes_used {s : Settings} {cx child : Context} {r : Relation} {args : RelationArgs}
    {columns : List Projection} {p : Projection} {a b : Aliases}
    (h : Closes s cx child r args columns p a b) : a.used ≤ b.used := by
  cases h with
  | mk filter link _ =>
    have hfilter := filtered_used filter
    have hlink := Link.correlates_used link
    simp only
    omega

theorem close_ok {s : Settings} {cx child : Context} {r : Relation} {args : RelationArgs}
    {columns : List Projection} {p : Projection} {a b : Aliases}
    (h : close s cx child r args columns a = .ok (p, b)) :
    Closes s cx child r args columns p a b := by
  have hover : ∀ {ps : List Pred} {c : Aliases}, Filtered s child args.filter ps a c →
      closeOver s cx child r args columns ps c = .ok (p, b) →
        Closes s cx child r args columns p a b := by
    intro ps c hf hclose
    simp only [closeOver, Compile.bind_ok, Compile.lift_ok, Compile.fresh_ok,
      Compile.pure_ok] at hclose
    obtain ⟨links, _, hl, orderBy, _, ⟨ho, rfl⟩, _, _, ⟨rfl, rfl⟩, rfl, rfl⟩ := hclose
    exact .mk hf (Link.correlation_ok hl) ho
  rw [close_over] at h
  cases hargs : args.filter with
  | none =>
    simp only [hargs] at h
    exact hover (hargs ▸ .none) h
  | some entries =>
    simp only [hargs, Compile.bind_ok, Compile.lift_ok] at h
    obtain ⟨q, _, hq, _, _, ⟨hp, rfl⟩, h⟩ := h
    obtain ⟨ps, hps, rfl⟩ := Filter.compile_runs hq
    cases hp
    have hsingle : ((Pred.all? ([Pred.all? ps].filterMap id)).getD (.truth true)) =
        (Pred.all? ps).getD (.truth true) := by
      cases Pred.all? ps <;> rfl
    rw [hsingle] at h
    exact hover (hargs ▸ .some hps) h

inductive Outcome where
  | selected (cx : Context) (entries : Json.Entries) (ps : List Projection)
  | inclusions (cx : Context) (entries : Json.Entries) (ps : List Projection)
  | relation (cx : Context) (r : Relation) (value : Json) (ps : List Projection)
  | nested (cx : Context) (entries : Json.Entries) (ps : List Projection)

def Outcome.context : Outcome → Context
  | .selected cx _ _ | .inclusions cx _ _ | .relation cx _ _ _ | .nested cx _ _ => cx

def child (cx : Context) (r : Relation) (target : Model) (args : RelationArgs) (a : Aliases) :
    Context :=
  (cx.nested r target ⟨a.used⟩).withPagination { take := args.take, skip := args.skip }

inductive Runs (s : Settings) : Outcome → Aliases → Aliases → Prop
  | noSelected {cx : Context} {a : Aliases} : Runs s (.selected cx [] []) a a
  | fieldEntry {cx : Context} {key : String} {flag : Bool} {rest : Json.Entries} {f : Field}
      {ps : List Projection} {a b : Aliases} (hf : cx.model.field? key = some f)
      (later : Runs s (.selected cx rest ps) a b) :
      Runs s (.selected cx ((key, .bool flag) :: rest)
        ((if flag then [.column (Compile.column cx f)] else []) ++ ps)) a b
  | relationEntry {cx : Context} {key : String} {value : Json} {rest : Json.Entries}
      {r : Relation} {qs ps : List Projection} {a b d : Aliases}
      (hf : cx.model.field? key = none) (hr : cx.model.relation? key = some r)
      (here : Runs s (.relation cx r value qs) a b) (later : Runs s (.selected cx rest ps) b d) :
      Runs s (.selected cx ((key, value) :: rest) (qs ++ ps)) a d
  | noInclusion {cx : Context} {a : Aliases} : Runs s (.inclusions cx [] []) a a
  | inclusionEntry {cx : Context} {key : String} {value : Json} {rest : Json.Entries}
      {r : Relation} {qs ps : List Projection} {a b d : Aliases}
      (hf : cx.model.field? key = none) (hr : cx.model.relation? key = some r)
      (here : Runs s (.relation cx r value qs) a b) (later : Runs s (.inclusions cx rest ps) b d) :
      Runs s (.inclusions cx ((key, value) :: rest) (qs ++ ps)) a d
  | omitted {cx : Context} {r : Relation} {a : Aliases} :
      Runs s (.relation cx r (.bool false) []) a a
  | flagged {cx : Context} {r : Relation} {target : Model} {p : Projection} {a b : Aliases}
      (ht : s.schema.model? r.target = some target)
      (closing : Closes s cx (child cx r target {} a) r {} (fieldColumns (child cx r target {} a)) p
        ⟨a.used + 1⟩ b) :
      Runs s (.relation cx r (.bool true) [p]) a b
  | arguments {cx : Context} {r : Relation} {entries : Json.Entries} {args : RelationArgs}
      {target : Model} {columns : List Projection} {p : Projection} {a b d : Aliases}
      (ht : s.schema.model? r.target = some target)
      (hargs : RelationArgs.read cx.model r {} entries = .ok args)
      (own : Runs s (.nested (child cx r target args a) entries columns) ⟨a.used + 1⟩ b)
      (closing : Closes s cx (child cx r target args a) r args columns p b d) :
      Runs s (.relation cx r (.obj entries) [p]) a d
  | allFields {cx : Context} {a : Aliases} : Runs s (.nested cx [] (fieldColumns cx)) a a
  | nestedSelection {cx : Context} {entries rest : Json.Entries} {ps : List Projection}
      {a b : Aliases} (selection : Runs s (.selected cx entries ps) a b) :
      Runs s (.nested cx (("select", .obj entries) :: rest) ps) a b
  | nestedInclusion {cx : Context} {entries rest : Json.Entries} {ps : List Projection}
      {a b : Aliases} (inclusion : Runs s (.inclusions cx entries ps) a b) :
      Runs s (.nested cx (("include", .obj entries) :: rest) (fieldColumns cx ++ ps)) a b
  | otherArgument {cx : Context} {key : String} {value : Json} {rest : Json.Entries}
      {ps : List Projection} {a b : Aliases}
      (hk : ∀ entries, value = .obj entries → key ≠ "select" ∧ key ≠ "include")
      (later : Runs s (.nested cx rest ps) a b) : Runs s (.nested cx ((key, value) :: rest) ps) a b

theorem runs_used {s : Settings} {o : Outcome} {a b : Aliases} (h : Runs s o a b) :
    a.used ≤ b.used := by
  induction h with
  | noSelected | noInclusion | omitted | allFields => exact Nat.le_refl _
  | fieldEntry _ _ ih | nestedSelection _ ih | nestedInclusion _ ih | otherArgument _ _ ih =>
    exact ih
  | relationEntry _ _ _ _ ih ihl | inclusionEntry _ _ _ _ ih ihl => exact Nat.le_trans ih ihl
  | flagged _ closing => exact Nat.le_trans (Nat.le_succ _) (closes_used closing)
  | arguments _ _ _ closing ih =>
    have hclosing := closes_used closing
    simp only at ih
    omega

theorem nonempty_ok {m : Model} {ps qs : List Projection} (h : nonempty m ps = .ok qs) :
    qs = ps := by
  unfold nonempty at h
  split at h
  · cases h
  · cases h
    rfl

theorem flag_ok {m : Model} {key : String} {value : Json} {flag : Bool}
    (h : Compile.flag m key value = .ok flag) : value = .bool flag := by
  cases value with
  | bool b =>
    cases h
    rfl
  | null | num _ | str _ | arr _ | obj _ => cases h

mutual

theorem selected_runs (s : Settings) (cx : Context) (entries : List (String × Json))
    {ps : List Projection} {a b : Aliases} (h : selected s cx entries a = .ok (ps, b)) :
    Runs s (.selected cx entries ps) a b := by
  match entries with
  | [] =>
    obtain ⟨rfl, rfl⟩ := Compile.pure_ok.mp h
    exact .noSelected
  | (key, value) :: rest =>
    cases hf : cx.model.field? key with
    | some f =>
      simp only [selected, hf, Compile.bind_ok, Compile.lift_ok, Compile.pure_ok] at h
      obtain ⟨flag, _, ⟨hflag, rfl⟩, _, _, ⟨rfl, rfl⟩, later, _, hl, rfl, rfl⟩ := h
      cases flag_ok hflag
      exact .fieldEntry hf (selected_runs s cx rest hl)
    | none =>
      cases hr : cx.model.relation? key with
      | some r =>
        simp only [selected, hf, hr, Compile.bind_ok, Compile.pure_ok] at h
        obtain ⟨here, _, hh, later, _, hl, rfl, rfl⟩ := h
        exact .relationEntry hf hr (relation_runs s cx r value hh) (selected_runs s cx rest hl)
      | none =>
        by_cases hk : key = countKey
        · simp only [selected, hf, hr, if_pos hk, Compile.bind_ok, Compile.throw_ok, false_and,
            exists_false] at h
        · simp only [selected, hf, hr, if_neg hk, Compile.bind_ok, Compile.throw_ok, false_and,
            exists_false] at h

theorem inclusions_runs (s : Settings) (cx : Context) (entries : List (String × Json))
    {ps : List Projection} {a b : Aliases} (h : inclusions s cx entries a = .ok (ps, b)) :
    Runs s (.inclusions cx entries ps) a b := by
  match entries with
  | [] =>
    obtain ⟨rfl, rfl⟩ := Compile.pure_ok.mp h
    exact .noInclusion
  | (key, value) :: rest =>
    simp only [inclusions, Compile.bind_ok, Compile.lift_ok, Compile.pure_ok] at h
    obtain ⟨r, _, ⟨hr, rfl⟩, here, _, hh, later, _, hl, rfl, rfl⟩ := h
    obtain ⟨hf, hr⟩ := included_ok hr
    exact .inclusionEntry hf hr (relation_runs s cx r value hh) (inclusions_runs s cx rest hl)

theorem relation_runs (s : Settings) (cx : Context) (r : Relation) (value : Json)
    {ps : List Projection} {a b : Aliases} (h : relation s cx r value a = .ok (ps, b)) :
    Runs s (.relation cx r value ps) a b := by
  match value with
  | .bool false =>
    obtain ⟨rfl, rfl⟩ := Compile.pure_ok.mp h
    exact .omitted
  | .bool true =>
    simp only [relation, Compile.bind_ok, Compile.pure_ok] at h
    obtain ⟨_, _, he, p, _, hp, rfl, rfl⟩ := h
    obtain ⟨target, ht, rfl, rfl⟩ := enter_ok he
    exact .flagged ht (close_ok hp)
  | .obj entries =>
    simp only [relation, Compile.bind_ok, Compile.lift_ok, Compile.pure_ok] at h
    obtain ⟨args, _, ⟨hargs, rfl⟩, _, _, he, columns, _, hc, p, _, hp, rfl, rfl⟩ := h
    obtain ⟨target, ht, rfl, rfl⟩ := enter_ok he
    exact .arguments ht hargs (nested_runs s _ entries hc) (close_ok hp)
  | .null | .num _ | .str _ | .arr _ => simp only [relation, Compile.throw_ok] at h

theorem nested_runs (s : Settings) (cx : Context) (entries : List (String × Json))
    {ps : List Projection} {a b : Aliases} (h : nested s cx entries a = .ok (ps, b)) :
    Runs s (.nested cx entries ps) a b := by
  match entries with
  | [] =>
    obtain ⟨rfl, rfl⟩ := Compile.pure_ok.mp h
    exact .allFields
  | (key, .obj entries) :: rest =>
    by_cases hs : key = "select"
    · simp only [nested, if_pos hs, Compile.bind_ok, Compile.lift_ok] at h
      obtain ⟨qs, _, hq, hn, rfl⟩ := h
      cases nonempty_ok hn
      subst hs
      exact .nestedSelection (selected_runs s cx entries hq)
    · by_cases hi : key = "include"
      · simp only [nested, if_neg hs, if_pos hi, Compile.bind_ok, Compile.pure_ok] at h
        obtain ⟨qs, _, hq, rfl, rfl⟩ := h
        subst hi
        exact .nestedInclusion (inclusions_runs s cx entries hq)
      · simp only [nested, if_neg hs, if_neg hi] at h
        exact .otherArgument (fun _ _ => ⟨hs, hi⟩) (nested_runs s cx rest h)
  | (key, .null) :: rest | (key, .bool _) :: rest | (key, .num _) :: rest
  | (key, .str _) :: rest | (key, .arr _) :: rest =>
    simp only [nested] at h
    exact .otherArgument (by simp) (nested_runs s cx rest h)

end

theorem columns_ok {s : Settings} {cx : Context} {select inclusion : Option Json.Entries}
    {ps : List Projection} {a b : Aliases}
    (h : columns s cx select inclusion a = .ok (ps, b)) :
    (∃ entries, select = some entries ∧ inclusion = none ∧
      Runs s (.selected cx entries ps) a b) ∨
      ∃ qs, select = none ∧ ps = fieldColumns cx ++ qs ∧
        Runs s (.inclusions cx (inclusion.getD []) qs) a b := by
  cases select with
  | some entries =>
    cases inclusion with
    | some _ => simp only [columns, Compile.throw_ok] at h
    | none =>
      simp only [columns, Compile.bind_ok, Compile.lift_ok] at h
      obtain ⟨qs, _, hq, hn, rfl⟩ := h
      cases nonempty_ok hn
      exact .inl ⟨entries, rfl, rfl, selected_runs s cx entries hq⟩
  | none =>
    cases inclusion with
    | some entries =>
      simp only [columns, Compile.bind_ok, Compile.pure_ok] at h
      obtain ⟨qs, _, hq, rfl, rfl⟩ := h
      exact .inr ⟨qs, rfl, rfl, inclusions_runs s cx entries hq⟩
    | none =>
      obtain ⟨rfl, rfl⟩ := Compile.pure_ok.mp h
      exact .inr ⟨[], rfl, (List.append_nil _).symm, .noInclusion⟩

theorem columns_used {s : Settings} {cx : Context} {select inclusion : Option Json.Entries}
    {ps : List Projection} {a b : Aliases}
    (h : columns s cx select inclusion a = .ok (ps, b)) : a.used ≤ b.used := by
  rcases columns_ok h with ⟨_, _, _, hruns⟩ | ⟨_, _, _, hruns⟩
  · exact runs_used hruns
  · exact runs_used hruns

end Records

end QuerySql
