import QuerySql.Proofs.Preservation

/-!
# The conjunction of a filter

A filter is the conjunction of its entries, in the order written. A connective
and a condition on a relation always state something, even if only `TRUE`. An
object of operators on a field may state nothing, and then the entry adds no
condition at all: a filter of such entries only is no filter.
-/

set_option autoImplicit false

namespace QuerySql

section

variable (d : Dialect)

theorem Pred.render_all_eq_map (ps : List Pred) : Pred.renderAll d ps = ps.map (·.render d) := by
  induction ps with
  | nil => rfl
  | cons p ps ih => rw [Pred.renderAll, ih, List.map_cons]

def Dialect.conjunction? : List Fragment → Option Fragment
  | [] => none
  | conditions => some (conjunction conditions)

theorem Pred.render_all (ps : List Pred) :
    (Pred.all? ps).map (·.render d) = Dialect.conjunction? (ps.map (·.render d)) := by
  match ps with
  | [] => rfl
  | [p] => rfl
  | p :: q :: ps =>
    change some (Dialect.conjunction (Pred.renderAll d (p :: q :: ps))) = _
    rw [Pred.render_all_eq_map]
    rfl

def Dialect.filtered (statement : Fragment) (conditions : List Fragment) : Fragment :=
  match conjunction? conditions with
  | none => statement
  | some predicate => statement ++ Fragment.sql " " ++ whereClause predicate

theorem render_filter_all (statement : Fragment) (ps : List Pred) :
    renderFilter d statement (Pred.all? ps) =
      Dialect.filtered statement (ps.map (·.render d)) := by
  have hall := Pred.render_all d ps
  unfold Dialect.filtered
  rw [← hall]
  cases Pred.all? ps <;> rfl

end

namespace Filter

variable {s : Settings} {cx : Context}

/-- The entry states a condition. Only an object of operators on a field may
state none. -/
def entryStates (m : Model) (e : String × Json) : Bool :=
  match Connective.ofKey? e.1, m.field? e.1, e.2 with
  | none, some _, .obj operators => Condition.states operators
  | _, _, _ => true

/-- The conditions of entries, one for each and in their order: what the entry
compiles to by itself, from the aliases that the entries before it left. -/
inductive OneEach (s : Settings) (cx : Context) :
    Json.Entries → List Pred → Aliases → Aliases → Prop
  | nil {a : Aliases} : OneEach s cx [] [] a a
  | cons {e : String × Json} {rest : Json.Entries} {p : Pred} {ps : List Pred} {a b c : Aliases}
      (here : conditions s cx [e] a = .ok ([p], b)) (later : OneEach s cx rest ps b c) :
      OneEach s cx (e :: rest) (p :: ps) a c

theorem one_each_length {entries : Json.Entries} {ps : List Pred} {a b : Aliases}
    (h : OneEach s cx entries ps a b) : ps.length = entries.length := by
  induction h with
  | nil => rfl
  | cons _ _ ih => rw [List.length_cons, ih, List.length_cons]

def entry (s : Settings) (cx : Context) (e : String × Json) : Compile (Option Pred) := do
  match ← FilterKey.resolve cx.model e.1 with
  | .connective c => some <$> connective s cx c e.2
  | .field f => Condition.compile cx.model f (.column (Compile.column cx f)) e.2
  | .relation r => some <$> relation s cx r e.2

theorem conditions_entry (e : String × Json) (rest : Json.Entries) :
    conditions s cx (e :: rest) = do
      let here ← entry s cx e
      let later ← conditions s cx rest
      return here.toList ++ later := by
  rw [conditions, entry, bind_assoc]
  congr 1
  funext k
  cases k <;> rfl

theorem conditions_cons {e : String × Json} {rest : Json.Entries} {ps : List Pred}
    {a c : Aliases} (h : conditions s cx (e :: rest) a = .ok (ps, c)) : ∃ here later b,
      conditions s cx [e] a = .ok (here, b) ∧ conditions s cx rest b = .ok (later, c) ∧
        ps = here ++ later := by
  simp only [conditions_entry, Compile.bind_ok, Compile.pure_ok] at h
  obtain ⟨here, b, hhere, later, _, hl, rfl, rfl⟩ := h
  refine ⟨here.toList, later, b, ?_, hl, rfl⟩
  have hnone : conditions s cx [] = pure [] := by rw [conditions]
  simp only [conditions_entry, hnone, Compile.bind_ok, Compile.pure_ok]
  exact ⟨here, b, hhere, [], b, ⟨rfl, rfl⟩, (List.append_nil _).symm, rfl⟩

theorem field_entry_states {m : Model} {key : String} {value : Json} {f : Field} {lhs : Scalar}
    {p : Option Pred} (hk : Connective.ofKey? key = none) (hf : m.field? key = some f)
    (h : Condition.Compiles m f lhs value p) : entryStates m (key, value) = p.isSome := by
  cases h with
  | null => simp [entryStates, hk, hf]
  | @scalar _ v hv =>
    cases value with
    | obj _ => cases hv.2
    | null | bool _ | num _ | str _ | arr _ => simp [entryStates, hk, hf]
  | @operators operators mode ps _ here =>
    have hstates := Condition.runs_states here
    simp only [entryStates, hk, hf, hstates]
    cases ps <;> rfl

/-- One entry compiles to one condition, or states none and leaves the aliases
as they were. -/
theorem entry_condition {e : String × Json} {ps : List Pred} {a b : Aliases}
    (h : conditions s cx [e] a = .ok (ps, b)) :
    (entryStates cx.model e = true ∧ ∃ p, ps = [p]) ∨
      (entryStates cx.model e = false ∧ ps = [] ∧ b = a) := by
  have hrun := conditions_runs s cx [e] h
  cases hrun with
  | @connectiveEntry _ key value _ _ _ _ _ _ _ hk _ later =>
    cases later
    exact .inl ⟨by simp [entryStates, hk], _, rfl⟩
  | @fieldEntry _ key value _ f p _ _ _ hk hf here later =>
    cases later
    rw [field_entry_states hk hf here]
    cases p with
    | none => exact .inr ⟨rfl, rfl, rfl⟩
    | some p => exact .inl ⟨rfl, p, rfl⟩
  | @relationEntry _ key value _ _ _ _ _ _ _ hk hf _ _ later =>
    cases later
    exact .inl ⟨by simp [entryStates, hk, hf], _, rfl⟩

theorem conditions_one_each {entries : Json.Entries} {ps : List Pred} {a b : Aliases}
    (h : conditions s cx entries a = .ok (ps, b)) :
    OneEach s cx (entries.filter (entryStates cx.model)) ps a b := by
  induction entries generalizing ps a with
  | nil =>
    rw [conditions, Compile.pure_ok] at h
    obtain ⟨rfl, rfl⟩ := h
    exact .nil
  | cons e rest ih =>
    obtain ⟨here, later, c, hhere, hlater, rfl⟩ := conditions_cons h
    rcases entry_condition hhere with ⟨hs, p, rfl⟩ | ⟨hs, rfl, rfl⟩
    · rw [List.filter_cons_of_pos hs]
      exact .cons hhere (ih hlater)
    · rw [List.filter_cons_of_neg (by simp [hs])]
      exact ih hlater

theorem compile_one_each {filter : Json.Entries} {p : Option Pred} {a b : Aliases}
    (h : compile s cx filter a = .ok (p, b)) : ∃ ps,
      OneEach s cx (filter.filter (entryStates cx.model)) ps a b ∧ p = Pred.all? ps := by
  obtain ⟨ps, hps, rfl⟩ := Compile.map_ok.mp h
  exact ⟨ps, conditions_one_each hps, rfl⟩

end Filter

namespace Compiler

variable {c : Compiler} {model : String} {args : Args} {prepared : Prepared}

def Filters (c : Compiler) (cx : Context) (filter : Option Json.Entries) (ps : List Pred) : Prop :=
  ∃ b, Filter.OneEach c.settings cx ((filter.getD []).filter (Filter.entryStates cx.model)) ps
    ⟨1⟩ b

theorem optional_filters {cx : Context} {filter : Option Json.Entries} {p : Option Pred}
    {b : Aliases} (h : Filter.compile? c.settings cx filter ⟨1⟩ = .ok (p, b)) :
    ∃ ps, c.Filters cx filter ps ∧ p = Pred.all? ps := by
  cases filter with
  | none =>
    obtain ⟨rfl, rfl⟩ := Compile.pure_ok.mp h
    exact ⟨[], ⟨_, .nil⟩, rfl⟩
  | some entries =>
    obtain ⟨ps, hps, rfl⟩ := Filter.compile_one_each h
    exact ⟨ps, ⟨b, hps⟩, rfl⟩

theorem filter_filters {entries : Json.Entries} {p : Option Fragment}
    (h : c.filter model entries = .ok p) : ∃ m ps, c.schema.model? model = some m ∧
      c.Filters (Context.atRoot m .findMany {}) (some entries) ps ∧
        p = Dialect.conjunction? (ps.map (·.render c.dialect)) := by
  simp only [filter, predicate, except_bind_ok, except_map_ok, except_pure_ok] at h
  obtain ⟨_, ⟨⟨q, b⟩, hrun, rfl⟩, rfl⟩ := h
  obtain ⟨m, hm, hq⟩ := run_ok hrun
  obtain ⟨ps, hps, rfl⟩ := Filter.compile_one_each hq
  exact ⟨m, ps, hm, ⟨b, hps⟩, Pred.render_all c.dialect ps⟩

theorem mutation_compiles {op : Operation} (h : c.compile model op args = .ok prepared) :
    ∃ m st b, c.schema.model? model = some m ∧
      compileAt c.settings args (Context.atRoot m op args) ⟨1⟩ = .ok (st, b) ∧
        prepared = (st.render c.dialect).prepare c.dialect := by
  obtain ⟨st, b, hst, rfl⟩ := compile_ok h
  obtain ⟨m, hm, -, hrun⟩ := statement_iff.mp hst
  exact ⟨m, st, b, hm, hrun, rfl⟩

theorem delete_filters (h : c.compile model .delete args = .ok prepared) : ∃ m ps,
    c.schema.model? model = some m ∧ c.Filters (Context.atRoot m .delete args) args.filter ps ∧
      prepared = (Dialect.filtered (c.dialect.delete m.tableName ⟨0⟩)
        (ps.map (·.render c.dialect))).prepare c.dialect := by
  obtain ⟨m, st, b, hm, hst, rfl⟩ := mutation_compiles h
  have hdelete : Write.delete c.settings (Context.atRoot m .delete args) args ⟨1⟩ =
      .ok (st, b) := hst
  simp only [Write.delete, Compile.bind_ok, Compile.pure_ok] at hdelete
  obtain ⟨p, _, hp, rfl, rfl⟩ := hdelete
  obtain ⟨ps, hps, rfl⟩ := optional_filters hp
  refine ⟨m, ps, hm, hps, ?_⟩
  rw [Statement.render, render_filter_all]
  rfl

theorem update_filters (h : c.compile model .update args = .ok prepared) : ∃ m ps assigned,
    c.schema.model? model = some m ∧ c.Filters (Context.atRoot m .update args) args.filter ps ∧
      prepared = (Dialect.filtered (c.dialect.update m.tableName ⟨0⟩ assigned)
        (ps.map (·.render c.dialect))).prepare c.dialect := by
  obtain ⟨m, st, b, hm, hst, rfl⟩ := mutation_compiles h
  have hupdate : Write.update c.settings (Context.atRoot m .update args) args ⟨1⟩ =
      .ok (st, b) := hst
  simp only [Write.update, Compile.bind_ok, Compile.lift_ok] at hupdate
  obtain ⟨data, _, ⟨_, rfl⟩, assigned, _, ⟨_, rfl⟩, hupdate⟩ := hupdate
  by_cases hempty : assigned.isEmpty = true
  · simp only [if_pos hempty, Compile.bind_ok, Compile.throw_ok, false_and, exists_false] at hupdate
  · simp only [if_neg hempty, Compile.bind_ok, Compile.pure_ok] at hupdate
    obtain ⟨p, _, hp, rfl, rfl⟩ := hupdate
    obtain ⟨ps, hps, rfl⟩ := optional_filters hp
    refine ⟨m, ps, assigned.map fun a => (a.1, Fragment.bound a.2), hm, hps, ?_⟩
    rw [Statement.render, render_filter_all]
    rfl

end Compiler

/-- Every entry of a filter that states a condition adds exactly that one to the
conjunction, in the order written. The filter has no predicate only if no entry
states a condition, and only then a deletion or an update has no `WHERE`. -/
theorem stated_conditions_are_kept (c : Compiler) (model : String) :
    (∀ entries p, c.filter model entries = .ok p → ∃ m ps, c.schema.model? model = some m ∧
      c.Filters (Context.atRoot m .findMany {}) (some entries) ps ∧
      p = Dialect.conjunction? (ps.map (·.render c.dialect)) ∧
      (p = none ↔ ∀ e ∈ entries, Filter.entryStates m e = false)) ∧
    (∀ args prepared, c.compile model .delete args = .ok prepared → ∃ m ps,
      c.schema.model? model = some m ∧ c.Filters (Context.atRoot m .delete args) args.filter ps ∧
      prepared = (Dialect.filtered (c.dialect.delete m.tableName ⟨0⟩)
        (ps.map (·.render c.dialect))).prepare c.dialect) ∧
    ∀ args prepared, c.compile model .update args = .ok prepared → ∃ m ps assigned,
      c.schema.model? model = some m ∧ c.Filters (Context.atRoot m .update args) args.filter ps ∧
      prepared = (Dialect.filtered (c.dialect.update m.tableName ⟨0⟩ assigned)
        (ps.map (·.render c.dialect))).prepare c.dialect := by
  refine ⟨?_, fun _ _ => Compiler.delete_filters, fun _ _ => Compiler.update_filters⟩
  intro entries p h
  obtain ⟨m, ps, hm, ⟨b, hps⟩, rfl⟩ := Compiler.filter_filters h
  refine ⟨m, ps, hm, ⟨b, hps⟩, rfl, ?_⟩
  have hlen : ps.length = (entries.filter (Filter.entryStates m)).length :=
    Filter.one_each_length hps
  have hnone : Dialect.conjunction? (ps.map (·.render c.dialect)) = none ↔ ps.length = 0 := by
    cases ps <;> simp [Dialect.conjunction?]
  rw [hnone, hlen, List.length_eq_zero_iff, List.filter_eq_nil_iff]
  simp only [Bool.not_eq_true]

namespace Sample

def partly : Json.Entries :=
  [("name", .obj [("mode", .str "default")]), ("age", .null), ("AND", .obj [])]

end Sample

theorem sample_stated_conditions_are_kept : ∃ p prepared,
    (Sample.compiler .mysql).filter "User" Sample.partly = .ok p ∧
      (Sample.compiler .mysql).compile "User" .delete { filter := some Sample.partly } =
        .ok prepared ∧
      (∃ (m : Model) (ps : List Pred), Sample.schema.model? "User" = some m ∧
        p = Dialect.conjunction? (ps.map (Pred.render Dialect.mysql)) ∧
        (p = none ↔ ∀ e ∈ Sample.partly, Filter.entryStates m e = false)) ∧
      ∃ (m : Model) (ps : List Pred), Sample.schema.model? "User" = some m ∧
        prepared = (Dialect.filtered (Dialect.mysql.delete m.tableName ⟨0⟩)
          (ps.map (Pred.render Dialect.mysql))).prepare Dialect.mysql := by
  have hkept := stated_conditions_are_kept (Sample.compiler .mysql) "User"
  obtain ⟨m, ps, hm, -, hp, hnone⟩ := hkept.1 Sample.partly _ rfl
  obtain ⟨m', ps', hm', -, hp'⟩ := hkept.2.1 { filter := some Sample.partly } _ rfl
  exact ⟨_, _, rfl, rfl, ⟨m, ps, hm, hp, hnone⟩, m', ps', hm', hp'⟩

/-- A key whose object has no operators leaves no condition behind, and the
deletion that it was meant to restrict takes every row. -/
theorem operatorless_entry_is_lost :
    (Sample.compiler .sqlite).filter "User" [("name", .obj [])] = .ok none ∧
      (Sample.compiler .sqlite).compile "User" .delete { filter := some [("name", .obj [])] } =
        .ok ⟨"DELETE FROM \"users\" AS t0", []⟩ :=
  ⟨rfl, rfl⟩

end QuerySql
