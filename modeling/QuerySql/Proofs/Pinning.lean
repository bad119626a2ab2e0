import QuerySql.Proofs.Paging
import QuerySql.Proofs.Preservation

/-!
# Pinned reads

`findUnique` has to ask a unique field for a value. The check looks at the entries of the
filter on its own, and the filter is compiled from the same entries later. An entry that
passes the check compiles to a plain comparison of the field with the value, and its
condition stands in the conjunction with all others. So the statement has no rows but
those with that value, and of a field whose values differ from row to row that is one.
-/

set_option autoImplicit false

namespace QuerySql

namespace Condition

/-- The condition asks for a value other than null, plainly or as its only operator. -/
inductive Plain : Json → Value → Prop
  | bare {json : Json} {v : Value} (hv : Binds json v) : Plain json v
  | equals {json : Json} {v : Value} (hv : Binds json v) : Plain (.obj [("equals", json)]) v

theorem Binds.not_null {json : Json} {v : Value} (h : Binds json v) : v ≠ .null := by
  obtain ⟨hne, hv⟩ := h
  rintro rfl
  cases json with
  | null => exact hne rfl
  | num n =>
    cases n with
    | int i =>
      rw [Value.ofJson?, Value.ofInt] at hv
      split at hv <;> cases hv
    | double d => cases hv
  | bool b => cases hv
  | str s => cases hv
  | arr items => cases hv
  | obj entries => cases hv

theorem Plain.not_null {json : Json} {v : Value} : Plain json v → v ≠ .null
  | .bare hv | .equals hv => hv.not_null

section

variable {m : Model} {f : Field} {lhs : Scalar} {mode : Mode} {json : Json} {v : Value}

theorem runs_equals {ps : List Pred} (hv : Binds json v)
    (h : Runs m f lhs mode [("equals", json)] ps) :
    ps = [.compare (mode.fold lhs) .eq (mode.fold (.bound v))] := by
  generalize hentries : [("equals", json)] = entries at h
  cases h with
  | nil => cases hentries
  | mode _ => exact absurd (List.cons.inj hentries).1 fun h => nomatch (Prod.mk.inj h).1
  | negation _ _ _ => exact absurd (List.cons.inj hentries).1 fun h => nomatch (Prod.mk.inj h).1
  | operator _ hk here later =>
    cases hentries
    cases hk
    cases later
    cases here with
    | isNull => exact absurd rfl hv.1
    | compare hc hw =>
      cases hc
      cases hv.2.symm.trans hw.2
      rfl

/-- The mode of a single `equals` is the sensitive one, so nothing is folded. -/
theorem compiles_plain {p : Option Pred} (hplain : Plain json v)
    (h : Compiles m f lhs json p) : p = some (.compare lhs .eq (.bound v)) := by
  cases hplain with
  | bare hv =>
    cases h with
    | null => exact absurd rfl hv.1
    | scalar hw =>
      cases hv.2.symm.trans hw.2
      rfl
    | operators _ _ => cases hv.2
  | equals hv =>
    cases h with
    | scalar hw => cases hw.2
    | operators hm here =>
      cases mode_within hm
      cases runs_equals hv here
      rfl

end

end Condition

namespace Read

structure Pins (m : Model) (e : String × Json) (f : Field) (v : Value) : Prop where
  field : m.field? e.1 = some f
  unique : f.isUnique = true
  plain : Condition.Plain e.2 v

/-- What the check takes for the value that a condition asks for. -/
def asked : Json → Option Json
  | .obj [(op, operand)] => if op = "equals" then some operand else none
  | .obj _ => none
  | json => some json

def isScalar : Option Json → Bool
  | none | some .null | some (.arr _) | some (.obj _) => false
  | some _ => true

theorem pins_asked (m : Model) (key : String) (value : Json) :
    pins m key value = ((m.field? key).any Field.isUnique && isScalar (asked value)) := rfl

theorem is_scalar_iff (json : Json) :
    isScalar (some json) = true ↔ ∃ v, Condition.Binds json v := by
  cases json with
  | null => exact ⟨nofun, fun ⟨_, hv⟩ => absurd rfl hv.1⟩
  | arr items => exact ⟨nofun, fun ⟨_, hv⟩ => nomatch hv.2⟩
  | obj entries => exact ⟨nofun, fun ⟨_, hv⟩ => nomatch hv.2⟩
  | num n => cases n <;> exact ⟨fun _ => ⟨_, nofun, rfl⟩, fun _ => rfl⟩
  | bool b => exact ⟨fun _ => ⟨_, nofun, rfl⟩, fun _ => rfl⟩
  | str s => exact ⟨fun _ => ⟨_, nofun, rfl⟩, fun _ => rfl⟩

theorem plain_object {entries : Json.Entries} {v : Value}
    (h : Condition.Plain (.obj entries) v) :
    ∃ json, entries = [("equals", json)] ∧ Condition.Binds json v := by
  rcases h with hv | hv
  · cases hv.2
  · exact ⟨_, rfl, hv⟩

theorem asked_iff (json : Json) :
    isScalar (asked json) = true ↔ ∃ v, Condition.Plain json v := by
  have hbare (hne : ∀ entries, json ≠ .obj entries) :
      (∃ v, Condition.Plain json v) ↔ ∃ v, Condition.Binds json v := by
    constructor
    · rintro ⟨v, hv | hv⟩
      · exact ⟨v, hv⟩
      · exact absurd rfl (hne _)
    · exact fun ⟨v, hv⟩ => ⟨v, .bare hv⟩
  match json with
  | .null | .bool _ | .num _ | .str _ | .arr _ => exact (is_scalar_iff _).trans (hbare nofun).symm
  | .obj [] => exact ⟨nofun, fun ⟨_, hv⟩ => nomatch plain_object hv⟩
  | .obj (_ :: _ :: _) => exact ⟨nofun, fun ⟨_, hv⟩ => nomatch plain_object hv⟩
  | .obj [(op, operand)] =>
    by_cases hop : op = "equals"
    · subst hop
      refine (is_scalar_iff operand).trans ⟨fun ⟨v, hv⟩ => ⟨v, .equals hv⟩, ?_⟩
      rintro ⟨v, hv⟩
      obtain ⟨_, heq, hv⟩ := plain_object hv
      cases heq
      exact ⟨v, hv⟩
    · rw [asked, if_neg hop]
      refine ⟨nofun, fun ⟨_, hv⟩ => ?_⟩
      obtain ⟨_, heq, -⟩ := plain_object hv
      cases heq
      exact absurd rfl hop

theorem pins_iff {m : Model} {e : String × Json} :
    pins m e.1 e.2 = true ↔ ∃ f v, Pins m e f v := by
  rw [pins_asked, Bool.and_eq_true, Option.any_eq_true, asked_iff]
  constructor
  · rintro ⟨⟨f, hf, hunique⟩, v, hv⟩
    exact ⟨f, v, hf, hunique, hv⟩
  · rintro ⟨f, v, hf, hunique, hv⟩
    exact ⟨⟨f, hf, hunique⟩, v, hv⟩

theorem check_unique_iff {m : Model} {args : Args} :
    checkUnique m args = .ok () ↔ ∃ e ∈ args.filter.getD [], ∃ f v, Pins m e f v := by
  simp only [← pins_iff, checkUnique]
  split
  · rename_i h
    simpa using h
  · rename_i h
    simpa using h

end Read

namespace Filter

variable {s : Settings} {cx : Context} {f : Field} {v : Value}

/-- No field is named as a connective, so the entry is a condition on its field. -/
theorem conditions_pinned {entries : Json.Entries} {e : String × Json}
    {ps : List Pred} {a b : Aliases} (hkey : Connective.ofKey? e.1 = none)
    (hpins : Read.Pins cx.model e f v) (he : e ∈ entries)
    (h : Runs s (.conditions cx entries ps) a b) :
    .compare (.column (Compile.column cx f)) .eq (.bound v) ∈ ps := by
  induction entries generalizing ps a with
  | nil => cases he
  | cons entry rest ih =>
    cases h with
    | connectiveEntry hk here later =>
      rcases List.mem_cons.mp he with rfl | he
      · cases hk.symm.trans hkey
      · exact .tail _ (ih he later)
    | fieldEntry hk hf here later =>
      rcases List.mem_cons.mp he with rfl | he
      · cases hf.symm.trans hpins.field
        cases Condition.compiles_plain hpins.plain here
        exact .head _
      · exact List.mem_append_right _ (ih he later)
    | relationEntry hk hf hr here later =>
      rcases List.mem_cons.mp he with rfl | he
      · cases hf.symm.trans hpins.field
      · exact .tail _ (ih he later)

end Filter

namespace Read

theorem filtered_pinned {s : Settings} {cx : Context} {args : Args} {kept : Option Pred}
    {e : String × Json} {f : Field} {v : Value} {a b : Aliases}
    (hkey : Connective.ofKey? e.1 = none) (hpins : Pins cx.model e f v)
    (he : e ∈ args.filter.getD []) (h : Filtered s cx args kept a b) :
    ∃ p, kept = some p ∧ ∀ {α : Type} (db : Database α) (σ : Scope α), p.eval db σ = .yes →
      db.compareCells .eq (σ.cell (Compile.column cx f)) (db.bound v) = .yes := by
  obtain ⟨conditions, past⟩ := h
  rename_i ps qs
  have hmem := Filter.conditions_pinned hkey hpins he conditions
  obtain ⟨p, hp⟩ : ∃ p, Pred.all? ((Pred.all? ps).toList ++ qs) = some p := by
    obtain ⟨first, rest, rfl⟩ := List.exists_cons_of_ne_nil (List.ne_nil_of_mem hmem)
    exact ⟨_, rfl⟩
  refine ⟨p, hp, fun db σ heval => ?_⟩
  have hall : Pred.evalOption db σ (Pred.all? ((Pred.all? ps).toList ++ qs)) = .yes := by
    rw [hp]
    exact heval
  rw [Pred.eval_option_all?, List.map_append, Truth.all_append, Pred.all_to_list,
    Pred.eval_option_all?, Truth.and_eq_yes, Truth.all_eq_yes] at hall
  exact hall.1 _ (List.mem_map_of_mem hmem)

variable {s : Settings} {cx : Context} {args : Args}

theorem check_unique_unpinned {m : Model} (h : ∀ e ∈ args.filter.getD [], ∀ f v, ¬ Pins m e f v) :
    checkUnique m args =
      .error (m.fault (.notUnique ((m.fields.filter Field.isUnique).map (·.name)))) := by
  refine if_neg fun hany => ?_
  obtain ⟨e, he, hpins⟩ := List.any_eq_true.mp hany
  obtain ⟨f, v, hpins⟩ := pins_iff.mp hpins
  exact h e he f v hpins

theorem find_unpinned {e : Error} (hop : cx.operation = .findUnique)
    (h : checkUnique cx.model args = .error e) (a : Aliases) : find s cx args a = .error e := by
  rw [find_rows, if_pos hop, h]
  rfl

theorem find_unique_ok {st : Statement} {a b : Aliases} (hop : cx.operation = .findUnique)
    (h : find s cx args a = .ok (st, b)) :
    ∃ e ∈ args.filter.getD [], ∃ f v, Pins cx.model e f v := by
  rw [← check_unique_iff]
  cases hcheck : checkUnique cx.model args with
  | ok => rfl
  | error e => cases (find_unpinned hop hcheck a).symm.trans h

end Read

namespace Database

variable {α : Type} (db : Database α)

/-- No two rows of the table have equal values in the column. -/
def Unique (table column : String) : Prop :=
  (db.rows table).Pairwise fun row other =>
    db.compareCells .eq (row column) (other column) ≠ .yes

/-- Values that are equal to one value are equal to each other. -/
def EqualsAgree : Prop :=
  ∀ x y z, db.compare .eq x z = .yes → db.compare .eq y z = .yes → db.compare .eq x y = .yes

variable {db}

theorem EqualsAgree.cells (h : db.EqualsAgree) {x y z : Cell α}
    (hx : db.compareCells .eq x z = .yes) (hy : db.compareCells .eq y z = .yes) :
    db.compareCells .eq x y = .yes := by
  obtain ⟨hx', hz⟩ := cells_of_compare db hx
  obtain ⟨hy', -⟩ := cells_of_compare db hy
  obtain ⟨x, rfl⟩ := Option.isSome_iff_exists.mp hx'
  obtain ⟨y, rfl⟩ := Option.isSome_iff_exists.mp hy'
  obtain ⟨z, rfl⟩ := Option.isSome_iff_exists.mp hz
  exact h x y z hx hy

theorem Unique.one_row {table column : String} (hunique : db.Unique table column)
    (hagree : db.EqualsAgree) {x : Cell α} {keeps : Row α → Bool}
    (h : ∀ row, keeps row = true → db.compareCells .eq (row column) x = .yes) :
    ((db.rows table).filter keeps).length ≤ 1 := by
  have hapart := hunique.filter keeps
  match hrows : (db.rows table).filter keeps with
  | [] => exact Nat.zero_le 1
  | [_] => exact Nat.le_refl 1
  | row :: other :: _ =>
    have hkept : ∀ r ∈ row :: other :: _, keeps r = true := fun r hr =>
      (List.mem_filter.mp (hrows ▸ hr)).2
    rw [hrows, List.pairwise_cons] at hapart
    exact absurd (hagree.cells (h _ (hkept _ (.head _))) (h _ (hkept _ (.tail _ (.head _)))))
      (hapart.1 other (.head _))

end Database

theorem Args.check_validation {args : Args} {model : String} {op : Operation} {error : Error}
    (h : args.check model op = .error error) : error.isValidation = true := by
  rw [Args.check] at h
  split at h
  · cases h
    rfl
  · cases h

theorem Compiler.unpinned_refused {c : Compiler} {model : String} {m : Model} {args : Args}
    (hm : c.schema.model? model = some m)
    (hnone : ∀ e ∈ args.filter.getD [], ∀ f v, ¬ Read.Pins m e f v) :
    ∃ error, c.statement model .findUnique args = .error error ∧ error.isValidation = true := by
  have hstatement : c.statement model .findUnique args = (do
      args.check m.name .findUnique
      c.run model .findUnique args (compileAt c.settings args)) := by
    rw [statement, Schema.expect_model_ok.mpr hm]
    rfl
  rw [hstatement]
  cases hargs : args.check m.name .findUnique with
  | error error => exact ⟨error, rfl, Args.check_validation hargs⟩
  | ok _ =>
    refine ⟨m.fault (.notUnique ((m.fields.filter Field.isUnique).map (·.name))), ?_, rfl⟩
    change c.run model .findUnique args (compileAt c.settings args) = _
    rw [run_at hm]
    have hcheck := Read.check_unique_unpinned hnone
    exact Read.find_unpinned (rfl : (Context.atRoot m .findUnique args).operation = _) hcheck ⟨1⟩

/-- A `findUnique` that compiles has an entry that asks a unique field for a value other
than null. The statement keeps no row but those with that value in the field, its case
regarded, and so at most one if the field is unique in the table. Without such an entry
it is refused as a fault of the query. -/
theorem unique_reads_are_pinned (c : Compiler) (model : String) (m : Model) (args : Args)
    (hm : c.schema.model? model = some m)
    (hnames : ∀ f ∈ m.fields, Connective.ofKey? f.name = none) :
    (∀ prepared, c.compile model .findUnique args = .ok prepared →
      ∃ columns distinct body as p, ∃ e ∈ args.filter.getD [], ∃ f v,
        c.statement model .findUnique args = .ok (.select columns distinct body, as) ∧
        prepared = ((Statement.select columns distinct body).render c.dialect).prepare c.dialect ∧
        body.table = m.tableName ∧ body.filter = some p ∧
        Read.Pins m e f v ∧ f ∈ m.fields ∧ v ≠ .null ∧
        ∀ {α : Type} (db : Database α) (σ : Scope α),
          (∀ row, p.eval db (σ.bind body.tag row) = .yes →
            db.compareCells .eq (row f.name) (db.bound v) = .yes) ∧
          (db.Unique m.tableName f.name → db.EqualsAgree →
            ((db.rows m.tableName).filter fun row =>
              p.eval db (σ.bind body.tag row) = .yes).length ≤ 1)) ∧
    ((∀ e ∈ args.filter.getD [], ∀ f v, ¬ Read.Pins m e f v) →
      ∃ error, c.compile model .findUnique args = .error error ∧ error.isValidation = true) := by
  refine ⟨fun prepared h => ?_, fun hnone => ?_⟩
  · obtain ⟨st, as, hst, rfl⟩ := Compiler.compile_ok h
    obtain ⟨m', hm', -, hfind⟩ := Compiler.statement_iff.mp hst
    cases hm.symm.trans hm'
    obtain ⟨e, he, f, v, hpins⟩ := Read.find_unique_ok
      (rfl : (Context.atRoot m .findUnique args).operation = _) hfind
    obtain ⟨hmem, hname⟩ := Model.field_mem hpins.field
    have hkey : Connective.ofKey? e.1 = none := hname ▸ hnames f hmem
    have hruns := Compiler.compile_at_ok hfind
    cases hruns with
    | find _ _ _ filter _ =>
      obtain ⟨p, rfl, hp⟩ := Read.filtered_pinned hkey hpins he filter
      have hrow : ∀ {α : Type} (db : Database α) (σ : Scope α) (row : Row α),
          p.eval db (σ.bind (Context.atRoot m .findUnique args).tag row) = .yes →
            db.compareCells .eq (row f.name) (db.bound v) = .yes := by
        intro α db σ row heval
        have hcell := hp db _ heval
        rwa [Scope.cell, Compile.column, Scope.bind_row_self] at hcell
      refine ⟨_, _, _, as, p, e, he, f, v, hst, rfl, rfl, rfl, hpins, hmem,
        hpins.plain.not_null, fun db σ => ⟨hrow db σ, fun hunique hagree => ?_⟩⟩
      exact hunique.one_row hagree fun row hkept => hrow db σ row (of_decide_eq_true hkept)
    | aggregate hop => cases hop <;> contradiction
    | overPage hop => cases hop <;> contradiction
  · obtain ⟨error, hstatement, hvalidation⟩ := Compiler.unpinned_refused hm hnone
    refine ⟨error, ?_, hvalidation⟩
    rw [Compiler.compile, hstatement]
    rfl

namespace Sample

def pinnedUser : Args where
  filter := some [("id", .obj [("equals", .num (.int 7))])]
  cursor := some [("id", .num (.int 3))]

def namedUser : Args where
  filter := some [("name", .str "x")]

def people : Database Int :=
  { integers with rows := fun _ => [fun _ => some 7, fun _ => some 8] }

theorem people_unique : people.Unique "users" "id" := by
  simp [Database.Unique, people, integers, Database.compareCells, Comparison.holds, Truth.ofBool]

theorem people_agree : people.EqualsAgree := by
  intro x y z hx hy
  simp_all [people, integers, Comparison.holds]

theorem user_names : ∀ f ∈ user.fields, Connective.ofKey? f.name = none := by
  decide

end Sample

theorem sample_unique_reads_are_pinned : ∃ prepared,
    (Sample.compiler .postgresql).compile "User" .findUnique Sample.pinnedUser = .ok prepared ∧
    (∃ (body : Body) (p : Pred) (v : Value), body.filter = some p ∧
      ∀ σ : Scope Int,
        (∀ row, p.eval Sample.people (σ.bind body.tag row) = .yes →
          Sample.people.compareCells .eq (row "id") (Sample.people.bound v) = .yes) ∧
        ((Sample.people.rows "users").filter fun row =>
          p.eval Sample.people (σ.bind body.tag row) = .yes).length ≤ 1) ∧
    ∃ error, (Sample.compiler .postgresql).compile "User" .findUnique Sample.namedUser =
      .error error ∧ error.isValidation = true := by
  have hcompiles : ∃ prepared, (Sample.compiler .postgresql).compile "User" .findUnique
      Sample.pinnedUser = .ok prepared := ⟨_, by with_unfolding_all rfl⟩
  obtain ⟨prepared, hc⟩ := hcompiles
  obtain ⟨_, _, body, _, p, e, he, f, v, -, -, -, hfilter, hpins, -, -, hrows⟩ :=
    (unique_reads_are_pinned (Sample.compiler .postgresql) "User" Sample.user Sample.pinnedUser rfl
      Sample.user_names).1 prepared hc
  obtain rfl : f = Field.asId ⟨"id", .bigInt, false, false, false⟩ := by
    cases List.mem_singleton.mp he
    exact (Option.some.inj hpins.field).symm
  refine ⟨prepared, hc, ⟨body, p, v, hfilter, fun σ => ?_⟩, ?_⟩
  · have hkept := hrows Sample.people σ
    exact ⟨hkept.1, hkept.2 Sample.people_unique Sample.people_agree⟩
  · refine (unique_reads_are_pinned (Sample.compiler .postgresql) "User" Sample.user
      Sample.namedUser rfl Sample.user_names).2 fun e he f v hpins => ?_
    cases List.mem_singleton.mp he
    cases hpins.field
    exact absurd hpins.unique (by decide)

end QuerySql
