import QuerySql.Proofs.Blank
import QuerySql.Proofs.Built
import QuerySql.Proofs.Compact
import QuerySql.Proofs.Literals
import QuerySql.Proofs.Shifting
import QuerySql.Proofs.Success.Statement
import QuerySql.Proofs.Values

/-!
# Written documents

What is bound for a JSON field under `set`: a scalar as itself, an array or an
object as its text. The bound value tells the scalars apart, and it tells the
documents apart since their text does. But a document and the string with its
text are bound as the same value.
-/

set_option autoImplicit false

namespace QuerySql

namespace Json

def Fits (v : Json) : Prop := ∀ i, v = .num (.int i) → -Int.pow 2 63 ≤ i ∧ i < Int.pow 2 63

/-- The second value is the string with the text of the first one, a document. -/
def SpelledBy (v w : Json) : Prop := (v.kind = .array ∨ v.kind = .object) ∧ w = .str v.text

end Json

namespace Write

open Json

theorem literal_of_set (v : Json) :
    literal (.obj [(setKey, v)]) = (Value.ofJson? v).getD (.text v.text) := rfl

theorem scalar_restored {v : Json} {x : Value} (hv : v.Fits) (h : Value.ofJson? v = some x) :
    x.toJson = v := by
  match v with
  | .null | .bool _ | .num (.double _) | .str _ =>
    cases h
    rfl
  | .num (.int i) =>
    have hrange : (-Int.pow 2 63 ≤ i && i < Int.pow 2 63) = true := by
      simpa using hv i rfl
    cases h
    rw [Value.ofInt, if_pos hrange]
    rfl
  | .arr _ | .obj _ => cases h

theorem no_scalar_iff {v : Json} :
    Value.ofJson? v = none ↔ v.kind = .array ∨ v.kind = .object := by
  match v with
  | .null | .bool _ | .num (.int _) | .num (.double _) | .str _ => simp [Value.ofJson?, kind]
  | .arr _ | .obj _ => simp [Value.ofJson?, kind]

theorem scalar_of_text {v w : Json} {y : Value} (hv : Value.ofJson? v = none) (hw : w.Fits)
    (h : Value.ofJson? w = some y) : Value.text v.text = y ↔ v.SpelledBy w := by
  constructor
  · rintro rfl
    exact ⟨no_scalar_iff.mp hv, (scalar_restored hw h).symm⟩
  · rintro ⟨-, rfl⟩
    exact Option.some.inj h

theorem not_spelled_of_scalar {v : Json} {x : Value} (h : Value.ofJson? v = some x) (w : Json) :
    ¬v.SpelledBy w := by
  rintro ⟨hkind, -⟩
  rw [no_scalar_iff.mpr hkind] at h
  cases h

theorem not_spelled_by_document {w : Json} (h : Value.ofJson? w = none) (v : Json) :
    ¬v.SpelledBy w := by
  rintro ⟨-, rfl⟩
  cases h

theorem literal_eq_iff {v w : Json} (hv : v.Fits) (hw : w.Fits) :
    literal (.obj [(setKey, v)]) = literal (.obj [(setKey, w)]) ↔
      v = w ∨ v.SpelledBy w ∨ w.SpelledBy v := by
  have hmixed : ∀ {v w : Json} {x : Value}, Value.ofJson? v = some x → Value.ofJson? w = none →
      v ≠ w := by
    rintro v w x hx hy rfl
    cases hx.symm.trans hy
  rw [literal_of_set, literal_of_set]
  cases hx : Value.ofJson? v with
  | some x =>
    rw [or_iff_right (not_spelled_of_scalar hx w), Option.getD_some]
    cases hy : Value.ofJson? w with
    | some y =>
      rw [or_iff_left (not_spelled_of_scalar hy v), Option.getD_some]
      constructor
      · intro h
        rw [← scalar_restored hv hx, h, scalar_restored hw hy]
      · rintro rfl
        exact Option.some.inj (hx.symm.trans hy)
    | none =>
      rw [or_iff_right (hmixed hx hy), Option.getD_none, eq_comm]
      exact scalar_of_text hy hv hx
  | none =>
    rw [or_iff_left (not_spelled_by_document hx w), Option.getD_none]
    cases hy : Value.ofJson? w with
    | some y =>
      rw [or_iff_right (hmixed hy hx).symm, Option.getD_some]
      exact scalar_of_text hx hw hy
    | none =>
      -- neither document is a string, and their text tells them apart
      rw [or_iff_left (not_spelled_by_document hy v), Option.getD_none, Value.text.injEq]
      exact text_injective.eq_iff

def setting (filter : Option Json.Entries) (name : String) (v : Json) : Args where
  filter := filter
  data := some [(name, .obj [(setKey, v)])]

theorem assignments_set {m : Model} {f : Field} {name : String} (hf : m.field? name = some f)
    (hr : m.relation? name = none) (htype : f.type = .json) (hnull : f.nullable = true)
    (v : Json) : assignments m [(name, .obj [(setKey, v)])] =
      .ok [(f.name, literal (.obj [(setKey, v)]))] := by
  have hvalue : value m f v = .ok (literal (.obj [(setKey, v)])) := by
    rw [literal_of_set, value]
    cases Value.ofJson? v with
    | some x => simp [hnull]
    | none => simp [htype]
  have hpayload : payload m f (.obj [(setKey, v)]) = .ok v := by
    rw [payload, if_pos rfl]
  simp only [assignments, hr, hf, Option.isSome_none, Bool.false_eq_true, if_false, hpayload]
  exact except_bind_ok.mpr ⟨v, rfl, except_bind_ok.mpr ⟨_, hvalue, rfl⟩⟩

end Write

theorem Statement.prepared_of_first (d : Dialect) (st : Value → Statement) (rest : List Value)
    (hblank : ∀ x, (st x).blank = (st .null).blank) (hvalues : ∀ x, (st x).values = x :: rest) :
    ∃ sql, ∀ x, ((st x).render d).prepare d = ⟨sql, x :: rest⟩ := by
  refine ⟨(((st .null).render d).prepare d).sql, fun x => ?_⟩
  rw [← (Statement.prepare_of_blank d (hblank x)).1, ← hvalues x, ← Statement.bindings_render d]
  rfl

namespace Write

open Json

section Setting

variable {c : Compiler} {model name : String} {m : Model} {f : Field}

theorem create_set (hm : c.schema.model? model = some m) (hf : m.field? name = some f)
    (hr : m.relation? name = none) (htype : f.type = .json) (hnull : f.nullable = true) :
    ∃ sql, ∀ v, c.compile model .create (setting none name v) =
      .ok ⟨sql, [literal (.obj [(setKey, v)])]⟩ := by
  obtain ⟨sql, hsql⟩ := Statement.prepared_of_first c.dialect
    (fun x => .insert m.tableName [(f.name, x)]) [] (fun _ => rfl) (fun _ => rfl)
  refine ⟨sql, fun v => ?_⟩
  rw [← hsql]
  refine Compiler.compile_at hm rfl (b := ⟨1⟩) ?_
  change create (Context.atRoot m .create (setting none name v)) ⟨1⟩ = _
  simp only [create, Compile.bind_ok, Compile.lift_ok, Compile.pure_ok]
  exact ⟨_, _, ⟨rfl, rfl⟩, _, _, ⟨assignments_set hf hr htype hnull v, rfl⟩, rfl, rfl⟩

theorem update_set (hm : c.schema.model? model = some m) (hf : m.field? name = some f)
    (hr : m.relation? name = none) (htype : f.type = .json) (hnull : f.nullable = true)
    (filter : Option Json.Entries) :
    (∃ sql rest, ∀ v, c.compile model .update (setting filter name v) =
        .ok ⟨sql, literal (.obj [(setKey, v)]) :: rest⟩) ∨
      ∃ entries e, filter = some entries ∧ c.filter model entries = .error e ∧
        ∀ v, c.compile model .update (setting filter name v) = .error e := by
  have hcheck : ∀ v, (setting filter name v).check m.name .update = .ok () := by
    intro v
    cases filter <;> rfl
  -- the filter does not see what is written
  have hfilter : ∀ v, Filter.compile? c.settings
      (Context.atRoot m .update (setting filter name v)) filter =
        Filter.compile? c.settings (Context.atRoot m .findMany {}) filter := by
    intro v
    have hplace : (Context.atRoot m .findMany {}).Shifted 0 0
        (Context.atRoot m .update (setting filter name v)) := ⟨rfl, rfl, rfl⟩
    cases filter with
    | none => rfl
    | some entries => exact Filter.compile_at_same ⟨rfl, rfl⟩ hplace entries
  have hrun : ∀ v, Compiler.compileAt c.settings (setting filter name v)
      (Context.atRoot m .update (setting filter name v)) ⟨1⟩ =
        (Filter.compile? c.settings (Context.atRoot m .findMany {}) filter >>= fun p =>
          return .update m.tableName ⟨0⟩ [(f.name, literal (.obj [(setKey, v)]))] p :
            Compile Statement) ⟨1⟩ := by
    intro v
    have hdata : (liftM (data (Context.atRoot m .update (setting filter name v))) :
        Compile Json.Entries) ⟨1⟩ = .ok ([(name, .obj [(setKey, v)])], ⟨1⟩) := rfl
    have hassigned : (liftM (assignments m [(name, .obj [(setKey, v)])]) :
        Compile (List (String × Value))) ⟨1⟩ =
          .ok ([(f.name, literal (.obj [(setKey, v)]))], ⟨1⟩) :=
      Compile.lift_ok.mpr ⟨assignments_set hf hr htype hnull v, rfl⟩
    rw [← hfilter v]
    change update c.settings (Context.atRoot m .update (setting filter name v))
      (setting filter name v) ⟨1⟩ = _
    rw [update, Compile.bind_step hdata]
    exact Compile.bind_step hassigned
  cases hp : Filter.compile? c.settings (Context.atRoot m .findMany {}) filter ⟨1⟩ with
  | ok r =>
    obtain ⟨p, b⟩ := r
    obtain ⟨sql, hsql⟩ := Statement.prepared_of_first c.dialect
      (fun x => .update m.tableName ⟨0⟩ [(f.name, x)] p) (Pred.values? p) (fun _ => rfl)
      (fun _ => rfl)
    refine .inl ⟨sql, Pred.values? p, fun v => ?_⟩
    rw [← hsql]
    refine Compiler.compile_at hm (hcheck v) (b := b) ?_
    rw [hrun v, Compile.bind_step hp]
    rfl
  | error e =>
    cases filter with
    | none => cases hp
    | some entries =>
      refine .inr ⟨entries, e, rfl, Compiler.filter_failed hm hp, fun v => ?_⟩
      exact Compiler.compile_failed hm (hcheck v) ((hrun v).trans (Compile.bind_failed hp))

end Setting

/-- Two writes have one text, and bind the same only if they write the same, or one of them
a document and the other the string of its text. -/
structure ToldApart (v w : Json) (p q : Prepared) : Prop where
  text : p.sql = q.sql
  params : p.params = q.params ↔ v = w ∨ v.SpelledBy w ∨ w.SpelledBy v

theorem told_apart {v w : Json} (hv : v.Fits) (hw : w.Fits) (sql : String) (rest : List Value) :
    ToldApart v w ⟨sql, literal (.obj [(setKey, v)]) :: rest⟩
      ⟨sql, literal (.obj [(setKey, w)]) :: rest⟩ where
  text := rfl
  params := by rw [← literal_eq_iff hv hw, List.cons.injEq, and_iff_left rfl]

end Write

/-- The writes of two JSON values to a nullable field, under `set`, differ in what they bind
alone: a creation is never refused, and an update for its filter only. They bind different
values for different ones, be it scalars or documents, but for a document and the string of
its text. -/
theorem json_writes_told_apart (c : Compiler) (b : Schema.Builder) (model name : String)
    (m : Model) (f : Field) (v w : Json) (hbuilt : b.build.1 = .ok c.schema)
    (hm : c.schema.model? model = some m) (hf : m.field? name = some f) (htype : f.type = .json)
    (hnull : f.nullable = true) (hv : v.Fits) (hw : w.Fits) :
    (∃ p q, c.compile model .create (Write.setting none name v) = .ok p ∧
      c.compile model .create (Write.setting none name w) = .ok q ∧ Write.ToldApart v w p q) ∧
    ∀ filter,
      (∃ p q, c.compile model .update (Write.setting filter name v) = .ok p ∧
        c.compile model .update (Write.setting filter name w) = .ok q ∧
        Write.ToldApart v w p q) ∨
      ∃ entries e, filter = some entries ∧ c.filter model entries = .error e ∧
        c.compile model .update (Write.setting filter name v) = .error e ∧
        c.compile model .update (Write.setting filter name w) = .error e := by
  have hr : m.relation? name = none := by
    rw [Option.eq_none_iff_forall_ne_some]
    intro r hr
    have hnamed : name ∈ m.relationNames :=
      List.mem_map.mpr ⟨r, Model.relation_mem hr, by simpa using List.find?_some hr⟩
    have hchecked := (Schema.build_ok hbuilt).2 m (Schema.model_mem hm)
    rw [hchecked.apart name hnamed] at hf
    cases hf
  constructor
  · obtain ⟨sql, hcreate⟩ := Write.create_set hm hf hr htype hnull
    exact ⟨_, _, hcreate v, hcreate w, Write.told_apart hv hw sql []⟩
  · intro filter
    rcases Write.update_set hm hf hr htype hnull filter with
      ⟨sql, rest, hupdate⟩ | ⟨entries, e, hfilter, hrefused, hupdate⟩
    · exact .inl ⟨_, _, hupdate v, hupdate w, Write.told_apart hv hw sql rest⟩
    · exact .inr ⟨entries, e, hfilter, hrefused, hupdate v, hupdate w⟩

namespace Sample

def product : Model where
  name := "Product"
  table := some "products"
  fields := [Field.asId ⟨"id", .bigInt, false, false, false⟩,
    { name := "attributes", type := .json, nullable := true }]

def catalog : Schema := ⟨[product]⟩

def catalogCompiler : Compiler := .ofConfig catalog { engine := .postgresql }

end Sample

theorem sample_json_writes_told_apart :
    (Schema.Builder.build ⟨none, Sample.catalog.models⟩).1 = .ok Sample.catalog ∧
    (∃ p q, Sample.catalogCompiler.compile "Product" .create
        (Write.setting none "attributes" (.obj [("color", .str "blue")])) = .ok p ∧
      Sample.catalogCompiler.compile "Product" .create
        (Write.setting none "attributes" (.arr [.str "color", .num (.int (-1))])) = .ok q ∧
      p.params ≠ q.params) ∧
    ∃ p q, Sample.catalogCompiler.compile "Product" .update
        (Write.setting (some [("id", .num (.int 1))]) "attributes"
          (.obj [("color", .str "blue")])) = .ok p ∧
      Sample.catalogCompiler.compile "Product" .update
        (Write.setting (some [("id", .num (.int 1))]) "attributes"
          (.arr [.str "color", .num (.int (-1))])) = .ok q ∧
      p.params ≠ q.params := by
  have hapart : ¬((Json.obj [("color", .str "blue")]) = .arr [.str "color", .num (.int (-1))] ∨
      (Json.obj [("color", .str "blue")]).SpelledBy (.arr [.str "color", .num (.int (-1))]) ∨
      (Json.arr [.str "color", .num (.int (-1))]).SpelledBy (.obj [("color", .str "blue")])) := by
    rintro (h | ⟨-, h⟩ | ⟨-, h⟩) <;> cases h
  obtain ⟨⟨p, q, hp, hq, hcreate⟩, hupdate⟩ := json_writes_told_apart Sample.catalogCompiler
    ⟨none, Sample.catalog.models⟩ "Product" "attributes" Sample.product _
    (.obj [("color", .str "blue")]) (.arr [.str "color", .num (.int (-1))]) rfl rfl rfl rfl rfl
    nofun nofun
  refine ⟨rfl, ⟨p, q, hp, hq, mt hcreate.params.mp hapart⟩, ?_⟩
  rcases hupdate (some [("id", .num (.int 1))]) with ⟨p, q, hp, hq, hset⟩ | ⟨_, e, -, -, hp, -⟩
  · exact ⟨p, q, hp, hq, mt hset.params.mp hapart⟩
  · have hcompiles : ∃ prepared, Sample.catalogCompiler.compile "Product" .update
        (Write.setting (some [("id", .num (.int 1))]) "attributes"
          (.obj [("color", .str "blue")])) = .ok prepared := ⟨_, by with_unfolding_all rfl⟩
    obtain ⟨prepared, hprepared⟩ := hcompiles
    cases hp.symm.trans hprepared

/-- An array and the string of its text are stored as one. -/
theorem string_written_as_document :
    (Schema.Builder.build ⟨none, Sample.catalog.models⟩).1 = .ok Sample.catalog ∧
    (∃ f, Sample.product.field? "attributes" = some f ∧ f.type = .json ∧ f.nullable = true) ∧
    Json.Fits (.str "[1]") ∧ Json.Fits (.arr [.num (.int 1)]) ∧
    Json.str "[1]" ≠ .arr [.num (.int 1)] ∧
    ∃ p, Sample.catalogCompiler.compile "Product" .create
        (Write.setting none "attributes" (.str "[1]")) = .ok p ∧
      Sample.catalogCompiler.compile "Product" .create
        (Write.setting none "attributes" (.arr [.num (.int 1)])) = .ok p :=
  ⟨rfl, ⟨_, rfl, rfl, rfl⟩, nofun, nofun, nofun, _, by with_unfolding_all rfl,
    by with_unfolding_all rfl⟩

end QuerySql
