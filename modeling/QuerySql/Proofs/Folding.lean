import QuerySql.Proofs.Built
import QuerySql.Proofs.Columns
import QuerySql.Proofs.Keyed

/-!
# Folded relations

The columns that a query asks for, read off its arguments, and the columns of its
text are the same, level by level. A relation is folded from a derived table whose
columns are those of the relation: each object has one pair for each of them, in
their order and under their names. On no level do two columns share a name.
-/

set_option autoImplicit false

namespace QuerySql

inductive Shape where
  | field (name : String)
  | relation (name : String) (toMany : Bool) (columns : List Shape)

def Schema.relatedShapes (schema : Schema) (r : Relation) (columns : Model → List Shape) :
    List Shape :=
  match schema.model? r.target with
  | some target => [.relation r.name r.cardinality.isToMany (columns target)]
  | none => []

namespace Records

def fieldShapes (m : Model) : List Shape := m.fieldNames.map .field

mutual

def shapes (schema : Schema) (m : Model) : List (String × Json) → List Shape
  | [] => []
  | (key, value) :: rest =>
    (match m.field? key, m.relation? key with
      | some _, _ => fieldShape key value
      | none, some r => relationShapes schema r value
      | none, none => []) ++ shapes schema m rest
where
  fieldShape (key : String) : Json → List Shape
    | .bool true => [.field key]
    | _ => []

def relationShapes (schema : Schema) (r : Relation) : Json → List Shape
  | .bool true => schema.relatedShapes r fieldShapes
  | .obj args => schema.relatedShapes r fun target => nestedShapes schema target args
  | _ => []

def nestedShapes (schema : Schema) (target : Model) : List (String × Json) → List Shape
  | [] => fieldShapes target
  | (key, .obj entries) :: rest =>
    if key = "select" then shapes schema target entries
    else if key = "include" then fieldShapes target ++ shapes schema target entries
    else nestedShapes schema target rest
  | _ :: rest => nestedShapes schema target rest

end

end Records

def Args.shapes (schema : Schema) (m : Model) (args : Args) : List Shape :=
  match args.select with
  | some entries => Records.shapes schema m entries
  | none => Records.fieldShapes m ++ Records.shapes schema m (args.inclusion.getD [])

namespace ResultColumn

mutual

/-- The column is what the shape asks for. A relation is an array if it is to many
records and an object if it is to one. Its objects have one pair for each column of
the derived table, in the same order: the key is the name of the column, and the
value is the column of that name. It is read as a document again exactly if the column
is a relation itself, in the dialect that folds relations into text. -/
def Shows (e : Engine) : ResultColumn → Shape → Prop
  | .plain name, .field asked => name = asked
  | .folded name array tag pairs columns, .relation asked toMany shapes =>
    name = asked ∧ array = toMany ∧
      pairs = columns.map (fun c => ⟨c.name, ⟨tag, c.name⟩, c.isFolded && e = .sqlite⟩) ∧
        ShowsAll e columns shapes
  | _, _ => False

def ShowsAll (e : Engine) : List ResultColumn → List Shape → Prop
  | [], [] => True
  | c :: cs, s :: ss => c.Shows e s ∧ ShowsAll e cs ss
  | _, _ => False

end

mutual

/-- No two columns of the derived tables in the column share a name. -/
def Distinct : ResultColumn → Prop
  | .plain _ => True
  | .folded _ _ _ _ columns => (columns.map name).Nodup ∧ DistinctAll columns

def DistinctAll : List ResultColumn → Prop
  | [] => True
  | c :: cs => c.Distinct ∧ DistinctAll cs

end

end ResultColumn

namespace Projection

mutual

def shape : Projection → Shape
  | .column c => .field c.name
  | .aggregate _ _ name => .field name
  | .relation name toMany _ columns _ => .relation name toMany (shapeAll columns)

def shapeAll : List Projection → List Shape
  | [] => []
  | p :: ps => p.shape :: shapeAll ps

end

theorem shape_all_eq (ps : List Projection) : shapeAll ps = ps.map shape := by
  induction ps with
  | nil => rfl
  | cons p ps ih => rw [shapeAll, ih, List.map_cons]

variable (e : Engine)

@[simp] theorem result_name (p : Projection) : (p.result e).name = p.name := by
  cases p <;> rfl

@[simp] theorem result_folded (p : Projection) : (p.result e).isFolded = p.isRelation := by
  cases p <;> rfl

mutual

theorem result_shows (p : Projection) : (p.result e).Shows e p.shape := by
  match p with
  | .column _ | .aggregate _ _ _ => rfl
  | .relation name toMany fold columns body =>
    refine ⟨rfl, rfl, ?_, results_show columns⟩
    simp [results_eq, Reader.pairOf]

theorem results_show (ps : List Projection) :
    ResultColumn.ShowsAll e (results e ps) (shapeAll ps) := by
  match ps with
  | [] => trivial
  | p :: ps => exact ⟨result_shows p, results_show ps⟩

end

theorem distinct_all_iff {ps : List Projection} :
    ResultColumn.DistinctAll (results e ps) ↔ ∀ p ∈ ps, (p.result e).Distinct := by
  induction ps with
  | nil => simp [results, ResultColumn.DistinctAll]
  | cons p ps ih => rw [results, ResultColumn.DistinctAll, ih, List.forall_mem_cons]

def Apart (ps : List Projection) : Prop :=
  (ps.map name).Nodup ∧ ∀ p ∈ ps, (p.result e).Distinct

theorem results_distinct {ps : List Projection} (h : Apart e ps) :
    ((results e ps).map ResultColumn.name).Nodup ∧ ResultColumn.DistinctAll (results e ps) := by
  refine ⟨?_, (distinct_all_iff e).mpr h.2⟩
  simpa [results_eq, Function.comp_def] using h.1

end Projection

theorem Model.relation_named {m : Model} {name : String} {r : Relation}
    (h : m.relation? name = some r) : r.name = name := by
  simpa using List.find?_some h

namespace Records

variable {s : Settings} {o : Outcome} {a b : Aliases}

theorem field_columns_shapes (cx : Context) :
    (fieldColumns cx).map Projection.shape = fieldShapes cx.model := by
  simp [fieldColumns, fieldShapes, Model.fieldNames, Projection.shape, Compile.column]

def Outcome.Shaped (schema : Schema) : Outcome → Prop
  | .selected cx entries ps | .inclusions cx entries ps =>
    ps.map Projection.shape = shapes schema cx.model entries
  | .relation _ r value ps => ps.map Projection.shape = relationShapes schema r value
  | .nested cx entries ps => ps.map Projection.shape = nestedShapes schema cx.model entries

theorem closes_shape {cx child : Context} {r : Relation} {args : RelationArgs}
    {columns : List Projection} {p : Projection} (h : Closes s cx child r args columns p a b) :
    p.shape = .relation r.name r.cardinality.isToMany (columns.map Projection.shape) := by
  cases h with
  | mk _ _ _ => rw [Projection.shape, Projection.shape_all_eq]

theorem related_shapes {schema : Schema} {r : Relation} {target : Model}
    (ht : schema.model? r.target = some target) (columns : Model → List Shape) :
    schema.relatedShapes r columns =
      [.relation r.name r.cardinality.isToMany (columns target)] := by
  rw [Schema.relatedShapes, ht]

theorem runs_shaped (h : Runs s o a b) : o.Shaped s.schema := by
  induction h with
  | noSelected | noInclusion | omitted => rfl
  | @fieldEntry cx key flag _ f ps _ _ hf _ ih =>
    have hname : f.name = key := (Model.field_mem hf).2
    have hhere : (if flag then [Projection.column (Compile.column cx f)] else []).map
        Projection.shape = shapes.fieldShape key (.bool flag) := by
      cases flag with
      | false => rfl
      | true => simp [shapes.fieldShape, Projection.shape, Compile.column, hname]
    simp only [Outcome.Shaped] at ih ⊢
    rw [List.map_append, hhere, ih, shapes]
    simp only [hf]
  | relationEntry hf hr _ _ ih ihl | inclusionEntry hf hr _ _ ih ihl =>
    simp only [Outcome.Shaped] at ih ihl ⊢
    rw [List.map_append, ih, ihl, shapes]
    simp only [hf, hr]
  | flagged ht closing =>
    simp only [Outcome.Shaped, List.map_cons, List.map_nil]
    rw [relationShapes, related_shapes ht, closes_shape closing, field_columns_shapes]
    rfl
  | arguments ht _ _ closing ih =>
    simp only [Outcome.Shaped, List.map_cons, List.map_nil] at ih ⊢
    rw [relationShapes, related_shapes ht, closes_shape closing, ih]
    rfl
  | allFields => exact field_columns_shapes _
  | nestedSelection _ ih =>
    simp only [Outcome.Shaped] at ih ⊢
    rw [nestedShapes, if_pos rfl, ih]
  | nestedInclusion _ ih =>
    simp only [Outcome.Shaped] at ih ⊢
    rw [nestedShapes, if_neg (by decide), if_pos rfl, List.map_append, field_columns_shapes, ih]
  | @otherArgument _ key value _ _ _ _ hk _ ih =>
    simp only [Outcome.Shaped] at ih ⊢
    rw [ih]
    cases value with
    | obj entries =>
      obtain ⟨hselect, hinclude⟩ := hk entries rfl
      rw [nestedShapes, if_neg hselect, if_neg hinclude]
    | null | bool _ | num _ | str _ | arr _ => rfl

theorem columns_shaped {cx : Context} {args : Args} {ps : List Projection}
    (h : columns s cx args.select args.inclusion a = .ok (ps, b)) :
    Projection.shapeAll ps = args.shapes s.schema cx.model := by
  rw [Projection.shape_all_eq]
  rcases columns_ok h with ⟨entries, hselect, -, hruns⟩ | ⟨qs, hselect, rfl, hruns⟩
  · rw [Args.shapes, hselect]
    exact runs_shaped hruns
  · have hinclusion := runs_shaped hruns
    simp only [Outcome.Shaped] at hinclusion
    rw [Args.shapes, hselect, List.map_append, field_columns_shapes, hinclusion]

section

variable (e : Engine)

/-- A column of each part is named by a key of its own, and by none of a field of the
model where all fields are columns already. -/
def Outcome.Apart (schema : Schema) : Outcome → Prop
  | .selected _ entries ps => (Json.obj entries).keyed = true →
    (ps.map Projection.name).Sublist entries.keys ∧ ∀ p ∈ ps, (p.result e).Distinct
  | .inclusions cx entries ps => (Json.obj entries).keyed = true →
    (ps.map Projection.name).Sublist entries.keys ∧
      (∀ p ∈ ps, p.name ∉ cx.model.fieldNames) ∧ ∀ p ∈ ps, (p.result e).Distinct
  | .relation _ r value ps => value.keyed = true →
    (ps.map Projection.name).Sublist [r.name] ∧ ∀ p ∈ ps, (p.result e).Distinct
  | .nested cx entries ps => (Json.obj entries).keyed = true → cx.model ∈ schema.models →
    Projection.Apart e ps

theorem field_columns_names (cx : Context) :
    (fieldColumns cx).map Projection.name = cx.model.fieldNames := by
  simp [fieldColumns, Model.fieldNames, Projection.name, Compile.column]

theorem field_columns_distinct (cx : Context) :
    ∀ p ∈ fieldColumns cx, (p.result e).Distinct := by
  intro p hp
  obtain ⟨f, _, rfl⟩ := List.mem_map.mp hp
  trivial

theorem field_columns_apart {cx : Context} (h : cx.model.fieldNames.Nodup) :
    Projection.Apart e (fieldColumns cx) :=
  ⟨field_columns_names cx ▸ h, field_columns_distinct e cx⟩

theorem selection_apart {entries : Json.Entries} {ps : List Projection}
    (hkeyed : (Json.obj entries).keyed = true)
    (hnames : (ps.map Projection.name).Sublist entries.keys)
    (hdistinct : ∀ p ∈ ps, (p.result e).Distinct) : Projection.Apart e ps :=
  ⟨hnames.nodup (Json.keyed_obj.mp hkeyed).1, hdistinct⟩

theorem inclusion_apart {cx : Context} (hfields : cx.model.fieldNames.Nodup)
    {entries : Json.Entries} {ps : List Projection} (hkeyed : (Json.obj entries).keyed = true)
    (hnames : (ps.map Projection.name).Sublist entries.keys)
    (hothers : ∀ p ∈ ps, p.name ∉ cx.model.fieldNames)
    (hdistinct : ∀ p ∈ ps, (p.result e).Distinct) :
    Projection.Apart e (fieldColumns cx ++ ps) := by
  refine ⟨?_, List.forall_mem_append.mpr ⟨field_columns_distinct e cx, hdistinct⟩⟩
  rw [List.map_append, field_columns_names]
  refine List.nodup_append.mpr ⟨hfields, (selection_apart e hkeyed hnames hdistinct).1, ?_⟩
  rintro name hname _ hin rfl
  obtain ⟨p, hp, rfl⟩ := List.mem_map.mp hin
  exact hothers p hp hname

theorem closes_apart {cx child : Context} {r : Relation} {args : RelationArgs}
    {columns : List Projection} {p : Projection} (h : Closes s cx child r args columns p a b)
    (hc : Projection.Apart e columns) :
    ([p].map Projection.name).Sublist [r.name] ∧ ∀ q ∈ [p], (q.result e).Distinct := by
  cases h with
  | mk _ _ _ => exact ⟨.refl _, List.forall_mem_singleton.mpr (Projection.results_distinct e hc)⟩

theorem runs_apart (h : Runs s o a b) (hfields : ∀ m ∈ s.schema.models, m.fieldNames.Nodup) :
    o.Apart e s.schema := by
  induction h with
  | noSelected => exact fun _ => ⟨List.nil_sublist _, List.forall_mem_nil _⟩
  | noInclusion =>
    exact fun _ => ⟨List.nil_sublist _, List.forall_mem_nil _, List.forall_mem_nil _⟩
  | omitted => exact fun _ => ⟨List.nil_sublist _, List.forall_mem_nil _⟩
  | @fieldEntry cx key flag rest f ps _ _ hf _ ih =>
    intro hkeyed
    obtain ⟨hnames, hdistinct⟩ := ih (Json.keyed_rest hkeyed).2
    have hname : f.name = key := (Model.field_mem hf).2
    cases flag with
    | false => exact ⟨hnames.cons key, hdistinct⟩
    | true =>
      refine ⟨?_, List.forall_mem_cons.mpr ⟨trivial, hdistinct⟩⟩
      have hcons := hnames.cons_cons key
      rw [← hname] at hcons ⊢
      exact hcons
  | relationEntry hf hr _ _ ih ihl =>
    intro hkeyed
    obtain ⟨hvalue, hrest⟩ := Json.keyed_rest hkeyed
    obtain ⟨hhere, hdistinct⟩ := ih hvalue
    obtain ⟨hnames, hlater⟩ := ihl hrest
    rw [Model.relation_named hr] at hhere
    refine ⟨?_, List.forall_mem_append.mpr ⟨hdistinct, hlater⟩⟩
    rw [List.map_append]
    exact hhere.append hnames
  | @inclusionEntry cx key _ _ _ _ _ _ _ _ hf hr _ _ ih ihl =>
    intro hkeyed
    obtain ⟨hvalue, hrest⟩ := Json.keyed_rest hkeyed
    obtain ⟨hhere, hdistinct⟩ := ih hvalue
    obtain ⟨hnames, hothers, hlater⟩ := ihl hrest
    rw [Model.relation_named hr] at hhere
    have hother : key ∉ cx.model.fieldNames := by
      intro hin
      obtain ⟨f, hfield, hname⟩ := List.mem_map.mp hin
      simpa [hname] using List.find?_eq_none.mp hf f hfield
    refine ⟨?_, List.forall_mem_append.mpr ⟨fun p hp => ?_, hothers⟩,
      List.forall_mem_append.mpr ⟨hdistinct, hlater⟩⟩
    · rw [List.map_append]
      exact hhere.append hnames
    · rw [List.mem_singleton.mp (hhere.subset (List.mem_map_of_mem hp))]
      exact hother
  | flagged ht closing =>
    exact fun _ => closes_apart e closing
      (field_columns_apart e (hfields _ (Schema.model_mem ht)))
  | arguments ht _ _ closing ih =>
    exact fun hkeyed => closes_apart e closing (ih hkeyed (Schema.model_mem ht))
  | allFields => exact fun _ hm => field_columns_apart e (hfields _ hm)
  | nestedSelection _ ih =>
    intro hkeyed _
    have hentries := (Json.keyed_rest hkeyed).1
    obtain ⟨hnames, hdistinct⟩ := ih hentries
    exact selection_apart e hentries hnames hdistinct
  | nestedInclusion _ ih =>
    intro hkeyed hm
    have hentries := (Json.keyed_rest hkeyed).1
    obtain ⟨hnames, hothers, hdistinct⟩ := ih hentries
    exact inclusion_apart e (hfields _ hm) hentries hnames hothers hdistinct
  | otherArgument _ _ ih => exact fun hkeyed hm => ih (Json.keyed_rest hkeyed).2 hm

theorem columns_apart {cx : Context} {args : Args} {ps : List Projection}
    (h : columns s cx args.select args.inclusion a = .ok (ps, b))
    (hfields : ∀ m ∈ s.schema.models, m.fieldNames.Nodup) (hm : cx.model ∈ s.schema.models)
    (hkeyed : args.keyed = true) : Projection.Apart e ps := by
  obtain ⟨-, hselect, hinclusion⟩ := Args.keyed_iff.mp hkeyed
  rcases columns_ok h with ⟨entries, hentries, -, hruns⟩ | ⟨qs, -, rfl, hruns⟩
  · rw [hentries] at hselect
    obtain ⟨hnames, hdistinct⟩ := runs_apart e hruns hfields hselect
    exact selection_apart e hselect hnames hdistinct
  · obtain ⟨hnames, hothers, hdistinct⟩ := runs_apart e hruns hfields hinclusion
    exact inclusion_apart e (hfields _ hm) hinclusion hnames hothers hdistinct

end

end Records

/-- Relations are folded into JSON without a column lost, renamed or doubled. The text
of a query of records has the columns that the query asks for, and on every level the
objects of a relation have one pair for each column of the derived table that they are
folded from. If the schema was built and no object of the query repeats a key, the names
of the columns of each level are distinct. -/
theorem relations_are_folded_whole (c : Compiler) (e : Engine) (hd : c.dialect = e.dialect)
    (model : String) (op : Operation) (hop : op.isRead = true) (args : Args) (prepared : Prepared)
    (h : c.compile model op args = .ok prepared) : ∃ m columns,
      c.schema.model? model = some m ∧ prepared.columns e = some columns ∧
        ResultColumn.ShowsAll e columns (args.shapes c.schema m) ∧
          ∀ b : Schema.Builder, b.build.1 = .ok c.schema → (∀ m ∈ b.models, m.Made) →
            args.keyed = true →
              (columns.map ResultColumn.name).Nodup ∧ ResultColumn.DistinctAll columns := by
  obtain ⟨st, as, hst, rfl⟩ := Compiler.compile_ok h
  obtain ⟨m, hm, _, hruns⟩ := Compiler.statement_ok hst
  cases hruns with
  | @find _ ps distinct _ _ _ _ _ _ hcolumns _ _ _ =>
    have hshown := Projection.results_show e ps
    rw [Records.columns_shaped hcolumns] at hshown
    refine ⟨m, Projection.results e ps, hm, ?_, hshown, fun b hbuild hmade hkeyed => ?_⟩
    · rw [hd]
      exact Statement.columns_read e ps distinct _
    · have hnames : ∀ m ∈ c.schema.models, m.fieldNames.Nodup := fun m hm =>
        (List.nodup_append.mp (Schema.member_names_nodup hbuild hmade m hm)).1
      exact Projection.results_distinct e
        (Records.columns_apart e hcolumns hnames (Schema.model_mem hm) hkeyed)
  | aggregate hagg _ _ _ | overPage hagg _ _ _ _ => rcases hagg with rfl | rfl <;> cases hop
  | groupBy _ _ _ _ _ | create _ _ | update _ _ _ | delete _ => cases hop

theorem sample_relations_are_folded_whole : ∃ prepared columns,
    (Sample.compiler .sqlite).compile "User" .findMany Sample.page = .ok prepared ∧
      prepared.columns .sqlite = some columns ∧
        ResultColumn.ShowsAll .sqlite columns [.field "id", .field "name", .field "age",
          .relation "posts" true [.field "id", .field "title", .field "authorId",
            .relation "tags" true [.field "id", .field "label"]]] ∧
          (columns.map ResultColumn.name).Nodup ∧ ResultColumn.DistinctAll columns := by
  obtain ⟨prepared, hcompiles⟩ := Sample.page_compiles
  obtain ⟨m, columns, hm, hcolumns, hshown, hdistinct⟩ :=
    relations_are_folded_whole (Sample.compiler .sqlite) .sqlite rfl "User" .findMany rfl
      Sample.page prepared hcompiles
  have hnames : ∀ m ∈ Sample.schema.models, m.fieldNames.Nodup ∧ m.relationNames.Nodup := by
    decide
  have hmade : ∀ m ∈ Sample.schema.models, m.Made :=
    fun m hm => m.made_of_nodup (hnames m hm).1 (hnames m hm).2
  cases hm
  exact ⟨prepared, columns, hcompiles, hcolumns, hshown,
    hdistinct ⟨none, Sample.schema.models⟩ rfl hmade rfl⟩

end QuerySql
