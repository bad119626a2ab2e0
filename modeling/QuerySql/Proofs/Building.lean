import Mathlib.Data.List.DropRight
import QuerySql.Proofs.Built

/-!
# Runs of a builder

A builder is called any number of times, in any order: to choose the text before
table names, to add a model, to build. What a build gives back is told by the calls
before it alone, by the models added since the last build and the text chosen last,
whether or not the builds before it succeeded. It refuses the models unless all of
them are sound, and then changes nothing but the names of their tables.
-/

set_option autoImplicit false

namespace QuerySql

/-- The relation can be declared by the model. -/
structure Relation.Sound (m : Model) (r : Relation) : Prop where
  nonempty : r.fields ≠ []
  paired : r.fields.length = r.references.length
  declared : ∀ name ∈ r.fields, ∃ f ∈ m.fields, f.name = name
  joined : r.through.isSome = true ↔ r.cardinality = .manyToMany
  single : r.cardinality = .manyToMany → r.pairs.length = 1

theorem Relation.sound_iff {m : Model} {r : Relation} :
    r.Sound m ↔ ((r.fields ≠ [] ∧ r.fields.length = r.references.length) ∧
      ∀ name ∈ r.fields, ∃ f ∈ m.fields, f.name = name) ∧
      (r.through.isSome = true ↔ r.cardinality = .manyToMany) ∧
      (r.cardinality = .manyToMany → r.fields.length = 1) := by
  have hlength (hpaired : r.fields.length = r.references.length) :
      r.pairs.length = r.fields.length := by
    simp [Relation.pairs, ← hpaired]
  constructor
  · intro h
    exact ⟨⟨⟨h.nonempty, h.paired⟩, h.declared⟩, h.joined,
      fun hmany => hlength h.paired ▸ h.single hmany⟩
  · rintro ⟨⟨⟨hnonempty, hpaired⟩, hdeclared⟩, hjoined, hsingle⟩
    exact ⟨hnonempty, hpaired, hdeclared, hjoined,
      fun hmany => (hlength hpaired).trans (hsingle hmany)⟩

structure Model.Sound (m : Model) : Prop where
  identified : ∃ f ∈ m.fields, f.id = true
  relations : ∀ r ∈ m.relations, r.Sound m
  apart : ∀ r ∈ m.relations, ∀ f ∈ m.fields, f.name ≠ r.name

theorem Model.sound_iff {m : Model} : m.Sound ↔ (∃ f ∈ m.fields, f.id = true) ∧
    (∀ r ∈ m.relations, r.Sound m) ∧ ∀ r ∈ m.relations, ∀ f ∈ m.fields, f.name ≠ r.name :=
  ⟨fun h => ⟨h.identified, h.relations, h.apart⟩,
    fun ⟨hid, hrelations, hmembers⟩ => ⟨hid, hrelations, hmembers⟩⟩

/-- The model stands in a schema as it was added, under a table that has the text put
before its name once. -/
structure Model.PlacedUnder (text : Option String) (m placed : Model) : Prop where
  name_eq : placed.name = m.name
  fields_eq : placed.fields = m.fields
  relations_eq : placed.relations = m.relations
  table_eq : placed.table = text.elim m.table fun text => some (text ++ m.tableName)

namespace Schema

/-- The models make up a schema. -/
structure Sound (models : List Model) : Prop where
  distinct : (models.map (·.name)).Nodup
  models : ∀ m ∈ models, m.Sound

/-- The check passes exactly if the property holds; else it finds a flaw. -/
def Decides (P : Prop) (check : Except Error Unit) : Prop :=
  P ∧ check = .ok () ∨ ¬P ∧ ∃ flaw, check = flawed flaw

namespace Decides

variable {P Q : Prop} {x y : Except Error Unit}

theorem pass (h : P) : Decides P (.ok ()) := .inl ⟨h, rfl⟩

theorem fail {flaw : Flaw} (h : ¬P) : Decides P (flawed flaw) := .inr ⟨h, flaw, rfl⟩

theorem congr (hx : Decides P x) (h : P ↔ Q) : Decides Q x := by
  rw [← propext h]
  exact hx

theorem both (hx : Decides P x) (hy : Decides Q y) : Decides (P ∧ Q) (do x; y) := by
  rcases hx with ⟨hp, rfl⟩ | ⟨hp, flaw, rfl⟩
  · rcases hy with ⟨hq, rfl⟩ | ⟨hq, flaw, rfl⟩
    · exact pass ⟨hp, hq⟩
    · exact fail fun h => hq h.2
  · exact fail fun h => hp h.1

end Decides

theorem field_is_none_iff {m : Model} {name : String} :
    m.field? name = none ↔ ¬∃ f ∈ m.fields, f.name = name := by
  simp [Model.field?]

theorem check_pairs_decides (m : Model) (r : Relation) :
    Decides ((r.fields ≠ [] ∧ r.fields.length = r.references.length) ∧
      ∀ name ∈ r.fields, ∃ f ∈ m.fields, f.name = name) (checkPairs m r) := by
  unfold checkPairs
  split
  · rename_i hunpaired
    refine .fail fun h => ?_
    simp [h.1] at hunpaired
  · rename_i hpaired
    simp only [Bool.or_eq_true, List.isEmpty_iff, decide_eq_true_eq, not_or, not_not] at hpaired
    split
    · rename_i name hfound
      have hunknown : m.field? name = none := by simpa using List.find?_some hfound
      exact .fail fun h =>
        field_is_none_iff.mp hunknown (h.2 name (List.mem_of_find?_eq_some hfound))
    · rename_i hnone
      refine .pass ⟨hpaired, fun name hname => ?_⟩
      have hknown := List.find?_eq_none.mp hnone name hname
      by_contra hundeclared
      rw [field_is_none_iff.mpr hundeclared] at hknown
      exact hknown rfl

theorem check_junction_decides (m : Model) (r : Relation) :
    Decides ((r.through.isSome = true ↔ r.cardinality = .manyToMany) ∧
      (r.cardinality = .manyToMany → r.fields.length = 1)) (checkJunction m r) := by
  cases hcardinality : r.cardinality <;> cases hthrough : r.through <;>
    simp only [checkJunction, hcardinality, hthrough]
  case manyToMany.some =>
    split
    · exact .pass (by simp_all)
    · exact .fail (by simp_all)
  case manyToMany.none | oneToOne.some | manyToOne.some | oneToMany.some =>
    exact .fail (by simp)
  case oneToOne.none | manyToOne.none | oneToMany.none => exact .pass (by simp)

theorem check_relations_decides (m : Model) (rs : List Relation) :
    Decides (∀ r ∈ rs, r.Sound m) (checkRelations m rs) := by
  induction rs with
  | nil => exact .pass (List.forall_mem_nil _)
  | cons r rest ih =>
    refine ((check_pairs_decides m r).both ((check_junction_decides m r).both ih)).congr ?_
    simp only [List.forall_mem_cons, Relation.sound_iff, and_assoc]

theorem check_members_decides (m : Model) :
    Decides (∀ r ∈ m.relations, ∀ f ∈ m.fields, f.name ≠ r.name) (checkMembers m) := by
  unfold checkMembers
  split
  · rename_i name hfound
    obtain ⟨r, hr, rfl⟩ := List.mem_map.mp (List.mem_of_find?_eq_some hfound)
    have hclash := List.find?_some hfound
    refine .fail fun h => Option.isSome_iff_ne_none.mp hclash (field_is_none_iff.mpr ?_)
    rintro ⟨f, hf, hname⟩
    exact h r hr f hf hname
  · rename_i hnone
    refine .pass fun r hr f hf hname => ?_
    have happart := List.find?_eq_none.mp hnone r.name (List.mem_map_of_mem hr)
    exact field_is_none_iff.mp (by simpa using happart) ⟨f, hf, hname⟩

theorem check_identified_decides (m : Model) :
    Decides (∃ f ∈ m.fields, f.id = true)
      (if m.identifiers.isEmpty then flawed (.noIdentifier m.name) else .ok ()) := by
  split
  · rename_i hempty
    refine .fail ?_
    rintro ⟨f, hf, hid⟩
    rw [List.isEmpty_iff, Model.identifiers, List.filter_eq_nil_iff] at hempty
    exact hempty f hf hid
  · rename_i hsome
    rw [List.isEmpty_iff, Model.identifiers, List.filter_eq_nil_iff] at hsome
    push Not at hsome
    exact .pass hsome

theorem check_model_decides (m : Model) : Decides m.Sound (checkModel m) := by
  have hcheck : checkModel m =
      ((if m.identifiers.isEmpty then flawed (.noIdentifier m.name) else .ok ()) >>= fun _ => do
        checkRelations m m.relations
        checkMembers m) := by
    unfold checkModel
    split <;> rfl
  rw [hcheck]
  exact ((check_identified_decides m).both
    ((check_relations_decides m m.relations).both (check_members_decides m))).congr
    Model.sound_iff.symm

theorem check_models_decides (models : List Model) :
    Decides (∀ m ∈ models, m.Sound) (checkModels models) := by
  induction models with
  | nil => exact .pass (List.forall_mem_nil _)
  | cons m rest ih =>
    exact ((check_model_decides m).both ih).congr List.forall_mem_cons.symm

theorem first_duplicate_eq_none_iff (seen : List String) (models : List Model) :
    firstDuplicate? seen models = none ↔
      (models.map (·.name)).Nodup ∧ ∀ m ∈ models, m.name ∉ seen := by
  induction models generalizing seen with
  | nil => simp [firstDuplicate?]
  | cons m rest ih =>
    rw [firstDuplicate?]
    split
    · rename_i hseen
      simp_all
    · rename_i hnew
      rw [ih, List.map_cons, List.nodup_cons]
      simp only [List.contains_eq_mem, decide_eq_true_eq] at hnew
      simp only [List.mem_cons, not_or, List.mem_map, forall_eq_or_imp]
      grind

theorem of_models_decides (models : List Model) :
    Sound models ∧ ofModels models = .ok ⟨models⟩ ∨
      ¬Sound models ∧ ∃ flaw, ofModels models = .error (.invalidSchema flaw) := by
  have hdistinct := first_duplicate_eq_none_iff [] models
  unfold ofModels
  split
  · rename_i name hfound
    refine .inr ⟨fun h => ?_, _, rfl⟩
    rw [hdistinct.mpr ⟨h.distinct, fun _ _ => List.not_mem_nil⟩] at hfound
    cases hfound
  · rename_i hnone
    obtain ⟨hnames, -⟩ := hdistinct.mp hnone
    rcases check_models_decides models with ⟨hmodels, hcheck⟩ | ⟨hmodels, flaw, hcheck⟩
    · exact .inl ⟨⟨hnames, hmodels⟩, by rw [hcheck]; rfl⟩
    · exact .inr ⟨fun h => hmodels h.models, flaw, by rw [hcheck]; rfl⟩

namespace Builder

theorem placed_under (b : Builder) (m : Model) : m.PlacedUnder b.tablePrefix (b.placed m) := by
  unfold placed
  split <;> rename_i htext <;> rw [htext] <;> exact ⟨rfl, rfl, rfl, rfl⟩

theorem placed_sound_iff (b : Builder) (models : List Model) :
    Schema.Sound (models.map b.placed) ↔ Schema.Sound models := by
  have hname (m : Model) : (b.placed m).name = m.name := (b.placed_under m).name_eq
  have hmodel (m : Model) : (b.placed m).Sound ↔ m.Sound := by
    simp only [Model.sound_iff, Relation.sound_iff, (b.placed_under m).fields_eq,
      (b.placed_under m).relations_eq]
  have hnames : ((models.map b.placed).map (·.name)) = models.map (·.name) := by
    simp only [List.map_map, Function.comp_def, hname]
  constructor
  · intro h
    exact ⟨hnames ▸ h.distinct, fun m hm => (hmodel m).mp (h.models _ (List.mem_map_of_mem hm))⟩
  · intro h
    exact ⟨hnames ▸ h.distinct, List.forall_mem_map.mpr fun m hm => (hmodel m).mpr (h.models m hm)⟩

theorem build_decides (b : Builder) :
    (Schema.Sound b.models ∧ ∃ schema, b.build.1 = .ok schema ∧
      List.Forall₂ (Model.PlacedUnder b.tablePrefix) b.models schema.models) ∨
    (¬Schema.Sound b.models ∧ ∃ flaw, b.build.1 = .error (.invalidSchema flaw)) := by
  rcases of_models_decides (b.models.map b.placed) with ⟨hsound, hbuild⟩ | ⟨hflawed, hbuild⟩
  · refine .inl ⟨(b.placed_sound_iff _).mp hsound, _, hbuild, ?_⟩
    exact List.forall₂_map_right_iff.mpr (List.forall₂_same.mpr fun m _ => b.placed_under m)
  · exact .inr ⟨fun h => hflawed ((b.placed_sound_iff _).mpr h), hbuild⟩

/-- A call of a builder. -/
inductive Step where
  | tablePrefix (text : String)
  | model (m : Model)
  | build

namespace Step

def isBuild : Step → Bool
  | .build => true
  | _ => false

def model? : Step → Option Model
  | .model m => some m
  | _ => none

def text? : Step → Option String
  | .tablePrefix text => some text
  | _ => none

end Step

def step (b : Builder) : Step → Builder
  | .tablePrefix text => b.setTablePrefix text
  | .model m => b.addModel m
  | .build => b.build.2

def answers (b : Builder) : List Step → List (Except Error Schema)
  | [] => []
  | .build :: rest => b.build.1 :: answers b.build.2 rest
  | call :: rest => answers (b.step call) rest

/-- The models that the calls added after the last build among them. -/
def added (calls : List Step) : List Model :=
  (calls.rtakeWhile (!·.isBuild)).filterMap Step.model?

def lastText (calls : List Step) : Option String := (calls.filterMap Step.text?).getLast?

theorem state_after (calls : List Step) :
    calls.foldl step {} = ⟨lastText calls, added calls⟩ := by
  induction calls using List.reverseRecOn with
  | nil => rfl
  | append_singleton calls call ih =>
    rw [List.foldl_concat, ih]
    cases call with
    | tablePrefix text =>
      simp [step, setTablePrefix, lastText, added, Step.text?, Step.model?, Step.isBuild]
    | model m => simp [step, addModel, lastText, added, Step.text?, Step.model?, Step.isBuild]
    | build => simp [step, build, lastText, added, Step.text?, Step.isBuild]

theorem answers_append (b : Builder) (before later : List Step) :
    b.answers (before ++ later) = b.answers before ++ (before.foldl step b).answers later := by
  induction before generalizing b with
  | nil => rfl
  | cons call rest ih =>
    cases call with
    | build => exact congrArg (_ :: ·) (ih _)
    | tablePrefix text => exact ih _
    | model m => exact ih _

/-- Each build of a run answers for the models added since the build before it, under
the text chosen last: with all of them as they were added, in order, if they are sound,
and with a flaw otherwise. -/
theorem builds_answer_for_their_models (before later : List Step) :
    ∃ answer,
      answers {} (before ++ .build :: later) =
        answers {} before ++ answer :: answers ⟨lastText before, []⟩ later ∧
      answer = (build ⟨lastText before, added before⟩).1 ∧
      ((Schema.Sound (added before) ∧ ∃ schema, answer = .ok schema ∧
          List.Forall₂ (Model.PlacedUnder (lastText before)) (added before) schema.models) ∨
        (¬Schema.Sound (added before) ∧ ∃ flaw, answer = .error (.invalidSchema flaw))) := by
  refine ⟨_, ?_, rfl, build_decides ⟨lastText before, added before⟩⟩
  rw [answers_append, state_after]
  rfl

end Builder

end Schema

end QuerySql
