import Mathlib.Data.List.Induction
import QuerySql.Proofs.Success.Basic
import QuerySql.Schema.Builder

/-!
# Built schemas

What is known of the models of a schema once it was built: each relation is of
declared fields and has what it takes to link rows, and no two members of a model
share a name.
-/

set_option autoImplicit false

namespace QuerySql

/-- The relation has fields to link rows by, and a junction if it takes one. -/
structure Relation.Linkable (r : Relation) : Prop where
  paired : r.pairs ≠ []
  joined : r.cardinality = .manyToMany → ∃ j, r.through = some j

namespace Model

variable {α : Type} {name : α → String} {x : α} {xs : List α}

theorem upsert_known (h : name x ∈ xs.map name) : (upsert name x xs).map name = xs.map name := by
  induction xs with
  | nil => cases h
  | cons y ys ih =>
    rw [upsert]
    split
    · rename_i hsame
      simp only [List.map_cons, hsame]
    · rename_i hother
      rw [List.map_cons, List.mem_cons] at h
      rw [List.map_cons, List.map_cons, ih (h.resolve_left fun heq => hother heq.symm)]

theorem upsert_new (h : name x ∉ xs.map name) : upsert name x xs = xs ++ [x] := by
  induction xs with
  | nil => rfl
  | cons y ys ih =>
    rw [List.map_cons, List.mem_cons, not_or] at h
    rw [upsert, if_neg fun heq => h.1 heq.symm, ih h.2]
    rfl

theorem upsert_nodup (h : (xs.map name).Nodup) : ((upsert name x xs).map name).Nodup := by
  by_cases hx : name x ∈ xs.map name
  · rwa [upsert_known hx]
  · rw [upsert_new hx, List.map_append]
    refine List.nodup_append.mpr ⟨h, by simp, fun n hn n' hn' => ?_⟩
    rw [List.mem_singleton.mp hn']
    rintro rfl
    exact hx hn

/-- A model whose members were added one after the other. -/
inductive Made : Model → Prop
  | empty (name : String) : Made { name := name }
  | table {m : Model} (made : Made m) (table : Option String) : Made { m with table := table }
  | field {m : Model} (made : Made m) (f : Field) : Made (m.addField f)
  | relation {m : Model} (made : Made m) (r : Relation) : Made (m.addRelation r)

theorem Made.nodup {m : Model} (h : m.Made) : m.fieldNames.Nodup ∧ m.relationNames.Nodup := by
  induction h with
  | empty _ => exact ⟨List.nodup_nil, List.nodup_nil⟩
  | table _ _ ih => exact ih
  | field _ _ ih => exact ⟨upsert_nodup ih.1, ih.2⟩
  | relation _ _ ih => exact ⟨ih.1, upsert_nodup ih.2⟩

theorem nodup_concat (h : ((xs ++ [x]).map name).Nodup) :
    (xs.map name).Nodup ∧ name x ∉ xs.map name := by
  rw [List.map_append, List.nodup_append] at h
  exact ⟨h.1, fun hin => h.2.2 _ hin _ List.mem_cons_self rfl⟩

theorem made_of_nodup (m : Model) (hfields : m.fieldNames.Nodup)
    (hrelations : m.relationNames.Nodup) : m.Made := by
  obtain ⟨name, table, fields, relations⟩ := m
  induction relations using List.reverseRecOn with
  | nil =>
    clear hrelations
    induction fields using List.reverseRecOn with
    | nil => exact .table (.empty name) table
    | append_singleton fields f ih =>
      obtain ⟨hrest, hnew⟩ := nodup_concat hfields
      have hmade := (ih hrest).field f
      rwa [addField, upsert_new hnew] at hmade
  | append_singleton relations r ih =>
    obtain ⟨hrest, hnew⟩ := nodup_concat hrelations
    have hmade := (ih hfields hrest).relation r
    rwa [addRelation, upsert_new hnew] at hmade

end Model

namespace Schema

theorem check_pairs_ok {m : Model} {r : Relation} (h : checkPairs m r = .ok ()) :
    ∀ name ∈ r.fields, name ∈ m.fieldNames := by
  unfold checkPairs at h
  split at h
  · cases h
  · split at h
    · cases h
    · rename_i hnone
      intro name hname
      have hfound := List.find?_eq_none.mp hnone name hname
      obtain ⟨f, hf⟩ : ∃ f, m.field? name = some f := by
        simpa [Option.ne_none_iff_exists'] using hfound
      exact List.mem_map.mpr ⟨f, Model.field_mem hf⟩

theorem linkable_of_checks {m : Model} {r : Relation} (hpairs : checkPairs m r = .ok ())
    (hjunction : checkJunction m r = .ok ()) : r.Linkable := by
  refine ⟨fun hnil => ?_, fun hmany => ?_⟩
  · unfold checkPairs at hpairs
    split at hpairs
    · cases hpairs
    · rename_i hchecked
      simp only [Bool.or_eq_true, List.isEmpty_iff, decide_eq_true_eq, not_or, ne_eq,
        not_not] at hchecked
      rcases List.zip_eq_nil_iff.mp hnil with hfields | hreferences
      · exact hchecked.1 hfields
      · rw [hreferences, List.length_nil] at hchecked
        exact hchecked.1 (List.length_eq_zero_iff.mp hchecked.2)
  · rcases hthrough : r.through with _ | j
    · simp only [checkJunction, hmany, hthrough] at hjunction
      cases hjunction
    · exact ⟨j, rfl⟩

theorem check_relations_ok {m : Model} {rs : List Relation} (h : checkRelations m rs = .ok ()) :
    (∀ r ∈ rs, r.Linkable) ∧ ∀ r ∈ rs, ∀ name ∈ r.fields, name ∈ m.fieldNames := by
  induction rs with
  | nil => exact ⟨List.forall_mem_nil _, List.forall_mem_nil _⟩
  | cons r rest ih =>
    simp only [checkRelations, except_bind_ok] at h
    obtain ⟨_, hpairs, _, hjunction, hrest⟩ := h
    obtain ⟨hlinkable, hdeclared⟩ := ih hrest
    exact ⟨List.forall_mem_cons.mpr ⟨linkable_of_checks hpairs hjunction, hlinkable⟩,
      List.forall_mem_cons.mpr ⟨check_pairs_ok hpairs, hdeclared⟩⟩

theorem check_members_ok {m : Model} (h : checkMembers m = .ok ()) :
    ∀ name ∈ m.relationNames, m.field? name = none := by
  unfold checkMembers at h
  split at h
  · cases h
  · rename_i hnone
    intro name hname
    simpa using List.find?_eq_none.mp hnone name hname

structure Checked (m : Model) : Prop where
  linkable : ∀ r ∈ m.relations, r.Linkable
  declared : ∀ r ∈ m.relations, ∀ name ∈ r.fields, name ∈ m.fieldNames
  apart : ∀ name ∈ m.relationNames, m.field? name = none

theorem check_model_ok {m : Model} (h : checkModel m = .ok ()) : Checked m := by
  simp only [checkModel] at h
  split at h
  · cases h
  · simp only [except_bind_ok] at h
    obtain ⟨_, hrelations, hmembers⟩ := h
    obtain ⟨hlinkable, hdeclared⟩ := check_relations_ok hrelations
    exact ⟨hlinkable, hdeclared, check_members_ok hmembers⟩

theorem check_models_checked {ms : List Model} (h : checkModels ms = .ok ()) :
    ∀ m ∈ ms, Checked m := by
  induction ms with
  | nil => exact List.forall_mem_nil _
  | cons m rest ih =>
    simp only [checkModels, except_bind_ok] at h
    obtain ⟨_, hmodel, hrest⟩ := h
    exact List.forall_mem_cons.mpr ⟨check_model_ok hmodel, ih hrest⟩

theorem build_ok {b : Builder} {schema : Schema} (h : b.build.1 = .ok schema) :
    schema.models = b.models.map b.placed ∧ ∀ m ∈ schema.models, Checked m := by
  simp only [Builder.build, ofModels] at h
  split at h
  · cases h
  · simp only [except_bind_ok, except_pure_ok] at h
    obtain ⟨_, hmodels, rfl⟩ := h
    exact ⟨rfl, check_models_checked hmodels⟩

theorem Builder.placed_made {b : Builder} {m : Model} (h : m.Made) : (b.placed m).Made := by
  unfold Builder.placed
  split
  · exact .table h _
  · exact h

theorem member_names_nodup {b : Builder} {schema : Schema} (h : b.build.1 = .ok schema)
    (made : ∀ m ∈ b.models, m.Made) : ∀ m ∈ schema.models, m.memberNames.Nodup := by
  intro m hm
  obtain ⟨hmodels, hchecked⟩ := build_ok h
  obtain ⟨before, hbefore, rfl⟩ := List.mem_map.mp (hmodels ▸ hm)
  obtain ⟨hfields, hrelations⟩ := (Builder.placed_made (made before hbefore)).nodup
  refine List.nodup_append.mpr ⟨hfields, hrelations, fun name hfield name' hrelation => ?_⟩
  rintro rfl
  obtain ⟨f, hf, rfl⟩ := List.mem_map.mp hfield
  have hnone := (hchecked _ hm).apart f.name hrelation
  simpa using List.find?_eq_none.mp hnone f hf

end Schema

end QuerySql
