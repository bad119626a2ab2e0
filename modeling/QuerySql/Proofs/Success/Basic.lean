import Mathlib.Data.List.Forall2
import QuerySql.Compile.Filter

/-!
# Successful compilations

What is known once a compilation has succeeded. A block succeeds through its
steps, each from the aliases that the step before left, so one rewrite with the
lemmas of this module takes a block apart into its steps.
-/

set_option autoImplicit false

namespace QuerySql

section Steps

variable {α β : Type}

theorem except_bind_ok {x : Except Error α} {f : α → Except Error β} {y : β} :
    (x >>= f) = .ok y ↔ ∃ z, x = .ok z ∧ f z = .ok y := by
  cases x with
  | error e => simp [bind, Except.bind]
  | ok z => simp [bind, Except.bind]

theorem except_pure_ok {x y : α} : (pure x : Except Error α) = .ok y ↔ y = x := by
  simp [pure, Except.pure, eq_comm]

theorem except_throw_ok {e : Error} {y : α} :
    (throw e : Except Error α) = .ok y ↔ False := by
  simp [throw, throwThe, MonadExceptOf.throw]

theorem except_map_ok {f : α → β} {x : Except Error α} {y : β} :
    f <$> x = .ok y ↔ ∃ z, x = .ok z ∧ y = f z := by
  cases x with
  | error e => simp [Functor.map, Except.map]
  | ok z => simp [Functor.map, Except.map, eq_comm]

theorem except_ok_of_read {f : α → β} {x : Except Error α} {y : β}
    (h : (x.map f).toOption = some y) : ∃ z, x = .ok z ∧ f z = y := by
  cases x with
  | error e => cases h
  | ok z => exact ⟨z, rfl, Option.some.inj h⟩

theorem except_each_ok {f : α → Except Error β} {xs : List α} {ys : List β} :
    xs.mapM f = .ok ys ↔ List.Forall₂ (fun x y => f x = .ok y) xs ys := by
  induction xs generalizing ys with
  | nil => simp [except_pure_ok]
  | cons x xs ih =>
    simp only [List.mapM_cons, except_bind_ok, except_pure_ok, ih, List.forall₂_cons_left_iff]
    constructor
    · rintro ⟨y, hy, ys, hys, rfl⟩
      exact ⟨y, ys, hy, hys, rfl⟩
    · rintro ⟨y, ys, hy, hys, rfl⟩
      exact ⟨y, hy, ys, hys, rfl⟩

namespace Compile

variable {a b : Aliases}

theorem bind_ok {x : Compile α} {f : α → Compile β} {r : β × Aliases} :
    (x >>= f) a = .ok r ↔ ∃ y b, x a = .ok (y, b) ∧ f y b = .ok r := by
  change (x a >>= fun p => f p.1 p.2) = .ok r ↔ _
  rw [except_bind_ok]
  exact Prod.exists

theorem pure_ok {x y : α} : (pure x : Compile α) a = .ok (y, b) ↔ y = x ∧ b = a := by
  change (pure (x, a) : Except Error _) = .ok (y, b) ↔ _
  rw [except_pure_ok, Prod.mk.injEq]

theorem map_ok {f : α → β} {x : Compile α} {y : β} :
    (f <$> x) a = .ok (y, b) ↔ ∃ z, x a = .ok (z, b) ∧ y = f z := by
  change (x a >>= fun p => pure (f p.1, p.2)) = .ok (y, b) ↔ _
  rw [except_bind_ok]
  constructor
  · rintro ⟨⟨z, c⟩, hx, hy⟩
    obtain ⟨rfl, rfl⟩ := Prod.mk.injEq .. ▸ except_pure_ok.mp hy
    exact ⟨z, hx, rfl⟩
  · rintro ⟨z, hx, rfl⟩
    exact ⟨(z, b), hx, rfl⟩

theorem lift_ok {x : Except Error α} {y : α} :
    (liftM x : Compile α) a = .ok (y, b) ↔ x = .ok y ∧ b = a := by
  change (x >>= fun z => pure (z, a)) = .ok (y, b) ↔ _
  rw [except_bind_ok]
  constructor
  · rintro ⟨z, hx, hy⟩
    obtain ⟨rfl, rfl⟩ := Prod.mk.injEq .. ▸ except_pure_ok.mp hy
    exact ⟨hx, rfl⟩
  · rintro ⟨hx, rfl⟩
    exact ⟨y, hx, rfl⟩

theorem throw_ok {e : Error} {r : α × Aliases} :
    (throw e : Compile α) a = .ok r ↔ False := by
  change (throw e : Except Error _) = .ok r ↔ _
  exact except_throw_ok

theorem bind_step {x : Compile α} {f : α → Compile β} {y : α} (h : x a = .ok (y, b)) :
    (x >>= f) a = f y b := by
  change (x a >>= fun p => f p.1 p.2) = _
  rw [h]
  rfl

theorem bind_failed {x : Compile α} {f : α → Compile β} {e : Error} (h : x a = .error e) :
    (x >>= f) a = .error e := by
  change (x a >>= fun p => f p.1 p.2) = _
  rw [h]
  rfl

theorem map_step {x : Compile α} {f : α → β} {y : α × Aliases} (h : x a = .ok y) :
    (f <$> x) a = .ok (f y.1, y.2) := by
  rw [map_eq_pure_bind]
  exact bind_step h

theorem map_failed {x : Compile α} {f : α → β} {e : Error} (h : x a = .error e) :
    (f <$> x) a = .error e := by
  rw [map_eq_pure_bind]
  exact bind_failed h

end Compile

end Steps

theorem Schema.expect_model_ok {s : Schema} {name : String} {m : Model} :
    s.expectModel name = .ok m ↔ s.model? name = some m := by
  unfold Schema.expectModel
  split <;> simp_all

theorem Schema.target_ok {s : Schema} {r : Relation} {m : Model} :
    s.target r = .ok m ↔ s.model? r.target = some m := by
  unfold Schema.target
  rw [← Schema.expect_model_ok]
  split <;> simp_all

theorem Schema.model_mem {s : Schema} {name : String} {m : Model} (h : s.model? name = some m) :
    m ∈ s.models :=
  List.mem_of_find?_eq_some h

theorem Model.field_mem {m : Model} {name : String} {f : Field} (h : m.field? name = some f) :
    f ∈ m.fields ∧ f.name = name :=
  ⟨List.mem_of_find?_eq_some h, by simpa using List.find?_some h⟩

theorem Model.field_of_declared {m : Model} {name : String} (h : name ∈ m.fieldNames) :
    ∃ f, m.field? name = some f ∧ f.name = name := by
  obtain ⟨g, hg, hname⟩ := List.mem_map.mp h
  have hfound : (m.fields.find? (·.name = name)).isSome = true :=
    List.find?_isSome.mpr ⟨g, hg, decide_eq_true hname⟩
  obtain ⟨f, hf⟩ := Option.isSome_iff_exists.mp hfound
  exact ⟨f, hf, (Model.field_mem hf).2⟩

theorem Model.relation_mem {m : Model} {name : String} {r : Relation}
    (h : m.relation? name = some r) : r ∈ m.relations :=
  List.mem_of_find?_eq_some h

theorem Model.expect_field_ok {m : Model} {name : String} {f : Field}
    (h : m.expectField name = .ok f) : f ∈ m.fields ∧ f.name = name := by
  unfold Model.expectField at h
  split at h
  · rename_i found hf
    cases h
    exact Model.field_mem hf
  · cases h

theorem Model.expect_fields_ok {m : Model} {names : List String} {fs : List Field}
    (h : names.mapM m.expectField = .ok fs) : fs.map (·.name) = names ∧ ∀ f ∈ fs, f ∈ m.fields := by
  rw [except_each_ok] at h
  induction h with
  | nil => simp
  | cons hf _ ih =>
    obtain ⟨hmem, hname⟩ := Model.expect_field_ok hf
    refine ⟨?_, List.forall_mem_cons.mpr ⟨hmem, ih.2⟩⟩
    rw [List.map_cons, hname, ih.1]

namespace Compile

variable {a b : Aliases}

theorem fresh_ok {tag : Alias} :
    fresh a = .ok (tag, b) ↔ tag = ⟨a.used⟩ ∧ b = ⟨a.used + 1⟩ := by
  simp [fresh, Aliases.next, eq_comm]

theorem descend_ok {s : Settings} {cx child : Context} {r : Relation} :
    descend s cx r a = .ok (child, b) ↔ ∃ target, s.schema.model? r.target = some target ∧
      cx.depth < s.maxDepth ∧ child = cx.nested r target ⟨a.used⟩ ∧ b = ⟨a.used + 1⟩ := by
  unfold descend
  simp only [bind_ok, lift_ok, Schema.target_ok]
  constructor
  · rintro ⟨target, _, ⟨ht, rfl⟩, h⟩
    split at h
    · simp only [bind_ok, throw_ok, false_and, exists_false] at h
    · simp only [bind_ok, fresh_ok, pure_ok] at h
      obtain ⟨tag, _, ⟨rfl, rfl⟩, rfl, rfl⟩ := h
      exact ⟨target, ht, by omega, rfl, rfl⟩
  · rintro ⟨target, ht, hd, rfl, rfl⟩
    refine ⟨target, a, ⟨ht, rfl⟩, ?_⟩
    rw [if_neg (by omega)]
    rfl

theorem scalar_ok {m : Model} {key : String} {json : Json} {v : Value} :
    scalar m key json = .ok v ↔ Value.ofJson? json = some v := by
  unfold scalar
  split <;> simp_all

end Compile

end QuerySql
