import QuerySql.Proofs.Success.Basic

/-!
# Refusals

What a query may be refused with. An error belongs to one class: it names
something that the schema does not define, it finds fault with an argument, or it
asks for what is not supported. The faults that only a mistake of the compiler
itself could raise are not among them.
-/

set_option autoImplicit false

namespace QuerySql

/-- The wordings of the faults that no query may run into. -/
def plumbing : List String :=
  ["relation subquery without a relation",
    "reserved keys are only valid inside a relation subquery",
    "junction check on a relation without a junction table",
    "parent reference without columns",
    "parent reference expects a column name",
    "unknown reserved key",
    "reserved key expects `true`"]

namespace Plumbing

/-- How such wordings begin, as far as it takes to tell them from all others. -/
def heads : List (List Char) :=
  [['r', 'e', 'l', 'a', 't', 'i', 'o', 'n', ' ', 's'], ['r', 'e', 's'], ['j'], ['p', 'a', 'r'],
    ['u', 'n', 'k', 'n', 'o', 'w', 'n', ' ', 'r']]

theorem head_of_mem {text : String} (h : text ∈ plumbing) :
    ∃ head ∈ heads, ∃ tail, text = String.ofList (head ++ tail) := by
  simp only [plumbing, List.mem_cons, List.not_mem_nil, or_false] at h
  rcases h with rfl | rfl | rfl | rfl | rfl | rfl | rfl
  · exact ⟨_, .head _, _, rfl⟩
  · exact ⟨_, .tail _ (.head _), _, rfl⟩
  · exact ⟨_, .tail _ (.tail _ (.head _)), _, rfl⟩
  · exact ⟨_, .tail _ (.tail _ (.tail _ (.head _))), _, rfl⟩
  · exact ⟨_, .tail _ (.tail _ (.tail _ (.head _))), _, rfl⟩
  · exact ⟨_, .tail _ (.tail _ (.tail _ (.tail _ (.head _)))), _, rfl⟩
  · exact ⟨_, .tail _ (.head _), _, rfl⟩

/-- However the text goes on, it is none of these wordings. -/
def Avoids (text : String) : Prop := ∀ rest, text ++ rest ∉ plumbing

theorem Avoids.append {text : String} (h : Avoids text) (more : String) :
    Avoids (text ++ more) := by
  intro rest
  rw [String.append_assoc]
  exact h (more ++ rest)

theorem avoids_of_chars {cs : List Char}
    (h : (heads.all fun head => !(head.isPrefixOf cs || cs.isPrefixOf head)) = true) :
    Avoids (String.ofList cs) := by
  intro rest hin
  obtain ⟨head, hhead, tail, heq⟩ := head_of_mem hin
  have hchars := congrArg String.toList heq
  rw [String.toList_append, String.toList_ofList, String.toList_ofList] at hchars
  have hdiffers := List.all_eq_true.mp h head hhead
  have hhead : head <+: cs ++ rest.toList := ⟨tail, hchars.symm⟩
  rcases List.prefix_or_prefix_of_prefix hhead (List.prefix_append cs rest.toList) with hpre | hpre
  · rw [List.isPrefixOf_iff_prefix.mpr hpre] at hdiffers
    cases hdiffers
  · rw [List.isPrefixOf_iff_prefix.mpr hpre, Bool.or_true] at hdiffers
    cases hdiffers

theorem avoids_ticked (text : String) : Avoids (ticked text) :=
  ((avoids_of_chars rfl).append text).append "`"

end Plumbing

namespace Fault

@[simp] def isInternal : Fault → Bool
  | .worded _ | .missingJunction | .missingReference => true
  | _ => false

theorem avoids_plumbing {f : Fault} (h : ¬ f.isInternal) : Plumbing.Avoids f.text := by
  cases f with
  | worded _ => exact absurd rfl h
  | missingJunction => exact absurd rfl h
  | missingReference => exact absurd rfl h
  | scalarOnly type => cases type <;> exact (Plumbing.avoids_of_chars rfl).append _
  | _ =>
    delta Fault.text
    dsimp only
    repeat with_reducible refine Plumbing.Avoids.append ?_ _
    first | with_reducible exact Plumbing.avoids_ticked _ | exact Plumbing.avoids_of_chars rfl

end Fault

namespace Error

def classes (e : Error) : List Bool := [e.isReference, e.isValidation, e.isUnsupported]

/-- An error of exactly one class whose faults are all about the query. -/
structure Documented (e : Error) : Prop where
  oneClass : e.classes.count true = 1
  aboutQuery : ∀ model field fault, .validation model field fault ∈ e.chain → fault.text ∉ plumbing

theorem documented_validation {model field : Option String} {f : Fault}
    (h : ¬ f.isInternal) : Documented { newest := .validation model field f } := by
  refine ⟨rfl, fun model' field' fault hin => ?_⟩
  cases List.mem_singleton.mp hin
  have hown := Fault.avoids_plumbing h ""
  rwa [String.append_empty] at hown

@[simp] theorem documented_fault (m : Model) {f : Fault} (h : ¬ f.isInternal) :
    (m.fault f).Documented := documented_validation h

@[simp] theorem documented_fault_at (m : Model) (key : String) {f : Fault}
    (h : ¬ f.isInternal) : (m.faultAt key f).Documented := documented_validation h

@[simp] theorem documented_unsupported (feature : Feature) :
    (Error.unsupported feature).Documented :=
  ⟨rfl, fun _ _ _ hin => nomatch List.mem_singleton.mp hin⟩

theorem documented_reference (subject : Subject) (owner : Option String) (name : String)
    (available : List String) :
    Documented { newest := .reference subject owner name available } :=
  ⟨rfl, fun _ _ _ hin => nomatch List.mem_singleton.mp hin⟩

@[simp] theorem documented_unknown_model (name : String) (available : List String) :
    (Error.unknownModel name available).Documented := documented_reference ..

@[simp] theorem documented_unknown_field (model name : String) (available : List String) :
    (Error.unknownField model name available).Documented := documented_reference ..

@[simp] theorem documented_unknown_relation (model name : String) (available : List String) :
    (Error.unknownRelation model name available).Documented := documented_reference ..

@[simp] theorem documented_unknown_member (m : Model) (name : String) :
    (m.unknownMember name).Documented := documented_reference ..

theorem Documented.noted {e : Error} (h : e.Documented) (text : String) :
    (e.context (.note text)).Documented := by
  refine ⟨h.oneClass, fun model field fault hin => ?_⟩
  rcases List.mem_cons.mp hin with heq | hin
  · cases heq
  · exact h.aboutQuery model field fault hin

end Error

/-- A computation that fails with a documented error, if it does. -/
def Orderly {α : Type} (x : Except Error α) : Prop := ∀ e, x = .error e → e.Documented

section Orderly

variable {α β : Type}

@[simp] theorem orderly_ok (y : α) : Orderly (.ok y) := fun _ h => nomatch h

@[simp] theorem orderly_pure (y : α) : Orderly (pure y) := fun _ h => nomatch h

@[simp] theorem orderly_error {e : Error} : Orderly (.error e : Except Error α) ↔ e.Documented :=
  ⟨fun h => h e rfl, fun h _ heq => by cases heq; exact h⟩

@[simp] theorem orderly_throw {e : Error} :
    Orderly (throw e : Except Error α) ↔ e.Documented := orderly_error

@[simp] theorem orderly_bind {x : Except Error α} {k : α → Except Error β} :
    Orderly (x >>= k) ↔ Orderly x ∧ ∀ y, x = .ok y → Orderly (k y) := by
  cases x with
  | error e => 
    simp only [orderly_error, reduceCtorEq, false_implies, implies_true, and_true]
    exact orderly_error
  | ok y => 
    simp only [orderly_ok, Except.ok.injEq, forall_eq', true_and]
    rfl

@[simp] theorem orderly_map {x : Except Error α} {f : α → β} : Orderly (f <$> x) ↔ Orderly x := by
  rw [map_eq_pure_bind, orderly_bind]
  simp

theorem orderly_each {f : α → Except Error β} (h : ∀ x, Orderly (f x)) (xs : List α) :
    Orderly (xs.mapM f) := by
  induction xs with
  | nil => simp
  | cons x xs ih => simp [List.mapM_cons, h, ih]

end Orderly

def Compile.Orderly {α : Type} (x : Compile α) : Prop := ∀ a, QuerySql.Orderly (x a)

namespace Compile

variable {α β : Type}

@[simp] theorem orderly_pure (y : α) : Compile.Orderly (pure y) := fun _ _ h => nomatch h

@[simp] theorem orderly_lift {x : Except Error α} :
    Compile.Orderly (liftM x : Compile α) ↔ QuerySql.Orderly x := by
  constructor
  · intro h e he
    subst he
    exact h {} e rfl
  · intro h a e he
    cases x with
    | error e' =>
      cases he
      exact h e rfl
    | ok y => cases he

@[simp] theorem orderly_throw {e : Error} :
    Compile.Orderly (throw e : Compile α) ↔ e.Documented :=
  orderly_lift.trans orderly_error

theorem Orderly.bind {x : Compile α} {k : α → Compile β} (hx : x.Orderly)
    (hk : ∀ y a b, x a = .ok (y, b) → (k y).Orderly) : (x >>= k).Orderly := by
  intro a
  change QuerySql.Orderly (x a >>= fun p => k p.1 p.2)
  exact orderly_bind.mpr ⟨hx a, fun p hp => hk p.1 a p.2 hp p.2⟩

theorem Orderly.after {x : Compile α} {k : α → Compile β} (hx : x.Orderly)
    (hk : ∀ y, (k y).Orderly) : (x >>= k).Orderly :=
  hx.bind fun y _ _ _ => hk y

theorem Orderly.after_lift {x : Except Error α} {k : α → Compile β} (hx : QuerySql.Orderly x)
    (hk : ∀ y, x = .ok y → (k y).Orderly) : ((liftM x : Compile α) >>= k).Orderly :=
  (orderly_lift.mpr hx).bind fun y _ _ hy => hk y (lift_ok.mp hy).1

theorem Orderly.map {x : Compile α} (hx : x.Orderly) (f : α → β) : (f <$> x).Orderly := by
  rw [map_eq_pure_bind]
  exact hx.after fun _ => orderly_pure _

theorem fresh_orderly : fresh.Orderly := fun _ _ h => nomatch h

end Compile

end QuerySql
