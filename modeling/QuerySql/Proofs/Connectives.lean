import QuerySql.Compile.Filter

/-!
# Maps through connectives

A map of predicates that acts on the operands of a connective, one by one, commutes
with everything that combines predicates: conjunctions and disjunctions of lists, and
the connectives of a filter, which do not look into their operands. A property that
passes from operands to their connective is kept by the same combinations.
-/

set_option autoImplicit false

namespace QuerySql

/-- The map leaves connectives in place. -/
structure Pred.Through (f : Pred → Pred) : Prop where
  truth : ∀ value, f (.truth value) = .truth value
  and : ∀ ps, f (.and ps) = .and (ps.map f)
  or : ∀ ps, f (.or ps) = .or (ps.map f)
  not : ∀ p, f (.not p) = .not (f p)

namespace Pred.Through

variable {f : Pred → Pred} (hf : Pred.Through f)
include hf

theorem map_all (ps : List Pred) : f (Pred.all ps) = Pred.all (ps.map f) := by
  match ps with
  | [p] => rfl
  | [] | p :: q :: ps => exact hf.and _

theorem map_any (ps : List Pred) : f (Pred.any ps) = Pred.any (ps.map f) := by
  match ps with
  | [p] => rfl
  | [] | p :: q :: ps => exact hf.or _

theorem map_optional (ps : List Pred) : (Pred.all? ps).map f = Pred.all? (ps.map f) := by
  cases ps with
  | nil => rfl
  | cons p ps => exact congrArg some (hf.map_all (p :: ps))

theorem map_present (p : Option Pred) :
    f (p.getD (.truth true)) = (p.map f).getD (.truth true) := by
  cases p with
  | none => exact hf.truth true
  | some p => rfl

theorem map_apply (m : Model) (c : Connective) (operands : List (Option Pred)) :
    c.apply m (operands.map (Option.map f)) = f <$> c.apply m operands := by
  have hsome : (operands.map (Option.map f)).filterMap id = (operands.filterMap id).map f := by
    simp [List.map_filterMap, List.filterMap_map]
  cases c with
  | and =>
    simp only [Connective.apply, hsome, ← hf.map_optional, ← hf.map_present]
    rfl
  | or =>
    simp only [Connective.apply, List.map_map, Function.comp_def, ← hf.map_present]
    refine congrArg Except.ok ?_
    rw [hf.map_any, List.map_map]
    rfl
  | not =>
    simp only [Connective.apply, hsome]
    match operands.filterMap id with
    | [] => rfl
    | [p] => exact congrArg Except.ok (hf.not p).symm
    | p :: q :: ps =>
      simp only [List.map_cons, List.length_cons, List.length_map]
      rfl

end Pred.Through

/-- The property passes from operands to their connective. -/
structure Pred.Closed (P : Pred → Prop) : Prop where
  truth : ∀ value, P (.truth value)
  and : ∀ ps, (∀ p ∈ ps, P p) → P (.and ps)
  or : ∀ ps, (∀ p ∈ ps, P p) → P (.or ps)
  not : ∀ p, P p → P (.not p)

namespace Pred.Closed

variable {P : Pred → Prop} (hP : Pred.Closed P)
include hP

theorem all {ps : List Pred} (h : ∀ p ∈ ps, P p) : P (Pred.all ps) := by
  match ps with
  | [p] => exact h p List.mem_cons_self
  | [] | _ :: _ :: _ => exact hP.and _ h

theorem any {ps : List Pred} (h : ∀ p ∈ ps, P p) : P (Pred.any ps) := by
  match ps with
  | [p] => exact h p List.mem_cons_self
  | [] | _ :: _ :: _ => exact hP.or _ h

theorem optional {ps : List Pred} (h : ∀ p ∈ ps, P p) : ∀ p ∈ Pred.all? ps, P p := by
  cases ps with
  | nil => exact fun p hp => nomatch hp
  | cons p ps =>
    rintro _ ⟨⟩
    exact hP.all h

theorem present {o : Option Pred} (h : ∀ p ∈ o, P p) : P (o.getD (.truth true)) := by
  cases o with
  | none => exact hP.truth true
  | some p => exact h p rfl

theorem apply {m : Model} {c : Connective} {os : List (Option Pred)} {p : Pred}
    (hp : c.apply m os = .ok p) (h : ∀ o ∈ os, ∀ q ∈ o, P q) : P p := by
  have hpresent : ∀ q ∈ os.filterMap id, P q := by
    intro q hq
    obtain ⟨o, ho, hq⟩ := List.mem_filterMap.mp hq
    exact h o ho q hq
  cases c with
  | and =>
    cases hp
    exact hP.present (hP.optional hpresent)
  | or =>
    cases hp
    refine hP.any fun q hq => ?_
    obtain ⟨o, ho, rfl⟩ := List.mem_map.mp hq
    exact hP.present (h o ho)
  | not =>
    rw [Connective.apply] at hp
    split at hp
    · rename_i q hq
      cases hp
      exact hP.not q (hpresent q (hq ▸ List.mem_cons_self))
    · cases hp

end Pred.Closed

end QuerySql
