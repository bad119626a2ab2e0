import QuerySql.Proofs.Success.Basic

/-!
# Successful conditions on a field

The conditions that compile, as rules: one rule for each form of an operand,
one for each form of an entry. Every fact about compiled conditions is an
induction over these rules.
-/

set_option autoImplicit false

namespace QuerySql

/-- The comparison that an operator makes with an operand other than null. -/
def FieldOperator.comparison? : FieldOperator → Option Comparison
  | .equals => some .eq
  | .not => some .ne
  | .compare op => some op
  | _ => none

namespace Condition

def Binds (json : Json) (v : Value) : Prop := json ≠ .null ∧ Value.ofJson? json = some v

theorem operand_ok {m : Model} {f : Field} {json : Json} {v : Value} :
    operand m f json = .ok v ↔ Binds json v := by
  unfold operand Binds
  split
  · simp
  · rename_i h
    rw [Compile.scalar_ok]
    exact ⟨fun hv => ⟨fun hn => h hn, hv⟩, fun hv => hv.2⟩

theorem operands_ok {m : Model} {f : Field} {items : List Json} {vs : List Value} :
    items.mapM (operand m f) = .ok vs ↔ List.Forall₂ Binds items vs := by
  simp only [except_each_ok, operand_ok]

inductive Operates (f : Field) (lhs : Scalar) (mode : Mode) : FieldOperator → Json → Pred → Prop
  | isNull : Operates f lhs mode .equals .null (.isNull lhs false)
  | isNotNull : Operates f lhs mode .not .null (.isNull lhs true)
  | compare {op : FieldOperator} {c : Comparison} {json : Json} {v : Value}
      (hc : op.comparison? = some c) (hv : Binds json v) :
      Operates f lhs mode op json (.compare (mode.fold lhs) c (mode.fold (.bound v)))
  | noItems {negated : Bool} : Operates f lhs mode (.isIn negated) (.arr []) (.truth negated)
  | isIn {negated : Bool} {items : List Json} {vs : List Value} (hne : items ≠ [])
      (hvs : List.Forall₂ Binds items vs) :
      Operates f lhs mode (.isIn negated) (.arr items)
        (.isIn (mode.fold lhs) (vs.map fun v => mode.fold (.bound v)) negated)
  | pattern {p : Pattern} {text : String} (ht : f.type.isTextual = true) :
      Operates f lhs mode (.pattern p) (.str text)
        (.like (mode.fold lhs) (mode.fold (.bound (.text (p.write text)))))

theorem compare_ok {m : Model} {f : Field} {lhs : Scalar} {mode : Mode} {c : Comparison}
    {json : Json} {p : Pred} (h : compare m f lhs mode c json = .ok p) :
    ∃ v, Binds json v ∧ p = .compare (mode.fold lhs) c (mode.fold (.bound v)) := by
  simpa only [compare, except_bind_ok, except_pure_ok, operand_ok] using h

theorem is_in_ok {m : Model} {f : Field} {lhs : Scalar} {mode : Mode} {negated : Bool}
    {json : Json} {p : Pred} (h : isIn m f lhs mode negated json = .ok p) :
    Operates f lhs mode (.isIn negated) json p := by
  unfold isIn at h
  split at h
  · cases h
    exact .noItems
  · rename_i items hne
    simp only [except_bind_ok, except_pure_ok, operands_ok] at h
    obtain ⟨vs, hvs, rfl⟩ := h
    exact .isIn hne hvs
  · cases h

theorem pattern_ok {m : Model} {f : Field} {lhs : Scalar} {mode : Mode} {pat : Pattern}
    {json : Json} {p : Pred} (h : pattern m f lhs mode pat json = .ok p) :
    Operates f lhs mode (.pattern pat) json p := by
  unfold pattern at h
  split at h
  · cases h
  · rename_i ht
    split at h
    · cases h
      exact .pattern (by simpa using ht)
    · cases h

theorem operator_ok {m : Model} {f : Field} {lhs : Scalar} {mode : Mode} {key : String}
    {json : Json} {p : Pred} (h : operator m f lhs mode key json = .ok p) :
    ∃ op, FieldOperator.ofKey? key = some op ∧ Operates f lhs mode op json p := by
  unfold operator at h
  split at h
  · cases h
  · cases h
  · rename_i pat hk
    exact ⟨_, hk, pattern_ok h⟩
  · rename_i c hk
    obtain ⟨v, hv, rfl⟩ := compare_ok h
    exact ⟨_, hk, .compare rfl hv⟩
  · rename_i negated hk
    exact ⟨_, hk, is_in_ok h⟩
  · rename_i hk
    split at h
    · cases h
      exact ⟨_, hk, .isNull⟩
    · obtain ⟨v, hv, rfl⟩ := compare_ok h
      exact ⟨_, hk, .compare rfl hv⟩
  · rename_i hk
    split at h
    · cases h
      exact ⟨_, hk, .isNotNull⟩
    · obtain ⟨v, hv, rfl⟩ := compare_ok h
      exact ⟨_, hk, .compare rfl hv⟩

/-- The predicates of a list of operators. A nested object under `not` is
negated as one, and adds nothing if it has no condition. -/
inductive Runs (m : Model) (f : Field) (lhs : Scalar) : Mode → Json.Entries → List Pred → Prop
  | nil {mode : Mode} : Runs m f lhs mode [] []
  | mode {mode : Mode} {value : Json} {rest : Json.Entries} {ps : List Pred}
      (later : Runs m f lhs mode rest ps) : Runs m f lhs mode ((modeKey, value) :: rest) ps
  | negation {mode inner : Mode} {nested rest : Json.Entries} {qs ps : List Pred}
      (hm : Condition.mode m f mode nested = .ok inner) (here : Runs m f lhs inner nested qs)
      (later : Runs m f lhs mode rest ps) :
      Runs m f lhs mode (("not", .obj nested) :: rest) (((Pred.all? qs).map .not).toList ++ ps)
  | operator {mode : Mode} {key : String} {op : FieldOperator} {json : Json}
      {rest : Json.Entries} {p : Pred} {ps : List Pred} (hne : key ≠ modeKey)
      (hk : FieldOperator.ofKey? key = some op) (here : Operates f lhs mode op json p)
      (later : Runs m f lhs mode rest ps) : Runs m f lhs mode ((key, json) :: rest) (p :: ps)

theorem entry_ok {m : Model} {f : Field} {lhs : Scalar} {mode : Mode} {key : String}
    {value : Json} {p : Option Pred} (h : entry m f lhs mode key value = .ok p) :
    (∃ nested inner qs, key = "not" ∧ value = .obj nested ∧
      Condition.mode m f mode nested = .ok inner ∧ operators m f lhs inner nested = .ok qs ∧
        p = (Pred.all? qs).map .not) ∨
      ∃ op q, FieldOperator.ofKey? key = some op ∧ Operates f lhs mode op value q ∧ p = some q := by
  have hop : some <$> operator m f lhs mode key value = .ok p →
      ∃ op q, FieldOperator.ofKey? key = some op ∧ Operates f lhs mode op value q ∧ p = some q := by
    intro h
    obtain ⟨q, hq, rfl⟩ := except_map_ok.mp h
    obtain ⟨op, hk, hop⟩ := operator_ok hq
    exact ⟨op, q, hk, hop, rfl⟩
  unfold entry at h
  split at h
  · rename_i nested
    split at h
    · rename_i hk
      simp only [except_bind_ok, except_pure_ok] at h
      obtain ⟨inner, hm, qs, hq, rfl⟩ := h
      exact .inl ⟨nested, inner, qs, hk, rfl, hm, hq, rfl⟩
    · exact .inr (hop h)
  · exact .inr (hop h)

theorem operators_runs {m : Model} {f : Field} {lhs : Scalar} (mode : Mode)
    (entries : List (String × Json)) {ps : List Pred}
    (h : operators m f lhs mode entries = .ok ps) : Runs m f lhs mode entries ps := by
  match entries with
  | [] =>
    cases h
    exact .nil
  | (key, value) :: rest =>
    by_cases hk : key = modeKey
    · simp only [operators, if_pos hk, except_bind_ok, except_pure_ok] at h
      obtain ⟨_, rfl, later, hl, rfl⟩ := h
      subst hk
      exact .mode (operators_runs mode rest hl)
    · simp only [operators, if_neg hk, except_bind_ok, except_pure_ok] at h
      obtain ⟨here, hhere, later, hl, rfl⟩ := h
      rcases entry_ok hhere with ⟨nested, inner, qs, rfl, rfl, hm, hq, rfl⟩ | ⟨op, q, ho, hop, rfl⟩
      · exact .negation hm (operators_runs inner nested hq) (operators_runs mode rest hl)
      · exact .operator hk ho hop (operators_runs mode rest hl)

inductive Compiles (m : Model) (f : Field) (lhs : Scalar) : Json → Option Pred → Prop
  | null : Compiles m f lhs .null (some (.isNull lhs false))
  | scalar {json : Json} {v : Value} (hv : Binds json v) :
      Compiles m f lhs json (some (.compare lhs .eq (.bound v)))
  | operators {entries : Json.Entries} {mode : Mode} {ps : List Pred}
      (hm : Condition.mode m f .sensitive entries = .ok mode)
      (here : Runs m f lhs mode entries ps) : Compiles m f lhs (.obj entries) (Pred.all? ps)

theorem compile_ok {m : Model} {f : Field} {lhs : Scalar} {json : Json} {p : Option Pred}
    (h : compile m f lhs json = .ok p) : Compiles m f lhs json p := by
  unfold compile at h
  split at h
  · cases h
    exact .null
  · cases h
  · simp only [except_bind_ok, except_pure_ok] at h
    obtain ⟨mode, hm, ps, hps, rfl⟩ := h
    exact .operators hm (operators_runs mode _ hps)
  · rename_i hn _ _
    simp only [except_bind_ok, except_pure_ok, Compile.scalar_ok] at h
    obtain ⟨v, hv, rfl⟩ := h
    exact .scalar ⟨fun hj => hn hj, hv⟩

end Condition

end QuerySql
