import QuerySql.Proofs.Success.Statement

/-!
# The scope of a mode

A mode holds in the operator object that sets it and in the objects nested
there, up to one that sets its own. The rule is stated by the enclosing objects
alone, so it does not depend on how the mode is passed down, and the place of
the mode among the operators is of no account.
-/

set_option autoImplicit false

namespace QuerySql

def Mode.named : Json → Mode
  | .str "insensitive" => .insensitive
  | _ => .sensitive

/-- The mode of the nearest object that sets one; `enclosing` begins with the
innermost. -/
def Mode.nearest (enclosing : List Json.Entries) : Mode :=
  ((enclosing.findSome? (·.get? Condition.modeKey)).map Mode.named).getD .sensitive

mutual

def Pred.tests : Pred → List Pred
  | .and ps => Pred.testsAll ps
  | .or ps => Pred.testsAll ps
  | .not p => p.tests
  | p => [p]

def Pred.testsAll : List Pred → List Pred
  | [] => []
  | p :: ps => p.tests ++ Pred.testsAll ps

end

theorem Pred.tests_all_append (ps qs : List Pred) :
    testsAll (ps ++ qs) = testsAll ps ++ testsAll qs := by
  induction ps with
  | nil => rfl
  | cons p ps ih => simp only [List.cons_append, testsAll, ih, List.append_assoc]

theorem Pred.tests_all? (ps : List Pred) : testsAll (all? ps).toList = testsAll ps := by
  match ps with
  | [] => rfl
  | [_] => rfl
  | p :: q :: ps => simp only [all?, all, Option.toList_some, testsAll, tests, List.append_nil]

theorem Pred.tests_not (p : Option Pred) :
    testsAll (p.map .not).toList = testsAll p.toList := by
  cases p with
  | none => rfl
  | some p => rfl

namespace Condition

/-- An operator with its operand, and the objects it stands in from the
innermost outwards. -/
structure Demand where
  enclosing : List Json.Entries
  key : String
  operand : Json

mutual

def demands (enclosing : List Json.Entries) : List (String × Json) → List Demand
  | [] => []
  | (key, value) :: rest =>
    (if key = modeKey then [] else demandsOf enclosing key value) ++ demands enclosing rest

def demandsOf (enclosing : List Json.Entries) (key : String) : Json → List Demand
  | .obj nested =>
    if key = "not" then demands (nested :: enclosing) nested
    else [⟨enclosing, key, .obj nested⟩]
  | operand => [⟨enclosing, key, operand⟩]

end

/-- The test is the one demanded, with both of its sides in the nearest mode. -/
def Demand.Met (f : Field) (lhs : Scalar) (demand : Demand) (test : Pred) : Prop :=
  ∃ op, FieldOperator.ofKey? demand.key = some op ∧
    Operates f lhs (Mode.nearest demand.enclosing) op demand.operand test

section Nearest

variable {m : Model} {f : Field} {lhs : Scalar}

theorem mode_nearest (enclosing : List Json.Entries) {entries : Json.Entries} {mode : Mode}
    (h : Condition.mode m f (Mode.nearest enclosing) entries = .ok mode) :
    mode = Mode.nearest (entries :: enclosing) := by
  unfold Condition.mode at h
  cases hk : entries.get? modeKey with
  | none =>
    rw [hk] at h
    cases h
    simp only [Mode.nearest, List.findSome?_cons, hk]
  | some json =>
    have hn : Mode.nearest (entries :: enclosing) = Mode.named json := by
      simp only [Mode.nearest, List.findSome?_cons, hk, Option.map_some, Option.getD_some]
    rw [hk] at h
    rw [hn]
    simp only at h
    split at h
    · split at h
      · rename_i hd
        cases h
        rw [hd]
        rfl
      · split at h
        · rename_i hi
          split at h
          · cases h
            rw [hi]
            rfl
          · cases h
        · cases h
    · cases h

theorem operates_demand {enclosing : List Json.Entries} {key : String} {op : FieldOperator}
    {operand : Json} {p : Pred} (hk : FieldOperator.ofKey? key = some op)
    (h : Operates f lhs (Mode.nearest enclosing) op operand p) :
    demandsOf enclosing key operand = [⟨enclosing, key, operand⟩] ∧ p.tests = [p] ∧
      Demand.Met f lhs ⟨enclosing, key, operand⟩ p := by
  refine ⟨?_, ?_, op, hk, h⟩
  · cases h with
    | compare _ hv =>
      cases operand with
      | obj _ => cases hv.2
      | null | bool _ | num _ | str _ | arr _ => rfl
    | isNull | isNotNull | noItems | isIn _ _ | pattern _ => rfl
  · cases h <;> rfl

theorem runs_demands {mode : Mode} {entries : Json.Entries} {ps : List Pred}
    (h : Runs m f lhs mode entries ps) (enclosing : List Json.Entries)
    (hmode : mode = Mode.nearest enclosing) :
    List.Forall₂ (Demand.Met f lhs) (demands enclosing entries) (Pred.testsAll ps) := by
  induction h generalizing enclosing with
  | nil => exact .nil
  | mode _ ih =>
    rw [demands, if_pos rfl, List.nil_append]
    exact ih enclosing hmode
  | @negation mode inner nested rest qs ps hm _ _ ihn ih =>
    subst hmode
    rw [demands, if_neg (by decide), demandsOf, if_pos rfl, Pred.tests_all_append,
      Pred.tests_not, Pred.tests_all?]
    exact List.rel_append (ihn (nested :: enclosing) (mode_nearest enclosing hm)) (ih enclosing rfl)
  | @operator mode key op json rest p ps hne hk here _ ih =>
    subst hmode
    obtain ⟨hd, ht, hmet⟩ := operates_demand hk here
    rw [demands, if_neg hne, hd, Pred.testsAll, ht]
    exact .cons hmet (ih enclosing rfl)

end Nearest

def modes (entries : Json.Entries) : Json.Entries := entries.filter fun e => e.1 = modeKey

mutual

def unmoded : List (String × Json) → List (String × Json)
  | [] => []
  | (key, value) :: rest =>
    if key = modeKey then unmoded rest else (key, modeFirstUnder key value) :: unmoded rest

def modeFirstUnder (key : String) : Json → Json
  | .obj nested => if key = "not" then .obj (modes nested ++ unmoded nested) else .obj nested
  | json => json

end

/-- The operator object with its mode in front, and so in every object nested
there. -/
def modeFirst (entries : Json.Entries) : Json.Entries := modes entries ++ unmoded entries

section Placement

variable (m : Model) (f : Field) (lhs : Scalar)

theorem get_mode_first (entries : Json.Entries) :
    (modeFirst entries).get? modeKey = entries.get? modeKey := by
  unfold modeFirst modes Json.Entries.get?
  rw [List.lookup_append]
  induction entries with
  | nil => rfl
  | cons e rest ih =>
    obtain ⟨key, value⟩ := e
    by_cases hk : key = modeKey
    · simp [hk]
    · have hne : (modeKey == key) = false := by simpa using Ne.symm hk
      simpa [hk, unmoded, List.lookup_cons, hne] using ih

theorem mode_mode_first (inherited : Mode) (entries : Json.Entries) :
    mode m f inherited (modeFirst entries) = mode m f inherited entries := by
  unfold mode
  rw [get_mode_first]

theorem operators_mode (mode : Mode) (value : Json) (rest : Json.Entries) :
    operators m f lhs mode ((modeKey, value) :: rest) = operators m f lhs mode rest := by
  rw [operators, if_pos rfl, pure_bind]
  exact bind_pure _

theorem operators_modes (mode : Mode) (entries rest : Json.Entries) :
    operators m f lhs mode (modes entries ++ rest) = operators m f lhs mode rest := by
  induction entries with
  | nil => rfl
  | cons e entries ih =>
    obtain ⟨key, value⟩ := e
    by_cases hk : key = modeKey
    · subst hk
      rw [modes, List.filter_cons_of_pos (by simp), List.cons_append, operators_mode]
      exact ih
    · rw [← ih, modes, List.filter_cons_of_neg (by simpa using hk)]
      rfl

mutual

theorem operators_unmoded (mode : Mode) (entries : List (String × Json)) :
    operators m f lhs mode (unmoded entries) = operators m f lhs mode entries := by
  match entries with
  | [] => rfl
  | (key, value) :: rest =>
    by_cases hk : key = modeKey
    · subst hk
      rw [unmoded, if_pos rfl, operators_mode]
      exact operators_unmoded mode rest
    · rw [unmoded, if_neg hk, operators, operators, if_neg hk, if_neg hk,
        entry_mode_first mode key value, operators_unmoded mode rest]

theorem entry_mode_first (mode : Mode) (key : String) (value : Json) :
    entry m f lhs mode key (modeFirstUnder key value) = entry m f lhs mode key value := by
  match value with
  | .obj nested =>
    by_cases hk : key = "not"
    · have hm := fun inner => operators_modes m f lhs inner nested (unmoded nested)
      have hu := fun inner => operators_unmoded inner nested
      rw [modeFirstUnder, if_pos hk, entry, entry, if_pos hk, if_pos hk]
      simp only [hm, hu]
      rw [← modeFirst, mode_mode_first]
    · rw [modeFirstUnder, if_neg hk]
  | .null | .bool _ | .num _ | .str _ | .arr _ => rfl

end

theorem operators_mode_first (mode : Mode) (entries : Json.Entries) :
    operators m f lhs mode (modeFirst entries) = operators m f lhs mode entries := by
  rw [modeFirst, operators_modes, operators_unmoded]

/-- Every test that an operator object compiles to is one that it demands, in the
order written, and both sides of the test are folded exactly if the nearest
object around the operator that sets a mode sets the insensitive one; a test for
null reads the scalar as it is. Objects that differ in the place of their modes
only compile alike. -/
theorem mode_is_lexical (entries : Json.Entries) :
    (∀ p, compile m f lhs (.obj entries) = .ok p →
      List.Forall₂ (Demand.Met f lhs) (demands [entries] entries) (Pred.testsAll p.toList)) ∧
    compile m f lhs (.obj (modeFirst entries)) = compile m f lhs (.obj entries) := by
  constructor
  · intro p h
    simp only [compile, except_bind_ok, except_pure_ok] at h
    obtain ⟨mode, hm, ps, hps, rfl⟩ := h
    rw [Pred.tests_all?]
    exact runs_demands (operators_runs mode entries hps) [entries]
      (mode_nearest [] hm)
  · simp only [compile, mode_mode_first, operators_mode_first]

end Placement

end Condition

namespace Sample

def title : Field := { name := "title", type := .string }

def titleColumn : Scalar := .column ⟨⟨0⟩, "title"⟩

def overridden : Json.Entries :=
  [("equals", .str "A"),
    ("not", .obj [("in", .arr [.str "B", .str "C"]),
      ("not", .obj [("contains", .str "D"), ("mode", .str "default"),
        ("not", .obj [("lt", .str "E"), ("equals", .null)])])]),
    ("mode", .str "insensitive")]

def overriddenTests : List Pred :=
  [.compare (.folded titleColumn) .eq (.folded (.bound (.text "A"))),
    .isIn (.folded titleColumn) [.folded (.bound (.text "B")), .folded (.bound (.text "C"))] false,
    .like titleColumn (.bound (.text "%D%")),
    .compare titleColumn .lt (.bound (.text "E")),
    .isNull titleColumn false]

end Sample

theorem sample_mode_is_lexical :
    ∃ p, Condition.compile Sample.post Sample.title Sample.titleColumn (.obj Sample.overridden) =
        .ok (some p) ∧ p.tests = Sample.overriddenTests ∧
      List.Forall₂ (Condition.Demand.Met Sample.title Sample.titleColumn)
        (Condition.demands [Sample.overridden] Sample.overridden) (Pred.testsAll [p]) ∧
      (Condition.demands [Sample.overridden] Sample.overridden).map
          (fun d => (d.key, Mode.nearest d.enclosing)) =
        [("equals", .insensitive), ("in", .insensitive), ("contains", .sensitive),
          ("lt", .sensitive), ("equals", .sensitive)] := by
  have htests : ((Condition.compile Sample.post Sample.title Sample.titleColumn
      (.obj Sample.overridden)).map fun p => p.map Pred.tests).toOption =
        some (some Sample.overriddenTests) :=
    rfl
  obtain ⟨found, hp, hfound⟩ := except_ok_of_read htests
  obtain ⟨p, rfl, ht⟩ := Option.map_eq_some_iff.mp hfound
  have hmet := (Condition.mode_is_lexical Sample.post Sample.title Sample.titleColumn
    Sample.overridden).1 _ hp
  exact ⟨p, hp, ht, hmet, by decide +kernel⟩

end QuerySql
