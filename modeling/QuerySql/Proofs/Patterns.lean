import Mathlib.Data.List.Infix
import QuerySql.Compile.Condition
import QuerySql.Proofs.Evaluation
import QuerySql.Proofs.Success.Statement

/-!
# Patterns

`LIKE` matches a text against a pattern with two wildcards and a mark that
takes the character after it as it is. The patterns that are bound for a text
find that text and nothing else, whatever marks it holds, and so they do after
the case of both sides is folded.
-/

set_option autoImplicit false

namespace QuerySql

namespace Pattern

inductive Place where
  | anything
  | anyone
  | exactly (c : Char)

/-- The places of a pattern from the left. A backslash at the end has nothing to escape
and stands for itself. -/
def places : List Char → List Place
  | [] => []
  | '%' :: rest => .anything :: places rest
  | '_' :: rest => .anyone :: places rest
  | '\\' :: c :: rest => .exactly c :: places rest
  | c :: rest => .exactly c :: places rest

/-- The places match the whole of a text. Where anything may stand, every rest of the text
is tried. -/
def fits : List Place → List Char → Bool
  | [], text => text.isEmpty
  | .anything :: ps, text => text.tails.any (fits ps)
  | .anyone :: ps, _ :: text => fits ps text
  | .exactly c :: ps, d :: text => c = d && fits ps text
  | _ :: _, [] => false

/-- `LIKE` accepts the text for the pattern. -/
def accepts (pattern text : List Char) : Bool := fits (places pattern) text

/-- The text has the part at the place that the pattern is for. -/
def Finds : Pattern → List Char → List Char → Prop
  | .contains, part, text => part <:+: text
  | .startsWith, part, text => part <+: text
  | .endsWith, part, text => part <:+ text

theorem fits_nil (text : List Char) : fits [] text = true ↔ text = [] := List.isEmpty_iff

theorem fits_anything (ps : List Place) (text : List Char) :
    fits (.anything :: ps) text = true ↔ ∃ rest, rest <:+ text ∧ fits ps rest = true := by
  simp [fits, List.any_eq_true, List.mem_tails]

theorem fits_exactly (part : List Char) (ps : List Place) (text : List Char) :
    fits (part.map .exactly ++ ps) text = true ↔
      ∃ rest, text = part ++ rest ∧ fits ps rest = true := by
  induction part generalizing text with
  | nil => simp
  | cons c part ih =>
    cases text with
    | nil => simp [fits]
    | cons d text =>
      rw [List.map_cons, List.cons_append, fits, Bool.and_eq_true, decide_eq_true_iff, ih]
      constructor
      · rintro ⟨rfl, rest, rfl, hrest⟩
        exact ⟨rest, rfl, hrest⟩
      · rintro ⟨rest, heq, hrest⟩
        obtain ⟨rfl, rfl⟩ := List.cons.inj heq
        exact ⟨rfl, rest, rfl, hrest⟩

def marks : List Char := ['%', '_', '\\']

theorem escape_mark {c : Char} (h : c ∈ marks) : escape c = ['\\', c] := by
  simp only [marks, List.mem_cons, List.not_mem_nil, or_false] at h
  rcases h with rfl | rfl | rfl <;> rfl

theorem escape_plain {c : Char} (h : c ∉ marks) : escape c = [c] := by
  simpa [escape, marks, or_assoc] using h

theorem places_plain {c : Char} (h : c ∉ marks) (rest : List Char) :
    places (c :: rest) = .exactly c :: places rest := by
  simp only [marks, List.mem_cons, List.not_mem_nil, or_false, not_or] at h
  rw [places]
  · exact h.1
  · exact h.2.1
  · exact fun _ _ heq => absurd heq h.2.2

/-- The fold of characters keeps every mark and makes no other character one. -/
structure Keeps (fold : Char → Char) : Prop where
  mark : ∀ c ∈ marks, fold c = c
  plain : ∀ c, c ∉ marks → fold c ∉ marks

theorem keeps_id : Keeps id := ⟨fun _ _ => rfl, fun _ h => h⟩

theorem places_escaped {fold : Char → Char} (hfold : Keeps fold) (part rest : List Char) :
    places ((part.flatMap escape).map fold ++ rest) =
      (part.map fold).map .exactly ++ places rest := by
  induction part with
  | nil => rfl
  | cons c part ih =>
    rw [List.flatMap_cons, List.map_append, List.append_assoc, List.map_cons, List.map_cons,
      List.cons_append, ← ih]
    by_cases hc : c ∈ marks
    · rw [escape_mark hc, List.map_cons, List.map_singleton, hfold.mark c hc,
        hfold.mark '\\' (by decide)]
      rfl
    · rw [escape_plain hc, List.map_singleton]
      exact places_plain (hfold.plain c hc) _

/-- A pattern accepts the texts that have its part where it is asked for, also when both
are folded. -/
theorem accepts_iff_finds {fold : Char → Char} (hfold : Keeps fold) (p : Pattern) (part : String)
    (text : List Char) :
    accepts ((p.write part).toList.map fold) text = true ↔
      p.Finds (part.toList.map fold) text := by
  have hany : fold '%' = '%' := hfold.mark '%' (by decide)
  have hanything : ∀ rest, places ('%' :: rest) = .anything :: places rest := fun _ => rfl
  have hplaces := places_escaped hfold part.toList
  cases p with
  | contains =>
    simp only [accepts, write, String.toList_ofList, List.map_cons, List.map_append, hany,
      hanything, hplaces, fits_anything, fits_exactly]
    constructor
    · rintro ⟨_, ⟨before, rfl⟩, after, rfl, -⟩
      exact ⟨before, after, by simp⟩
    · rintro ⟨before, after, rfl⟩
      exact ⟨_, ⟨before, (List.append_assoc ..).symm⟩, after, rfl, [], List.nil_suffix, rfl⟩
  | startsWith =>
    simp only [accepts, write, String.toList_ofList, List.map_cons, List.map_append, hany,
      hanything, hplaces, fits_anything, fits_exactly]
    constructor
    · rintro ⟨after, rfl, -⟩
      exact ⟨after, rfl⟩
    · rintro ⟨after, rfl⟩
      exact ⟨after, rfl, [], List.nil_suffix, rfl⟩
  | endsWith =>
    have hend := hplaces []
    rw [List.append_nil] at hend
    simp only [accepts, write, String.toList_ofList, List.map_cons, hany, hanything, hend,
      fits_anything, fits_exactly]
    constructor
    · rintro ⟨_, hsuffix, rest, rfl, hrest⟩
      rw [places, fits_nil] at hrest
      rwa [hrest, List.append_nil] at hsuffix
    · intro hsuffix
      exact ⟨_, hsuffix, [], (List.append_nil _).symm, rfl⟩

def key : Pattern → String
  | .contains => "contains"
  | .startsWith => "startsWith"
  | .endsWith => "endsWith"

theorem key_found (p : Pattern) : FieldOperator.ofKey? p.key = some (.pattern p) := by
  cases p <;> rfl

end Pattern

/-- A database of texts whose `LIKE` goes by the marks of a pattern. -/
structure Database.Textual (db : Database (List Char)) : Prop where
  bound_text : ∀ s : String, db.bound (.text s) = some s.toList
  like_eq : ∀ text pattern, db.like text pattern = .ofBool (Pattern.accepts pattern text)

/-- What the engine makes of a character before it compares in a mode. -/
inductive Mode.Folds (db : Database (List Char)) : Mode → (Char → Char) → Prop
  | sensitive : Folds db .sensitive id
  | insensitive {fold : Char → Char} (keeps : Pattern.Keeps fold)
      (lower : ∀ text, db.lower text = some (text.map fold)) : Folds db .insensitive fold

section

variable {db : Database (List Char)} {mode : Mode} {fold : Char → Char}

theorem Mode.Folds.keeps (h : mode.Folds db fold) : Pattern.Keeps fold := by
  cases h with
  | sensitive => exact Pattern.keeps_id
  | insensitive keeps _ => exact keeps

theorem Mode.Folds.eval (h : mode.Folds db fold) {σ : Scope (List Char)} {lhs : Scalar}
    {text : List Char} (htext : lhs.eval db σ = some text) :
    (mode.fold lhs).eval db σ = some (text.map fold) := by
  cases h with
  | sensitive => rwa [List.map_id]
  | insensitive _ lower =>
    rw [Mode.fold, Scalar.eval, htext]
    exact lower text

end

/-- A pattern operator on a field of text compiles to `LIKE` with a bound pattern. A text is
accepted for it if and only if it has the operand in the place asked for, as it stands or
with both folded by any fold that leaves the marks of patterns alone; so the condition
holds of just those texts, in either mode. -/
theorem patterns_match_literally (m : Model) (f : Field) (lhs : Scalar) (mode : Mode)
    (p : Pattern) (part : String) (htype : f.type.isTextual = true) :
    ∃ pattern : String,
      Condition.operator m f lhs mode p.key (.str part) =
        .ok (.like (mode.fold lhs) (mode.fold (.bound (.text pattern)))) ∧
      (∀ text, Pattern.accepts pattern.toList text = true ↔ p.Finds part.toList text) ∧
      (∀ fold, Pattern.Keeps fold → ∀ text : List Char,
        Pattern.accepts (pattern.toList.map fold) (text.map fold) = true ↔
          p.Finds (part.toList.map fold) (text.map fold)) ∧
      ∀ (db : Database (List Char)) (fold : Char → Char) (σ : Scope (List Char))
        (text : List Char), db.Textual → mode.Folds db fold → lhs.eval db σ = some text →
          ((Pred.like (mode.fold lhs) (mode.fold (.bound (.text pattern)))).eval db σ = .yes ↔
            p.Finds (part.toList.map fold) (text.map fold)) := by
  refine ⟨p.write part, ?_, fun text => ?_, fun fold hfold text => ?_, ?_⟩
  · simp [Condition.operator, p.key_found, Condition.pattern, htype]
  · simpa using Pattern.accepts_iff_finds Pattern.keeps_id p part text
  · exact Pattern.accepts_iff_finds hfold p part (text.map fold)
  · intro db fold σ text hdb hfold htext
    have hpattern : (mode.fold (.bound (.text (p.write part)))).eval db σ =
        some ((p.write part).toList.map fold) := hfold.eval (hdb.bound_text _)
    rw [Pred.eval, hfold.eval htext, hpattern, Database.likeCells, hdb.like_eq,
      Truth.of_bool_eq_yes]
    exact Pattern.accepts_iff_finds hfold.keeps p part (text.map fold)

namespace Sample

def texts : Database (List Char) where
  rows := fun _ => []
  bound
    | .text s => some s.toList
    | _ => none
  compare := fun op x y => .ofBool (decide (x = y) == decide (op = .eq))
  like := fun text pattern => .ofBool (Pattern.accepts pattern text)
  lower := fun text => some (text.map Char.toLower)

theorem texts_textual : texts.Textual := ⟨fun _ => rfl, fun _ _ => rfl⟩

theorem to_lower_keeps : Pattern.Keeps Char.toLower where
  mark := by
    intro c hc
    simp only [Pattern.marks, List.mem_cons, List.not_mem_nil, or_false] at hc
    rcases hc with rfl | rfl | rfl <;> rfl
  plain := by
    intro c hc
    unfold Char.toLower
    split
    · rename_i hupper
      have hlow : 65 ≤ c.val.toNat := hupper.1
      have hhigh : c.val.toNat ≤ 90 := hupper.2
      have hfold : (c.val + ('a'.val - 'A'.val)).toNat = c.val.toNat + 32 := by
        rw [UInt32.toNat_add, show ('a'.val - 'A'.val).toNat = 32 from rfl]
        omega
      intro hmem
      have hmark := List.mem_map_of_mem (f := Char.toNat) hmem
      change (c.val + ('a'.val - 'A'.val)).toNat ∈ [37, 95, 92] at hmark
      rw [hfold] at hmark
      simp only [List.mem_cons, List.not_mem_nil, or_false] at hmark
      omega
    · exact hc

def offer : String := "50%_Off\\"

end Sample

theorem sample_patterns_match_literally : ScalarType.string.isTextual = true ∧
    ∃ pattern : String,
      Condition.operator Sample.user { name := "name", type := .string } (.column ⟨⟨0⟩, "name"⟩)
          .insensitive "startsWith" (.str Sample.offer) =
        .ok (.like (.folded (.column ⟨⟨0⟩, "name"⟩)) (.folded (.bound (.text pattern)))) ∧
      (∀ text, Pattern.accepts pattern.toList text = true ↔ Sample.offer.toList <+: text) ∧
      ∀ (σ : Scope (List Char)) (text : List Char), σ.cell ⟨⟨0⟩, "name"⟩ = some text →
        ((Pred.like (.folded (.column ⟨⟨0⟩, "name"⟩)) (.folded (.bound (.text pattern)))).eval
            Sample.texts σ = .yes ↔
          "50%_off\\".toList <+: text.map Char.toLower) := by
  obtain ⟨pattern, hc, hplain, -, hholds⟩ := patterns_match_literally Sample.user
    { name := "name", type := .string } (.column ⟨⟨0⟩, "name"⟩) .insensitive .startsWith
      Sample.offer rfl
  refine ⟨rfl, pattern, hc, hplain, fun σ text htext => ?_⟩
  exact hholds Sample.texts Char.toLower σ text Sample.texts_textual
    (.insensitive Sample.to_lower_keeps fun _ => rfl) htext

end QuerySql
