import QuerySql.Proofs.Connectives
import QuerySql.Proofs.Declared
import QuerySql.Proofs.Preservation

/-!
# Text operators

A pattern is matched against text, and the case of text is all there is to fold. Both are
allowed by the type of the field that a condition is written for. In a filter the field is
what is compared. In a condition on groups it is an aggregate of the field: the least and
the greatest value have the type of the field, a sum and an average are not taken of text,
but a count is a number whatever it counts. So a condition on the count of a text field
may match a number against a pattern, and nothing else may.
-/

set_option autoImplicit false

namespace QuerySql

def Column.Textual (T : Tables) (c : Column) : Prop :=
  ∃ m f, T c.tag = some (.model m) ∧ m.field? c.name = some f ∧ f.type.isTextual = true

namespace Scalar

/-- A column of text, or one of the aggregates `A` of such a column. -/
def Textual (A : Aggregate → Prop) (T : Tables) : Scalar → Prop
  | .column c => c.Textual T
  | .aggregate kind c => A kind ∧ ∃ x ∈ c, x.Textual T
  | .bound _ => False
  | .folded s => s.Textual A T

def Folds (A : Aggregate → Prop) (T : Tables) : Scalar → Prop
  | .folded s => s.Textual A T ∨ ∃ value, s = .bound value
  | _ => True

end Scalar

/-- Patterns are matched against text, and case is folded of text. -/
inductive Pred.Textual (schema : Schema) (A : Aggregate → Prop) : Tables → Pred → Prop
  | truth {T : Tables} {value : Bool} : Textual schema A T (.truth value)
  | compare {T : Tables} {lhs rhs : Scalar} {op : Comparison} (left : lhs.Folds A T)
      (right : rhs.Folds A T) : Textual schema A T (.compare lhs op rhs)
  | compareRows {T : Tables} {columns : List Column} {op : Comparison} {values : List Value} :
      Textual schema A T (.compareRows columns op values)
  | isNull {T : Tables} {s : Scalar} {negated : Bool} (operand : s.Folds A T) :
      Textual schema A T (.isNull s negated)
  | isIn {T : Tables} {s : Scalar} {items : List Scalar} {negated : Bool}
      (operand : s.Folds A T) (listed : ∀ item ∈ items, item.Folds A T) :
      Textual schema A T (.isIn s items negated)
  | like {T : Tables} {s pattern : Scalar} (operand : s.Textual A T)
      (right : pattern.Folds A T) : Textual schema A T (.like s pattern)
  | and {T : Tables} {operands : List Pred} (all : ∀ p ∈ operands, Textual schema A T p) :
      Textual schema A T (.and operands)
  | or {T : Tables} {operands : List Pred} (all : ∀ p ∈ operands, Textual schema A T p) :
      Textual schema A T (.or operands)
  | not {T : Tables} {operand : Pred} (inner : Textual schema A T operand) :
      Textual schema A T (.not operand)
  | related {T : Tables} {negated : Bool} {table : String} {tag : Alias}
      {conditions : List Pred} {src : Source} (stored : schema.Stores src)
      (named : src.table = table)
      (all : ∀ p ∈ conditions, Textual schema A (T.bind tag src) p) :
      Textual schema A T (.related negated table tag conditions)

/-- A filter has no aggregates, and a condition on groups those of `A`. -/
structure Body.Textual (schema : Schema) (A : Aggregate → Prop) (T : Tables) (b : Body) :
    Prop where
  filter : ∀ p ∈ b.filter, p.Textual schema (fun _ => False) T
  having : ∀ p ∈ b.having, p.Textual schema A T
  orderBy : ∀ it ∈ b.orderBy, it.key.Folds A T

inductive Projection.Textual (schema : Schema) (A : Aggregate → Prop) :
    Tables → Projection → Prop
  | column {T : Tables} {c : Column} : Textual schema A T (.column c)
  | aggregate {T : Tables} {kind : Aggregate} {c : Option Column} {name : String} :
      Textual schema A T (.aggregate kind c name)
  | relation {T : Tables} {name : String} {toMany : Bool} {fold : Alias}
      {columns : List Projection} {body : Body} {src : Source} (stored : schema.Stores src)
      (named : src.table = body.table)
      (own : ∀ p ∈ columns, Textual schema A (T.bind body.tag src) p)
      (rows : body.Textual schema A (T.bind body.tag src)) :
      Textual schema A T (.relation name toMany fold columns body)

inductive Statement.Textual (schema : Schema) (A : Aggregate → Prop) (src : Source) :
    Statement → Prop
  | select {columns : List Projection} {distinct : List Column} {body : Body}
      (named : src.table = body.table)
      (own : ∀ p ∈ columns, p.Textual schema A (.only body.tag src))
      (rows : body.Textual schema A (.only body.tag src)) :
      Textual schema A src (.select columns distinct body)
  | overPage {columns : List Projection} {tag : Alias} {page : List Column} {body : Body}
      (named : src.table = body.table)
      (own : ∀ p ∈ columns, p.Textual schema A (.only tag src))
      (rows : body.Textual schema A (.only body.tag src)) :
      Textual schema A src (.overPage columns tag page body)
  | insert {assignments : List (String × Value)} :
      Textual schema A src (.insert src.table assignments)
  | update {tag : Alias} {assignments : List (String × Value)} {filter : Option Pred}
      (rows : ∀ p ∈ filter, p.Textual schema (fun _ => False) (.only tag src)) :
      Textual schema A src (.update src.table tag assignments filter)
  | delete {tag : Alias} {filter : Option Pred}
      (rows : ∀ p ∈ filter, p.Textual schema (fun _ => False) (.only tag src)) :
      Textual schema A src (.delete src.table tag filter)

namespace Condition

mutual

/-- The operators have a pattern or the insensitive mode among them, here or under a
negation. -/
def asksText : List (String × Json) → Bool
  | [] => false
  | (key, value) :: rest => entryAsksText key value || asksText rest

def entryAsksText (key : String) : Json → Bool
  | .obj nested => asksText nested
  | .str text =>
    if key = modeKey then text = "insensitive"
    else
      match FieldOperator.ofKey? key with
      | some (.pattern _) => true
      | _ => false
  | _ => false

end

end Condition

def Json.asksText : Json → Bool
  | .obj entries => Condition.asksText entries
  | _ => false

namespace Having

mutual

def countsText : List (String × Json) → Bool
  | [] => false
  | (key, value) :: rest =>
    (key = Aggregate.count.key && value.asksText) || countsTextIn value || countsText rest

def countsTextIn : Json → Bool
  | .obj entries => countsText entries
  | .arr items => itemsCountText items
  | _ => false

def itemsCountText : List Json → Bool
  | [] => false
  | json :: rest => countsTextIn json || itemsCountText rest

end

def Outcome.countsText : Outcome → Bool
  | .conditions entries _ => Having.countsText entries
  | .connective _ value _ => countsTextIn value
  | .each items _ => itemsCountText items

end Having

section

variable {schema : Schema} {A : Aggregate → Prop} {T : Tables}

theorem Pred.textual_closed : Pred.Closed (Pred.Textual schema A T) where
  truth _ := .truth
  and _ := .and
  or _ := .or
  not _ := .not

namespace Condition

variable {m : Model} {f : Field} {lhs : Scalar}

theorem fold_folds {mode : Mode} {s : Scalar} (hs : s.Folds A T)
    (htext : mode = .insensitive → s.Textual A T ∨ ∃ value, s = .bound value) :
    (mode.fold s).Folds A T := by
  cases mode with
  | sensitive => exact hs
  | insensitive => exact htext rfl

theorem operates_textual {mode : Mode} {op : FieldOperator} {json : Json} {p : Pred}
    (h : Operates f lhs mode op json p) (hlhs : lhs.Folds A T)
    (hmode : mode = .insensitive → lhs.Textual A T)
    (hpattern : (∃ q, op = .pattern q) → f.type.isTextual = true → lhs.Textual A T) :
    p.Textual schema A T := by
  have hleft : (mode.fold lhs).Folds A T := fold_folds hlhs fun h => .inl (hmode h)
  have hbound : ∀ v, (mode.fold (.bound v)).Folds A T :=
    fun v => fold_folds trivial fun _ => .inr ⟨v, rfl⟩
  cases h with
  | isNull | isNotNull => exact .isNull hlhs
  | compare _ _ => exact .compare hleft (hbound _)
  | noItems => exact .truth
  | isIn _ _ =>
    refine .isIn hleft fun item hi => ?_
    obtain ⟨v, _, rfl⟩ := List.mem_map.mp hi
    exact hbound v
  | pattern ht =>
    have htext : (mode.fold lhs).Textual A T := by
      cases mode <;> exact hpattern ⟨_, rfl⟩ ht
    exact .like htext (hbound _)

theorem mode_textual {mode inner : Mode} {entries : Json.Entries}
    (h : Condition.mode m f mode entries = .ok inner)
    (hmode : mode = .insensitive → f.type.isTextual = true) :
    inner = .insensitive → f.type.isTextual = true := by
  unfold Condition.mode at h
  split at h
  · cases h
    exact hmode
  · split at h
    · split at h
      · cases h
        exact nofun
      · split at h
        · split at h
          · rename_i htext
            exact fun _ => htext
          · cases h
        · cases h
    · cases h

theorem not_asked_entry {entries : Json.Entries} (h : asksText entries = false) :
    ∀ e ∈ entries, entryAsksText e.1 e.2 = false := by
  induction entries with
  | nil => exact List.forall_mem_nil _
  | cons e rest ih =>
    obtain ⟨hhere, hlater⟩ := Bool.or_eq_false_iff.mp h
    exact List.forall_mem_cons.mpr ⟨hhere, ih hlater⟩

theorem within_of_not_asked {entries : Json.Entries} (h : asksText entries = false) :
    Mode.sensitive.within entries = .sensitive := by
  have hmode : entries.get? modeKey ≠ some (.str "insensitive") := by
    intro hget
    obtain ⟨before, after, hentries, -⟩ := List.lookup_eq_some_iff.mp hget
    have hmem : (modeKey, Json.str "insensitive") ∈ entries :=
      hentries ▸ List.mem_append_right _ (.head _)
    exact nomatch not_asked_entry h _ hmem
  unfold Mode.within
  split
  · rename_i hget
    exact absurd hget hmode
  · rfl
  · rfl

/-- Operators on a text field are for a scalar that is text, or do not ask for any. -/
def Fits (A : Aggregate → Prop) (T : Tables) (f : Field) (lhs : Scalar) (mode : Mode)
    (entries : Json.Entries) : Prop :=
  f.type.isTextual = true → lhs.Textual A T ∨ mode = .sensitive ∧ asksText entries = false

theorem Fits.later {mode : Mode} {e : String × Json} {rest : Json.Entries}
    (h : Fits A T f lhs mode (e :: rest)) : Fits A T f lhs mode rest := by
  intro hf
  refine (h hf).imp_right fun ⟨hmode, hasks⟩ => ⟨hmode, ?_⟩
  exact (Bool.or_eq_false_iff.mp hasks).2

theorem Fits.nested {mode inner : Mode} {nested rest : Json.Entries}
    (h : Fits A T f lhs mode (("not", .obj nested) :: rest))
    (hm : Condition.mode m f mode nested = .ok inner) : Fits A T f lhs inner nested := by
  intro hf
  refine (h hf).imp_right fun ⟨hmode, hasks⟩ => ?_
  have hnested : asksText nested = false := (Bool.or_eq_false_iff.mp hasks).1
  have hinner := mode_within hm
  rw [hmode, within_of_not_asked hnested] at hinner
  exact ⟨hinner, hnested⟩

theorem runs_textual {mode : Mode} {entries : Json.Entries} {ps : List Pred}
    (h : Runs m f lhs mode entries ps) (hlhs : lhs.Folds A T)
    (hmode : mode = .insensitive → f.type.isTextual = true) (hfits : Fits A T f lhs mode entries) :
    ∀ p ∈ ps, p.Textual schema A T := by
  -- the mode changes under a negation, so what it says of the field goes along
  induction h with
  | nil => exact List.forall_mem_nil _
  | mode _ ih => exact ih hmode hfits.later
  | negation hm _ _ ih ihl =>
    refine List.forall_mem_append.mpr ⟨fun p hp => ?_, ihl hmode hfits.later⟩
    obtain ⟨q, hq, rfl⟩ := Option.map_eq_some_iff.mp (Option.mem_toList.mp hp)
    have hnested := ih (mode_textual hm hmode) (hfits.nested hm)
    exact .not (Pred.textual_closed.optional hnested q hq)
  | @operator mode key op json rest p ps hne hk here _ ih =>
    refine List.forall_mem_cons.mpr
      ⟨operates_textual here hlhs (fun hin => ?_) ?_, ih hmode hfits.later⟩
    · rcases hfits (hmode hin) with hlhs | ⟨hs, -⟩
      · exact hlhs
      · cases hin.symm.trans hs
    · rintro ⟨q, rfl⟩ hf
      rcases hfits hf with hlhs | ⟨-, hasks⟩
      · exact hlhs
      · cases here with
        | compare hc _ => cases hc
        | pattern _ =>
          have hentry := (Bool.or_eq_false_iff.mp hasks).1
          rw [entryAsksText, if_neg hne, hk] at hentry
          cases hentry

theorem compiles_textual {json : Json} {p : Option Pred} (h : Compiles m f lhs json p)
    (hlhs : lhs.Folds A T)
    (htext : f.type.isTextual = true → lhs.Textual A T ∨ json.asksText = false) :
    ∀ q ∈ p, q.Textual schema A T := by
  cases h with
  | null =>
    rintro _ ⟨⟩
    exact .isNull hlhs
  | scalar _ =>
    rintro _ ⟨⟩
    exact .compare hlhs trivial
  | operators hm here =>
    have hmode := mode_textual hm nofun
    refine Pred.textual_closed.optional (runs_textual here hlhs hmode fun hf => ?_)
    refine (htext hf).imp_right fun hasks => ⟨?_, hasks⟩
    rw [mode_within hm]
    exact within_of_not_asked hasks

end Condition

end

section

variable {schema : Schema} {A : Aggregate → Prop} {T : Tables} {cx : Context}

theorem Column.textual_of_field (ht : T cx.tag = some (.model cx.model)) {f : Field}
    {name : String} (hf : cx.model.field? name = some f) (htext : f.type.isTextual = true) :
    (Compile.column cx f).Textual T := by
  have hname : f.name = name := (Model.field_mem hf).2
  exact ⟨cx.model, f, ht, (congrArg cx.model.field? hname).trans hf, htext⟩

namespace Link

variable {r : Relation} {parent child : Context} {ps : List Pred} {a b : Aliases}

theorem guard_textual (own referenced : String) :
    (guard r parent child own referenced).Textual schema A T := by
  unfold guard
  split <;> exact .isNull trivial

theorem junction_textual {j : Junction} {own referenced : String}
    (hm : parent.model ∈ schema.models) (hr : r ∈ parent.model.relations)
    (hj : r.through = some j) (tag : Alias) :
    (junctionRow j tag parent child own referenced).Textual schema A T :=
  .related (.junction hm hr hj) rfl (List.forall_mem_cons.mpr
    ⟨.compare trivial trivial, List.forall_mem_singleton.mpr (.compare trivial trivial)⟩)

theorem joins_textual (h : Joins r parent child ps a b) (hm : parent.model ∈ schema.models)
    (hr : r ∈ parent.model.relations) : ∀ p ∈ ps, p.Textual schema A T := by
  cases h with
  | keys _ =>
    refine List.forall_mem_append.mpr ⟨fun p hp => ?_, fun p hp => ?_⟩
    · obtain ⟨pair, -, rfl⟩ := List.mem_map.mp hp
      exact .compare trivial trivial
    · obtain ⟨pair, -, rfl⟩ := List.mem_map.mp hp
      exact guard_textual pair.1 pair.2
  | junction _ hj _ => exact List.forall_mem_singleton.mpr (junction_textual hm hr hj _)

theorem correlates_textual (h : Correlates r parent child ps a b)
    (hm : parent.model ∈ schema.models) (hr : r ∈ parent.model.relations) :
    ∀ p ∈ ps, p.Textual schema A T := by
  cases h with
  | keys _ _ =>
    intro p hp
    obtain ⟨pair, -, rfl⟩ := List.mem_map.mp hp
    exact .compare trivial trivial
  | junction hj _ _ => exact List.forall_mem_singleton.mpr (junction_textual hm hr hj _)

end Link

theorem Keyset.past_textual {orderBy : Option (List Json.Entries)} {cursor : Option Json.Entries}
    {qs : List Pred} (h : Keyset.Past cx orderBy cursor qs) : ∀ q ∈ qs, q.Textual schema A T := by
  cases h with
  | none => exact List.forall_mem_nil _
  | some _ _ _ _ =>
    refine List.forall_mem_singleton.mpr ?_
    unfold Keyset.row
    split
    · exact .compare trivial trivial
    · exact .compareRows

theorem ScalarType.numeric_not_textual {type : ScalarType} (h : type.isNumeric = true) :
    type.isTextual = false := by
  cases type <;> first | rfl | cases h

theorem Model.field_of_expect {m : Model} {name : String} {f : Field}
    (h : m.expectField name = .ok f) : m.field? name = some f := by
  unfold Model.expectField at h
  split at h
  · rename_i found hfound
    cases h
    exact hfound
  · cases h

theorem Aggregation.field_typed {m : Model} {kind : Aggregate} {name : String} {f : Field}
    (h : Aggregation.field m kind name = .ok f) :
    m.field? name = some f ∧ (kind.needsNumeric = true → f.type.isNumeric = true) := by
  simp only [Aggregation.field, except_bind_ok] at h
  obtain ⟨g, hg, h⟩ := h
  split at h
  · simp only [except_bind_ok, except_throw_ok, false_and, exists_false] at h
  · rename_i hnumeric
    cases h
    refine ⟨Model.field_of_expect hg, fun hneeds => ?_⟩
    simpa [hneeds] using hnumeric

namespace Having

variable (hmin : A .min) (hmax : A .max)
include hmin hmax

theorem aggregate_textual {f g : Field} {kind : Aggregate} {key : String} {value : Json}
    (ht : T cx.tag = some (.model cx.model)) (hk : Aggregate.ofKey? key = some kind)
    (hg : Aggregation.field cx.model kind f.name = .ok g)
    (hcount : key = Aggregate.count.key → value.asksText = true → A .count)
    (htext : g.type.isTextual = true) :
    (Scalar.aggregate kind (some (Compile.column cx g))).Textual A T ∨ value.asksText = false := by
  obtain ⟨hfield, hnumeric⟩ := Aggregation.field_typed hg
  have hcolumn : ∃ x ∈ some (Compile.column cx g), x.Textual T :=
    ⟨_, rfl, Column.textual_of_field ht hfield htext⟩
  cases kind with
  | min => exact .inl ⟨hmin, hcolumn⟩
  | max => exact .inl ⟨hmax, hcolumn⟩
  | sum | avg => cases (ScalarType.numeric_not_textual (hnumeric rfl)).symm.trans htext
  | count =>
    have hkey : Aggregate.count.key = key := by simpa using List.find?_some hk
    cases hasks : value.asksText with
    | false => exact .inr rfl
    | true => exact .inl ⟨hcount hkey.symm hasks, hcolumn⟩

theorem aggregates_textual {f : Field} {entries : Json.Entries} {ps : List Pred}
    (h : Aggregates cx f entries ps) (ht : T cx.tag = some (.model cx.model))
    (hcount : countsText entries = true → A .count) : ∀ p ∈ ps, p.Textual schema A T := by
  induction h with
  | nil => exact List.forall_mem_nil _
  | other _ _ ih => exact ih fun hlater => hcount (by simp [countsText, hlater])
  | aggregate hk hg here _ ih =>
    have hlater := ih fun hlater => hcount (by simp [countsText, hlater])
    refine List.forall_mem_append.mpr ⟨fun p hp => ?_, hlater⟩
    refine Condition.compiles_textual here trivial (fun htext => ?_) p (Option.mem_toList.mp hp)
    exact aggregate_textual hmin hmax ht hk hg
      (fun hkey hasks => hcount (by simp [countsText, hkey, hasks])) htext

theorem field_textual {f : Field} {key : String} {value : Json} {ps : List Pred}
    (h : FieldRuns cx f value ps) (ht : T cx.tag = some (.model cx.model))
    (hf : cx.model.field? key = some f) (hcount : countsTextIn value = true → A .count) :
    ∀ p ∈ ps, p.Textual schema A T := by
  have hplain : ∀ {json : Json} {p : Option Pred},
      Condition.Compiles cx.model f (.column (Compile.column cx f)) json p →
        ∀ q ∈ p, q.Textual schema A T :=
    fun hcompiles => Condition.compiles_textual hcompiles trivial fun htext =>
      .inl (Column.textual_of_field ht hf htext)
  cases h with
  | entries aggregates plain =>
    refine List.forall_mem_append.mpr
      ⟨aggregates_textual hmin hmax aggregates ht hcount, fun p hp => ?_⟩
    exact hplain plain p (Option.mem_toList.mp hp)
  | literal _ plain => exact fun p hp => hplain plain p (Option.mem_toList.mp hp)

theorem runs_textual {o : Outcome} (h : Runs cx o) (ht : T cx.tag = some (.model cx.model))
    (hcount : o.countsText = true → A .count) : ∀ p ∈ o.preds, p.Textual schema A T := by
  induction h with
  | nil | noItem => exact List.forall_mem_nil _
  | connectiveEntry _ _ _ ih ihl =>
    simp only [Outcome.countsText, Having.countsText, Bool.or_eq_true] at ih ihl hcount
    exact List.forall_mem_append.mpr
      ⟨ih fun h => hcount (.inl (.inr h)), ihl fun h => hcount (.inr h)⟩
  | fieldEntry _ hf here _ ih =>
    simp only [Outcome.countsText, Having.countsText, Bool.or_eq_true] at ih hcount
    exact List.forall_mem_append.mpr ⟨field_textual hmin hmax here ht (Model.field_of_expect hf)
      fun h => hcount (.inl (.inr h)), ih fun h => hcount (.inr h)⟩
  | object _ hp ih =>
    exact List.forall_mem_singleton.mpr (Pred.textual_closed.apply hp
      (List.forall_mem_singleton.mpr (Pred.textual_closed.optional (ih hcount))))
  | array _ _ hp ih =>
    refine List.forall_mem_singleton.mpr (Pred.textual_closed.apply hp fun o ho q hq => ?_)
    exact ih hcount q (List.mem_filterMap.mpr ⟨o, ho, hq⟩)
  | item _ _ ih ihl =>
    simp only [Outcome.countsText, itemsCountText, countsTextIn, Bool.or_eq_true] at ih ihl hcount
    rw [Outcome.preds, Connective.operand_cons]
    refine List.forall_mem_append.mpr ⟨fun p hp => ?_, ihl fun h => hcount (.inr h)⟩
    exact Pred.textual_closed.optional (ih fun h => hcount (.inl h)) p (Option.mem_toList.mp hp)

end Having

end

section

variable {s : Settings}

namespace Filter

theorem runs_textual {A : Aggregate → Prop} {o : Outcome} {a b : Aliases} (h : Runs s o a b) :
    o.Known s.schema → ∀ T : Tables, o.context.Stands T a →
      ∀ p ∈ o.preds, p.Textual s.schema A T := by
  induction h with
  | nil | noItem | noQuantifier => exact fun _ _ _ => List.forall_mem_nil _
  | connectiveEntry _ here _ ih ihl =>
    intro hm T hcx
    exact List.forall_mem_append.mpr ⟨ih hm T hcx, ihl hm T (hcx.mono (runs_used here))⟩
  | relationEntry _ _ hr here _ ih ihl =>
    intro hm T hcx
    exact List.forall_mem_append.mpr
      ⟨ih ⟨hm, Model.relation_mem hr⟩ T hcx, ihl hm T (hcx.mono (runs_used here))⟩
  | quantifier _ here _ ih ihl =>
    intro hk T hcx
    exact List.forall_mem_append.mpr ⟨ih hk T hcx, ihl hk T (hcx.mono (runs_used here))⟩
  | fieldEntry _ hf here _ ih =>
    intro hm T hcx
    refine List.forall_mem_append.mpr ⟨fun p hp => ?_, ih hm T hcx⟩
    have hcolumn := fun htext => Column.textual_of_field hcx.table hf htext
    exact Condition.compiles_textual here trivial (.inl ∘ hcolumn) p (Option.mem_toList.mp hp)
  | object _ hp ih =>
    intro hm T hcx
    exact List.forall_mem_singleton.mpr (Pred.textual_closed.apply hp
      (List.forall_mem_singleton.mpr (Pred.textual_closed.optional (ih hm T hcx))))
  | array _ _ hp ih =>
    intro hm T hcx
    refine List.forall_mem_singleton.mpr (Pred.textual_closed.apply hp fun o ho q hq => ?_)
    exact ih hm T hcx q (List.mem_filterMap.mpr ⟨o, ho, hq⟩)
  | item here _ ih ihl =>
    intro hm T hcx
    rw [Outcome.preds, Connective.operand_cons]
    refine List.forall_mem_append.mpr ⟨fun p hp => ?_, ihl hm T (hcx.mono (runs_used here))⟩
    exact Pred.textual_closed.optional (ih hm T hcx) p (Option.mem_toList.mp hp)
  | absent _ _ ih | bare _ _ ih | matching _ _ _ ih | presence _ _ _ ih => exact ih
  | keywords _ _ _ ih =>
    intro hk T hcx
    exact List.forall_mem_singleton.mpr (Pred.textual_closed.all (ih hk T hcx))
  | everyRecord _ => exact fun _ _ _ => List.forall_mem_singleton.mpr .truth
  | unfiltered ht _ link =>
    intro hk T hcx
    exact List.forall_mem_singleton.mpr (.related (.model (Schema.model_mem ht)) rfl
      (Link.joins_textual link hk.1 hk.2))
  | @filtered cx r _ _ _ target _ _ _ a _ _ ht _ _ hp link ih =>
    intro hk T hcx
    have hnested := ih (Schema.model_mem ht) _ (Context.Stands.nested T a cx r target)
    refine List.forall_mem_singleton.mpr (.related (.model (Schema.model_mem ht)) rfl
      (List.forall_mem_cons.mpr ⟨Pred.textual_closed.apply hp ?_,
        Link.joins_textual link hk.1 hk.2⟩))
    exact List.forall_mem_singleton.mpr (Pred.textual_closed.optional hnested)

end Filter

theorem Read.filtered_textual {A : Aggregate → Prop} {cx : Context} {args : Args}
    {p : Option Pred} {T : Tables} {a b : Aliases} (h : Read.Filtered s cx args p a b)
    (hm : cx.model ∈ s.schema.models) (hcx : cx.Stands T a) :
    ∀ q ∈ p, q.Textual s.schema A T := by
  cases h with
  | mk conditions past =>
    have hconditions := Pred.textual_closed.optional
      (Filter.runs_textual (A := A) conditions hm T hcx)
    refine Pred.textual_closed.optional (List.forall_mem_append.mpr ⟨fun q hq => ?_,
      Keyset.past_textual past⟩)
    exact hconditions q (Option.mem_toList.mp hq)

theorem Ordering.compile_folds {A : Aggregate → Prop} {T : Tables} {cx : Context}
    {orderBy : Option (List Json.Entries)} {grouped : Option (List String)}
    {items : List SortItem} (h : compile s cx orderBy grouped = .ok items) :
    ∀ it ∈ items, it.key.Folds A T := by
  intro it hit
  have hreads := compile_ok h it hit
  revert hreads
  cases it.key with
  | column _ | aggregate _ _ => exact fun _ => trivial
  | bound _ | folded _ => exact False.elim

theorem Projection.textual_of_reads {schema : Schema} {A : Aggregate → Prop} {T : Tables}
    {cx : Context} {p : Projection} (h : p.Reads cx) : p.Textual schema A T := by
  cases p with
  | column _ => exact .column
  | aggregate _ _ _ => exact .aggregate
  | relation => exact h.elim

namespace Records

variable {A : Aggregate → Prop}

theorem filtered_textual {child : Context} {filter : Option Json.Entries} {ps : List Pred}
    {T : Tables} {a b : Aliases} (h : Filtered s child filter ps a b)
    (hm : child.model ∈ s.schema.models) (hcx : child.Stands T a) :
    ∀ p ∈ ps, p.Textual s.schema A T := by
  cases h with
  | none => exact List.forall_mem_nil _
  | some conditions =>
    have hconditions := Filter.runs_textual (A := A) conditions hm T hcx
    exact List.forall_mem_singleton.mpr
      (Pred.textual_closed.present (Pred.textual_closed.optional hconditions))

theorem closes_textual {cx child : Context} {r : Relation} {args : RelationArgs}
    {columns : List Projection} {p : Projection} {T : Tables} {a b : Aliases}
    (h : Closes s cx child r args columns p a b) (hparent : cx.model ∈ s.schema.models)
    (hr : r ∈ cx.model.relations) (hm : child.model ∈ s.schema.models)
    (hchild : child.Stands (T.bind child.tag (.model child.model)) a)
    (hc : ∀ q ∈ columns, q.Textual s.schema A (T.bind child.tag (.model child.model))) :
    p.Textual s.schema A T := by
  cases h with
  | mk filter link order =>
    refine .relation (.model hm) rfl hc
      ⟨Pred.textual_closed.optional ?_, nofun, Ordering.compile_folds order⟩
    exact List.forall_mem_append.mpr
      ⟨filtered_textual filter hm hchild, Link.correlates_textual link hparent hr⟩

theorem runs_textual {o : Outcome} {a b : Aliases} (h : Runs s o a b) :
    o.Known s.schema → ∀ T : Tables, o.context.Stands T a →
      ∀ p ∈ o.columns, p.Textual s.schema A T := by
  induction h with
  | noSelected | noInclusion | omitted => exact fun _ _ _ => List.forall_mem_nil _
  | @fieldEntry cx _ flag _ f _ _ _ _ _ ih =>
    intro hm T hcx
    refine List.forall_mem_append.mpr ⟨?_, ih hm T hcx⟩
    cases flag with
    | false => exact List.forall_mem_nil _
    | true => exact List.forall_mem_singleton.mpr .column
  | relationEntry _ hr here _ ih ihl | inclusionEntry _ hr here _ ih ihl =>
    intro hm T hcx
    exact List.forall_mem_append.mpr
      ⟨ih ⟨hm, Model.relation_mem hr⟩ T hcx, ihl hm T (hcx.mono (runs_used here))⟩
  | @flagged cx r target _ a _ ht closing =>
    intro hk T hcx
    refine List.forall_mem_singleton.mpr (closes_textual closing hk.1 hk.2
      (Schema.model_mem ht) (Context.Stands.selected T a cx r target {}) ?_)
    exact fun q hq => Projection.textual_of_reads (field_columns_read _ q hq)
  | @arguments cx r _ args target _ _ a _ _ ht _ own closing ih =>
    intro hk T hcx
    have hchild := Context.Stands.selected T a cx r target args
    exact List.forall_mem_singleton.mpr (closes_textual closing hk.1 hk.2
      (Schema.model_mem ht) (hchild.mono (runs_used own)) (ih (Schema.model_mem ht) _ hchild))
  | allFields => exact fun _ _ _ q hq => Projection.textual_of_reads (field_columns_read _ q hq)
  | nestedSelection _ ih => exact ih
  | nestedInclusion _ ih =>
    intro hm T hcx
    refine List.forall_mem_append.mpr ⟨fun q hq => ?_, ih hm T hcx⟩
    exact Projection.textual_of_reads (field_columns_read _ q hq)
  | otherArgument _ _ ih => exact ih

theorem columns_textual {cx : Context} {select inclusion : Option Json.Entries}
    {ps : List Projection} {T : Tables} {a b : Aliases}
    (h : columns s cx select inclusion a = .ok (ps, b)) (hm : cx.model ∈ s.schema.models)
    (hcx : cx.Stands T a) : ∀ p ∈ ps, p.Textual s.schema A T := by
  rcases columns_ok h with ⟨entries, _, _, hrun⟩ | ⟨qs, _, rfl, hrun⟩
  · exact runs_textual hrun hm T hcx
  · refine List.forall_mem_append.mpr ⟨fun q hq => ?_, runs_textual hrun hm T hcx⟩
    exact Projection.textual_of_reads (field_columns_read cx q hq)

end Records

/-- Whatever statement a query compiles to, text operators are for text in it, and for a
count if one is asked for text. -/
theorem Statement.runs_textual {A : Aggregate → Prop} {cx : Context} {args : Args}
    {op : Operation} {st : Statement} {b : Aliases} (h : Statement.Runs s cx args op st b)
    (hm : cx.model ∈ s.schema.models) (ht : cx.tag = ⟨0⟩) (hmin : A .min) (hmax : A .max)
    (hcount : Having.countsText (args.having.getD []) = true → A .count) :
    st.Textual s.schema A (.model cx.model) := by
  have hcx : cx.Stands (.only cx.tag (.model cx.model)) ⟨1⟩ :=
    ⟨Tables.bind_self _ _ _, ht ▸ Nat.one_pos⟩
  have hfiltered : ∀ {p : Option Pred} {a d : Aliases}, 1 ≤ a.used →
      Read.Filtered s cx args p a d →
        ∀ q ∈ p, q.Textual s.schema (fun _ => False) (.only cx.tag (.model cx.model)) :=
    fun ha hp => Read.filtered_textual hp hm (hcx.mono ha)
  have hconditions : ∀ {entries : Json.Entries} {ps : List Pred} {d : Aliases},
      Filter.Runs s (.conditions cx entries ps) ⟨1⟩ d → ∀ q ∈ Pred.all? ps,
        q.Textual s.schema (fun _ => False) (.only cx.tag (.model cx.model)) :=
    fun hps => Pred.textual_closed.optional (Filter.runs_textual hps hm _ hcx)
  cases h with
  | find _ columns _ filter order =>
    exact .select rfl (Records.columns_textual columns hm hcx)
      ⟨hfiltered (Records.columns_used columns) filter, nofun, Ordering.compile_folds order⟩
  | aggregate _ filter columns _ =>
    exact .select rfl (fun q hq => Projection.textual_of_reads (columns q hq))
      ⟨hfiltered (Nat.le_refl 1) filter, nofun, List.forall_mem_nil _⟩
  | overPage _ filter _ columns order =>
    exact .overPage rfl (fun q hq => Projection.textual_of_reads (columns q hq))
      ⟨hfiltered (Nat.le_refl 1) filter, nofun, Ordering.compile_folds order⟩
  | groupBy columns filter having _ order =>
    exact .select rfl (fun q hq => Projection.textual_of_reads (columns q hq))
      ⟨hfiltered (Nat.le_refl 1) filter, Pred.textual_closed.optional
        (Having.runs_textual hmin hmax having hcx.table hcount),
          Ordering.compile_folds order⟩
  | create _ _ => exact .insert
  | update _ _ conditions => exact .update (hconditions conditions)
  | delete conditions => exact .delete (hconditions conditions)

end

/-- In a compiled query a pattern is matched against a column of text, or the least, the
greatest or the count of one, and case is folded of nothing else but bound values. A count
is among them only if the condition on groups asks a count for text. -/
theorem text_operators_touch_text (c : Compiler) (model : String) (op : Operation) (args : Args)
    (prepared : Prepared) (h : c.compile model op args = .ok prepared) :
    ∃ m st as, c.schema.model? model = some m ∧ c.statement model op args = .ok (st, as) ∧
      prepared = (st.render c.dialect).prepare c.dialect ∧
      st.Textual c.schema (fun kind => kind = .min ∨ kind = .max ∨ kind = .count) (.model m) ∧
      (Having.countsText (args.having.getD []) = false →
        st.Textual c.schema (fun kind => kind = .min ∨ kind = .max) (.model m)) := by
  obtain ⟨st, as, hst, rfl⟩ := Compiler.compile_ok h
  obtain ⟨m, hm, _, hruns⟩ := Compiler.statement_ok hst
  have hmem : m ∈ c.settings.schema.models := Schema.model_mem hm
  refine ⟨m, st, as, hm, hst, rfl, ?_, fun hcount => ?_⟩
  · exact Statement.runs_textual hruns hmem rfl (.inl rfl) (.inr (.inl rfl))
      fun _ => .inr (.inr rfl)
  · exact Statement.runs_textual hruns hmem rfl (.inl rfl) (.inr rfl)
      fun htrue => nomatch hcount.symm.trans htrue

namespace Sample

def leastNames : Args where
  grouping := some ["age"]
  having := some [("name", .obj [("_min", .obj [("startsWith", .str "a"),
    ("mode", .str "insensitive")]), ("_count", .obj [("gt", .num (.int 1))])])]

def matchedCounts : Args where
  grouping := some ["age"]
  having := some [("name", .obj [("_count", .obj [("contains", .str "1")])])]

end Sample

theorem sample_text_operators_touch_text :
    Having.countsText (Sample.leastNames.having.getD []) = false ∧
    ∃ prepared, (Sample.compiler .postgresql).compile "User" .groupBy Sample.leastNames =
        .ok prepared ∧
      ∃ st as, (Sample.compiler .postgresql).statement "User" .groupBy Sample.leastNames =
          .ok (st, as) ∧
        st.Textual Sample.schema (fun kind => kind = .min ∨ kind = .max) (.model Sample.user) := by
  have hcount : Having.countsText (Sample.leastNames.having.getD []) = false := by decide
  have hcompiles : ∃ prepared, (Sample.compiler .postgresql).compile "User" .groupBy
      Sample.leastNames = .ok prepared := ⟨_, by with_unfolding_all rfl⟩
  obtain ⟨prepared, hc⟩ := hcompiles
  obtain ⟨m, st, as, hm, hst, -, -, htextual⟩ := text_operators_touch_text _ _ _ _ _ hc
  cases hm
  exact ⟨hcount, prepared, hc, st, as, hst, htextual hcount⟩

/-- The number of names in a group is matched against a pattern. -/
theorem count_is_matched_as_text :
    (Schema.Builder.build ⟨none, Sample.schema.models⟩).1 = .ok Sample.schema ∧
    ∃ prepared columns body as,
      (Sample.compiler .postgresql).compile "User" .groupBy Sample.matchedCounts =
        .ok prepared ∧
      (Sample.compiler .postgresql).statement "User" .groupBy Sample.matchedCounts =
        .ok (.select columns [] body, as) ∧
      body.having = some (.like (.aggregate .count (some ⟨⟨0⟩, "name"⟩)) (.bound (.text "%1%"))) ∧
      ¬ (Statement.select columns [] body).Textual Sample.schema
        (fun kind => kind = .min ∨ kind = .max) (.model Sample.user) := by
  refine ⟨rfl, _, _, _, _, by with_unfolding_all rfl, by with_unfolding_all rfl, rfl, ?_⟩
  rintro ⟨_, _, rows⟩
  cases rows.having _ rfl with
  | like operand _ => rcases operand.1 with hkind | hkind <;> cases hkind

end QuerySql
