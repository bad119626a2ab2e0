import Mathlib.Data.List.Induction
import QuerySql.Proofs.Markers
import QuerySql.Proofs.WellFormed

/-!
# Operations that need their operand

The compiler takes the first key of a cursor, the only operand of a negation, the
place of a leading field, and adds context to errors. Here each of these is done
by position and gives nothing where there is no such position. None of them ever
does, so what they give is what is compiled.
-/

set_option autoImplicit false

namespace QuerySql

namespace Connective

/-- A connective whose negation takes its operand out of the first position. -/
def applyAt (m : Model) (c : Connective) (operands : List (Option Pred)) :
    Except Error (Option Pred) :=
  match c with
  | .and => .ok (some ((Pred.all? (operands.filterMap id)).getD (.truth true)))
  | .or => .ok (some (Pred.any (operands.map fun p => p.getD (.truth true))))
  | .not =>
    let ps := operands.filterMap id
    if ps.length ≠ 1 then .error (m.fault (.negationArity ps.length))
    else .ok (ps[0]?.map .not)

theorem apply_at (m : Model) (c : Connective) (operands : List (Option Pred)) :
    c.applyAt m operands = some <$> c.apply m operands := by
  cases c with
  | and => rfl
  | or => rfl
  | not =>
    simp only [applyAt, apply]
    rcases operands.filterMap id with _ | ⟨p, _ | ⟨q, rest⟩⟩
    · rfl
    · rfl
    · simp

end Connective

namespace Keyset

/-- The condition of a cursor, with the direction of the key in the first position,
and with the column and value in the first positions if there is one of each. -/
def compileAt (cx : Context) (cursor : Json.Entries) (orderBy : Option (List Json.Entries)) :
    Except Error (Option Pred) := do
  if cursor.isEmpty then throw (cx.model.fault .emptyCursor)
  let keys ← keys cx.model cursor orderBy
  match keys[0]? with
  | none => return none
  | some first => do
    if keys.any (·.direction ≠ first.direction) then throw (.unsupported .cursorMixedDirections)
    let bounds ← keys.mapM (boundary cx)
    let columns := bounds.map (·.1)
    let values := bounds.map (·.2)
    if columns.length = 1 then
      match columns[0]?, values[0]? with
      | some column, some value =>
        return some (.compare (.column column) (pastOp first.direction) (.bound value))
      | _, _ => return none
    else return some (.compareRows columns (pastOp first.direction) values)

theorem compile_at (cx : Context) (cursor : Json.Entries) (orderBy : Option (List Json.Entries)) :
    compileAt cx cursor orderBy = some <$> compile cx cursor orderBy := by
  simp only [compileAt, compile]
  by_cases hempty : cursor.isEmpty = true
  · simp only [if_pos hempty]
    rfl
  · simp only [if_neg hempty]
    cases hkeys : keys cx.model cursor orderBy with
    | error e => rfl
    | ok ks =>
      have hne : cursor ≠ [] := fun hnil => hempty (List.isEmpty_iff.mpr hnil)
      obtain ⟨first, rest, rfl⟩ := List.exists_cons_of_ne_nil (keys_nonempty hkeys hne)
      change (if _ then _ else _) = some <$> (if _ then _ else _)
      -- both compare the directions with that of the first key
      split
      · split
        · rfl
        · contradiction
      · split
        · contradiction
        · cases (first :: rest).mapM (boundary cx) with
          | error e => rfl
          | ok bounds =>
            rcases bounds with _ | ⟨⟨column, value⟩, _ | ⟨b, more⟩⟩
            · rfl
            · rfl
            · rfl

end Keyset

namespace Ordering

/-- Puts the item of a mention in the place of its field among the leading ones. -/
def fill (lead : List String) (places : List (Option SortItem)) (mention : Mention) :
    Option (List (Option SortItem)) :=
  match mention.field.bind fun name => lead.findIdx? (· = name) with
  | none => some places
  | some i => if i < places.length then some (places.set i (some mention.item)) else none

def places (lead : List String) (mentioned : List Mention) : Option (List (Option SortItem)) :=
  mentioned.foldlM (fill lead) (lead.map fun _ => none)

def placedItems (cx : Context) (lead : List String) (places : List (Option SortItem)) :
    List SortItem :=
  (lead.zip places).map fun p => p.2.getD (ascending cx p.1)

/-- What is in the places, read off the mentions: the last mention of a field counts,
and only the first place of a field is filled. -/
def filled (mentioned : List Mention) (seen : List String) : List String → List (Option SortItem)
  | [] => []
  | name :: rest =>
    (if seen.contains name then none
      else (mentioned.reverse.find? fun m => m.field = some name).map (·.item)) ::
      filled mentioned (name :: seen) rest

theorem length_filled (mentioned : List Mention) (seen lead : List String) :
    (filled mentioned seen lead).length = lead.length := by
  induction lead generalizing seen with
  | nil => rfl
  | cons name rest ih => rw [filled, List.length_cons, List.length_cons, ih]

theorem filled_none (seen lead : List String) :
    filled [] seen lead = lead.map fun _ => none := by
  induction lead generalizing seen with
  | nil => rfl
  | cons name rest ih => rw [filled, ih, List.map_cons, List.reverse_nil, List.find?_nil,
      Option.map_none, ite_self]

section Mentions

variable (mentioned : List Mention) {mention : Mention} {name : String}

theorem last_mention_self (h : mention.field = some name) :
    ((mentioned ++ [mention]).reverse.find? fun m => m.field = some name) = some mention := by
  rw [List.reverse_append, List.reverse_singleton, List.singleton_append,
    List.find?_cons_of_pos (by simpa using h)]

theorem last_mention_other (h : mention.field ≠ some name) :
    ((mentioned ++ [mention]).reverse.find? fun m => m.field = some name) =
      mentioned.reverse.find? fun m => m.field = some name := by
  rw [List.reverse_append, List.reverse_singleton, List.singleton_append,
    List.find?_cons_of_neg (by simpa using h)]

theorem filled_other {seen lead : List String}
    (h : ∀ other ∈ lead, mention.field = some other → other ∈ seen) :
    filled (mentioned ++ [mention]) seen lead = filled mentioned seen lead := by
  induction lead generalizing seen with
  | nil => rfl
  | cons other rest ih =>
    obtain ⟨hother, hrest⟩ := List.forall_mem_cons.mp h
    rw [filled, filled, ih fun n hn hf => List.mem_cons_of_mem other (hrest n hn hf)]
    by_cases hfield : mention.field = some other
    · have hseen := List.contains_iff_mem.mpr (hother hfield)
      rw [if_pos hseen, if_pos hseen]
    · rw [last_mention_other mentioned hfield]

theorem filled_set (hfield : mention.field = some name) {seen : List String}
    (hseen : name ∉ seen) {lead : List String} {i : Nat}
    (hi : lead.findIdx? (· = name) = some i) :
    filled (mentioned ++ [mention]) seen lead =
      (filled mentioned seen lead).set i (some mention.item) := by
  induction lead generalizing seen i with
  | nil => cases hi
  | cons other rest ih =>
    rw [List.findIdx?_cons] at hi
    rw [filled, filled]
    by_cases hother : other = name
    · subst hother
      obtain rfl : 0 = i := by simpa using hi
      have hrest : ∀ n ∈ rest, mention.field = some n → n ∈ other :: seen := by
        intro n _ hn
        rw [hfield] at hn
        exact Option.some.inj hn ▸ List.mem_cons_self
      have hnew : ¬ seen.contains other = true := fun hc => hseen (List.contains_iff_mem.mp hc)
      rw [filled_other mentioned hrest, if_neg hnew, last_mention_self mentioned hfield]
      rfl
    · obtain ⟨j, hj, rfl⟩ : ∃ j, rest.findIdx? (· = name) = some j ∧ j + 1 = i := by
        simpa [hother] using hi
      have hskip : mention.field ≠ some other := by
        rw [hfield]
        exact fun heq => hother (Option.some.inj heq).symm
      have hfresh : name ∉ other :: seen := by
        simp [hseen, Ne.symm hother]
      rw [ih hfresh hj, last_mention_other mentioned hskip]
      rfl

end Mentions

theorem fill_filled (lead : List String) (mentioned : List Mention) (mention : Mention) :
    fill lead (filled mentioned [] lead) mention =
      some (filled (mentioned ++ [mention]) [] lead) := by
  unfold fill
  split
  · rename_i hplace
    rw [filled_other mentioned]
    intro other hin hfield
    rw [hfield, Option.bind_some, List.findIdx?_eq_none_iff] at hplace
    exact absurd (hplace other hin) (by simp)
  · rename_i i hplace
    obtain ⟨name, hfield, hi⟩ := Option.bind_eq_some_iff.mp hplace
    have hlt : i < (filled mentioned [] lead).length := by
      rw [length_filled]
      exact (List.findIdx?_eq_some_iff_findIdx_eq.mp hi).1
    rw [if_pos hlt, filled_set mentioned hfield List.not_mem_nil hi]

theorem places_filled (lead : List String) (mentioned : List Mention) :
    places lead mentioned = some (filled mentioned [] lead) := by
  induction mentioned using List.reverseRecOn with
  | nil => rw [places, List.foldlM_nil, filled_none]; rfl
  | append_singleton mentioned mention ih =>
    rw [places] at ih ⊢
    rw [List.foldlM_append, ih]
    exact (Option.bind_some ..).trans (by simp [fill_filled])

theorem placed_items_filled (cx : Context) (mentioned : List Mention) (seen lead : List String) :
    placedItems cx lead (filled mentioned seen lead) = leadItems cx mentioned seen lead := by
  induction lead generalizing seen with
  | nil => rfl
  | cons name rest ih =>
    have hrest := ih (name :: seen)
    rw [placedItems] at hrest ⊢
    rw [filled, leadItems, List.zip_cons_cons, List.map_cons, hrest]
    congr 1
    split
    · rfl
    · unfold leadItem
      cases mentioned.reverse.find? fun m => m.field = some name <;> rfl

theorem placed_items (cx : Context) (lead : List String) (mentioned : List Mention) :
    (places lead mentioned).map (placedItems cx lead) = some (leadItems cx mentioned [] lead) := by
  rw [places_filled, Option.map_some, placed_items_filled]

end Ordering

/-- Adds an error as context, which must not have a cause of its own. -/
def Error.contextAt (e consequent : Error) : Option Error :=
  if consequent.earlier.isEmpty then some ⟨consequent.newest, e.chain⟩ else none

/-- The model that a relation leads to, with the note added as an error. -/
def Schema.targetAt (schema : Schema) (r : Relation) : Option (Except Error Model) :=
  match schema.expectModel r.target with
  | .ok model => some (.ok model)
  | .error e =>
    (e.contextAt ⟨.note
      ("relation " ++ ticked r.name ++ " targets a model that is not registered"), []⟩).map .error

theorem Schema.target_at (schema : Schema) (r : Relation) :
    schema.targetAt r = some (schema.target r) := by
  unfold Schema.targetAt Schema.target
  cases schema.expectModel r.target <;> rfl

/-- Every call gives a result or a documented error. -/
structure Compiler.Refuses (c : Compiler) : Prop where
  compile : ∀ model op args, Orderly (c.compile model op args)
  filter : ∀ model filter, Orderly (c.filter model filter)
  columns : ∀ model op args, Orderly (c.columns model op args)
  orderBy : ∀ model op orderBy, Orderly (c.orderBy model op orderBy)
  limit : ∀ model take skip, Orderly (c.limit model take skip)

/-- Filters and relations are compiled as if by assembled filters, whose own checks
fail nowhere. -/
structure Compiler.Assembles (c : Compiler) : Prop where
  conditions : ∀ cx entries,
    Marker.conditions c.settings .query cx entries = Filter.conditions c.settings cx entries
  relation : ∀ cx r value,
    Marker.relation c.settings cx r value = Filter.relation c.settings cx r value
  close : ∀ cx r args a child b columns, cx.model ∈ c.schema.models → r ∈ cx.model.relations →
    Records.enter c.settings cx r args a = .ok (child, b) →
      Marker.close c.settings child r args columns =
        Records.close c.settings cx child r args columns

/-- What is taken by position is there. -/
structure Compiler.StaysInBounds (c : Compiler) : Prop where
  negation : ∀ m (k : Connective) operands, k.applyAt m operands = some <$> k.apply m operands
  cursor : ∀ cx cursor orderBy,
    Keyset.compileAt cx cursor orderBy = some <$> Keyset.compile cx cursor orderBy
  lead : ∀ cx lead mentioned,
    (Ordering.places lead mentioned).map (Ordering.placedItems cx lead) =
      some (Ordering.leadItems cx mentioned [] lead)
  context : ∀ r, c.schema.targetAt r = some (c.schema.target r)

/-- Over a schema that was built, a call is refused with a documented error if at
all. The checks inside the compiler never fail, and it takes nothing out of bounds. -/
theorem errors_are_documented (b : Schema.Builder) (c : Compiler)
    (hb : b.build.1 = .ok c.schema) : c.Refuses ∧ c.Assembles ∧ c.StaysInBounds := by
  have hlinkable : c.schema.Linkable := fun m hm => ((Schema.build_ok hb).2 m hm).linkable
  refine ⟨⟨?_, ?_, ?_, ?_, ?_⟩, ⟨?_, ?_, ?_⟩, ⟨?_, ?_, ?_, ?_⟩⟩
  · exact Compiler.compile_orderly hlinkable
  · exact Compiler.filter_orderly hlinkable
  · exact Compiler.columns_orderly hlinkable
  · exact Compiler.order_by_orderly c
  · exact Compiler.limit_orderly c
  · exact Marker.query_conditions c.settings
  · exact Marker.relation_eq c.settings
  · intro cx r args a child b' columns _ _ hchild
    obtain ⟨target, -, rfl, -⟩ := Records.enter_ok hchild
    exact Marker.close_eq c.settings ⟨rfl, rfl⟩ args columns
  · exact Connective.apply_at
  · exact Keyset.compile_at
  · exact Ordering.placed_items
  · exact Schema.target_at c.schema

theorem sample_errors_are_documented :
    (Schema.Builder.build ⟨none, Sample.schema.models⟩).1 = .ok Sample.schema ∧
      ∃ e, (Sample.compiler .sqlite).filter "User" [("__link", .bool true)] = .error e ∧
        e.Documented := by
  have hrefuses := (errors_are_documented ⟨none, Sample.schema.models⟩ (Sample.compiler .sqlite)
    rfl).1
  exact ⟨rfl, _, rfl, hrefuses.filter "User" [("__link", .bool true)] _ rfl⟩

end QuerySql
