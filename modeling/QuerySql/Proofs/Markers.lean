import QuerySql.Proofs.Refusals.Statement

/-!
# Assembled filters

A condition on a relation can be put as a filter of the related model: the nested
filter under a connective, then a reserved key that stands for the link with the
parent row. Such filters are assembled by the compiler, and only in them do
reserved keys stand for something. Compiling relations by way of these filters,
with every check of their keys and of the context that they are compiled in, is
what the compiler does without them.
-/

set_option autoImplicit false

namespace QuerySql

/-- Who wrote a filter. -/
inductive Author where
  | query
  | compiler
  deriving DecidableEq

namespace Marker

/-- The link with the parent row and the guards of its foreign key. -/
def link : String := "__link"

def junction : String := "__junction"

def parent : String := "__parent"

def correlation (cx : Context) : Except Error (Relation × Parent) :=
  match cx.relation, cx.parent with
  | some r, some parent => .ok (r, parent)
  | _, _ =>
    .error (cx.model.fault (.worded "reserved keys are only valid inside a relation subquery"))

def expectFlag (cx : Context) (key : String) : Json → Except Error Unit
  | .bool true => .ok ()
  | _ => .error (cx.model.faultAt key (.worded "reserved key expects `true`"))

def equality (cx : Context) (parent : Parent) (own referenced : String) : Pred :=
  .compare (.column ⟨cx.tag, referenced⟩) .eq (.column ⟨parent.tag, own⟩)

def guard (cx : Context) (r : Relation) (parent : Parent) (own referenced : String) : Pred :=
  match r.foreignKeySide parent.model with
  | .related => .isNull (.column ⟨cx.tag, referenced⟩) true
  | .declaring => .isNull (.column ⟨parent.tag, own⟩) true

def junctionRow (cx : Context) : Compile Pred := do
  let (r, parent) ← correlation cx
  match r.through, r.pairs with
  | some junction, (own, referenced) :: _ => do
    let tag ← Compile.fresh
    return .related false junction.table tag
      [.compare (.column ⟨tag, junction.target⟩) .eq (.column ⟨cx.tag, referenced⟩),
        .compare (.column ⟨tag, junction.source⟩) .eq (.column ⟨parent.tag, own⟩)]
  | _, _ => throw (parent.model.faultAt r.name .missingJunction)

def links (cx : Context) : Compile (List Pred) := do
  let (r, parent) ← correlation cx
  if r.cardinality = .manyToMany then
    return [← junctionRow cx]
  else
    return r.pairs.map (fun p => equality cx parent p.1 p.2) ++
      r.pairs.map (fun p => guard cx r parent p.1 p.2)

def parentColumn (cx : Context) (referenced : String) : Json → Except Error String
  | .str own => .ok own
  | _ => .error (cx.model.faultAt referenced (.worded "parent reference expects a column name"))

def equalities (cx : Context) (parent : Parent) :
    List (String × Json) → Except Error (List Pred)
  | [] => .ok []
  | (referenced, value) :: rest => do
    let own ← parentColumn cx referenced value
    let _ ← cx.model.expectField referenced
    let _ ← parent.model.expectField own
    let later ← equalities cx parent rest
    return equality cx parent own referenced :: later

def references (cx : Context) (columns : Json.Entries) : Except Error (List Pred) := do
  let (_, parent) ← correlation cx
  if columns.isEmpty then throw (cx.model.fault .missingReference)
  equalities cx parent columns

def expand (cx : Context) (key : String) (value : Json) : Compile (List Pred) :=
  if key = link then do
    expectFlag cx key value
    links cx
  else if key = junction then do
    expectFlag cx key value
    return [← junctionRow cx]
  else if key = parent then do
    let columns ← Compile.entries cx.model key value
    references cx columns
  else throw (cx.model.faultAt key (.worded "unknown reserved key"))

/-- One entry of a filter. A filter nested in it is a query's own. -/
def entry (s : Settings) (author : Author) (cx : Context) (key : String) (value : Json) :
    Compile (List Pred) :=
  match Connective.ofKey? key with
  | some c => do return [← Filter.connective s cx c value]
  | none =>
    if isReserved key then
      match author with
      | .query => throw (cx.model.faultAt key .reservedKey)
      | .compiler => expand cx key value
    else
      match cx.model.field? key, cx.model.relation? key with
      | some f, _ => do
        let here ← Condition.compile cx.model f (.column (Compile.column cx f)) value
        return here.toList
      | none, some r => do return [← Filter.relation s cx r value]
      | none, none => throw (cx.model.unknownMember key)

def conditions (s : Settings) (author : Author) (cx : Context) :
    List (String × Json) → Compile (List Pred)
  | [] => return []
  | (key, value) :: rest => do
    let here ← entry s author cx key value
    let later ← conditions s author cx rest
    return here ++ later

/-- How a nested filter applies to the related records. -/
inductive Nested where
  | any
  | matching (entries : Json.Entries)
  | notMatching (entries : Json.Entries)

def Nested.entries : Nested → Json.Entries
  | .any | .matching [] => []
  | .matching entries => [(Connective.and.key, .obj entries)]
  | .notMatching entries => [(Connective.not.key, .obj entries)]

def subqueryFilter (r : Relation) (nested : Nested) : Json.Entries :=
  nested.entries ++ [(if r.cardinality = .manyToMany then junction else link, .bool true)]

/-- The filter of a subquery that reads the related records. -/
def inclusionFilter (r : Relation) (filter : Option Json.Entries) : Json.Entries :=
  (filter.map fun entries => (Connective.and.key, Json.obj entries)).toList ++
    [if r.cardinality = .manyToMany then (junction, .bool true)
      else (parent, .obj ((Link.byReference r.pairs).map fun p => (p.1, .str p.2)))]

def subquery (s : Settings) (child : Context) (nested : Nested) : Compile (List Pred) :=
  match child.relation with
  | some r => conditions s .compiler child (subqueryFilter r nested)
  | none => throw (child.model.fault (.worded "relation subquery without a relation"))

def related (s : Settings) (cx : Context) (r : Relation) (negated : Bool) (nested : Nested) :
    Compile Pred := do
  let child ← Compile.descend s cx r
  let ps ← subquery s child nested
  return .related negated child.model.tableName child.tag ps

def quantified (s : Settings) (cx : Context) (r : Relation) (q : Quantifier) (value : Json) :
    Compile Pred :=
  if q.isToMany ≠ r.cardinality.isToMany then
    throw (cx.model.faultAt r.name (.keywordCardinality q.key r.cardinality r.name))
  else
    match value, q with
    | .null, .is => related s cx r true .any
    | .null, .isNot => related s cx r false .any
    | .obj [], .every => return .truth true
    | .obj entries, .every => related s cx r true (.notMatching entries)
    | .obj entries, .some | .obj entries, .is => related s cx r false (.matching entries)
    | .obj entries, .none | .obj entries, .isNot => related s cx r true (.matching entries)
    | json, _ => throw (cx.model.faultAt r.name (.keywordShape json.kind))

def quantifiers (s : Settings) (cx : Context) (r : Relation) :
    List (String × Json) → Compile (List Pred)
  | [] => return []
  | (key, value) :: rest => do
    let here ←
      match Quantifier.ofKey? key with
      | some q => (fun p => [p]) <$> quantified s cx r q value
      | none => pure []
    let later ← quantifiers s cx r rest
    return here ++ later

def relation (s : Settings) (cx : Context) (r : Relation) (value : Json) : Compile Pred :=
  match value with
  | .null =>
    if r.cardinality.isToOne then quantified s cx r .is .null
    else throw (cx.model.faultAt r.name (.relationShape .null))
  | .obj entries =>
    if Quantifier.count entries = 0 then related s cx r false (.matching entries)
    else if Quantifier.count entries ≠ entries.length then
      throw (cx.model.faultAt r.name .mixedKeywords)
    else Pred.all <$> quantifiers s cx r entries
  | json => throw (cx.model.faultAt r.name (.relationShape json.kind))

def close (s : Settings) (child : Context) (r : Relation) (args : RelationArgs)
    (columns : List Projection) : Compile Projection := do
  let ps ← conditions s .compiler child (inclusionFilter r args.filter)
  let orderBy ← Ordering.compile s child args.orderBy none
  let fold ← Compile.fresh
  return .relation r.name r.cardinality.isToMany fold columns
    { table := child.model.tableName, tag := child.tag, filter := Pred.all? ps,
      orderBy := orderBy, take := args.take, skip := args.skip }

section Steps

variable {α β : Type}

theorem lift_ok_bind (y : α) (k : α → Compile β) :
    ((liftM (.ok y : Except Error α) : Compile α) >>= k) = k y := rfl

theorem bind_congr_ok {x : Compile α} {f g : α → Compile β}
    (h : ∀ a y b, x a = .ok (y, b) → f y = g y) : (x >>= f) = (x >>= g) := by
  funext a
  change (x a >>= fun p => f p.1 p.2) = (x a >>= fun p => g p.1 p.2)
  cases hx : x a with
  | error e => rfl
  | ok p =>
    change f p.1 p.2 = g p.1 p.2
    rw [h a p.1 p.2 hx]

end Steps

theorem query_conditions (s : Settings) (cx : Context) (entries : List (String × Json)) :
    conditions s .query cx entries = Filter.conditions s cx entries := by
  induction entries with
  | nil => rw [conditions, Filter.conditions]
  | cons e rest ih =>
    obtain ⟨key, value⟩ := e
    rw [conditions, Filter.conditions, ih, entry, FilterKey.resolve]
    cases Connective.ofKey? key with
    | some c =>
      simp only [lift_ok_bind, map_eq_pure_bind, bind_assoc, pure_bind, Option.toList_some]
    | none =>
      simp only
      split
      · rfl
      · rcases hfield : cx.model.field? key with _ | f
        · rcases hrelation : cx.model.relation? key with _ | r
          · rfl
          · simp only [lift_ok_bind, map_eq_pure_bind, bind_assoc, pure_bind, Option.toList_some]
        · simp only [lift_ok_bind, bind_assoc, pure_bind]

structure Entered (cx : Context) (r : Relation) (child : Context) : Prop where
  relation : child.relation = some r
  parent : child.parent = some ⟨cx.model, cx.tag⟩

theorem entered_nested (cx : Context) (r : Relation) (target : Model) (tag : Alias) :
    Entered cx r (cx.nested r target tag) := ⟨rfl, rfl⟩

section Subqueries

variable {s : Settings} {cx child : Context} {r : Relation}

theorem correlation_entered (h : Entered cx r child) :
    correlation child = .ok (r, ⟨cx.model, cx.tag⟩) := by
  rw [correlation, h.relation, h.parent]

theorem junction_row_entered (h : Entered cx r child) :
    junctionRow child = Link.junction r cx child := by
  simp only [junctionRow, correlation_entered h, lift_ok_bind]
  rfl

theorem links_entered (h : Entered cx r child) : links child = Link.conditions r cx child := by
  simp only [links, correlation_entered h, lift_ok_bind, junction_row_entered h]
  unfold Link.conditions
  split
  · rename_i hmany
    simp only [hmany]
  · split
    · contradiction
    · rfl

theorem equalities_entered (child : Context) (pairs : List (String × String)) :
    equalities child ⟨cx.model, cx.tag⟩ (pairs.map fun p => (p.1, .str p.2)) =
      Link.equalities cx child pairs := by
  induction pairs with
  | nil => rfl
  | cons p rest ih =>
    simp only [List.map_cons, equalities, Link.equalities, parentColumn, ih]
    rfl

theorem references_entered (h : Entered cx r child) (pairs : List (String × String)) :
    references child (pairs.map fun p => (p.1, .str p.2)) = Link.references cx child pairs := by
  rw [references, correlation_entered h, Link.references, ← equalities_entered]
  cases pairs <;> rfl

theorem entry_link (s : Settings) (child : Context) :
    entry s .compiler child link (.bool true) = links child := rfl

theorem entry_junction (s : Settings) (child : Context) :
    entry s .compiler child junction (.bool true) = (do return [← junctionRow child]) := rfl

theorem entry_parent (s : Settings) (child : Context) (columns : Json.Entries) :
    entry s .compiler child parent (.obj columns) = liftM (references child columns) := rfl

theorem entry_nested (s : Settings) (child : Context) (c : Connective) (entries : Json.Entries) :
    entry s .compiler child c.key (.obj entries) = (do
      let nested ← Filter.conditions s child entries
      let p ← c.apply child.model [Pred.all? nested]
      return [p]) := by
  have hkey : Connective.ofKey? c.key = some c := by
    cases c <;> rfl
  rw [entry, hkey]
  simp only [Filter.connective, Connective.checkOperand, lift_ok_bind, map_eq_pure_bind,
    bind_assoc, pure_bind]

theorem conditions_single (s : Settings) (author : Author) (child : Context) (key : String)
    (value : Json) :
    conditions s author child [(key, value)] = entry s author child key value := by
  simp only [conditions, pure_bind, List.append_nil, bind_pure]

theorem conditions_append (s : Settings) (author : Author) (child : Context)
    (entries more : List (String × Json)) :
    conditions s author child (entries ++ more) = (do
      let here ← conditions s author child entries
      let later ← conditions s author child more
      return here ++ later) := by
  induction entries with
  | nil => simp only [List.nil_append, conditions, pure_bind, bind_pure]
  | cons e rest ih =>
    simp only [List.cons_append, conditions, ih, bind_assoc, pure_bind, List.append_assoc]

theorem conditions_link (h : Entered cx r child) :
    conditions s .compiler child
      [(if r.cardinality = .manyToMany then junction else link, .bool true)] =
        Link.conditions r cx child := by
  rw [conditions_single]
  split
  · rename_i hmany
    rw [entry_junction, junction_row_entered h]
    simp only [Link.conditions, hmany]
  · rw [entry_link, links_entered h]

theorem conditions_correlation (h : Entered cx r child) :
    conditions s .compiler child
      [if r.cardinality = .manyToMany then (junction, .bool true)
        else (parent, .obj ((Link.byReference r.pairs).map fun p => (p.1, .str p.2)))] =
        Link.correlation r cx child := by
  split
  · rename_i hmany
    rw [conditions_single, entry_junction, junction_row_entered h]
    simp only [Link.correlation, hmany]
  · rw [conditions_single, entry_parent, references_entered h]
    unfold Link.correlation
    split
    · contradiction
    · rfl

theorem descend_congr {α : Type} {f g : Context → Compile α}
    (h : ∀ child, Entered cx r child → f child = g child) :
    (Compile.descend s cx r >>= f) = (Compile.descend s cx r >>= g) := by
  refine bind_congr_ok fun a child b hchild => ?_
  obtain ⟨target, -, -, rfl, -⟩ := Compile.descend_ok.mp hchild
  exact h _ (entered_nested cx r target _)

theorem subquery_entered (s : Settings) (h : Entered cx r child) (nested : Nested) :
    subquery s child nested = (do
      let here ← conditions s .compiler child nested.entries
      let links ← Link.conditions r cx child
      return here ++ links) := by
  rw [subquery, h.relation]
  simp only [subqueryFilter, conditions_append, conditions_link h]

theorem related_any (s : Settings) (cx : Context) (r : Relation) (negated : Bool)
    {nested : Nested} (hn : nested.entries = []) :
    related s cx r negated nested = Filter.unfiltered s cx r negated := by
  refine descend_congr fun child h => ?_
  rw [subquery_entered s h, hn]
  simp only [Filter.linked, conditions, pure_bind, bind_assoc]

theorem related_nested (s : Settings) (cx : Context) (r : Relation) (negated : Bool)
    {nested : Nested} {c : Connective} {entries : Json.Entries}
    (hn : nested.entries = [(c.key, .obj entries)]) :
    related s cx r negated nested = (do
      let child ← Compile.descend s cx r
      let nested ← Filter.conditions s child entries
      let p ← c.apply child.model [Pred.all? nested]
      Filter.linked r cx child negated [p]) := by
  refine descend_congr fun child h => ?_
  rw [subquery_entered s h, hn, conditions_single, entry_nested]
  simp only [Filter.linked, pure_bind, bind_assoc]

theorem quantified_eq (s : Settings) (cx : Context) (r : Relation) (q : Quantifier)
    (value : Json) : quantified s cx r q value = Filter.quantified s cx r q value := by
  rw [Filter.quantified.eq_def]
  unfold quantified
  split
  · rfl
  · cases value with
    | obj entries =>
      cases entries with
      | nil =>
        cases q with
        | every => rfl
        | some => exact related_any s cx r _ rfl
        | none => exact related_any s cx r _ rfl
        | is => exact related_any s cx r _ rfl
        | isNot => exact related_any s cx r _ rfl
      | cons e rest =>
        cases q with
        | every => exact related_nested s cx r _ (c := .not) rfl
        | some => exact related_nested s cx r _ (c := .and) rfl
        | none => exact related_nested s cx r _ (c := .and) rfl
        | is => exact related_nested s cx r _ (c := .and) rfl
        | isNot => exact related_nested s cx r _ (c := .and) rfl
    | null =>
      cases q with
      | every => rfl
      | some => rfl
      | none => rfl
      | is => exact related_any s cx r _ rfl
      | isNot => exact related_any s cx r _ rfl
    | bool _ | num _ | str _ | arr _ => cases q <;> rfl

theorem quantifiers_eq (s : Settings) (cx : Context) (r : Relation)
    (entries : List (String × Json)) :
    quantifiers s cx r entries = Filter.quantifiers s cx r entries := by
  induction entries with
  | nil => rw [quantifiers, Filter.quantifiers]
  | cons e rest ih =>
    obtain ⟨key, value⟩ := e
    rw [quantifiers, Filter.quantifiers, ih]
    cases Quantifier.ofKey? key with
    | none => rfl
    | some q =>
      simp only
      rw [quantified_eq]

theorem relation_eq (s : Settings) (cx : Context) (r : Relation) (value : Json) :
    relation s cx r value = Filter.relation s cx r value := by
  cases value with
  | null =>
    simp only [relation, Filter.relation]
    split
    · rename_i hone
      have hmany : Quantifier.is.isToMany = r.cardinality.isToMany :=
        (Bool.not_eq_true' _ ▸ hone : r.cardinality.isToMany = false).symm
      rw [quantified_eq, Filter.quantified.eq_def, if_neg (not_not.mpr hmany)]
      rfl
    · rfl
  | obj entries =>
    simp only [relation, Filter.relation, quantifiers_eq]
    split
    · cases entries with
      | nil => exact related_any s cx r false rfl
      | cons e rest => exact related_nested s cx r false (c := .and) rfl
    · rfl
  | bool _ | num _ | str _ | arr _ => simp only [relation, Filter.relation]

theorem close_eq (s : Settings) (h : Entered cx r child) (args : RelationArgs)
    (columns : List Projection) :
    close s child r args columns = Records.close s cx child r args columns := by
  have hover : ∀ filter, Records.closeOver s cx child r args columns filter = (do
      let links ← Link.correlation r cx child
      let orderBy ← Ordering.compile s child args.orderBy none
      let fold ← Compile.fresh
      return .relation r.name r.cardinality.isToMany fold columns
        { table := child.model.tableName, tag := child.tag,
          filter := Pred.all? (filter ++ links),
          orderBy := orderBy, take := args.take, skip := args.skip }) := fun _ => rfl
  rw [close, Records.close_over, inclusionFilter, conditions_append, conditions_correlation h]
  cases args.filter with
  | none =>
    simp only [Option.map_none, Option.toList_none, conditions, pure_bind, bind_assoc, hover]
  | some entries =>
    simp only [Option.map_some, Option.toList_some, conditions_single, entry_nested,
      Filter.compile, map_eq_pure_bind, pure_bind, bind_assoc, hover]

end Subqueries

end Marker

end QuerySql
