import QuerySql.Compile.Condition

/-!
# Filters

A filter is an object whose entries all have to hold: connectives over further
filters, conditions on fields, and conditions on relations. A condition on a
relation becomes a correlated subquery over the related table, linked to the
row it is asked of.
-/

set_option autoImplicit false

namespace QuerySql

inductive Connective where
  | and
  | or
  | not
  deriving DecidableEq, Repr

namespace Connective

def all : List Connective := [.and, .or, .not]

def key : Connective → String
  | .and => "AND"
  | .or => "OR"
  | .not => "NOT"

def ofKey? (key : String) : Option Connective := all.find? fun c => c.key = key

/-- Applies a connective to compiled filters. One without conditions holds of
everything; a negation takes exactly one that has any. -/
def apply (m : Model) (c : Connective) (operands : List (Option Pred)) : Except Error Pred :=
  match c with
  | .and => .ok ((Pred.all? (operands.filterMap id)).getD (.truth true))
  | .or => .ok (Pred.any (operands.map fun p => p.getD (.truth true)))
  | .not =>
    match operands.filterMap id with
    | [p] => .ok (.not p)
    | ps => .error (m.fault (.negationArity ps.length))

def checkItems (m : Model) (c : Connective) : List Json → Except Error Unit
  | [] => .ok ()
  | .obj _ :: rest => checkItems m c rest
  | json :: _ => .error (m.faultAt c.key (.notObject json.kind))

def checkOperand (m : Model) (c : Connective) : Json → Except Error Unit
  | .obj _ => .ok ()
  | .arr [] => .error (m.fault (.emptyConnective c.key))
  | .arr items => checkItems m c items
  | json => .error (m.fault (.connectiveShape c.key json.kind))

end Connective

inductive Quantifier where
  | some
  | every
  | none
  | is
  | isNot
  deriving DecidableEq, Repr

namespace Quantifier

def all : List Quantifier := [.some, .every, .none, .is, .isNot]

def key : Quantifier → String
  | .some => "some"
  | .every => "every"
  | .none => "none"
  | .is => "is"
  | .isNot => "isNot"

def ofKey? (key : String) : Option Quantifier := all.find? fun q => q.key = key

def isToMany : Quantifier → Bool
  | .some | .every | .none => true
  | .is | .isNot => false

/-- The condition holds when no such related record is found. For `every`
those looked for are the ones that do not match. -/
def negated : Quantifier → Bool
  | .some | .is => false
  | .every | .none | .isNot => true

def count (entries : Json.Entries) : Nat :=
  entries.countP fun e => (ofKey? e.1).isSome

end Quantifier

/-- Keys that start with two underscores stand for nothing in a filter, even
if a field is named so. -/
def isReserved (key : String) : Bool := ['_', '_'].isPrefixOf key.toList

inductive FilterKey where
  | connective (c : Connective)
  | field (f : Field)
  | relation (r : Relation)

/-- Connectives come first, then fields, then relations. -/
def FilterKey.resolve (m : Model) (key : String) : Except Error FilterKey :=
  match Connective.ofKey? key with
  | some c => .ok (.connective c)
  | none =>
    if isReserved key then .error (m.faultAt key .reservedKey)
    else
      match m.field? key, m.relation? key with
      | some f, _ => .ok (.field f)
      | none, some r => .ok (.relation r)
      | none, none => .error (m.unknownMember key)

namespace Link

def junction (r : Relation) (parent child : Context) : Compile Pred :=
  match r.through, r.pairs with
  | some junction, (own, referenced) :: _ => do
    let tag ← Compile.fresh
    return .related false junction.table tag
      [.compare (.column ⟨tag, junction.target⟩) .eq (.column ⟨child.tag, referenced⟩),
        .compare (.column ⟨tag, junction.source⟩) .eq (.column ⟨parent.tag, own⟩)]
  | _, _ => throw (parent.model.faultAt r.name .missingJunction)

def equality (parent child : Context) (own referenced : String) : Pred :=
  .compare (.column ⟨child.tag, referenced⟩) .eq (.column ⟨parent.tag, own⟩)

def guard (r : Relation) (parent child : Context) (own referenced : String) : Pred :=
  match r.foreignKeySide parent.model with
  | .related => .isNull (.column ⟨child.tag, referenced⟩) true
  | .declaring => .isNull (.column ⟨parent.tag, own⟩) true

/-- Links a filtered child row to its parent row: the equalities of the keys,
then the guards of the foreign key; or the junction. -/
def conditions (r : Relation) (parent child : Context) : Compile (List Pred) :=
  match r.cardinality with
  | .manyToMany => do return [← junction r parent child]
  | _ =>
    return r.pairs.map (fun p => equality parent child p.1 p.2) ++
      r.pairs.map (fun p => guard r parent child p.1 p.2)

end Link

namespace Filter

def linked (r : Relation) (parent child : Context) (negated : Bool) (conditions : List Pred) :
    Compile Pred := do
  let links ← Link.conditions r parent child
  return .related negated child.model.tableName child.tag (conditions ++ links)

def unfiltered (s : Settings) (cx : Context) (r : Relation) (negated : Bool) : Compile Pred := do
  let child ← Compile.descend s cx r
  linked r cx child negated []

mutual

/-- The conditions of a filter, one entry after the other. -/
def conditions (s : Settings) (cx : Context) : List (String × Json) → Compile (List Pred)
  | [] => return []
  | (key, value) :: rest => do
    let here ←
      match ← FilterKey.resolve cx.model key with
      | .connective c => some <$> connective s cx c value
      | .field f => Condition.compile cx.model f (.column (Compile.column cx f)) value
      | .relation r => some <$> relation s cx r value
    let later ← conditions s cx rest
    return here.toList ++ later

def connective (s : Settings) (cx : Context) (c : Connective) (value : Json) : Compile Pred := do
  c.checkOperand cx.model value
  let filters ←
    match value with
    | .obj entries => (fun ps => [Pred.all? ps]) <$> conditions s cx entries
    | .arr items => each s cx items
    | _ => pure []
  c.apply cx.model filters

def each (s : Settings) (cx : Context) : List Json → Compile (List (Option Pred))
  | [] => return []
  | .obj entries :: rest => do
    let here ← conditions s cx entries
    let later ← each s cx rest
    return Pred.all? here :: later
  | _ :: rest => each s cx rest

/-- A condition on a relation: quantifiers, or a bare filter that the related
record (or one of them) has to match. For a relation to one record `null` says
that there is none. -/
def relation (s : Settings) (cx : Context) (r : Relation) (value : Json) : Compile Pred :=
  match value with
  | .null =>
    if r.cardinality.isToOne then unfiltered s cx r true
    else throw (cx.model.faultAt r.name (.relationShape .null))
  | .obj entries =>
    if Quantifier.count entries = 0 then
      if entries.isEmpty then unfiltered s cx r false
      else do
        let child ← Compile.descend s cx r
        let nested ← conditions s child entries
        let p ← Connective.and.apply child.model [Pred.all? nested]
        linked r cx child false [p]
    else if Quantifier.count entries ≠ entries.length then
      throw (cx.model.faultAt r.name .mixedKeywords)
    else Pred.all <$> quantifiers s cx r entries
  | json => throw (cx.model.faultAt r.name (.relationShape json.kind))

def quantifiers (s : Settings) (cx : Context) (r : Relation) :
    List (String × Json) → Compile (List Pred)
  | [] => return []
  | (key, value) :: rest => do
    let here ←
      match Quantifier.ofKey? key with
      | some q => (fun p => [p]) <$> quantified s cx r q value
      | none => pure []
    let later ← quantifiers s cx r rest
    return here ++ later

/-- One quantifier. Every record of an unconstrained set matches; `null` asks
for the related record itself. -/
def quantified (s : Settings) (cx : Context) (r : Relation) (q : Quantifier) (value : Json) :
    Compile Pred :=
  if q.isToMany ≠ r.cardinality.isToMany then
    throw (cx.model.faultAt r.name (.keywordCardinality q.key r.cardinality r.name))
  else
    match value with
    | .obj entries =>
      if entries.isEmpty then
        if q = .every then return .truth true else unfiltered s cx r q.negated
      else do
        let child ← Compile.descend s cx r
        let nested ← conditions s child entries
        let p ← (if q = .every then Connective.not else Connective.and).apply child.model
          [Pred.all? nested]
        linked r cx child q.negated [p]
    | .null =>
      if q.isToMany then throw (cx.model.faultAt r.name (.keywordShape .null))
      else unfiltered s cx r (!q.negated)
    | json => throw (cx.model.faultAt r.name (.keywordShape json.kind))

end

def compile (s : Settings) (cx : Context) (entries : Json.Entries) : Compile (Option Pred) :=
  Pred.all? <$> conditions s cx entries

def compile? (s : Settings) (cx : Context) : Option Json.Entries → Compile (Option Pred)
  | some entries => compile s cx entries
  | none => return none

end Filter

end QuerySql
