import QuerySql.Error.Basic
import QuerySql.Schema.Member

/-!
# Models

A model lists its fields and its relations in declaration order. A member
added under a name that is taken replaces the earlier one and keeps its place.
-/

set_option autoImplicit false

namespace QuerySql

structure Model where
  name : String
  table : Option String := none
  fields : List Field := []
  relations : List Relation := []
  deriving DecidableEq, Repr

namespace Model

/-- Replaces the member of the same name, or adds a new one at the end. -/
def upsert {α : Type} (name : α → String) (new : α) : List α → List α
  | [] => [new]
  | old :: rest => if name old = name new then new :: rest else old :: upsert name new rest

def addField (m : Model) (f : Field) : Model :=
  { m with fields := upsert Field.name f m.fields }

def addRelation (m : Model) (r : Relation) : Model :=
  { m with relations := upsert Relation.name r m.relations }

/-- The table that stores the model, by default of the model's name. -/
def tableName (m : Model) : String := m.table.getD m.name

def field? (m : Model) (name : String) : Option Field := m.fields.find? (·.name = name)

def relation? (m : Model) (name : String) : Option Relation := m.relations.find? (·.name = name)

def fieldNames (m : Model) : List String := m.fields.map (·.name)

def relationNames (m : Model) : List String := m.relations.map (·.name)

def memberNames (m : Model) : List String := m.fieldNames ++ m.relationNames

def expectField (m : Model) (name : String) : Except Error Field :=
  match m.field? name with
  | some field => .ok field
  | none => .error (.unknownField m.name name m.fieldNames)

def expectRelation (m : Model) (name : String) : Except Error Relation :=
  match m.relation? name with
  | some relation => .ok relation
  | none => .error (.unknownRelation m.name name m.relationNames)

def unknownMember (m : Model) (name : String) : Error :=
  .unknownMember m.name name m.memberNames

def identifiers (m : Model) : List Field := m.fields.filter (·.id)

def fault (m : Model) (fault : Fault) : Error := .validationOn m.name none fault

def faultAt (m : Model) (key : String) (fault : Fault) : Error :=
  .validationOn m.name (some key) fault

end Model

/-- Which end holds the foreign key. A one-to-one relation whose local fields
are all identifiers is held by the other end; a junction counts as held there. -/
def Relation.foreignKeySide (r : Relation) (declaring : Model) : Side :=
  match r.cardinality with
  | .manyToOne => .declaring
  | .oneToMany | .manyToMany => .related
  | .oneToOne =>
    if r.fields.all fun name => (declaring.field? name).any (·.id) then .related else .declaring

end QuerySql
