import QuerySql.Schema.Basic

/-!
# Building schemas

Models are collected and then built into a schema in one step, which names
their tables and checks the definitions. The targets of relations are not
looked up here, so models may refer to each other in any order and to models
that are never added.
-/

set_option autoImplicit false

namespace QuerySql

namespace Schema

def flawed (flaw : Flaw) : Except Error Unit := .error (.invalidSchema flaw)

/-- A relation pairs its local fields, all declared, with referenced ones. -/
def checkPairs (m : Model) (r : Relation) : Except Error Unit :=
  if r.fields.isEmpty || r.fields.length ≠ r.references.length then
    flawed (.unpairedFields m.name r.name)
  else
    match r.fields.find? fun name => (m.field? name).isNone with
    | some name => flawed (.unknownLocalField m.name r.name name)
    | none => .ok ()

/-- A many-to-many relation, and no other, has a junction and one key. -/
def checkJunction (m : Model) (r : Relation) : Except Error Unit :=
  match r.cardinality, r.through with
  | .manyToMany, none => flawed (.noJunction m.name r.name)
  | .manyToMany, some _ =>
    if r.fields.length = 1 then .ok () else flawed (.compositeJunction m.name r.name)
  | cardinality, some _ => flawed (.strayJunction m.name r.name cardinality)
  | _, none => .ok ()

def checkRelations (m : Model) : List Relation → Except Error Unit
  | [] => .ok ()
  | r :: rest => do
    checkPairs m r
    checkJunction m r
    checkRelations m rest

def checkMembers (m : Model) : Except Error Unit :=
  match m.relationNames.find? fun name => (m.field? name).isSome with
  | some name => flawed (.ambiguousMember m.name name)
  | none => .ok ()

def checkModel (m : Model) : Except Error Unit := do
  if m.identifiers.isEmpty then flawed (.noIdentifier m.name)
  checkRelations m m.relations
  checkMembers m

def checkModels : List Model → Except Error Unit
  | [] => .ok ()
  | m :: rest => do
    checkModel m
    checkModels rest

def firstDuplicate? (seen : List String) : List Model → Option String
  | [] => none
  | m :: rest =>
    if seen.contains m.name then some m.name else firstDuplicate? (m.name :: seen) rest

/-- Names are checked before any definition. -/
def ofModels (models : List Model) : Except Error Schema := do
  match firstDuplicate? [] models with
  | some name => flawed (.duplicateModel name)
  | none => pure ()
  checkModels models
  return ⟨models⟩

structure Builder where
  tablePrefix : Option String := none
  models : List Model := []

namespace Builder

def setTablePrefix (b : Builder) (text : String) : Builder := { b with tablePrefix := some text }

def addModel (b : Builder) (m : Model) : Builder := { b with models := b.models ++ [m] }

def placed (b : Builder) (m : Model) : Model :=
  match b.tablePrefix with
  | some text => { m with table := some (text ++ m.tableName) }
  | none => m

/-- Builds what was added so far. Whether or not that succeeds, the models are
used up and the text before table names stays. -/
def build (b : Builder) : Except Error Schema × Builder :=
  (ofModels (b.models.map b.placed), { b with models := [] })

end Builder

end Schema

end QuerySql
