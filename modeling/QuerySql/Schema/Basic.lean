import QuerySql.Schema.Model

/-!
# Schemas

The models a query may name, in registration order.
-/

set_option autoImplicit false

namespace QuerySql

structure Schema where
  models : List Model := []
  deriving DecidableEq, Repr

namespace Schema

def modelNames (s : Schema) : List String := s.models.map (·.name)

def model? (s : Schema) (name : String) : Option Model := s.models.find? (·.name = name)

def expectModel (s : Schema) (name : String) : Except Error Model :=
  match s.model? name with
  | some model => .ok model
  | none => .error (.unknownModel name s.modelNames)

def target (s : Schema) (r : Relation) : Except Error Model :=
  match s.expectModel r.target with
  | .ok model => .ok model
  | .error e =>
    .error (e.context (.note
      ("relation " ++ ticked r.name ++ " targets a model that is not registered")))

end Schema

end QuerySql
