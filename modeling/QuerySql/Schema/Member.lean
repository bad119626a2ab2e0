/-!
# Members of a model

A model's members are its scalar fields and its relations to other models.
-/

set_option autoImplicit false

namespace QuerySql

inductive ScalarType where
  | boolean
  | int
  | bigInt
  | float
  | decimal
  | string
  | dateTime
  | uuid
  | json
  | bytes
  deriving DecidableEq, Repr

namespace ScalarType

def name : ScalarType → String
  | .boolean => "Boolean"
  | .int => "Int"
  | .bigInt => "BigInt"
  | .float => "Float"
  | .decimal => "Decimal"
  | .string => "String"
  | .dateTime => "DateTime"
  | .uuid => "Uuid"
  | .json => "Json"
  | .bytes => "Bytes"

def isNumeric : ScalarType → Bool
  | .int | .bigInt | .float | .decimal => true
  | _ => false

def isTextual : ScalarType → Bool
  | .string | .uuid => true
  | _ => false

end ScalarType

structure Field where
  name : String
  type : ScalarType
  nullable : Bool := false
  unique : Bool := false
  id : Bool := false
  deriving DecidableEq, Repr

namespace Field

/-- An identifier field is unique as well. -/
def asId (f : Field) : Field := { f with id := true, unique := true }

def asUnique (f : Field) : Field := { f with unique := true }

def asNullable (f : Field) : Field := { f with nullable := true }

/-- An equality on the field selects at most one record. -/
def isUnique (f : Field) : Bool := f.id || f.unique

end Field

inductive Cardinality where
  | oneToOne
  | manyToOne
  | oneToMany
  | manyToMany
  deriving DecidableEq, Repr

namespace Cardinality

def name : Cardinality → String
  | .oneToOne => "one-to-one"
  | .manyToOne => "many-to-one"
  | .oneToMany => "one-to-many"
  | .manyToMany => "many-to-many"

def isToMany : Cardinality → Bool
  | .oneToMany | .manyToMany => true
  | _ => false

def isToOne (c : Cardinality) : Bool := !c.isToMany

end Cardinality

/-- The table that links the two sides of a many-to-many relation. -/
structure Junction where
  table : String
  /-- Column that refers to the model declaring the relation. -/
  source : String
  target : String
  deriving DecidableEq, Repr

structure Relation where
  name : String
  cardinality : Cardinality
  target : String
  fields : List String
  references : List String
  through : Option Junction := none
  deriving DecidableEq, Repr

def Relation.pairs (r : Relation) : List (String × String) := r.fields.zip r.references

/-- Which end of a relation holds the foreign key. -/
inductive Side where
  | declaring
  | related
  deriving DecidableEq, Repr

end QuerySql
