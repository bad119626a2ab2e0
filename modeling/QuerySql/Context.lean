import QuerySql.Alias
import QuerySql.Query.Args
import QuerySql.Schema.Basic

/-!
# Contexts

A context says where in a query a clause is compiled: which model, under which
alias, for which operation, and inside a subquery which query it correlates
with. Following a relation derives a new context.
-/

set_option autoImplicit false

namespace QuerySql

structure Parent where
  model : Model
  tag : Alias

structure Pagination where
  take : Option Nat := none
  skip : Option Nat := none
  cursor : Option Json.Entries := none
  distinct : Option (List String) := none

/-- Reads carry a pagination, mutations their payload, never both. -/
inductive Extension where
  | none
  | pagination (pagination : Pagination)
  | mutation (data : Json.Entries)

structure Context where
  model : Model
  operation : Operation
  tag : Alias
  field : Option Field := none
  relation : Option Relation := none
  parent : Option Parent := none
  extension : Extension := .none
  ancestors : List String := []

namespace Context

def depth (cx : Context) : Nat := cx.ancestors.length

def path (cx : Context) : List String := cx.ancestors ++ [cx.model.name]

def pathText (cx : Context) : String := " > ".intercalate cx.path

def pagination? (cx : Context) : Option Pagination :=
  match cx.extension with
  | .pagination p => some p
  | _ => none

def mutation? (cx : Context) : Option Json.Entries :=
  match cx.extension with
  | .mutation data => some data
  | _ => none

def withField (cx : Context) (f : Field) : Context := { cx with field := some f }

/-- The same model under another alias, as in a query over a derived table. -/
def withTag (cx : Context) (tag : Alias) : Context := { cx with tag }

def withPagination (cx : Context) (p : Pagination) : Context :=
  { cx with extension := .pagination p }

def withMutation (cx : Context) (data : Json.Entries) : Context :=
  { cx with extension := .mutation data }

def narrow (cx : Context) (field relation : Option String) : Except Error Context := do
  let field ← field.mapM cx.model.expectField
  let relation ← relation.mapM cx.model.expectRelation
  return { cx with field := field <|> cx.field, relation := relation <|> cx.relation }

def nested (cx : Context) (r : Relation) (model : Model) (tag : Alias) : Context where
  model := model
  operation := cx.operation
  tag := tag
  relation := some r
  parent := some ⟨cx.model, cx.tag⟩
  ancestors := cx.path

@[simp] theorem path_nested (cx : Context) (r : Relation) (model : Model) (tag : Alias) :
    (cx.nested r model tag).path = cx.path ++ [model.name] := rfl

@[simp] theorem depth_nested (cx : Context) (r : Relation) (model : Model) (tag : Alias) :
    (cx.nested r model tag).depth = cx.depth + 1 := by
  simp [nested, depth, path]

end Context

end QuerySql
