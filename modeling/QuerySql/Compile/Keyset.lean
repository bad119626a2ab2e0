import QuerySql.Compile.Ordering

/-!
# Cursors

A cursor names the first row of a page by the values of unique fields. It
becomes a comparison of keys: the rows at or past the cursor in the page's
ordering.
-/

set_option autoImplicit false

namespace QuerySql.Keyset

structure Key where
  name : String
  value : Json
  direction : Direction

def add (keys : List Key) (key : Key) : List Key :=
  if keys.any (·.name = key.name) then keys else keys ++ [key]

/-- The keys that one ordering entry names. An ordering on anything else cannot
be continued from the cursor. -/
def entryKeys (m : Model) (cursor : Json.Entries) (keys : List Key) :
    List (String × Json) → Except Error (List Key)
  | [] => .ok keys
  | (name, value) :: rest =>
    match cursor.get? name with
    | none => .error (.unsupported .cursorOrdering)
    | some bound => do
      let (direction, _) ← Ordering.order m name value
      entryKeys m cursor (add keys ⟨name, bound, direction⟩) rest

def orderedKeys (m : Model) (cursor : Json.Entries) (keys : List Key) :
    List Json.Entries → Except Error (List Key)
  | [] => .ok keys
  | entry :: rest => do
    let keys ← entryKeys m cursor keys entry
    orderedKeys m cursor keys rest

def keys (m : Model) (cursor : Json.Entries) (orderBy : Option (List Json.Entries)) :
    Except Error (List Key) := do
  let ordered ← orderedKeys m cursor [] (orderBy.getD [])
  return cursor.foldl (fun keys (name, value) => add keys ⟨name, value, .asc⟩) ordered

/-- The column and the value of one key, which has to be unique and not null. -/
def boundary (cx : Context) (key : Key) : Except Error (Column × Value) := do
  let f ← cx.model.expectField key.name
  if !f.isUnique then throw (cx.model.faultAt key.name .cursorField)
  let value ← Compile.scalar cx.model key.name key.value
  if value.isNull then throw (cx.model.faultAt key.name .cursorNull)
  return (Compile.column cx f, value)

def pastOp : Direction → Comparison
  | .asc => .ge
  | .desc => .le

/-- The predicate of the rows at or past the cursor. -/
def compile (cx : Context) (cursor : Json.Entries) (orderBy : Option (List Json.Entries)) :
    Except Error Pred := do
  if cursor.isEmpty then throw (cx.model.fault .emptyCursor)
  let keys ← keys cx.model cursor orderBy
  let direction := (keys.head?.map (·.direction)).getD .asc
  if keys.any (·.direction ≠ direction) then throw (.unsupported .cursorMixedDirections)
  match ← keys.mapM (boundary cx) with
  | [(column, value)] => return .compare (.column column) (pastOp direction) (.bound value)
  | bounds => return .compareRows (bounds.map (·.1)) (pastOp direction) (bounds.map (·.2))

end QuerySql.Keyset
