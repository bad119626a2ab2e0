import QuerySql.Compile.Aggregation

/-!
# Orderings

The sort items of a query. What `orderBy` mentions comes in the order written,
except that the fields of `distinct` lead. The fields of a cursor and, where a
page needs a tie-breaker, the identifier follow if they were not mentioned.
-/

set_option autoImplicit false

namespace QuerySql.Ordering

def direction? (text : String) : Option Direction :=
  match text.map Char.toLower with
  | "asc" => some .asc
  | "desc" => some .desc
  | _ => none

def nulls? (text : String) : Option Nulls :=
  match text.map Char.toLower with
  | "first" => some .first
  | "last" => some .last
  | _ => none

def direction (m : Model) (key text : String) : Except Error Direction :=
  match direction? text with
  | some direction => .ok direction
  | none => .error (m.faultAt key (.unknownDirection text))

def options (m : Model) (key : String) (found : Option Direction × Option Nulls) :
    List (String × Json) → Except Error (Option Direction × Option Nulls)
  | [] => .ok found
  | (option, value) :: rest => do
    let refused : Error := m.faultAt key (.orderingOption option value)
    let found ←
      match value with
      | .str text =>
        if option = "sort" then pure (some (← direction m key text), found.2)
        else if option = "nulls" then
          match nulls? text with
          | some nulls => pure (found.1, some nulls)
          | none => throw refused
        else throw refused
      | _ => throw refused
    options m key found rest

def order (m : Model) (key : String) : Json → Except Error (Direction × Option Nulls)
  | .str text => return (← direction m key text, none)
  | .obj entries => do
    match ← options m key (none, none) entries with
    | (some direction, nulls) => return (direction, nulls)
    | (none, _) => throw (m.faultAt key .orderingWithoutSort)
  | json => .error (m.faultAt key (.directionShape json.kind))

structure Mention where
  field : Option String
  item : SortItem

/-- An item whose null placement the dialect can write. -/
def item (s : Settings) (key : Scalar) (direction : Direction) (nulls : Option Nulls) :
    Except Error SortItem := do
  s.dialect.checkNulls nulls
  return ⟨key, direction, nulls⟩

/-- Mentions of aggregates of fields. A query with a single row checks and
drops them. -/
def aggregateFields (s : Settings) (cx : Context) (kind : Aggregate) :
    List (String × Json) → Except Error (List Mention)
  | [] => .ok []
  | (name, value) :: rest => do
    let f ← Aggregation.field cx.model kind name
    let (direction, nulls) ← order cx.model name value
    let here ←
      if cx.operation = .groupBy then do
        let item ← item s (.aggregate kind (some (Compile.column cx f))) direction nulls
        pure [Mention.mk none item]
      else pure []
    let later ← aggregateFields s cx kind rest
    return here ++ later

def aggregateMentions (s : Settings) (cx : Context) (kind : Aggregate) (value : Json) :
    Except Error (List Mention) := do
  if !cx.operation.isAggregate then throw (cx.model.faultAt kind.key .aggregateOrdering)
  match value with
  | .obj fields => aggregateFields s cx kind fields
  | .str _ =>
    if kind.isGlobal then
      let (direction, nulls) ← order cx.model kind.key value
      if cx.operation = .groupBy then
        let item ← item s (.aggregate kind none) direction nulls
        return [⟨none, item⟩]
      else return []
    else throw (cx.model.faultAt kind.key (.aggregateOrderingShape kind))
  | _ => throw (cx.model.faultAt kind.key (.aggregateOrderingShape kind))

/-- Mentions under one key. `grouped` holds the fields of a grouped query, the
only ones it may order on. -/
def keyMentions (s : Settings) (cx : Context) (grouped : Option (List String)) (key : String)
    (value : Json) : Except Error (List Mention) :=
  match Aggregate.ofKey? key with
  | some kind => aggregateMentions s cx kind value
  | none =>
    match cx.model.field? key with
    | some f => do
      if grouped.any fun names => !names.contains f.name then
        throw (cx.model.faultAt key .groupOrdering)
      let (direction, nulls) ← order cx.model key value
      let item ← item s (.column (Compile.column cx f)) direction nulls
      return [⟨some f.name, item⟩]
    | none =>
      if (cx.model.relation? key).isSome then throw (.unsupported .relationOrdering)
      else throw (cx.model.unknownMember key)

def entryMentions (s : Settings) (cx : Context) (grouped : Option (List String)) :
    List (String × Json) → Except Error (List Mention)
  | [] => .ok []
  | (key, value) :: rest => do
    let here ← keyMentions s cx grouped key value
    let later ← entryMentions s cx grouped rest
    return here ++ later

/-- The mentions of all entries; an entry without a key is refused. -/
def mentions (s : Settings) (cx : Context) (grouped : Option (List String)) :
    List Json.Entries → Except Error (List Mention)
  | [] => .ok []
  | entry :: rest => do
    if entry.isEmpty then throw (cx.model.fault .emptyOrdering)
    let here ← entryMentions s cx grouped entry
    let later ← mentions s cx grouped rest
    return here ++ later

def ascending (cx : Context) (name : String) : SortItem :=
  { key := .column ⟨cx.tag, name⟩, direction := .asc }

/-- The item of the last mention of a field, ascending without one. -/
def leadItem (cx : Context) (mentioned : List Mention) (name : String) : SortItem :=
  match mentioned.reverse.find? fun m => m.field = some name with
  | some mention => mention.item
  | none => ascending cx name

/-- The items of the leading fields. A field named again adds an ascending item
that decides nothing. -/
def leadItems (cx : Context) (mentioned : List Mention) (seen : List String) :
    List String → List SortItem
  | [] => []
  | name :: rest =>
    (if seen.contains name then ascending cx name else leadItem cx mentioned name) ::
      leadItems cx mentioned (name :: seen) rest

def distinctFields (cx : Context) : Except Error (List Field) :=
  match cx.pagination?.bind (·.distinct) with
  | none => .ok []
  | some names => do
    if names.isEmpty then throw (cx.model.fault .emptyDistinct)
    names.mapM cx.model.expectField

def unseen (seen names : List String) : List String := names.filter fun n => !seen.contains n

/-- The page is stable under ties only if the identifier ends its ordering. -/
def breaksTies (s : Settings) (cx : Context) : Bool :=
  s.orderTiebreaker && cx.operation.isRead &&
    cx.pagination?.any fun p => p.take.isSome || p.skip.isSome

/-- The sort items of a query: the leading fields, the other mentions, the
cursor's remaining fields, the tie-breaker. -/
def compile (s : Settings) (cx : Context) (orderBy : Option (List Json.Entries))
    (grouped : Option (List String)) : Except Error (List SortItem) := do
  let lead := (← distinctFields cx).map (·.name)
  let mentioned ← mentions s cx grouped (orderBy.getD [])
  let others := mentioned.filter fun m => !(m.field.any lead.contains)
  let seen := lead ++ mentioned.filterMap (·.field)
  let cursor := ((cx.pagination?.bind (·.cursor)).getD []).map (·.1)
  let cursor ← cursor.mapM cx.model.expectField
  let rest := unseen seen (cursor.map (·.name))
  let ties := if breaksTies s cx then
      unseen (seen ++ rest) (cx.model.identifiers.map (·.name))
    else []
  return leadItems cx mentioned [] lead ++ others.map (·.item) ++
    (rest ++ ties).map (ascending cx)

end QuerySql.Ordering
