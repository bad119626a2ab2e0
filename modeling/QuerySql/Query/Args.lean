import QuerySql.Error.Basic

/-!
# Query arguments

The arguments of one query. Filters, selections, orderings and payloads stay
ordered JSON entries, since their keys are looked up in the schema and their
order shows in the statement.
-/

set_option autoImplicit false

namespace QuerySql

/-- The argument keys, in the order of a positional argument list. -/
inductive Argument where
  | filter
  | select
  | inclusion
  | orderBy
  | take
  | skip
  | cursor
  | distinct
  | aggregate (kind : Aggregate)
  | grouping
  | having
  | data
  deriving DecidableEq, Repr

namespace Argument

def all : List Argument :=
  [.filter, .select, .inclusion, .orderBy, .take, .skip, .cursor, .distinct] ++
    Aggregate.all.map .aggregate ++ [.grouping, .having, .data]

def key : Argument → String
  | .filter => "where"
  | .select => "select"
  | .inclusion => "include"
  | .orderBy => "orderBy"
  | .take => "take"
  | .skip => "skip"
  | .cursor => "cursor"
  | .distinct => "distinct"
  | .aggregate kind => kind.key
  | .grouping => "by"
  | .having => "having"
  | .data => "data"

def ofKey? (key : String) : Option Argument := all.find? fun a => a.key = key

end Argument

def Operation.accepts : Operation → Argument → Bool
  | .findMany, a | .findFirst, a | .findUnique, a =>
    match a with
    | .filter | .select | .inclusion | .orderBy | .take | .skip | .cursor | .distinct => true
    | _ => false
  | .count, a =>
    match a with
    | .filter | .orderBy | .take | .skip | .cursor | .aggregate .count => true
    | _ => false
  | .aggregate, a =>
    match a with
    | .filter | .orderBy | .take | .skip | .cursor | .aggregate _ => true
    | _ => false
  | .groupBy, a =>
    match a with
    | .filter | .grouping | .having | .orderBy | .take | .skip | .aggregate _ => true
    | _ => false
  | .create, a => a = .data
  | .update, a => a = .filter || a = .data
  | .delete, a => a = .filter

structure Args where
  filter : Option Json.Entries := none
  select : Option Json.Entries := none
  inclusion : Option Json.Entries := none
  /-- The ordering entries; a single one may be given without its list. -/
  orderBy : Option (List Json.Entries) := none
  take : Option Nat := none
  skip : Option Nat := none
  cursor : Option Json.Entries := none
  distinct : Option (List String) := none
  count : Option Json := none
  sum : Option Json := none
  avg : Option Json := none
  min : Option Json := none
  max : Option Json := none
  grouping : Option (List String) := none
  having : Option Json.Entries := none
  data : Option Json.Entries := none

namespace Args

/-- The payload of an aggregate. -/
def aggregate (args : Args) : Aggregate → Option Json
  | .count => args.count
  | .sum => args.sum
  | .avg => args.avg
  | .min => args.min
  | .max => args.max

def has (args : Args) : Argument → Bool
  | .filter => args.filter.isSome
  | .select => args.select.isSome
  | .inclusion => args.inclusion.isSome
  | .orderBy => args.orderBy.isSome
  | .take => args.take.isSome
  | .skip => args.skip.isSome
  | .cursor => args.cursor.isSome
  | .distinct => args.distinct.isSome
  | .aggregate kind => (args.aggregate kind).isSome
  | .grouping => args.grouping.isSome
  | .having => args.having.isSome
  | .data => args.data.isSome

def present (args : Args) : List Argument := Argument.all.filter args.has

def isDefault (args : Args) : Bool := args.present.isEmpty

def check (args : Args) (model : String) (op : Operation) : Except Error Unit :=
  match args.present.find? fun a => !op.accepts a with
  | some a => .error (.validationOn model none (.foreignArgument a.key op))
  | none => .ok ()

end Args

end QuerySql
