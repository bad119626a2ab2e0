/-!
# Operations and aggregates

The operations a query may ask for and the five aggregate functions, with the
names they go by in a query.
-/

set_option autoImplicit false

namespace QuerySql

inductive Operation where
  | findMany
  | findFirst
  | findUnique
  | count
  | aggregate
  | groupBy
  | create
  | update
  | delete
  deriving DecidableEq, Repr

namespace Operation

def all : List Operation :=
  [.findMany, .findFirst, .findUnique, .count, .aggregate, .groupBy, .create, .update, .delete]

def name : Operation → String
  | .findMany => "findMany"
  | .findFirst => "findFirst"
  | .findUnique => "findUnique"
  | .count => "count"
  | .aggregate => "aggregate"
  | .groupBy => "groupBy"
  | .create => "create"
  | .update => "update"
  | .delete => "delete"

def ofName? (s : String) : Option Operation := all.find? fun op => op.name = s

def isRead : Operation → Bool
  | .findMany | .findFirst | .findUnique => true
  | _ => false

def isAggregate : Operation → Bool
  | .count | .aggregate | .groupBy => true
  | _ => false

def isMutation : Operation → Bool
  | .create | .update | .delete => true
  | _ => false

def isSingle : Operation → Bool
  | .findFirst | .findUnique => true
  | _ => false

end Operation

inductive Aggregate where
  | count
  | sum
  | avg
  | min
  | max
  deriving DecidableEq, Repr

namespace Aggregate

def all : List Aggregate := [.count, .sum, .avg, .min, .max]

def key : Aggregate → String
  | .count => "_count"
  | .sum => "_sum"
  | .avg => "_avg"
  | .min => "_min"
  | .max => "_max"

def ofKey? (key : String) : Option Aggregate := all.find? fun a => a.key = key

/-- Only the count has a form over whole rows. -/
def isGlobal : Aggregate → Bool
  | .count => true
  | _ => false

def needsNumeric : Aggregate → Bool
  | .sum | .avg => true
  | _ => false

end Aggregate

end QuerySql
