import QuerySql.Dialect.Basic

/-!
# Configuration
-/

set_option autoImplicit false

namespace QuerySql

structure Config where
  engine : Engine := .postgresql
  maxDepth : Nat := 8
  /-- Ends the ordering of a page with the model's identifier, so that pages
  are stable even if the requested ordering has ties. -/
  orderTiebreaker : Bool := false
  deriving DecidableEq, Repr

inductive Config.Key where
  | dialect
  | maxDepth
  | orderTiebreaker
  deriving DecidableEq, Repr

namespace Config.Key

def all : List Key := [.dialect, .maxDepth, .orderTiebreaker]

def text : Key → String
  | .dialect => "dialect"
  | .maxDepth => "maxDepth"
  | .orderTiebreaker => "orderTiebreaker"

def ofText? (s : String) : Option Key := all.find? fun k => k.text = s

end Config.Key

end QuerySql
