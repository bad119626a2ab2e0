/-!
# Comparison operators and sort orders
-/

set_option autoImplicit false

namespace QuerySql

inductive Comparison where
  | eq
  | ne
  | lt
  | le
  | gt
  | ge
  deriving DecidableEq, Repr

def Comparison.text : Comparison → String
  | .eq => "="
  | .ne => "<>"
  | .lt => "<"
  | .le => "<="
  | .gt => ">"
  | .ge => ">="

inductive Direction where
  | asc
  | desc
  deriving DecidableEq, Repr

def Direction.text : Direction → String
  | .asc => "ASC"
  | .desc => "DESC"

inductive Nulls where
  | first
  | last
  deriving DecidableEq, Repr

def Nulls.text : Nulls → String
  | .first => "NULLS FIRST"
  | .last => "NULLS LAST"

end QuerySql
