/-!
# Table aliases

One compilation numbers its tables `t0`, `t1`, … in the order in which it
meets them.
-/

set_option autoImplicit false

namespace QuerySql

structure Alias where
  index : Nat
  deriving DecidableEq, Repr

def Alias.text (a : Alias) : String := "t" ++ toString a.index

structure Aliases where
  used : Nat := 0
  deriving DecidableEq, Repr

def Aliases.next (as : Aliases) : Alias × Aliases := (⟨as.used⟩, ⟨as.used + 1⟩)

end QuerySql
