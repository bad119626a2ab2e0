import QuerySql.Compiler
import QuerySql.Config.Reader
import QuerySql.Json.Reader
import QuerySql.Schema.Builder
import QuerySql.Proofs.Success.Basic
import QuerySql.Proofs.Success.Condition
import QuerySql.Proofs.Evaluation
import QuerySql.Proofs.Meaning
import QuerySql.Proofs.Success.Filter
import QuerySql.Proofs.Preservation
import QuerySql.Proofs.Success.Statement
import QuerySql.Proofs.Agreement.Clauses
import QuerySql.Proofs.Noninterference
import QuerySql.Proofs.Success.Clauses
import QuerySql.Proofs.Literals
import QuerySql.Proofs.Parameters
import QuerySql.Proofs.Outline
import QuerySql.Proofs.Scope
import QuerySql.Proofs.Aliasing
import QuerySql.Proofs.Conjunction
import QuerySql.Proofs.Lexer
import QuerySql.Proofs.Quoting
import QuerySql.Proofs.Tokens
import QuerySql.Proofs.Reader
import QuerySql.Proofs.WellFormed
import QuerySql.Proofs.Grouping
import QuerySql.Proofs.Naming
import QuerySql.Proofs.Paging
import QuerySql.Proofs.Renaming
import QuerySql.Proofs.Shifting
import QuerySql.Proofs.Standalone
import QuerySql.Proofs.Dialects
import QuerySql.Proofs.Links
import QuerySql.Proofs.Declared
import QuerySql.Proofs.Nesting
import QuerySql.Proofs.Built
import QuerySql.Proofs.Refusals.Basic
import QuerySql.Proofs.Refusals.Clauses
import QuerySql.Proofs.Refusals.Statement
import QuerySql.Proofs.Markers
import QuerySql.Proofs.Bounds
import QuerySql.Proofs.Keyed
import QuerySql.Proofs.Reserved
import QuerySql.Proofs.Columns
import QuerySql.Proofs.Folding
import QuerySql.Proofs.Building
import QuerySql.Proofs.Groups
import QuerySql.Proofs.Retabled
import QuerySql.Proofs.Alike
import QuerySql.Proofs.Ties
import QuerySql.Proofs.Tables
import QuerySql.Proofs.Nulls
import QuerySql.Proofs.Derived
import QuerySql.Proofs.Having
import QuerySql.Proofs.Quantifiers
import QuerySql.Proofs.Pinning
import QuerySql.Proofs.Textual
import QuerySql.Proofs.Patterns
import QuerySql.Proofs.Leading
import QuerySql.Proofs.Rounding
import QuerySql.Proofs.Digits
import QuerySql.Proofs.Compact
import QuerySql.Proofs.Documents
import QuerySql.Proofs.Canonical
import QuerySql.Proofs.Modes
import QuerySql.Proofs.ResultNames
import QuerySql.Proofs.Addressing
