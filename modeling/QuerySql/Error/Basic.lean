import QuerySql.Error.Mismatch

/-!
# Errors

An error is a cause and the causes it was added to as context, newest first.
The message lists them all; what class an error belongs to is asked of the
whole chain.
-/

set_option autoImplicit false

namespace QuerySql

inductive Subject where
  | model
  | field
  | relation
  | member
  deriving DecidableEq, Repr

def Subject.text : Subject → String
  | .model => "model"
  | .field => "field"
  | .relation => "relation"
  | .member => "field or relation"

inductive Cause where
  /-- The schema defines no such name; the message lists those it does define. -/
  | reference (subject : Subject) (owner : Option String) (name : String)
      (available : List String)
  | validation (model field : Option String) (fault : Fault)
  | unsupported (feature : Feature)
  | invalidSchema (flaw : Flaw)
  | mismatch (found : Mismatch)
  | malformedText
  | note (text : String)
  /-- An error of another library, wrapped. -/
  | foreign (text : String)

namespace Cause

def text : Cause → String
  | .reference subject owner name available =>
    "unknown " ++ subject.text ++ " " ++ ticked name ++
      (match owner with
        | some model => " on model " ++ ticked model
        | none => "") ++
      (if available.isEmpty then "" else " (available: " ++ ", ".intercalate available ++ ")")
  | .validation (some model) (some field) fault =>
    "invalid query on " ++ ticked (model ++ "." ++ field) ++ ": " ++ fault.text
  | .validation (some model) none fault =>
    "invalid query on " ++ ticked model ++ ": " ++ fault.text
  | .validation none _ fault => "invalid query: " ++ fault.text
  | .unsupported feature => "unsupported operation: " ++ feature.text
  | .invalidSchema flaw => "invalid schema: " ++ flaw.text
  | .mismatch m => m.text
  | .malformedText => "malformed JSON text"
  | .note text => text
  | .foreign text => text

def isReference : Cause → Bool
  | .reference .. => true
  | _ => false

def isValidation : Cause → Bool
  | .validation .. => true
  | _ => false

def isUnsupported : Cause → Bool
  | .unsupported _ => true
  | _ => false

def isInvalidSchema : Cause → Bool
  | .invalidSchema _ => true
  | _ => false

def isMismatch : Cause → Bool
  | .mismatch _ => true
  | _ => false

def isMalformedText : Cause → Bool
  | .malformedText => true
  | _ => false

end Cause

structure Error where
  newest : Cause
  /-- The causes below, down to the root. -/
  earlier : List Cause := []

namespace Error

def chain (e : Error) : List Cause := e.newest :: e.earlier

/-- Adds context: the new cause is shown before all that it was added to. -/
def context (e : Error) (cause : Cause) : Error := ⟨cause, e.chain⟩

def message (e : Error) : String := ": ".intercalate (e.chain.map Cause.text)

def root (e : Error) : Cause := e.earlier.getLastD e.newest

/-- The wrapped error, if the newest cause wraps one. -/
def source? (e : Error) : Option String :=
  match e.newest with
  | .foreign text => some text
  | _ => none

def isReference (e : Error) : Bool := e.chain.any Cause.isReference
def isValidation (e : Error) : Bool := e.chain.any Cause.isValidation
def isUnsupported (e : Error) : Bool := e.chain.any Cause.isUnsupported
def isInvalidSchema (e : Error) : Bool := e.chain.any Cause.isInvalidSchema
def isMismatch (e : Error) : Bool := e.chain.any Cause.isMismatch
def isMalformedText (e : Error) : Bool := e.chain.any Cause.isMalformedText

def unknownModel (name : String) (available : List String) : Error :=
  { newest := .reference .model none name available }

def unknownField (model name : String) (available : List String) : Error :=
  { newest := .reference .field (some model) name available }

def unknownRelation (model name : String) (available : List String) : Error :=
  { newest := .reference .relation (some model) name available }

def unknownMember (model name : String) (available : List String) : Error :=
  { newest := .reference .member (some model) name available }

def validation (fault : Fault) : Error :=
  { newest := .validation none none fault }

def validationOn (model : String) (field : Option String) (fault : Fault) : Error :=
  { newest := .validation (some model) field fault }

def unsupported (feature : Feature) : Error := { newest := .unsupported feature }

def invalidSchema (flaw : Flaw) : Error := { newest := .invalidSchema flaw }

def mismatch (m : Mismatch) : Error := { newest := .mismatch m }

def malformedText : Error := { newest := .malformedText }

end Error

end QuerySql
