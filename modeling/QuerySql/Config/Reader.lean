import QuerySql.Config.Basic
import QuerySql.Json.Lexeme

/-!
# Reading configurations

A configuration is read straight from its text, and the first thing wrong from
the left is reported: a value of the wrong type or an unknown key is met before
a fault of the text behind it. It is an object of some of the keys, or a list
with at most one place for each; what is left out takes its default.
-/

set_option autoImplicit false

namespace QuerySql.Config

open Json.Lexeme

abbrev Read (α : Type) := List Char → Except Error (α × List Char)

def malformed {α : Type} : Except Error α := .error .malformedText

/-- The value that starts here, as far as a message names it: of an array or an
object only the bracket is looked at. -/
def glimpse? : List Char → Option Json
  | 'n' :: cs => (word? ['u', 'l', 'l'] cs).map fun _ => .null
  | 't' :: cs => (word? ['r', 'u', 'e'] cs).map fun _ => .bool true
  | 'f' :: cs => (word? ['a', 'l', 's', 'e'] cs).map fun _ => .bool false
  | '"' :: cs => (stringBody? cs).map fun (s, _) => .str s
  | '[' :: _ => some (.arr [])
  | '\x7b' :: _ => some (.obj [])
  | cs => (number? cs).map fun (n, _) => .num n

def unexpected {α : Type} (expected : String) (cs : List Char) : Except Error α :=
  match glimpse? cs with
  | some json => .error (.mismatch (.type json expected))
  | none => malformed

def mark (c : Char) (cs : List Char) : Except Error (List Char) :=
  match skipBlanks cs with
  | found :: rest => if found = c then .ok rest else malformed
  | [] => malformed

def readNatural : Read Nat := fun cs =>
  let cs := skipBlanks cs
  match number? cs with
  | some (.int (.ofNat n), rest) => .ok (n, rest)
  | some (.int i, _) => .error (.mismatch (.value (.num (.int i)) "usize"))
  | _ => unexpected "usize" cs

def readFlag : Read Bool := fun cs =>
  let cs := skipBlanks cs
  match glimpse? cs with
  | some (.bool true) => .ok (true, cs.drop 4)
  | some (.bool false) => .ok (false, cs.drop 5)
  | _ => unexpected "a boolean" cs

def engineNamed (name : String) : Except Error Engine :=
  match Engine.ofName? name with
  | some engine => .ok engine
  | none => .error (.mismatch (.unknownVariant name (Engine.all.map Engine.name)))

def readUnit : Read Unit := fun cs =>
  let cs := skipBlanks cs
  match glimpse? cs with
  | some .null => .ok ((), cs.drop 4)
  | _ => unexpected "unit" cs

/-- An engine by its name, or as an object from its name to `null`. -/
def readEngine : Read Engine := fun cs =>
  match skipBlanks cs with
  | '"' :: cs =>
    match stringBody? cs with
    | some (name, rest) => return (← engineNamed name, rest)
    | none => malformed
  | '\x7b' :: cs =>
    match skipBlanks cs with
    | '"' :: cs =>
      match stringBody? cs with
      | some (name, rest) => do
        let engine ← engineNamed name
        let rest ← mark ':' rest
        let (_, rest) ← readUnit rest
        return (engine, ← mark '\x7d' rest)
      | none => malformed
    | cs => unexpected "variant identifier" cs
  | _ => malformed

def readKey (key : Key) (config : Config) : Read Config := fun cs =>
  match key with
  | .dialect => do
    let (engine, cs) ← readEngine cs
    return ({ config with engine }, cs)
  | .maxDepth => do
    let (maxDepth, cs) ← readNatural cs
    return ({ config with maxDepth }, cs)
  | .orderTiebreaker => do
    let (orderTiebreaker, cs) ← readFlag cs
    return ({ config with orderTiebreaker }, cs)

/-- One member: a known key that is still `free`, a colon and its value. -/
def readMember (free : List Key) (config : Config) : List Char →
    Except Error (Key × Config × List Char)
  | '"' :: cs =>
    match stringBody? cs with
    | none => malformed
    | some (name, cs) =>
      match Key.ofText? name with
      | none => .error (.mismatch (.unknownField name (Key.all.map Key.text)))
      | some key => do
        if !free.contains key then throw (.mismatch (.duplicateField name))
        let cs ← mark ':' cs
        let (config, cs) ← readKey key config cs
        return (key, config, cs)
  | _ => malformed

/-- The members after the first. No key comes twice, so `fuel` need only be the
number of keys. -/
def readMembers (free : List Key) (config : Config) : Nat → Read Config
  | 0, _ => malformed
  | fuel + 1, cs =>
    match skipBlanks cs with
    | '\x7d' :: cs => .ok (config, cs)
    | ',' :: cs => do
      let (key, config, cs) ← readMember free config (skipBlanks cs)
      readMembers (free.erase key) config fuel cs
    | _ => malformed

def readObject : Read Config := fun cs =>
  match skipBlanks cs with
  | '\x7d' :: cs => .ok ({}, cs)
  | cs => do
    let (key, config, cs) ← readMember Key.all {} cs
    readMembers (Key.all.erase key) config Key.all.length cs

def readPlaces (config : Config) : List Key → Read Config
  | keys, cs =>
    match skipBlanks cs, keys with
    | ']' :: cs, _ => .ok (config, cs)
    | ',' :: cs, key :: keys =>
      match skipBlanks cs with
      | ']' :: _ => malformed
      | cs => do
        let (config, cs) ← readKey key config cs
        readPlaces config keys cs
    | _, _ => malformed

def readArray : Read Config := fun cs =>
  match skipBlanks cs with
  | ']' :: cs => .ok ({}, cs)
  | cs => do
    let (config, cs) ← readKey .dialect {} cs
    readPlaces config [.maxDepth, .orderTiebreaker] cs

def parse (s : String) : Except Error Config := do
  let (config, rest) ←
    match skipBlanks s.toList with
    | '\x7b' :: cs => readObject cs
    | '[' :: cs => readArray cs
    | cs => unexpected "struct Config" cs
  if (skipBlanks rest).isEmpty then return config else malformed

end QuerySql.Config
