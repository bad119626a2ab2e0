import QuerySql.Json.Lexeme

/-!
# Reading JSON text

A repeated key keeps its first place and its last value. The number of
characters is enough fuel: a bracket costs two calls and comes with its
partner, an item costs one and comes with the mark after it.
-/

set_option autoImplicit false

namespace QuerySql.Json

open Lexeme

mutual

def value? : Nat → List Char → Option (Json × List Char)
  | 0, _ => none
  | fuel + 1, cs =>
    match skipBlanks cs with
    | '\x7b' :: cs =>
      match skipBlanks cs with
      | '\x7d' :: cs => some (.obj [], cs)
      | cs => (members? fuel cs []).map fun (entries, cs) => (.obj entries, cs)
    | '[' :: cs =>
      match skipBlanks cs with
      | ']' :: cs => some (.arr [], cs)
      | cs => (items? fuel cs []).map fun (items, cs) => (.arr items, cs)
    | '"' :: cs => (stringBody? cs).map fun (s, cs) => (.str s, cs)
    | 'n' :: cs => (word? ['u', 'l', 'l'] cs).map fun cs => (.null, cs)
    | 't' :: cs => (word? ['r', 'u', 'e'] cs).map fun cs => (.bool true, cs)
    | 'f' :: cs => (word? ['a', 'l', 's', 'e'] cs).map fun cs => (.bool false, cs)
    | cs => (number? cs).map fun (n, cs) => (.num n, cs)

def items? : Nat → List Char → List Json → Option (List Json × List Char)
  | 0, _, _ => none
  | fuel + 1, cs, found =>
    match value? fuel cs with
    | none => none
    | some (item, cs) =>
      match skipBlanks cs with
      | ',' :: cs => items? fuel cs (item :: found)
      | ']' :: cs => some ((item :: found).reverse, cs)
      | _ => none

def members? : Nat → List Char → Entries → Option (Entries × List Char)
  | 0, _, _ => none
  | fuel + 1, cs, found =>
    match skipBlanks cs with
    | '"' :: cs =>
      match stringBody? cs with
      | none => none
      | some (key, cs) =>
        match skipBlanks cs with
        | ':' :: cs =>
          match value? fuel cs with
          | none => none
          | some (value, cs) =>
            let found := Entries.put found key value
            match skipBlanks cs with
            | ',' :: cs => members? fuel cs found
            | '\x7d' :: cs => some (found, cs)
            | _ => none
        | _ => none
    | _ => none

end

def parse? (s : String) : Option Json :=
  let cs := s.toList
  match value? (cs.length + 1) cs with
  | some (json, rest) => if (skipBlanks rest).isEmpty then some json else none
  | none => none

end QuerySql.Json
