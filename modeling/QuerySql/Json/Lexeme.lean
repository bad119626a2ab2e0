import QuerySql.Json.Basic

/-!
# Lexemes of JSON text

Blanks, words, numbers and strings, each read off the front of a list of
characters and returned with the rest. `none` means that no such lexeme stands
there.
-/

set_option autoImplicit false

namespace QuerySql.Json.Lexeme

def isBlank (c : Char) : Bool := c = ' ' || c = '\n' || c = '\t' || c = '\r'

def skipBlanks (cs : List Char) : List Char := cs.dropWhile isBlank

def word? : List Char → List Char → Option (List Char)
  | [], cs => some cs
  | _ :: _, [] => none
  | w :: ws, c :: cs => if w = c then word? ws cs else none

def natOfDigits (digits : List Char) : Nat :=
  digits.foldl (fun n c => 10 * n + (c.toNat - '0'.toNat)) 0

def digits (cs : List Char) : List Char × List Char := cs.span Char.isDigit

def digits? (cs : List Char) : Option (List Char × List Char) :=
  match digits cs with
  | ([], _) => none
  | found => some found

def fraction? : List Char → Option (List Char × List Char)
  | '.' :: cs => digits? cs
  | cs => some ([], cs)

def exponent? : List Char → Option (Option Int × List Char)
  | 'e' :: cs => signed cs
  | 'E' :: cs => signed cs
  | cs => some (none, cs)
where
  signed : List Char → Option (Option Int × List Char)
    | '-' :: cs => (digits? cs).map fun (ds, rest) => (some (-(natOfDigits ds : Int)), rest)
    | '+' :: cs => (digits? cs).map fun (ds, rest) => (some (natOfDigits ds : Int), rest)
    | cs => (digits? cs).map fun (ds, rest) => (some (natOfDigits ds : Int), rest)

/-- An integer literal that fits 64 bits is that integer; the negative zero and
all that does not fit is a double. -/
def integer? (negative : Bool) (n : Nat) : Option Number :=
  if negative then
    if n = 0 || Nat.pow 2 63 < n then (Double.ofDecimal? true n 0).map .double
    else some (.int (-(n : Int)))
  else if n < Nat.pow 2 64 then some (.int n)
  else (Double.ofDecimal? false n 0).map .double

/-- The part of a number after its sign. A leading zero stands alone, and a
number past the finite range is no number. -/
def unsigned? (negative : Bool) (cs : List Char) : Option (Number × List Char) := do
  let (whole, cs) ← digits? cs
  if whole.head? = some '0' && 1 < whole.length then none
  let (part, cs) ← fraction? cs
  let (power, cs) ← exponent? cs
  let number ←
    if part.isEmpty && power.isNone then integer? negative (natOfDigits whole)
    else (Double.ofDecimal? negative (natOfDigits (whole ++ part))
      (power.getD 0 - part.length)).map .double
  return (number, cs)

def number? : List Char → Option (Number × List Char)
  | '-' :: cs => unsigned? true cs
  | cs => unsigned? false cs

def hexValue? (c : Char) : Option Nat :=
  if '0' ≤ c && c ≤ '9' then some (c.toNat - '0'.toNat)
  else if 'a' ≤ c && c ≤ 'f' then some (c.toNat - 'a'.toNat + 10)
  else if 'A' ≤ c && c ≤ 'F' then some (c.toNat - 'A'.toNat + 10)
  else none

def simpleEscape? : Char → Option Char
  | '"' => some '"'
  | '\\' => some '\\'
  | '/' => some '/'
  | 'b' => some '\x08'
  | 'f' => some '\x0c'
  | 'n' => some '\n'
  | 'r' => some '\r'
  | 't' => some '\t'
  | _ => none

/-- Where a reader stands inside a string. `lead` is a high surrogate that
waits for its low half. -/
inductive Position where
  | plain
  | escape
  | hex (lead : Option Nat) (left value : Nat)
  | half (lead : Nat)
  | halfEscape (lead : Nat)

/-- The four digits of an escape are read: a unit on its own, or one half of a
pair. -/
def unit? (lead : Option Nat) (value : Nat) (found : List Char) : Option (Position × List Char) :=
  match lead with
  | none =>
    if 0xD800 ≤ value && value < 0xDC00 then some (.half value, found)
    else if 0xDC00 ≤ value && value < 0xE000 then none
    else some (.plain, Char.ofNat value :: found)
  | some high =>
    if 0xDC00 ≤ value && value < 0xE000 then
      some (.plain, Char.ofNat (0x10000 + (high - 0xD800) * 0x400 + (value - 0xDC00)) :: found)
    else none

/-- Reads up to the closing quote; `found` holds the characters so far, last
first. A bare control character is refused. -/
def stringFrom? : Position → List Char → List Char → Option (String × List Char)
  | _, _, [] => none
  | .plain, found, c :: cs =>
    if c = '"' then some (String.ofList found.reverse, cs)
    else if c = '\\' then stringFrom? .escape found cs
    else if c.toNat < 0x20 then none
    else stringFrom? .plain (c :: found) cs
  | .escape, found, c :: cs =>
    if c = 'u' then stringFrom? (.hex none 4 0) found cs
    else
      match simpleEscape? c with
      | some d => stringFrom? .plain (d :: found) cs
      | none => none
  | .hex lead left value, found, c :: cs =>
    match hexValue? c with
    | none => none
    | some h =>
      if left ≤ 1 then
        match unit? lead (16 * value + h) found with
        | some (position, found) => stringFrom? position found cs
        | none => none
      else stringFrom? (.hex lead (left - 1) (16 * value + h)) found cs
  | .half lead, found, c :: cs =>
    if c = '\\' then stringFrom? (.halfEscape lead) found cs else none
  | .halfEscape lead, found, c :: cs =>
    if c = 'u' then stringFrom? (.hex (some lead) 4 0) found cs else none

def stringBody? (cs : List Char) : Option (String × List Char) :=
  stringFrom? .plain [] cs

end QuerySql.Json.Lexeme
