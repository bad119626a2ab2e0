import QuerySql.Alias
import QuerySql.Value

/-!
# Fragments

SQL text interleaved with bound values. Fragments compose by concatenation;
placeholders are numbered only when a whole statement is written, so nested
fragments never need renumbering and no value ends up in the text. Pushing
text keeps the parts canonical: no empty text, no two texts side by side.
-/

set_option autoImplicit false

namespace QuerySql

inductive Part where
  | sql (text : String)
  | bound (value : Value)
  deriving DecidableEq, Repr

def Part.same : Part → Part → Bool
  | .sql a, .sql b => a = b
  | .bound a, .bound b => a.same b
  | _, _ => false

def Part.value? : Part → Option Value
  | .sql _ => none
  | .bound value => some value

structure Fragment where
  parts : List Part := []
  deriving DecidableEq, Repr, Inhabited

namespace Fragment

def empty : Fragment := ⟨[]⟩

def sql (text : String) : Fragment := if text.isEmpty then empty else ⟨[.sql text]⟩

def bound (value : Value) : Fragment := ⟨[.bound value]⟩

def isEmpty (f : Fragment) : Bool := f.parts.isEmpty

/-- Extends the last part if it is text, else adds a part. -/
def pushText (text : String) : List Part → List Part
  | [] => [.sql text]
  | [.sql last] => [.sql (last ++ text)]
  | part :: rest => part :: pushText text rest

def pushSql (f : Fragment) (text : String) : Fragment :=
  if text.isEmpty then f else ⟨pushText text f.parts⟩

def pushBound (f : Fragment) (value : Value) : Fragment := ⟨f.parts ++ [.bound value]⟩

def push (f : Fragment) : Part → Fragment
  | .sql text => f.pushSql text
  | .bound value => f.pushBound value

def append (f g : Fragment) : Fragment := g.parts.foldl push f

instance : Append Fragment := ⟨append⟩

def joinFrom (separator : String) (f : Fragment) : List Fragment → Fragment
  | [] => f
  | g :: rest => joinFrom separator (f.pushSql separator ++ g) rest

def join (separator : String) : List Fragment → Fragment
  | [] => empty
  | f :: rest => joinFrom separator (empty ++ f) rest

def list (fragments : List Fragment) : Fragment := join ", " fragments

def parenthesized (f : Fragment) : Fragment := sql "(" ++ f ++ sql ")"

def bindings (f : Fragment) : List Value := f.parts.filterMap Part.value?

@[simp] theorem bindings_empty : empty.bindings = [] := rfl

@[simp] theorem bindings_bound (value : Value) : (bound value).bindings = [value] := rfl

@[simp] theorem bindings_sql (text : String) : (sql text).bindings = [] := by
  unfold sql
  split <;> rfl

theorem bindings_push_text (text : String) (parts : List Part) :
    bindings ⟨pushText text parts⟩ = bindings ⟨parts⟩ := by
  fun_induction pushText text parts with
  | case1 => rfl
  | case2 last => rfl
  | case3 part rest _ ih =>
    simp only [bindings, List.filterMap_cons] at ih ⊢
    rw [ih]

@[simp] theorem bindings_push_sql (f : Fragment) (text : String) :
    (f.pushSql text).bindings = f.bindings := by
  unfold pushSql
  split
  · rfl
  · exact bindings_push_text text f.parts

@[simp] theorem bindings_push_bound (f : Fragment) (value : Value) :
    (f.pushBound value).bindings = f.bindings ++ [value] := by
  simp [pushBound, bindings, Part.value?]

theorem bindings_foldl_push (f : Fragment) (parts : List Part) :
    (parts.foldl push f).bindings = f.bindings ++ bindings ⟨parts⟩ := by
  induction parts generalizing f with
  | nil => simp [bindings]
  | cons part parts ih =>
    rw [List.foldl_cons, ih]
    cases part with
    | sql text => rw [push, bindings_push_sql]; rfl
    | bound value => rw [push, bindings_push_bound, List.append_assoc]; rfl

@[simp] theorem bindings_append (f g : Fragment) :
    (f ++ g).bindings = f.bindings ++ g.bindings :=
  bindings_foldl_push f g.parts

theorem bindings_join_from (separator : String) (f : Fragment) (fs : List Fragment) :
    (joinFrom separator f fs).bindings = f.bindings ++ fs.flatMap bindings := by
  induction fs generalizing f with
  | nil => simp [joinFrom]
  | cons g fs ih => simp [joinFrom, ih]

@[simp] theorem bindings_join (separator : String) (fs : List Fragment) :
    (join separator fs).bindings = fs.flatMap bindings := by
  cases fs with
  | nil => rfl
  | cons f fs => simp [join, bindings_join_from]

@[simp] theorem bindings_list (fs : List Fragment) : (list fs).bindings = fs.flatMap bindings :=
  bindings_join ", " fs

@[simp] theorem bindings_parenthesized (f : Fragment) : f.parenthesized.bindings = f.bindings := by
  simp [parenthesized]

/-- The text with a question mark for every bound value. -/
def display (f : Fragment) : String :=
  String.join (f.parts.map fun
    | .sql text => text
    | .bound _ => "?")

def same (f g : Fragment) : Bool :=
  f.parts.length = g.parts.length && (f.parts.zip g.parts).all fun (a, b) => a.same b

/-- Writes parts after `count` values are bound, numbering on from there. -/
def textFrom (placeholder : Nat → String) (count : Nat) : List Part → String
  | [] => ""
  | .sql text :: rest => text ++ textFrom placeholder count rest
  | .bound _ :: rest => placeholder (count + 1) ++ textFrom placeholder (count + 1) rest

end Fragment

end QuerySql
