import QuerySql.Alias
import QuerySql.Dialect.Basic

/-!
# Lexing

SQL text cut into tokens by the rules of an engine: names and strings between
delimiters that are written twice inside, backslash escapes where strings have
them, placeholders, words, symbols and marks of punctuation. The lexer knows
nothing of how a dialect writes. It reads one character at a time, so text that
is put together from parts that stand apart is lexed part by part.
-/

set_option autoImplicit false

namespace QuerySql

/-- A token of SQL text. What stands in the place of a value is a slot: its
placeholder in text, the value itself in a statement. -/
inductive Token (α : Type) where
  | word (text : String)
  | name (text : String)
  | literal (text : String)
  | symbol (text : String)
  | mark (c : Char)
  | slot (value : α)
  deriving DecidableEq, Repr

/-- What the lexer of an engine goes by. -/
structure Lexis where
  delimiter : Char
  escapes : Bool
  placeholder : Char
  numbered : Bool

def Engine.lexis : Engine → Lexis
  | .postgresql => ⟨'"', false, '$', true⟩
  | .sqlite => ⟨'"', false, '?', true⟩
  | .mysql => ⟨'`', true, '?', false⟩

namespace Lexer

inductive Class where
  | blank
  | mark
  | delimiter
  | quote
  | placeholder
  | word
  | symbol
  deriving DecidableEq, Repr

def isWord (c : Char) : Bool := c.isAlphanum || c = '_'

def isMark (c : Char) : Bool := c = '(' || c = ')' || c = ',' || c = '.'

def classOf (l : Lexis) (c : Char) : Class :=
  if c = ' ' then .blank
  else if isMark c then .mark
  else if c = l.delimiter then .delimiter
  else if c = '\'' then .quote
  else if c = l.placeholder then .placeholder
  else if isWord c then .word
  else .symbol

inductive Quoted where
  | name
  | literal
  deriving DecidableEq, Repr

def Quoted.delimiter (l : Lexis) : Quoted → Char
  | .name => l.delimiter
  | .literal => '\''

def Quoted.token (q : Quoted) (text : List Char) : Token String :=
  match q with
  | .name => .name (String.ofList text)
  | .literal => .literal (String.ofList text)

inductive State where
  | free
  | word (text : List Char)
  | symbol (text : List Char)
  | slot (text : List Char)
  | inside (q : Quoted) (text : List Char)
  /-- A delimiter was read: the end of the token, or the first of two. -/
  | closing (q : Quoted) (text : List Char)
  | escaped (text : List Char)
  deriving DecidableEq, Repr

/-- The token that is complete if the text ends here. A name or a string whose
end is missing is none. -/
def State.finish : State → Option (List (Token String))
  | .free => some []
  | .word text => some [.word (String.ofList text)]
  | .symbol text => some [.symbol (String.ofList text)]
  | .slot text => some [.slot (String.ofList text)]
  | .closing q text => some [q.token text]
  | .inside _ _ | .escaped _ => none

def start (l : Lexis) (c : Char) : List (Token String) × State :=
  match classOf l c with
  | .blank => ([], .free)
  | .mark => ([.mark c], .free)
  | .delimiter => ([], .inside .name [])
  | .quote => ([], .inside .literal [])
  | .placeholder =>
    if l.numbered then ([], .slot [c]) else ([.slot (String.singleton c)], .free)
  | .word => ([], .word [c])
  | .symbol => ([], .symbol [c])

def next (l : Lexis) (token : Token String) (c : Char) : List (Token String) × State :=
  (token :: (start l c).1, (start l c).2)

/-- The escapes of a string; in front of a wildcard the backslash stays. -/
def unescape (c : Char) : List Char :=
  match c with
  | '0' => ['\x00']
  | 'b' => ['\x08']
  | 'n' => ['\n']
  | 'r' => ['\r']
  | 't' => ['\t']
  | 'Z' => ['\x1a']
  | '%' | '_' => ['\\', c]
  | c => [c]

def step (l : Lexis) (σ : State) (c : Char) : List (Token String) × State :=
  match σ with
  | .free => start l c
  | .word text =>
    if isWord c then ([], .word (text ++ [c])) else next l (.word (String.ofList text)) c
  | .symbol text =>
    if classOf l c = .symbol then ([], .symbol (text ++ [c]))
    else next l (.symbol (String.ofList text)) c
  | .slot text =>
    if c.isDigit then ([], .slot (text ++ [c])) else next l (.slot (String.ofList text)) c
  | .inside q text =>
    if c = q.delimiter l then ([], .closing q text)
    else if q = .literal && l.escapes && c = '\\' then ([], .escaped text)
    else ([], .inside q (text ++ [c]))
  | .closing q text =>
    if c = q.delimiter l then ([], .inside q (text ++ [c])) else next l (q.token text) c
  | .escaped text => ([], .inside .literal (text ++ unescape c))

def run (l : Lexis) : State → List Char → List (Token String) × State
  | σ, [] => ([], σ)
  | σ, c :: cs => ((step l σ c).1 ++ (run l (step l σ c).2 cs).1, (run l (step l σ c).2 cs).2)

/-- The tokens of a text, if each of them comes to an end. -/
def lex (l : Lexis) (text : List Char) : Option (List (Token String)) :=
  (run l .free text).2.finish.map ((run l .free text).1 ++ ·)

theorem run_append (l : Lexis) (σ : State) (x y : List Char) :
    run l σ (x ++ y) =
      ((run l σ x).1 ++ (run l (run l σ x).2 y).1, (run l (run l σ x).2 y).2) := by
  induction x generalizing σ with
  | nil => rfl
  | cons c cs ih => simp [run, ih]

/-- Blanks and marks end whatever token is open, if it can end at all. -/
def isSeparator (c : Char) : Bool := c = ' ' || isMark c

theorem separator_cases {c : Char} (h : isSeparator c = true) :
    c = ' ' ∨ c = '(' ∨ c = ')' ∨ c = ',' ∨ c = '.' := by
  simpa [isSeparator, isMark, or_assoc] using h

theorem start_separator (e : Engine) {c : Char} (h : isSeparator c = true) :
    (start e.lexis c).2 = .free := by
  rcases separator_cases h with rfl | rfl | rfl | rfl | rfl <;> cases e <;> rfl

theorem step_separator (e : Engine) {σ : State} {ts : List (Token String)} {c : Char}
    (h : isSeparator c = true) (hσ : σ.finish = some ts) :
    step e.lexis σ c = (ts ++ (start e.lexis c).1, .free) := by
  have hword : isWord c = false := by
    rcases separator_cases h with rfl | rfl | rfl | rfl | rfl <;> rfl
  have hdigit : c.isDigit = false := by
    rcases separator_cases h with rfl | rfl | rfl | rfl | rfl <;> rfl
  have hsymbol : classOf e.lexis c ≠ .symbol := by
    rcases separator_cases h with rfl | rfl | rfl | rfl | rfl <;> cases e <;> decide
  have hdelimiter : ∀ q : Quoted, c ≠ q.delimiter e.lexis := by
    intro q
    rcases separator_cases h with rfl | rfl | rfl | rfl | rfl <;> cases e <;> cases q <;> decide
  cases σ with
  | free | word _ | symbol _ | slot _ | closing _ _ =>
    cases hσ
    simp [step, next, hword, hdigit, hsymbol, hdelimiter, ← start_separator e h]
  | inside _ _ | escaped _ => cases hσ

theorem free_after_separator (e : Engine) {σ : State} {c : Char} (h : isSeparator c = true)
    (hfinish : (step e.lexis σ c).2.finish.isSome = true) : (step e.lexis σ c).2 = .free := by
  cases hσ : σ.finish with
  | some ts => rw [step_separator e h hσ]
  | none =>
    have hdelimiter : ∀ q : Quoted, c ≠ q.delimiter e.lexis := by
      intro q
      rcases separator_cases h with rfl | rfl | rfl | rfl | rfl <;> cases e <;> cases q <;> decide
    have hescape : c ≠ '\\' := by
      rcases separator_cases h with rfl | rfl | rfl | rfl | rfl <;> decide
    cases σ with
    | free | word _ | symbol _ | slot _ | closing _ _ => cases hσ
    | inside q text => simp [step, hdelimiter, hescape, State.finish] at hfinish
    | escaped text => simp [step, State.finish] at hfinish

/-- A separator stands on one side of the border between two texts. -/
def Apart (x y : List Char) : Prop :=
  x.getLast?.all isSeparator = true ∨ y.head?.all isSeparator = true

/-- Texts that stand apart are lexed one after the other. -/
theorem lex_append (e : Engine) {x y : List Char} {ts : List (Token String)}
    (hx : lex e.lexis x = some ts) (h : Apart x y) :
    lex e.lexis (x ++ y) = (lex e.lexis y).map (ts ++ ·) := by
  obtain ⟨last, hlast, rfl⟩ := Option.map_eq_some_iff.mp hx
  rcases h with h | h
  · have hfree : (run e.lexis .free x).2 = .free := by
      rcases List.eq_nil_or_concat x with rfl | ⟨init, c, rfl⟩
      · rfl
      · rw [List.concat_eq_append] at h hlast ⊢
        rw [run_append] at hlast ⊢
        apply free_after_separator e
        · simpa using h
        · exact Option.isSome_iff_exists.mpr ⟨last, hlast⟩
    rw [hfree] at hlast
    cases hlast
    rw [lex, run_append, hfree, lex, Option.map_map]
    congr 1
    funext us
    simp
  · cases y with
    | nil => rw [List.append_nil, hx]; simp [lex, run, State.finish]
    | cons c y =>
      have hc : isSeparator c = true := by simpa using h
      have hstart := start_separator e hc
      rw [lex, run_append, run, step_separator e hc hlast, lex, run, step, hstart, Option.map_map]
      congr 1
      funext us
      simp

theorem run_word (l : Lexis) (text : List Char) {cs : List Char}
    (h : ∀ c ∈ cs, isWord c = true) : run l (.word text) cs = ([], .word (text ++ cs)) := by
  induction cs generalizing text with
  | nil => simp [run]
  | cons c cs ih =>
    have hc : isWord c = true := h c List.mem_cons_self
    have hcs : ∀ c ∈ cs, isWord c = true := fun c hmem => h c (List.mem_cons_of_mem _ hmem)
    simp [run, step, hc, ih _ hcs]

theorem class_of_alphanum (e : Engine) {c : Char} (h : c.isAlphanum = true) :
    classOf e.lexis c = .word := by
  have hne : ∀ {x : Char}, x.isAlphanum = false → c ≠ x := by
    rintro x hx rfl
    rw [h] at hx
    cases hx
  have hword : isWord c = true := by simp [isWord, h]
  have hmark : isMark c = false := by
    simp [isMark, hne (x := '(') rfl, hne (x := ')') rfl, hne (x := ',') rfl, hne (x := '.') rfl]
  have hdelimiter : c ≠ e.lexis.delimiter := hne (by cases e <;> rfl)
  have hplaceholder : c ≠ e.lexis.placeholder := hne (by cases e <;> rfl)
  simp [classOf, hne (x := ' ') rfl, hne (x := '\'') rfl, hmark, hdelimiter, hplaceholder, hword]

theorem lex_alphanum (e : Engine) {c : Char} {cs : List Char} (hc : c.isAlphanum = true)
    (hcs : ∀ x ∈ cs, x.isAlphanum = true) :
    lex e.lexis (c :: cs) = some [.word (String.ofList (c :: cs))] := by
  have hstart : start e.lexis c = ([], .word [c]) := by
    rw [start, class_of_alphanum e hc]
  have hword : ∀ x ∈ cs, isWord x = true := fun x hx => by simp [isWord, hcs x hx]
  have hrun := run_word e.lexis [c] hword
  rw [lex, run, step, hstart, hrun]
  rfl

theorem is_digit_of_number {n : Nat} {c : Char} (h : c ∈ (toString n).toList) :
    c.isDigit = true := by
  rw [Nat.toString_eq_repr, Nat.toList_repr] at h
  exact Nat.isDigit_of_mem_toDigits (by decide) (by decide) h

theorem is_alphanum_of_number {n : Nat} {c : Char} (h : c ∈ (toString n).toList) :
    c.isAlphanum = true := by
  simp [Char.isAlphanum, is_digit_of_number h]

theorem lex_number (e : Engine) (n : Nat) :
    lex e.lexis (toString n).toList = some [.word (toString n)] := by
  have hdigits : ∀ c ∈ (toString n).toList, c.isAlphanum = true :=
    fun c hc => is_alphanum_of_number hc
  have hne : (toString n).toList ≠ [] := by
    rw [Nat.toString_eq_repr, Nat.toList_repr]
    exact Nat.toDigits_ne_nil
  have htext := String.ofList_toList (s := toString n)
  cases hcs : (toString n).toList with
  | nil => exact absurd hcs hne
  | cons c cs =>
    rw [hcs] at hdigits htext
    rw [lex_alphanum e (hdigits c List.mem_cons_self) fun x hx => hdigits x (.tail _ hx), htext]

theorem lex_alias (e : Engine) (tag : Alias) :
    lex e.lexis tag.text.toList = some [.word tag.text] := by
  have htext : tag.text.toList = 't' :: (toString tag.index).toList := String.toList_append
  have hword := lex_alphanum e (c := 't') rfl fun _ hx => is_alphanum_of_number (n := tag.index) hx
  rw [← htext, String.ofList_toList] at hword
  exact hword

theorem run_slot (l : Lexis) (text : List Char) {cs : List Char}
    (h : ∀ c ∈ cs, c.isDigit = true) : run l (.slot text) cs = ([], .slot (text ++ cs)) := by
  induction cs generalizing text with
  | nil => simp [run]
  | cons c cs ih =>
    have hc : c.isDigit = true := h c List.mem_cons_self
    have hcs : ∀ c ∈ cs, c.isDigit = true := fun c hmem => h c (List.mem_cons_of_mem _ hmem)
    simp [run, step, hc, ih _ hcs]

theorem lex_placeholder (e : Engine) (n : Nat) :
    lex e.lexis (e.dialect.placeholder n).toList = some [.slot (e.dialect.placeholder n)] := by
  have hnumbered : ∀ (e : Engine) (mark : Char), start e.lexis mark = ([], .slot [mark]) →
      lex e.lexis (String.singleton mark ++ toString n).toList =
        some [.slot (String.singleton mark ++ toString n)] := by
    intro e mark hstart
    have htext : (String.singleton mark ++ toString n).toList = mark :: (toString n).toList := by
      simp
    have hrun := run_slot e.lexis [mark] fun _ hx => is_digit_of_number (n := n) hx
    rw [lex, htext, run, step, hstart, hrun, ← String.ofList_toList (s := _ ++ _), htext]
    rfl
  cases e with
  | postgresql => exact hnumbered .postgresql '$' rfl
  | sqlite => exact hnumbered .sqlite '?' rfl
  | mysql =>
    show lex Engine.mysql.lexis "?".toList = some [.slot "?"]
    decide

end Lexer

end QuerySql
