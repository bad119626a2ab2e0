import QuerySql.Proofs.Lexer

/-!
# Quoted text is read back

A name or a string is read by itself, without regard to the tokens around it: two
delimiters are one that stands inside, a single one is the end, and what follows is
left. So what a dialect writes between quotes is read back in any context, and the
lexer goes on with the context as if nothing had stood before it.
-/

set_option autoImplicit false

namespace QuerySql

namespace Lexer

def Quoted.escapes (l : Lexis) : Quoted → Bool
  | .name => false
  | .literal => l.escapes

section Reading

variable (l : Lexis) (table : Char → List Char) (q : Quoted)

/-- What stands before the closing delimiter, and what is left after it. A delimiter that
is written twice is one inside. Where a backslash escapes the next character, both stand
for what the table has for it. -/
def enclosed? : List Char → Option (List Char × List Char)
  | [] => none
  | [c] => if c = q.delimiter l then some ([], []) else none
  | c :: d :: rest =>
    if c = q.delimiter l then
      if d = q.delimiter l then (enclosed? rest).map (Prod.map (c :: ·) id)
      else some ([], d :: rest)
    else if q.escapes l && c = '\\' then (enclosed? rest).map (Prod.map (table d ++ ·) id)
    else (enclosed? (d :: rest)).map (Prod.map (c :: ·) id)

def quoted? : List Char → Option (String × List Char)
  | [] => none
  | c :: text =>
    if c = q.delimiter l then (enclosed? l table q text).map (Prod.map String.ofList id)
    else none

def inside (c : Char) : List Char :=
  if c = q.delimiter l || (q.escapes l && c = '\\') then [c, c] else [c]

end Reading

section

variable {l : Lexis} {table : Char → List Char} {q : Quoted}

theorem inside_read (htable : table '\\' = ['\\']) (c : Char) (rest : List Char) :
    enclosed? l table q (inside l q c ++ rest) =
      (enclosed? l table q rest).map (Prod.map (c :: ·) id) := by
  by_cases hdelimiter : c = q.delimiter l
  · simp [inside, enclosed?, hdelimiter]
  by_cases hescape : (q.escapes l && c = '\\') = true
  · obtain ⟨hescapes, rfl⟩ : q.escapes l = true ∧ c = '\\' := by simpa using hescape
    simp [inside, enclosed?, hdelimiter, hescapes, htable]
  · have hplain : inside l q c = [c] := by simp_all [inside]
    rw [hplain, List.singleton_append]
    cases rest with
    | nil => simp [enclosed?, hdelimiter]
    | cons d rest => rw [enclosed?, if_neg hdelimiter, if_neg hescape]

theorem closing_read {rest : List Char} (h : rest.head? ≠ some (q.delimiter l)) :
    enclosed? l table q (q.delimiter l :: rest) = some ([], rest) := by
  cases rest with
  | nil => simp [enclosed?]
  | cons d rest =>
    have hd : d ≠ q.delimiter l := by simpa using h
    simp [enclosed?, hd]

theorem enclosed_read (htable : table '\\' = ['\\']) (text : List Char) {rest : List Char}
    (h : rest.head? ≠ some (q.delimiter l)) :
    enclosed? l table q (text.flatMap (inside l q) ++ q.delimiter l :: rest) =
      some (text, rest) := by
  induction text with
  | nil => exact closing_read h
  | cons c text ih =>
    rw [List.flatMap_cons, List.append_assoc, inside_read htable, ih]
    rfl

theorem enclosed_spelling (hq : q.escapes l = false) {spelled text rest : List Char}
    (h : enclosed? l table q spelled = some (text, rest)) :
    rest.head? ≠ some (q.delimiter l) ∧
      spelled = text.flatMap (inside l q) ++ q.delimiter l :: rest := by
  -- cases 1 to 3: at most one character; 4 and 5: delimiters; 6: an escape; 7: any other
  fun_induction enclosed? l table q spelled generalizing text with
  | case1 => cases h
  | case2 =>
    cases h
    exact ⟨nofun, rfl⟩
  | case3 => cases h
  | case4 spelled ih =>
    obtain ⟨⟨text, _⟩, hread, ⟨⟩⟩ := Option.map_eq_some_iff.mp h
    obtain ⟨hrest, rfl⟩ := ih hread
    exact ⟨hrest, by simp [inside]⟩
  | case5 d rest hd =>
    cases h
    exact ⟨by simpa using hd, rfl⟩
  | case6 c d spelled hc hescape ih => simp [hq] at hescape
  | case7 c d spelled hc hescape ih =>
    obtain ⟨⟨text, _⟩, hread, ⟨⟩⟩ := Option.map_eq_some_iff.mp h
    obtain ⟨hrest, hspelled⟩ := ih hread
    exact ⟨hrest, by simp [inside, hc, hq, hspelled]⟩

/-- The tokens of a text that is read on from a state, if each of them comes to an end. -/
def lexFrom (l : Lexis) (σ : State) (text : List Char) : Option (List (Token String)) :=
  (run l σ text).2.finish.map ((run l σ text).1 ++ ·)

theorem lex_from_silent {σ τ : State} {c : Char} (h : step l σ c = ([], τ)) (text : List Char) :
    lexFrom l σ (c :: text) = lexFrom l τ text := by
  simp [lexFrom, run, h]

theorem lex_from_closing {rest : List Char} (h : rest.head? ≠ some (q.delimiter l))
    (text : List Char) :
    lexFrom l (.closing q text) rest = (lex l rest).map (q.token text :: ·) := by
  cases rest with
  | nil => rfl
  | cons c rest =>
    have hc : c ≠ q.delimiter l := by simpa using h
    have hstep : step l (.closing q text) c = next l (q.token text) c := by simp [step, hc]
    rw [lexFrom, run, hstep, lex, run, Option.map_map]
    rfl

/-- What is read by itself is the token at hand, and the lexer goes on with what is left.
The reader looks two characters ahead where the lexer takes a state between them. -/
theorem lex_from_enclosed {spelled text rest : List Char}
    (h : enclosed? l unescape q spelled = some (text, rest)) (before : List Char) :
    lexFrom l (.inside q before) spelled = (lex l rest).map (q.token (before ++ text) :: ·) := by
  have hclosing : ∀ before, step l (.inside q before) (q.delimiter l) = ([], .closing q before) :=
    fun before => by simp [step]
  fun_induction enclosed? l unescape q spelled generalizing text before with
  | case1 => cases h
  | case2 =>
    cases h
    rw [lex_from_silent (hclosing before), lex_from_closing (by simp), List.append_nil]
  | case3 => cases h
  | case4 spelled ih =>
    obtain ⟨⟨text, _⟩, hread, ⟨⟩⟩ := Option.map_eq_some_iff.mp h
    have htwice : step l (.closing q before) (q.delimiter l) =
        ([], .inside q (before ++ [q.delimiter l])) := by simp [step]
    rw [lex_from_silent (hclosing before), lex_from_silent htwice, ih hread, List.append_assoc,
      List.singleton_append]
  | case5 d rest hd =>
    cases h
    rw [lex_from_silent (hclosing before), lex_from_closing (by simpa using hd), List.append_nil]
  | case6 c d spelled hc hescape ih =>
    obtain ⟨⟨text, _⟩, hread, ⟨⟩⟩ := Option.map_eq_some_iff.mp h
    cases q with
    | name => simp [Quoted.escapes] at hescape
    | literal =>
      have hslash : step l (.inside .literal before) c = ([], .escaped before) := by
        simp_all [step, Quoted.escapes]
      have hnext : step l (.escaped before) d = ([], .inside .literal (before ++ unescape d)) := rfl
      rw [lex_from_silent hslash, lex_from_silent hnext, ih hread, List.append_assoc]
  | case7 c d spelled hc hescape ih =>
    obtain ⟨⟨text, _⟩, hread, ⟨⟩⟩ := Option.map_eq_some_iff.mp h
    have hplain : step l (.inside q before) c = ([], .inside q (before ++ [c])) := by
      cases q <;> simp_all [step, Quoted.escapes]
    rw [lex_from_silent hplain, ih hread, List.append_assoc, List.singleton_append]

end

def Quoted.write (d : Dialect) : Quoted → String → String
  | .name => d.quote
  | .literal => d.stringLiteral

variable (e : Engine) (q : Quoted)

theorem written_text (s : String) :
    (q.write e.dialect s).toList =
      q.delimiter e.lexis :: (s.toList.flatMap (inside e.lexis q) ++ [q.delimiter e.lexis]) := by
  cases q with
  | name =>
    have hinside : inside e.lexis .name =
        fun c => if c = e.lexis.delimiter then [c, c] else [c] := by
      funext c
      by_cases hc : c = e.lexis.delimiter <;> simp [inside, Quoted.escapes, Quoted.delimiter, hc]
    rw [hinside]
    cases e <;> exact String.toList_ofList
  | literal =>
    have hescapes : e.dialect.backslashEscapes = e.lexis.escapes := by cases e <;> rfl
    have hinside : inside e.lexis .literal = e.dialect.literalEscape := by
      funext c
      rw [Dialect.literalEscape, hescapes]
      rfl
    rw [hinside]
    exact String.toList_ofList

theorem written_read {table : Char → List Char} (htable : table '\\' = ['\\']) (s : String)
    {rest : List Char} (h : rest.head? ≠ some (q.delimiter e.lexis)) :
    quoted? e.lexis table q ((q.write e.dialect s).toList ++ rest) = some (s, rest) := by
  rw [written_text, List.cons_append, List.append_assoc, List.singleton_append, quoted?,
    if_pos rfl, enclosed_read htable s.toList h]
  simp

theorem read_written (hq : q.escapes e.lexis = false) {table : Char → List Char} {s : String}
    {text rest : List Char} (h : quoted? e.lexis table q text = some (s, rest)) :
    rest.head? ≠ some (q.delimiter e.lexis) ∧
      text = (q.write e.dialect s).toList ++ rest := by
  cases text with
  | nil => cases h
  | cons c spelled =>
    by_cases hc : c = q.delimiter e.lexis
    · rw [quoted?, if_pos hc] at h
      obtain ⟨⟨text, _⟩, hread, ⟨⟩⟩ := Option.map_eq_some_iff.mp h
      obtain ⟨hrest, rfl⟩ := enclosed_spelling hq hread
      exact ⟨hrest, by simp [written_text, hc]⟩
    · rw [quoted?, if_neg hc] at h
      cases h

theorem written_lexed (s : String) {rest : List Char}
    (h : rest.head? ≠ some (q.delimiter e.lexis)) :
    lex e.lexis ((q.write e.dialect s).toList ++ rest) =
      (lex e.lexis rest).map (q.token s.toList :: ·) := by
  have hopen : step e.lexis .free (q.delimiter e.lexis) = ([], .inside q []) := by
    cases e <;> cases q <;> rfl
  have hread : enclosed? e.lexis unescape q (s.toList.flatMap (inside e.lexis q) ++
      q.delimiter e.lexis :: rest) = some (s.toList, rest) := enclosed_read rfl s.toList h
  rw [written_text, List.cons_append, List.append_assoc, List.singleton_append]
  exact (lex_from_silent hopen _).trans (lex_from_enclosed hread [])

theorem lex_quote (s : String) : lex e.lexis (e.dialect.quote s).toList = some [.name s] := by
  have h : lex e.lexis ((e.dialect.quote s).toList ++ []) = some [Quoted.name.token s.toList] :=
    written_lexed e .name s nofun
  rwa [List.append_nil, Quoted.token, String.ofList_toList] at h

theorem lex_literal (s : String) :
    lex e.lexis (e.dialect.stringLiteral s).toList = some [.literal s] := by
  have h : lex e.lexis ((e.dialect.stringLiteral s).toList ++ []) =
      some [Quoted.literal.token s.toList] := written_lexed e .literal s nofun
  rwa [List.append_nil, Quoted.token, String.ofList_toList] at h

theorem written_injective : Function.Injective (q.write e.dialect) := by
  intro s t h
  have hread : ∀ s,
      quoted? e.lexis unescape q ((q.write e.dialect s).toList ++ []) = some (s, []) :=
    fun s => written_read e q rfl s nofun
  have hboth := hread s
  rw [h, hread t] at hboth
  exact (congrArg Prod.fst (Option.some.inj hboth)).symm

theorem literal_doubled (s : String) :
    (e.dialect.stringLiteral s).toList =
      '\'' :: (Dialect.double '\''
        (if e.lexis.escapes then String.ofList (Dialect.double '\\' s) else s) ++ ['\'']) := by
  have hplain : ∀ d : Dialect, d.backslashEscapes = false →
      (d.stringLiteral s).toList = '\'' :: (Dialect.double '\'' s ++ ['\'']) := by
    intro d hd
    have hescape : d.literalEscape = fun c => if c = '\'' then [c, c] else [c] := by
      funext c
      simp [Dialect.literalEscape, hd]
    rw [Dialect.stringLiteral, String.toList_ofList, hescape, Dialect.double]
  cases e with
  | postgresql => exact hplain .postgresql rfl
  | sqlite => exact hplain .sqlite rfl
  | mysql =>
    have hescape : ∀ c, Dialect.mysql.literalEscape c =
        (if c = '\\' then [c, c] else [c]).flatMap fun c => if c = '\'' then [c, c] else [c] := by
      intro c
      by_cases hslash : c = '\\'
      · subst hslash
        rfl
      · by_cases hquote : c = '\'' <;> simp [Dialect.literalEscape, hslash, hquote]
    change (Dialect.mysql.stringLiteral s).toList = '\'' :: (Dialect.double '\''
      (String.ofList (Dialect.double '\\' s)) ++ ['\''])
    rw [Dialect.stringLiteral, String.toList_ofList, Dialect.double, String.toList_ofList,
      Dialect.double, List.flatMap_assoc, funext hescape]

end Lexer

open Lexer (quoted? lex)

/-- What an engine's dialect writes between quotes is read back in any context. Whatever
rest stands after a name or a string and does not start with its delimiter, they are read
as they are and the rest is left, by any table of escapes in which a backslash stands for
itself; the lexer takes them for one token before those of the rest. A name is read of no
other text, and a string of none where nothing escapes. Quotes are doubled in all of a
string, in MySQL once its backslashes are. So no two names and no two strings are written
alike. -/
theorem quotes_are_read_back (e : Engine) (table : Char → List Char)
    (htable : table '\\' = ['\\']) :
    (∀ s rest, rest.head? ≠ some e.lexis.delimiter →
      quoted? e.lexis table .name ((e.dialect.quote s).toList ++ rest) = some (s, rest) ∧
      lex e.lexis ((e.dialect.quote s).toList ++ rest) = (lex e.lexis rest).map (.name s :: ·)) ∧
    (∀ s rest, rest.head? ≠ some '\'' →
      quoted? e.lexis table .literal ((e.dialect.stringLiteral s).toList ++ rest) =
        some (s, rest) ∧
      lex e.lexis ((e.dialect.stringLiteral s).toList ++ rest) =
        (lex e.lexis rest).map (.literal s :: ·)) ∧
    (∀ s text rest, quoted? e.lexis table .name text = some (s, rest) →
      rest.head? ≠ some e.lexis.delimiter ∧ text = (e.dialect.quote s).toList ++ rest) ∧
    (e.lexis.escapes = false → ∀ s text rest,
      quoted? e.lexis table .literal text = some (s, rest) →
        rest.head? ≠ some '\'' ∧ text = (e.dialect.stringLiteral s).toList ++ rest) ∧
    (∀ s, (e.dialect.stringLiteral s).toList = '\'' :: (Dialect.double '\''
      (if e.lexis.escapes then String.ofList (Dialect.double '\\' s) else s) ++ ['\''])) ∧
    Function.Injective e.dialect.quote ∧ Function.Injective e.dialect.stringLiteral := by
  refine ⟨fun s rest h => ⟨Lexer.written_read e .name htable s h, ?_⟩,
    fun s rest h => ⟨Lexer.written_read e .literal htable s h, ?_⟩,
    fun s text rest h => Lexer.read_written e .name rfl h,
    fun hescapes s text rest h => Lexer.read_written e .literal hescapes h,
    Lexer.literal_doubled e, Lexer.written_injective e .name, Lexer.written_injective e .literal⟩
  · have hname := Lexer.written_lexed e .name s h
    rwa [Lexer.Quoted.token, String.ofList_toList] at hname
  · have hliteral := Lexer.written_lexed e .literal s h
    rwa [Lexer.Quoted.token, String.ofList_toList] at hliteral

namespace Sample

def torn : String := "\\'\\\\'\\`\\\"\\"

end Sample

theorem sample_quotes_are_read_back :
    quoted? Engine.mysql.lexis (fun c => [c]) .literal
        ((Dialect.mysql.stringLiteral Sample.torn).toList ++ "\\' OR".toList) =
      some (Sample.torn, "\\' OR".toList) ∧
    lex Engine.mysql.lexis ((Dialect.mysql.quote Sample.torn).toList ++ "'x'".toList) =
      some [.name Sample.torn, .literal "x"] ∧
    Dialect.mysql.stringLiteral "\\'" ≠ Dialect.mysql.stringLiteral "''" ∧
    "'\\''' = 'x'".toList =
      (Dialect.postgresql.stringLiteral "\\'").toList ++ " = 'x'".toList := by
  obtain ⟨hname, hliteral, -, -, -, -, hinjective⟩ :=
    quotes_are_read_back .mysql (fun c => [c]) rfl
  obtain ⟨-, -, -, hspelling, -⟩ := quotes_are_read_back .postgresql Lexer.unescape rfl
  refine ⟨(hliteral Sample.torn "\\' OR".toList (by decide)).1, ?_, ?_, ?_⟩
  · exact ((hname Sample.torn "'x'".toList (by decide)).2).trans (by decide)
  · exact fun h => absurd (hinjective h) (by decide)
  · exact (hspelling rfl "\\'" _ " = 'x'".toList (by decide)).2

end QuerySql
