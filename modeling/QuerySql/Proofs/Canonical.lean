import Mathlib.Algebra.GroupWithZero.Nat
import Mathlib.Data.List.Chain
import Mathlib.Data.List.Forall2
import QuerySql.Proofs.Grouping

/-!
# Canonical fragments

The signs of a fragment are its characters and bound values in order. Whatever
operations a fragment is made by, its parts are the only canonical ones for its signs:
fragments are the free monoid over signs, and text is written of it sign by sign, from
any number of values that are bound already.
-/

set_option autoImplicit false

namespace QuerySql

def Part.isText : Part → Bool
  | .sql _ => true
  | .bound _ => false

/-- Signs that the program takes for equal: doubles are compared as numbers. -/
def Sign.same : Sign → Sign → Bool
  | .char c, .char d => c = d
  | .value v, .value w => v.same w
  | _, _ => false

namespace Fragment

/-- No text is empty, and no two texts stand side by side. -/
structure Canonical (f : Fragment) : Prop where
  nonempty : .sql "" ∉ f.parts
  apart : f.parts.IsChain fun x y => (x.isText && y.isText) = false

/-- The fragment is made by the operations on fragments, one after the other. A piece of
text, a value or a fragment is added as by `pushSql`, `pushBound` and `append`; an alias
and a number are added as their text. -/
inductive Obtained : Fragment → Prop
  | empty : Obtained .empty
  | sql (text : String) : Obtained (.sql text)
  | bound (v : Value) : Obtained (.bound v)
  | pushSql {f : Fragment} (hf : Obtained f) (text : String) : Obtained (f.pushSql text)
  | pushBound {f : Fragment} (hf : Obtained f) (v : Value) : Obtained (f.pushBound v)
  | pushAlias {f : Fragment} (hf : Obtained f) (tag : Alias) : Obtained (f.pushSql tag.text)
  | pushNumber {f : Fragment} (hf : Obtained f) (n : Nat) : Obtained (f.pushSql (toString n))
  | append {f g : Fragment} (hf : Obtained f) (hg : Obtained g) : Obtained (f ++ g)
  | join (separator : String) {fs : List Fragment} (hfs : ∀ f ∈ fs, Obtained f) :
      Obtained (.join separator fs)
  | parenthesized {f : Fragment} (hf : Obtained f) : Obtained f.parenthesized

theorem push_text_text (text last : String) (parts : List Part) :
    pushText text (parts ++ [.sql last]) = parts ++ [.sql (last ++ text)] := by
  induction parts with
  | nil => rfl
  | cons part parts ih =>
    rw [List.cons_append, pushText, ih, List.cons_append]
    simp

theorem push_text_bound (text : String) (v : Value) (parts : List Part) :
    pushText text (parts ++ [.bound v]) = parts ++ [.bound v, .sql text] := by
  induction parts with
  | nil => rfl
  | cons part parts ih =>
    rw [List.cons_append, pushText, ih, List.cons_append]
    simp

theorem push_sql_nonempty {text : String} (h : text ≠ "") (f : Fragment) :
    f.pushSql text = ⟨pushText text f.parts⟩ := by
  rw [pushSql, if_neg (by simpa using h)]

theorem push_sql_twice (f : Fragment) (s t : String) :
    (f.pushSql s).pushSql t = f.pushSql (s ++ t) := by
  by_cases hs : s = ""
  · subst hs
    simp [pushSql]
  by_cases ht : t = ""
  · subst ht
    simp [pushSql]
  have hst : s ++ t ≠ "" := by simp [hs]
  rw [push_sql_nonempty hs, push_sql_nonempty ht, push_sql_nonempty hst]
  obtain ⟨parts⟩ := f
  rcases List.eq_nil_or_concat parts with rfl | ⟨init, part, rfl⟩
  · rfl
  rw [List.concat_eq_append]
  cases part with
  | sql last => simp only [push_text_text, String.append_assoc]
  | bound v =>
    have hend : init ++ [.bound v, .sql s] = (init ++ [.bound v]) ++ [.sql s] := by simp
    simp only [push_text_bound, hend, push_text_text]
    simp

def pushSign (f : Fragment) : Sign → Fragment
  | .char c => f.pushSql (String.singleton c)
  | .value v => f.pushBound v

theorem push_signs (f : Fragment) (part : Part) : part.signs.foldl pushSign f = f.push part := by
  cases part with
  | bound v => rfl
  | sql text =>
    have hchars : ∀ (cs : List Char) (f : Fragment),
        (cs.map Sign.char).foldl pushSign f = f.pushSql (String.ofList cs) := by
      intro cs
      induction cs with
      | nil => exact fun _ => rfl
      | cons c cs ih =>
        intro f
        have hcs : String.singleton c ++ String.ofList cs = String.ofList (c :: cs) :=
          String.toList_injective (by simp)
        rw [List.map_cons, List.foldl_cons, ih, pushSign, push_sql_twice, hcs]
    rw [Part.signs, Sign.ofText, hchars, String.ofList_toList]
    rfl

theorem append_eq_signs (f g : Fragment) : f ++ g = g.signs.foldl pushSign f := by
  change g.parts.foldl push f = (g.parts.flatMap Part.signs).foldl pushSign f
  induction g.parts generalizing f with
  | nil => rfl
  | cons part parts ih =>
    rw [List.foldl_cons, ih, List.flatMap_cons, List.foldl_append, push_signs]

theorem append_assoc (f g h : Fragment) : f ++ g ++ h = f ++ (g ++ h) := by
  rw [append_eq_signs (f ++ g), append_eq_signs f (g ++ h), append_eq_signs f g, signs_append,
    List.foldl_append]

def ofSigns (signs : List Sign) : Fragment := signs.foldl pushSign empty

theorem obtained_of_signs (signs : List Sign) : Obtained (ofSigns signs) := by
  have hpush : ∀ f, Obtained f → Obtained (signs.foldl pushSign f) := by
    induction signs with
    | nil => exact fun _ hf => hf
    | cons s signs ih =>
      intro f hf
      cases s with
      | char c => exact ih _ (hf.pushSql _)
      | value v => exact ih _ (hf.pushBound v)
  exact hpush _ .empty

theorem signs_of_signs (signs : List Sign) : (ofSigns signs).signs = signs := by
  have hpush : ∀ f : Fragment, (signs.foldl pushSign f).signs = f.signs ++ signs := by
    induction signs with
    | nil => simp
    | cons s signs ih =>
      intro f
      rw [List.foldl_cons, ih]
      cases s with
      | char c => simp [pushSign, Sign.ofText]
      | value v => simp [pushSign, pushBound, Fragment.signs, Part.signs]
  exact hpush empty

namespace Canonical

variable {f g : Fragment}

theorem empty : Canonical .empty := ⟨List.not_mem_nil, .nil⟩

theorem push_bound (hf : Canonical f) (v : Value) : Canonical (f.pushBound v) := by
  refine ⟨?_, ?_⟩
  · simp [Fragment.pushBound, hf.nonempty]
  · refine List.isChain_append.mpr ⟨hf.apart, .singleton _, ?_⟩
    simp [Part.isText]

theorem push_sql (hf : Canonical f) (text : String) : Canonical (f.pushSql text) := by
  by_cases htext : text = ""
  · subst htext
    exact hf
  rw [push_sql_nonempty htext]
  obtain ⟨parts⟩ := f
  rcases List.eq_nil_or_concat parts with rfl | ⟨init, part, rfl⟩
  · exact ⟨by simpa [pushText] using Ne.symm htext, .singleton _⟩
  rw [List.concat_eq_append] at hf ⊢
  obtain ⟨hinit, hlast, hborder⟩ := List.isChain_append.mp hf.apart
  have hnonempty := hf.nonempty
  simp only [List.mem_append, not_or] at hnonempty
  cases part with
  | sql last =>
    simp only [push_text_text]
    refine ⟨?_, List.isChain_append.mpr ⟨hinit, .singleton _, ?_⟩⟩
    · simp [hnonempty.1, htext]
    · simpa [Part.isText] using hborder
  | bound v =>
    simp only [push_text_bound]
    refine ⟨?_, List.isChain_append.mpr ⟨hinit, ?_, hborder⟩⟩
    · simpa [hnonempty.1] using Ne.symm htext
    · exact .cons_cons (by simp [Part.isText]) (.singleton _)

theorem push (hf : Canonical f) (part : Part) : Canonical (f.push part) := by
  cases part with
  | sql text => exact hf.push_sql text
  | bound v => exact hf.push_bound v

theorem append (hf : Canonical f) (g : Fragment) : Canonical (f ++ g) := by
  change Canonical (g.parts.foldl Fragment.push f)
  induction g.parts generalizing f with
  | nil => exact hf
  | cons part parts ih => exact ih (hf.push part)

theorem sql (text : String) : Canonical (.sql text) := by
  have hpush : Fragment.sql text = Fragment.empty.pushSql text := by
    unfold Fragment.sql Fragment.pushSql
    split <;> rfl
  exact hpush ▸ empty.push_sql text

theorem join_from (hf : Canonical f) (separator : String) (fs : List Fragment) :
    Canonical (joinFrom separator f fs) := by
  induction fs generalizing f with
  | nil => exact hf
  | cons g fs ih => exact ih ((hf.push_sql separator).append g)

theorem join (separator : String) (fs : List Fragment) : Canonical (join separator fs) := by
  cases fs with
  | nil => exact empty
  | cons f fs => exact (empty.append f).join_from separator fs

end Canonical

theorem Obtained.canonical {f : Fragment} (hf : Obtained f) : f.Canonical := by
  induction hf with
  | empty => exact .empty
  | sql text => exact .sql text
  | bound v => exact Canonical.empty.push_bound v
  | pushSql _ text ih => exact ih.push_sql text
  | pushBound _ v ih => exact ih.push_bound v
  | pushAlias _ tag ih => exact ih.push_sql tag.text
  | pushNumber _ n ih => exact ih.push_sql (toString n)
  | append _ _ ih _ => exact ih.append _
  | join separator => exact .join separator _
  | parenthesized => exact ((Canonical.sql "(").append _).append _

theorem Canonical.push_part {before rest : List Part} {part : Part}
    (h : Canonical ⟨before ++ part :: rest⟩) :
    Fragment.push ⟨before⟩ part = ⟨before ++ [part]⟩ := by
  cases part with
  | bound v => rfl
  | sql text =>
    have htext : text ≠ "" := by
      rintro rfl
      exact h.nonempty (by simp)
    rw [Fragment.push, push_sql_nonempty htext]
    rcases List.eq_nil_or_concat before with rfl | ⟨init, last, rfl⟩
    · rfl
    rw [List.concat_eq_append] at h ⊢
    have hborder := (List.isChain_append.mp h.apart).2.2 last (by simp) (.sql text) (by simp)
    cases last with
    | sql last => cases hborder
    | bound v => simp [push_text_bound]

theorem Canonical.empty_append {f : Fragment} (hf : f.Canonical) : .empty ++ f = f := by
  have hpush : ∀ parts before : List Part, Canonical ⟨before ++ parts⟩ →
      parts.foldl Fragment.push ⟨before⟩ = ⟨before ++ parts⟩ := by
    intro parts
    induction parts with
    | nil =>
      intro before _
      rw [List.append_nil]
      rfl
    | cons part parts ih =>
      intro before h
      have hrest : before ++ part :: parts = (before ++ [part]) ++ parts := by simp
      rw [List.foldl_cons, h.push_part, hrest]
      exact ih _ (hrest ▸ h)
  exact hpush f.parts [] hf

theorem Canonical.of_signs {f : Fragment} (hf : f.Canonical) : ofSigns f.signs = f := by
  rw [ofSigns, ← append_eq_signs, hf.empty_append]

theorem obtained_iff_canonical {f : Fragment} : Obtained f ↔ f.Canonical :=
  ⟨Obtained.canonical, fun hf => hf.of_signs ▸ obtained_of_signs f.signs⟩

theorem same_iff {f g : Fragment} :
    f.same g = true ↔ List.Forall₂ (fun x y => x.same y = true) f.parts g.parts := by
  simp [same, List.forall₂_iff_zip]

theorem push_text_same (text : String) {xs ys : List Part}
    (h : List.Forall₂ (fun x y => x.same y = true) xs ys) :
    List.Forall₂ (fun x y => x.same y = true) (pushText text xs) (pushText text ys) := by
  induction h with
  | nil => exact .cons (by simp [Part.same]) .nil
  | @cons x y xs ys hxy hrest ih =>
    cases hrest with
    | nil =>
      match x, y with
      | .sql a, .sql b =>
        obtain rfl : a = b := by simpa [Part.same] using hxy
        exact .cons (by simp [Part.same]) .nil
      | .bound v, .bound w => exact .cons hxy ih
      | .sql _, .bound _ | .bound _, .sql _ => cases hxy
    | cons hhead htail =>
      have hstep : ∀ (x y : Part) (rest : List Part),
          pushText text (x :: y :: rest) = x :: pushText text (y :: rest) := by
        intro x y rest
        rw [pushText]
        simp
      rw [hstep, hstep]
      exact .cons hxy ih

theorem push_same {f g : Fragment} (h : f.same g = true) {s t : Sign} (hst : s.same t = true) :
    (f.pushSign s).same (g.pushSign t) = true := by
  match s, t with
  | .char c, .char d =>
    obtain rfl : c = d := by simpa [Sign.same] using hst
    have hone : String.singleton c ≠ "" := by simp
    rw [pushSign, pushSign, push_sql_nonempty hone, push_sql_nonempty hone, same_iff]
    exact push_text_same _ (same_iff.mp h)
  | .value v, .value w =>
    rw [pushSign, pushSign, same_iff]
    exact List.rel_append (same_iff.mp h) (.cons hst .nil)
  | .char _, .value _ | .value _, .char _ => cases hst

theorem signs_same {xs ys : List Part} (h : List.Forall₂ (fun x y => x.same y = true) xs ys) :
    List.Forall₂ (fun s t => s.same t = true) (signs ⟨xs⟩) (signs ⟨ys⟩) := by
  induction h with
  | nil => exact .nil
  | @cons x y xs ys hxy _ ih =>
    refine List.rel_append ?_ ih
    match x, y with
    | .sql a, .sql b =>
      obtain rfl : a = b := by simpa [Part.same] using hxy
      exact List.forall₂_same.mpr fun s hs => by
        obtain ⟨c, _, rfl⟩ := List.mem_map.mp hs
        simp [Sign.same]
    | .bound v, .bound w => exact .cons hxy .nil
    | .sql _, .bound _ | .bound _, .sql _ => cases hxy

theorem same_iff_signs {f g : Fragment} (hf : f.Canonical) (hg : g.Canonical) :
    f.same g = true ↔ List.Forall₂ (fun s t => s.same t = true) f.signs g.signs := by
  refine ⟨fun h => signs_same (same_iff.mp h), fun h => ?_⟩
  have hpush : ∀ {before after : List Sign},
      List.Forall₂ (fun s t => s.same t = true) before after → ∀ {f g : Fragment},
        f.same g = true → (before.foldl pushSign f).same (after.foldl pushSign g) = true := by
    intro before after h
    induction h with
    | nil => exact id
    | cons hst _ ih => exact fun hfg => ih (push_same hfg hst)
  rw [← hf.of_signs, ← hg.of_signs]
  exact hpush h rfl

theorem signs_joined (separator : String) (fs : List Fragment) :
    (join separator fs).signs = (Sign.ofText separator).intercalate (fs.map signs) := by
  have hlist : ∀ (rest : List Fragment) (f : Fragment),
      (Sign.ofText separator).intercalate ((f :: rest).map signs) =
        f.signs ++ rest.flatMap fun g => Sign.ofText separator ++ g.signs := by
    intro rest
    induction rest with
    | nil => simp [List.intercalate]
    | cons g rest ih =>
      intro f
      rw [List.flatMap_cons, List.append_assoc, ← ih g]
      simp [List.intercalate]
  cases fs with
  | nil => rfl
  | cons f fs => rw [signs_join, hlist]

theorem length_joined (separator : String) (fs : List Fragment) :
    (join separator fs).signs.length =
      (fs.map (·.signs.length)).sum + (fs.length - 1) * separator.length := by
  have hsign : (Sign.ofText separator).length = separator.length := by
    rw [Sign.ofText, List.length_map, String.length_toList]
  cases fs with
  | nil => simp [join]
  | cons f fs =>
    have hrest : (fs.flatMap fun g => Sign.ofText separator ++ g.signs).length =
        (fs.map (·.signs.length)).sum + fs.length * separator.length := by
      induction fs with
      | nil => simp
      | cons g fs ih =>
        rw [List.flatMap_cons, List.length_append, List.length_append, ih, hsign, List.map_cons,
          List.sum_cons, List.length_cons, Nat.succ_mul]
        omega
    rw [signs_join, List.length_append, hrest, List.map_cons, List.sum_cons, List.length_cons,
      Nat.add_sub_cancel, Nat.add_assoc]

theorem text_append (placeholder : Nat → String) (count : Nat) (f g : Fragment) :
    textFrom placeholder count (f ++ g).parts = textFrom placeholder count f.parts ++
      textFrom placeholder (count + f.bindings.length) g.parts := by
  have hsigns := signs_append f g
  simp only [text_of_signs, bindings_of_signs]
  change Sign.write placeholder count (f ++ g).signs = _
  rw [hsigns, Sign.write_append]
  rfl

/-- Fragments are the free monoid over signs, and writing them is a homomorphism. Those
that operations give are exactly those with canonical parts, one for each list of signs;
they are equal, as values and for the program, if and only if their signs are. They are
added as their signs are, and joined with a separator between neighbours. What a dialect
writes of a sum, whatever is bound already, is what it writes of the first fragment and
then, with as many values more bound as that one has, of the second. -/
theorem fragments_are_free_monoid :
    (∀ f, Obtained f ↔ f.Canonical) ∧
    (∀ f g h : Fragment, f ++ g ++ h = f ++ (g ++ h)) ∧
    (∀ f, Obtained f → .empty ++ f = f ∧ f ++ .empty = f) ∧
    (∀ f g : Fragment, (f ++ g).signs = f.signs ++ g.signs) ∧
    (∀ f g, Obtained f → Obtained g → (f = g ↔ f.signs = g.signs) ∧
      (f.same g = true ↔ List.Forall₂ (fun s t => s.same t = true) f.signs g.signs)) ∧
    (∀ signs, ∃ f, Obtained f ∧ f.signs = signs) ∧
    (∀ separator fs,
      (join separator fs).signs = (Sign.ofText separator).intercalate (fs.map signs) ∧
      (join separator fs).signs.length =
        (fs.map (·.signs.length)).sum + (fs.length - 1) * separator.length) ∧
    ∀ (d : Dialect) (f g : Fragment) (bound later : List Value),
      later.length = bound.length + f.bindings.length →
        (f ++ g).prepareAfter d bound =
          ⟨(f.prepareAfter d bound).sql ++ (g.prepareAfter d later).sql,
            bound ++ f.bindings ++ g.bindings⟩ := by
  refine ⟨fun f => obtained_iff_canonical, append_assoc, fun f hf => ?_, signs_append,
    fun f g hf hg => ⟨⟨fun heq => heq ▸ rfl, fun heq => ?_⟩, ?_⟩, fun signs => ?_,
    fun separator fs => ⟨signs_joined separator fs, length_joined separator fs⟩,
    fun d f g bound later hlater => ?_⟩
  · exact ⟨hf.canonical.empty_append, rfl⟩
  · rw [← hf.canonical.of_signs, heq, hg.canonical.of_signs]
  · exact same_iff_signs hf.canonical hg.canonical
  · exact ⟨ofSigns signs, obtained_of_signs signs, signs_of_signs signs⟩
  · simp only [prepareAfter, text_append, hlater, bindings_append, List.append_assoc]

end Fragment

namespace Sample

def first : Fragment := .sql "x = " ++ .bound (.int 1)

def second : Fragment := .sql " AND y = " ++ .bound (.text "a")

end Sample

theorem sample_fragments_are_free_monoid :
    Fragment.Obtained Sample.first ∧ Sample.first.Canonical ∧
    Fragment.empty ++ Sample.first = Sample.first ∧ Sample.first.signs ≠ Sample.second.signs ∧
    (Sample.first ++ Sample.second).prepareAfter .postgresql [.null] =
      ⟨"x = $2 AND y = $3", [.null, .int 1, .text "a"]⟩ := by
  obtain ⟨hobtained, -, hempty, -, hequal, -, -, hwritten⟩ := Fragment.fragments_are_free_monoid
  have hfirst : Fragment.Obtained Sample.first := .append (.sql "x = ") (.bound (.int 1))
  have hsecond : Fragment.Obtained Sample.second := .append (.sql " AND y = ") (.bound (.text "a"))
  refine ⟨hfirst, (hobtained _).mp hfirst, (hempty _ hfirst).1, ?_, ?_⟩
  · exact fun h => absurd ((hequal _ _ hfirst hsecond).1.mpr h) (by decide)
  · rw [hwritten .postgresql Sample.first Sample.second [.null] [.null, .int 1] rfl]
    decide +kernel

end QuerySql
