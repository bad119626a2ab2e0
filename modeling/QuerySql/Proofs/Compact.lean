import Mathlib.Tactic.IntervalCases
import QuerySql.Proofs.Digits

/-!
# Compact text tells documents apart

No two JSON values have one text. The first character gives the kind of the
value; a value ends where a comma or a closing bracket follows, a string where
its closing quote stands. So whatever may follow, the text of a value can be
cut off in one way only, and its parts one after the other.
-/

set_option autoImplicit false

namespace QuerySql

namespace Json.Lexeme

open Text

theorem hex_read : ∀ n < 0x20, ∀ found rest,
    stringFrom? (.hex none 4 0) found (paddedHex 4 n ++ rest) =
      stringFrom? .plain (Char.ofNat n :: found) rest := by
  intro n hn found rest
  interval_cases n <;> rfl

theorem escape_read (c : Char) (found rest : List Char) :
    stringFrom? .plain found (jsonEscape c ++ rest) = stringFrom? .plain (c :: found) rest := by
  unfold jsonEscape
  split_ifs with hquote hslash hb hf hn hr ht hcontrol
  · subst hquote
    rfl
  · subst hslash
    rfl
  · subst hb
    rfl
  · subst hf
    rfl
  · subst hn
    rfl
  · subst hr
    rfl
  · subst ht
    rfl
  · rw [← Char.ofNat_toNat c, ← hex_read c.toNat hcontrol found rest, Char.ofNat_toNat]
    rfl
  · rw [List.cons_append, List.nil_append, stringFrom?, if_neg hquote, if_neg hslash,
      if_neg hcontrol]

theorem body_read (s : String) (rest : List Char) :
    stringBody? (s.toList.flatMap jsonEscape ++ '"' :: rest) = some (s, rest) := by
  have hread : ∀ (cs found : List Char),
      stringFrom? .plain found (cs.flatMap jsonEscape ++ '"' :: rest) =
        some (String.ofList (found.reverse ++ cs), rest) := by
    intro cs
    induction cs with
    | nil =>
      intro found
      rw [List.flatMap_nil, List.nil_append, stringFrom?, if_pos rfl, List.append_nil]
    | cons c cs ih =>
      intro found
      rw [List.flatMap_cons, List.append_assoc, escape_read, ih, List.reverse_cons,
        List.append_assoc, List.singleton_append]
  rw [stringBody?, hread, List.reverse_nil, List.nil_append, String.ofList_toList]

end Json.Lexeme

theorem Text.quote_cancel {a b : String} {r s : List Char}
    (h : (quote jsonEscape a).toList ++ r = (quote jsonEscape b).toList ++ s) :
    a = b ∧ r = s := by
  rw [quote, quote, String.toList_ofList, String.toList_ofList, List.cons_append, List.cons_append,
    List.append_assoc, List.append_assoc] at h
  have hbody := congrArg Json.Lexeme.stringBody? (List.cons.inj h).2
  rw [List.singleton_append, List.singleton_append, Json.Lexeme.body_read,
    Json.Lexeme.body_read] at hbody
  exact Prod.mk.inj (Option.some.inj hbody)

namespace Json

def Ends (r : List Char) : Prop := ∀ c ∈ r.head?, c = ',' ∨ c = ']' ∨ c = '\x7d'

/-- The text of the item is told from that of any other, whatever follows. -/
def Cancels {α : Type} (t : α → List Char) (a : α) : Prop :=
  ∀ b r s, Ends r → Ends s → t a ++ r = t b ++ s → a = b ∧ r = s

section Separated

variable {α : Type} {t : α → List Char} {close : Char}

def separated (t : α → List Char) (close : Char) : List α → List Char
  | [] => [close]
  | a :: as => t a ++ as.flatMap (fun b => ',' :: t b) ++ [close]

theorem separated_eq (as : List α) :
    [','].intercalate (as.map t) ++ [close] = separated t close as := by
  cases as with
  | nil => rfl
  | cons a as =>
    rw [separated]
    congr 1
    induction as generalizing a with
    | nil => simp
    | cons b as ih =>
      rw [List.map_cons, List.map_cons, List.intercalate_cons_cons, ← List.map_cons, ih,
        List.flatMap_cons, List.append_assoc, List.singleton_append, List.cons_append]

theorem rest_ends (hclose : close = ']' ∨ close = '\x7d') (as : List α) (r : List Char) :
    Ends (as.flatMap (fun b => ',' :: t b) ++ close :: r) := by
  cases as with
  | nil =>
    rintro c ⟨⟩
    exact .inr hclose
  | cons a as =>
    rintro c ⟨⟩
    exact .inl rfl

theorem rest_cancel (hclose : close = ']' ∨ close = '\x7d') {as : List α}
    (has : ∀ a ∈ as, Cancels t a) {bs : List α} {r s : List Char}
    (h : as.flatMap (fun b => ',' :: t b) ++ close :: r =
      bs.flatMap (fun b => ',' :: t b) ++ close :: s) : as = bs ∧ r = s := by
  have hcomma : close ≠ ',' := by
    rintro rfl
    exact absurd hclose (by decide)
  induction as generalizing bs with
  | nil =>
    cases bs with
    | nil => exact ⟨rfl, (List.cons.inj h).2⟩
    | cons b bs => exact absurd (List.cons.inj h).1 hcomma
  | cons a as ih =>
    cases bs with
    | nil => exact absurd (List.cons.inj h).1.symm hcomma
    | cons b bs =>
      simp only [List.flatMap_cons, List.cons_append, List.append_assoc, List.cons.injEq,
        true_and] at h
      obtain ⟨rfl, hrest⟩ := has a List.mem_cons_self b _ _ (rest_ends hclose as r)
        (rest_ends hclose bs s) h
      obtain ⟨rfl, hr⟩ := ih (fun c hc => has c (List.mem_cons_of_mem _ hc)) hrest
      exact ⟨rfl, hr⟩

theorem separated_cancel (hclose : close = ']' ∨ close = '\x7d')
    (hfirst : ∀ a, ∃ c cs, t a = c :: cs ∧ close ≠ c) {as : List α} (has : ∀ a ∈ as, Cancels t a)
    {bs : List α} {r s : List Char}
    (h : separated t close as ++ r = separated t close bs ++ s) : as = bs ∧ r = s := by
  have hitem : ∀ b bs (r s : List Char), [close] ++ r ≠ separated t close (b :: bs) ++ s := by
    intro b bs r s heq
    obtain ⟨c, cs, hb, hc⟩ := hfirst b
    rw [separated, hb] at heq
    exact hc (List.cons.inj heq).1
  cases as with
  | nil =>
    cases bs with
    | nil => exact ⟨rfl, (List.cons.inj h).2⟩
    | cons b bs => exact absurd h (hitem b bs r s)
  | cons a as =>
    cases bs with
    | nil => exact absurd h.symm (hitem a as s r)
    | cons b bs =>
      rw [separated, separated, List.append_assoc, List.append_assoc, List.append_assoc,
        List.append_assoc] at h
      obtain ⟨rfl, hrest⟩ := has a List.mem_cons_self b _ _ (rest_ends hclose as r)
        (rest_ends hclose bs s) h
      obtain ⟨rfl, hr⟩ := rest_cancel hclose (fun c hc => has c (List.mem_cons_of_mem _ hc)) hrest
      exact ⟨rfl, hr⟩

end Separated

def leading? : Char → Option Kind
  | 'n' => some .null
  | 't' => some .boolean
  | 'f' => some .boolean
  | '"' => some .string
  | '[' => some .array
  | '\x7b' => some .object
  | c => if numeric c then some .number else none

theorem leading_of_numeric {c : Char} (h : numeric c = true) : leading? c = some .number := by
  unfold leading?
  split
  case h_7 => exact if_pos h
  all_goals exact absurd h (by decide)

theorem item_texts_eq (items : List Json) : itemTexts items = items.map text := by
  induction items with
  | nil => rfl
  | cons item items ih => rw [itemTexts, ih, List.map_cons]

def entryText (entry : String × Json) : List Char :=
  (Text.quote Text.jsonEscape entry.1).toList ++ ':' :: entry.2.text.toList

theorem entry_texts_eq (entries : Entries) :
    (entryTexts entries).map String.toList = entries.map entryText := by
  induction entries with
  | nil => rfl
  | cons entry entries ih =>
    rw [entryTexts, List.map_cons, ih, List.map_cons, entryText]
    simp

theorem text_array (items : List Json) :
    (arr items).text.toList = '[' :: separated (fun v => v.text.toList) ']' items := by
  rw [text, String.toList_append, String.toList_append, String.toList_intercalate, item_texts_eq,
    List.map_map, ← separated_eq]
  rfl

theorem text_object (entries : Entries) :
    (obj entries).text.toList = '\x7b' :: separated entryText '\x7d' entries := by
  rw [text, String.toList_append, String.toList_append, String.toList_intercalate, entry_texts_eq,
    ← separated_eq]
  rfl

theorem text_leading (v : Json) :
    ∃ c cs, v.text.toList = c :: cs ∧ leading? c = some v.kind := by
  cases v with
  | null => exact ⟨'n', _, rfl, rfl⟩
  | bool b => cases b <;> exact ⟨_, _, rfl, rfl⟩
  | num n =>
    obtain ⟨c, cs, hn⟩ := List.exists_cons_of_ne_nil n.text_ne_nil
    exact ⟨c, cs, hn, leading_of_numeric (n.text_numeric c (hn ▸ List.mem_cons_self))⟩
  | str s => exact ⟨'"', _, String.toList_ofList, rfl⟩
  | arr items => exact ⟨'[', _, text_array items, rfl⟩
  | obj entries => exact ⟨'\x7b', _, text_object entries, rfl⟩

theorem kind_eq_of_text {v w : Json} {r s : List Char}
    (h : v.text.toList ++ r = w.text.toList ++ s) : v.kind = w.kind := by
  obtain ⟨c, cs, hv, hc⟩ := text_leading v
  obtain ⟨d, ds, hw, hd⟩ := text_leading w
  rw [hv, hw] at h
  rw [(List.cons.inj h).1, hd] at hc
  exact (Option.some.inj hc).symm

theorem number_cancel {n m : Number} {r s : List Char} (hr : Ends r) (hs : Ends s)
    (h : n.text.toList ++ r = m.text.toList ++ s) : n = m ∧ r = s := by
  have hcut : ∀ (n : Number) (r : List Char), Ends r →
      (n.text.toList ++ r).takeWhile numeric = n.text.toList := by
    intro n r hr
    rw [List.takeWhile_append_of_pos n.text_numeric]
    cases r with
    | nil => exact List.append_nil _
    | cons c r =>
      have hc : numeric c = false := by
        rcases hr c rfl with rfl | rfl | rfl <;> rfl
      rw [List.takeWhile_cons_of_neg (by rw [hc]; decide), List.append_nil]
  have htext : n.text.toList = m.text.toList := by rw [← hcut n r hr, h, hcut m s hs]
  rw [htext] at h
  exact ⟨Number.text_injective (String.toList_inj.mp htext), List.append_cancel_left h⟩

theorem entry_cancel {key : String} {v : Json} (h : Cancels (fun v => v.text.toList) v) :
    Cancels entryText (key, v) := by
  rintro ⟨other, w⟩ r s hr hs heq
  rw [entryText, entryText, List.append_assoc, List.append_assoc] at heq
  obtain ⟨rfl, hvalue⟩ := Text.quote_cancel heq
  obtain ⟨rfl, hrest⟩ := h w r s hr hs (List.cons.inj hvalue).2
  exact ⟨rfl, hrest⟩

mutual

/-- Every value is told from all others, whatever may follow it. -/
theorem text_cancel : ∀ v : Json, Cancels (fun v => v.text.toList) v
  | .null => by
    rintro w r s - - h
    cases w with
    | null => exact ⟨rfl, List.append_cancel_left h⟩
    | _ => exact absurd (kind_eq_of_text h) nofun
  | .bool b => by
    rintro w r s - - h
    cases w with
    | bool c =>
      cases b <;> cases c
      · exact ⟨rfl, List.append_cancel_left h⟩
      · exact absurd (List.cons.inj h).1 (by decide)
      · exact absurd (List.cons.inj h).1 (by decide)
      · exact ⟨rfl, List.append_cancel_left h⟩
    | _ => exact absurd (kind_eq_of_text h) nofun
  | .num n => by
    intro w r s hr hs h
    cases w with
    | num m =>
      obtain ⟨rfl, hrest⟩ := number_cancel hr hs h
      exact ⟨rfl, hrest⟩
    | _ => exact absurd (kind_eq_of_text h) nofun
  | .str a => by
    rintro w r s - - h
    cases w with
    | str b =>
      obtain ⟨rfl, hrest⟩ := Text.quote_cancel h
      exact ⟨rfl, hrest⟩
    | _ => exact absurd (kind_eq_of_text h) nofun
  | .arr items => by
    rintro w r s - - h
    cases w with
    | arr others =>
      simp only [text_array, List.cons_append, List.cons.injEq, true_and] at h
      have hfirst : ∀ v : Json, ∃ c cs, v.text.toList = c :: cs ∧ ']' ≠ c := by
        intro v
        obtain ⟨c, cs, hv, hc⟩ := text_leading v
        refine ⟨c, cs, hv, ?_⟩
        rintro rfl
        exact absurd hc nofun
      obtain ⟨rfl, hrest⟩ := separated_cancel (.inl rfl) hfirst (items_cancel items) h
      exact ⟨rfl, hrest⟩
    | _ => exact absurd (kind_eq_of_text h) nofun
  | .obj entries => by
    rintro w r s - - h
    cases w with
    | obj others =>
      simp only [text_object, List.cons_append, List.cons.injEq, true_and] at h
      have hfirst : ∀ e : String × Json, ∃ c cs, entryText e = c :: cs ∧ '\x7d' ≠ c := by
        intro e
        refine ⟨'"', _, by rw [entryText, Text.quote, String.toList_ofList]; rfl, by decide⟩
      obtain ⟨rfl, hrest⟩ := separated_cancel (.inr rfl) hfirst (entries_cancel entries) h
      exact ⟨rfl, hrest⟩
    | _ => exact absurd (kind_eq_of_text h) nofun

theorem items_cancel : ∀ items : List Json, ∀ v ∈ items, Cancels (fun v => v.text.toList) v
  | [] => nofun
  | v :: items => List.forall_mem_cons.mpr ⟨text_cancel v, items_cancel items⟩

theorem entries_cancel : ∀ entries : List (String × Json), ∀ e ∈ entries, Cancels entryText e
  | [] => nofun
  | (_, v) :: entries =>
    List.forall_mem_cons.mpr ⟨entry_cancel (text_cancel v), entries_cancel entries⟩

end

theorem text_injective : Function.Injective text := by
  intro v w h
  have htext : v.text.toList ++ [] = w.text.toList ++ [] := by rw [h]
  exact (text_cancel v w [] [] nofun nofun htext).1

end Json

end QuerySql
