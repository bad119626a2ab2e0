import QuerySql.Json.Lexeme
import QuerySql.Json.Printer
import QuerySql.Proofs.Rounding

/-!
# The text of numbers

The text of a double is read back, digit by digit, as a decimal of the same
value as the one it was written for. That decimal lies in the rounding
interval of one magnitude only, so the text tells the double; and a double is
never written as an integer is.
-/

set_option autoImplicit false

namespace QuerySql

namespace Json.Lexeme

theorem digits_append {ds rest : List Char} (hds : ∀ c ∈ ds, c.isDigit = true) (hne : ds ≠ [])
    (hrest : ∀ c ∈ rest.head?, c.isDigit = false) : digits? (ds ++ rest) = some (ds, rest) := by
  have hread : digits (ds ++ rest) = (ds, rest) := by
    rw [digits, List.span_eq_takeWhile_dropWhile, List.takeWhile_append_of_pos hds,
      List.dropWhile_append_of_pos hds]
    cases rest with
    | nil => simp
    | cons c rest => simp [hrest c rfl]
  rw [digits?, hread]
  cases ds with
  | nil => exact absurd rfl hne
  | cons d ds => rfl

theorem digits_all {ds : List Char} (hds : ∀ c ∈ ds, c.isDigit = true) (hne : ds ≠ []) :
    digits? ds = some (ds, []) := by
  simpa using @digits_append ds [] hds hne nofun

theorem to_digits_digits (n : ℕ) : ∀ c ∈ Nat.toDigits 10 n, c.isDigit = true := fun _ hc =>
  Nat.isDigit_of_mem_toDigits (by norm_num) le_rfl hc

theorem zeros_digits (count : ℕ) : ∀ c ∈ List.replicate count '0', c.isDigit = true := by
  intro c hc
  rw [List.eq_of_mem_replicate hc]
  rfl

def decimal? (cs : List Char) : Option Decimal := do
  let (whole, cs) ← digits? cs
  let (part, cs) ← fraction? cs
  let (power, _) ← exponent? cs
  return ⟨natOfDigits (whole ++ part), power.getD 0 - part.length⟩

theorem decimal_of_parts {whole part tail : List Char} {power : Option ℤ}
    (hwhole : ∀ c ∈ whole, c.isDigit = true) (hne : whole ≠ [])
    (hpart : ∀ c ∈ part, c.isDigit = true) (htail : ∀ c ∈ tail.head?, c = 'e')
    (hpower : exponent? tail = some (power, [])) :
    decimal? (whole ++ ((if part = [] then [] else '.' :: part) ++ tail)) =
      some ⟨natOfDigits (whole ++ part), power.getD 0 - part.length⟩ := by
  have hend : ∀ c ∈ tail.head?, c.isDigit = false := fun c hc => by
    rw [htail c hc]
    rfl
  have hfraction : fraction? ((if part = [] then [] else '.' :: part) ++ tail) =
      some (part, tail) := by
    by_cases hpart' : part = []
    · rw [if_pos hpart', hpart', List.nil_append]
      cases tail with
      | nil => rfl
      | cons c tail => rw [htail c rfl]; rfl
    · rw [if_neg hpart', List.cons_append]
      exact digits_append hpart hpart' hend
  have hstop : ∀ c ∈ ((if part = [] then [] else '.' :: part) ++ tail).head?,
      c.isDigit = false := by
    by_cases hpart' : part = []
    · rwa [if_pos hpart', List.nil_append]
    · rw [if_neg hpart']
      rintro c ⟨⟩
      rfl
  simp only [decimal?, digits_append hwhole hne hstop, hfraction, hpower, Option.bind_eq_bind,
    Option.bind_some, Option.pure_def]

theorem decimal_of_point {whole part : List Char} (hwhole : ∀ c ∈ whole, c.isDigit = true)
    (hne : whole ≠ []) (hpart : ∀ c ∈ part, c.isDigit = true) (hne' : part ≠ []) :
    decimal? (whole ++ '.' :: part) = some ⟨natOfDigits (whole ++ part), -part.length⟩ := by
  have hend : ∀ c ∈ ([] : List Char).head?, c = 'e' := nofun
  have hpower : exponent? [] = some (none, []) := rfl
  have h := decimal_of_parts hwhole hne hpart hend hpower
  rwa [if_neg hne', List.append_nil, Option.getD_none, zero_sub] at h

theorem nat_of_digits_eq (ds : List Char) : natOfDigits ds = Nat.ofDigitChars 10 ds 0 := rfl

theorem nat_of_zeros_append (count : ℕ) (ds : List Char) :
    natOfDigits (List.replicate count '0' ++ ds) = natOfDigits ds := by
  simp [nat_of_digits_eq, Nat.ofDigitChars_append]

theorem nat_of_append_zeros (count : ℕ) (ds : List Char) :
    natOfDigits (ds ++ List.replicate count '0') = natOfDigits ds * 10 ^ count := by
  simp [nat_of_digits_eq, Nat.ofDigitChars_append, mul_comm]

theorem decimal_of_minus (cs : List Char) : decimal? ('-' :: cs) = none := by
  simp [decimal?, digits?, digits, List.span_eq_takeWhile_dropWhile]

end Json.Lexeme

namespace Layout

open Json.Lexeme

theorem place_read {digits : List Char} (hdigits : ∀ c ∈ digits, c.isDigit = true)
    (hne : digits ≠ []) (point : ℤ) :
    ∃ x, decimal? (place true digits point) = some x ∧
      x.value = natOfDigits digits * 10 ^ (point - digits.length) := by
  unfold place
  simp only
  split_ifs with hlow hwhole
  · -- zeros stand between the point and the digits
    have hpart : ∀ c ∈ List.replicate (-point).toNat '0' ++ digits, c.isDigit = true := fun c hc =>
      (List.mem_append.mp hc).elim (zeros_digits _ c) (hdigits c)
    have hzeros := nat_of_zeros_append (1 + (-point).toNat) digits
    rw [List.replicate_add, List.append_assoc] at hzeros
    have hexponent : -((List.replicate (-point).toNat '0' ++ digits).length : ℤ) =
        point - digits.length := by
      rw [List.length_append, List.length_replicate]
      omega
    have hread := decimal_of_point (zeros_digits 1) nofun hpart
      (List.append_ne_nil_of_right_ne_nil _ hne)
    refine ⟨_, hread, ?_⟩
    simp only [Decimal.value, hzeros, hexponent]
  · -- zeros stand between the digits and the point, and one after it
    have hall : ∀ c ∈ digits ++ List.replicate (point - digits.length).toNat '0',
        c.isDigit = true := fun c hc =>
      (List.mem_append.mp hc).elim (hdigits c) (zeros_digits _ c)
    have hzeros := nat_of_append_zeros ((point - digits.length).toNat + 1) digits
    rw [List.replicate_add, ← List.append_assoc] at hzeros
    have hread := decimal_of_point hall (List.append_ne_nil_of_left_ne_nil hne _) (zeros_digits 1)
      nofun
    have hpower : ((10 : ℚ) ^ ((point - digits.length).toNat + 1)) * 10 ^ (-1 : ℤ) =
        10 ^ (point - digits.length) := by
      rw [← zpow_natCast, ← zpow_add₀ (by norm_num)]
      congr 1
      push_cast
      omega
    refine ⟨_, hread, ?_⟩
    simp only [Decimal.value, hzeros, List.length_replicate, Nat.cast_one, ← hpower]
    push_cast
    exact mul_assoc _ _ _
  · -- the point stands between two digits
    have hparts : digits.take point.toNat ++ digits.drop point.toNat = digits :=
      List.take_append_drop _ _
    have hlength : -((digits.drop point.toNat).length : ℤ) = point - digits.length := by
      rw [List.length_drop]
      omega
    refine ⟨_, decimal_of_point (fun c hc => hdigits c (List.mem_of_mem_take hc)) ?_
      (fun c hc => hdigits c (List.mem_of_mem_drop hc)) ?_, ?_⟩
    · rw [Ne, List.take_eq_nil_iff, not_or]
      exact ⟨by omega, hne⟩
    · rw [Ne, List.drop_eq_nil_iff]
      omega
    · rw [Decimal.value, hparts, hlength]

theorem scientific_read {digits : List Char} (hdigits : ∀ c ∈ digits, c.isDigit = true)
    (hne : digits ≠ []) (leading : ℤ) :
    ∃ x, decimal? (scientific digits leading) = some x ∧
      x.value = natOfDigits digits * 10 ^ (leading + 1 - digits.length) := by
  have hexponent : exponent?
      ('e' :: (if leading < 0 then '-' else '+') :: Nat.toDigits 10 leading.natAbs) =
        some (some leading, []) := by
    have hread := digits_all (to_digits_digits leading.natAbs) Nat.toDigits_ne_nil
    have hnumber : natOfDigits (Nat.toDigits 10 leading.natAbs) = leading.natAbs :=
      Nat.ofDigitChars_ten_toDigits
    split_ifs with hneg
    · simp only [exponent?, exponent?.signed, hread, Option.map_some, hnumber]
      congr 3
      omega
    · simp only [exponent?, exponent?.signed, hread, Option.map_some, hnumber]
      congr 3
      omega
  have hpoint : (if digits.length ≤ 1 then [] else '.' :: digits.drop 1) =
      if digits.drop 1 = [] then [] else '.' :: digits.drop 1 := by
    simp only [List.drop_eq_nil_iff]
  have hlength : ((digits.drop 1).length : ℤ) = digits.length - 1 := by
    have hpos := List.length_pos_of_ne_nil hne
    rw [List.length_drop]
    omega
  have hwhole : ∀ c ∈ digits.take 1, c.isDigit = true := fun c hc =>
    hdigits c (List.mem_of_mem_take hc)
  have hne' : digits.take 1 ≠ [] := by
    rw [Ne, List.take_eq_nil_iff, not_or]
    exact ⟨one_ne_zero, hne⟩
  have hpart : ∀ c ∈ digits.drop 1, c.isDigit = true := fun c hc =>
    hdigits c (List.mem_of_mem_drop hc)
  have hread := decimal_of_parts hwhole hne' hpart (by rintro c ⟨⟩; rfl) hexponent
  have hplaces : leading - (digits.length - 1) = leading + 1 - digits.length := by ring
  refine ⟨_, by rw [scientific, List.append_assoc, hpoint]; exact hread, ?_⟩
  simp only [Decimal.value, List.take_append_drop, hlength, Option.getD_some, hplaces]

def body (layout : Layout) (d : Double) : List Char :=
  let x := Decimal.shortest layout.tie d
  let digits := Nat.toDigits 10 x.digits
  let point := digits.length + x.exponent
  if d.isZero || layout.positional (point - 1) then place layout.fraction digits point
  else scientific digits (point - 1)

theorem write_list (layout : Layout) (d : Double) :
    (layout.write d).toList =
      if d.negative then '-' :: layout.body d else layout.body d := String.toList_ofList

/-- The text of a double is read back as a decimal of the value of its shortest one. -/
theorem body_read (d : Double) :
    ∃ x, decimal? (json.body d) = some x ∧ x.value = (Decimal.shortest json.tie d).value := by
  set x := Decimal.shortest json.tie d with hx
  have hdigits := to_digits_digits x.digits
  have hvalue : x.value = natOfDigits (Nat.toDigits 10 x.digits) * 10 ^ x.exponent := by
    rw [Decimal.value, nat_of_digits_eq, Nat.ofDigitChars_ten_toDigits]
  rw [body, ← hx]
  split_ifs
  · obtain ⟨y, hy, hyvalue⟩ := place_read hdigits Nat.toDigits_ne_nil
      ((Nat.toDigits 10 x.digits).length + x.exponent)
    exact ⟨y, hy, by rw [hyvalue, hvalue, add_sub_cancel_left]⟩
  · obtain ⟨y, hy, hyvalue⟩ := scientific_read hdigits Nat.toDigits_ne_nil
      ((Nat.toDigits 10 x.digits).length + x.exponent - 1)
    exact ⟨y, hy, by rw [hyvalue, hvalue, sub_add_cancel, add_sub_cancel_left]⟩

theorem write_injective : Function.Injective json.write := by
  intro d e h
  have hlists := congrArg String.toList h
  rw [write_list, write_list] at hlists
  obtain ⟨x, hx, hxvalue⟩ := body_read d
  obtain ⟨y, hy, hyvalue⟩ := body_read e
  have hbody : d.negative = e.negative ∧ json.body d = json.body e := by
    cases hd : d.negative <;> cases he : e.negative <;> rw [hd, he] at hlists
    · exact ⟨rfl, hlists⟩
    · exact absurd (hx ▸ congrArg decimal? hlists) (by simp [decimal_of_minus])
    · exact absurd (hy ▸ congrArg decimal? hlists.symm) (by simp [decimal_of_minus])
    · exact ⟨rfl, (List.cons.inj hlists).2⟩
  have hvalue : (Decimal.shortest json.tie d).value = (Decimal.shortest json.tie e).value := by
    rw [← hxvalue, ← hyvalue, Option.some.inj (hx.symm.trans (hbody.2 ▸ hy))]
  exact Double.eq_of_parts hbody.1 (Decimal.magnitude_of_shortest hvalue)

theorem body_marked (d : Double) : '.' ∈ json.body d ∨ 'e' ∈ json.body d := by
  rw [body]
  split_ifs
  · refine .inl ?_
    rw [show json.fraction = true from rfl, place]
    simp only
    split_ifs <;> simp
  · exact .inr (by simp [scientific])

end Layout

namespace Json

def numeric (c : Char) : Bool := c.isDigit || c = '-' || c = '+' || c = '.' || c = 'e'

theorem numeric_of_digit {c : Char} (h : c.isDigit = true) : numeric c = true := by
  rw [numeric, h]
  rfl

theorem numeric_digits (n : ℕ) : ∀ c ∈ Nat.toDigits 10 n, numeric c = true := fun c hc =>
  numeric_of_digit (Lexeme.to_digits_digits n c hc)

theorem numeric_place {digits : List Char} (h : ∀ c ∈ digits, numeric c = true) (fraction : Bool)
    (point : ℤ) : ∀ c ∈ Layout.place fraction digits point, numeric c = true := by
  have hzeros : ∀ count, ∀ c ∈ List.replicate count '0', numeric c = true := fun count c hc =>
    numeric_of_digit (Lexeme.zeros_digits count c hc)
  intro c hc
  rw [Layout.place] at hc
  split_ifs at hc <;>
    simp only [List.cons_append, List.mem_cons, List.mem_append, List.not_mem_nil, or_false] at hc
  · rcases hc with rfl | rfl | hc | hc
    · rfl
    · rfl
    · exact hzeros _ c hc
    · exact h c hc
  · rcases hc with (hc | hc) | rfl | rfl
    · exact h c hc
    · exact hzeros _ c hc
    · rfl
    · rfl
  · exact hc.elim (h c) (hzeros _ c)
  · rcases hc with hc | rfl | hc
    · exact h c (List.mem_of_mem_take hc)
    · rfl
    · exact h c (List.mem_of_mem_drop hc)

theorem numeric_scientific {digits : List Char} (h : ∀ c ∈ digits, numeric c = true)
    (leading : ℤ) : ∀ c ∈ Layout.scientific digits leading, numeric c = true := by
  intro c hc
  simp only [Layout.scientific, List.mem_append, List.mem_cons] at hc
  rcases hc with (hc | hc) | rfl | rfl | hc
  · exact h c (List.mem_of_mem_take hc)
  · split_ifs at hc
    · exact absurd hc List.not_mem_nil
    · rcases List.mem_cons.mp hc with rfl | hc
      · rfl
      · exact h c (List.mem_of_mem_drop hc)
  · rfl
  · split_ifs <;> rfl
  · exact numeric_digits _ c hc

namespace Number

theorem text_int (i : ℤ) : (Number.int i).text.toList =
    if 0 ≤ i then Nat.toDigits 10 i.toNat else '-' :: Nat.toDigits 10 (-i).toNat := by
  rw [text, Int.toString_eq_repr, Int.repr_eq_if]
  split_ifs <;> simp [Nat.repr_eq_ofList_toDigits]

theorem text_numeric (n : Number) : ∀ c ∈ n.text.toList, numeric c = true := by
  cases n with
  | int i =>
    rw [text_int]
    split_ifs
    · exact numeric_digits _
    · exact List.forall_mem_cons.mpr ⟨rfl, numeric_digits _⟩
  | double d =>
    have hbody : ∀ c ∈ Layout.json.body d, numeric c = true := by
      rw [Layout.body]
      split_ifs
      · exact numeric_place (numeric_digits _) _ _
      · exact numeric_scientific (numeric_digits _) _
    rw [text, Layout.write_list]
    split_ifs
    · exact List.forall_mem_cons.mpr ⟨rfl, hbody⟩
    · exact hbody

theorem text_ne_nil (n : Number) : n.text.toList ≠ [] := by
  cases n with
  | int i =>
    rw [text_int]
    split_ifs
    · exact Nat.toDigits_ne_nil
    · exact List.cons_ne_nil _ _
  | double d =>
    rw [text, Layout.write_list]
    split_ifs
    · exact List.cons_ne_nil _ _
    · rcases Layout.body_marked d with h | h
      · exact List.ne_nil_of_mem h
      · exact List.ne_nil_of_mem h

theorem int_text_injective {i j : ℤ} (h : (int i).text = (int j).text) : i = j := by
  have hsign : ∀ n cs, Nat.toDigits 10 n ≠ '-' :: cs := fun n cs heq =>
    absurd (Lexeme.to_digits_digits n '-' (heq ▸ List.mem_cons_self)) (by decide)
  have hdigits : ∀ n m, Nat.toDigits 10 n = Nat.toDigits 10 m → n = m := fun n m hnm => by
    rw [← Nat.ofDigitChars_ten_toDigits (n := n), hnm, Nat.ofDigitChars_ten_toDigits]
  have hlists := congrArg String.toList h
  rw [text_int, text_int] at hlists
  split_ifs at hlists with hi hj hj
  · have hsame := hdigits _ _ hlists
    omega
  · exact absurd hlists (hsign _ _)
  · exact absurd hlists.symm (hsign _ _)
  · have hsame := hdigits _ _ (List.cons.inj hlists).2
    omega

theorem int_ne_double (i : ℤ) (d : Double) : (int i).text ≠ (double d).text := by
  intro h
  have hunmarked : ∀ n c, c = '.' ∨ c = 'e' → c ∉ Nat.toDigits 10 n := by
    rintro n c hc hmem
    have hdigit := Lexeme.to_digits_digits n c hmem
    rcases hc with rfl | rfl <;> exact absurd hdigit (by decide)
  have hint : ∀ c, c = '.' ∨ c = 'e' → c ∉ (int i).text.toList := by
    intro c hc
    rw [text_int]
    split_ifs
    · exact hunmarked _ c hc
    · rw [List.mem_cons, not_or]
      exact ⟨by rcases hc with rfl | rfl <;> decide, hunmarked _ c hc⟩
  have hdouble : ∀ c ∈ Layout.json.body d, c ∈ (double d).text.toList := by
    intro c hc
    rw [text, Layout.write_list]
    split_ifs
    · exact List.mem_cons_of_mem _ hc
    · exact hc
  rcases Layout.body_marked d with hmark | hmark
  · exact hint _ (.inl rfl) (h ▸ hdouble _ hmark)
  · exact hint _ (.inr rfl) (h ▸ hdouble _ hmark)

theorem text_injective : Function.Injective Number.text := by
  intro n m h
  cases n with
  | int i =>
    cases m with
    | int j => exact congrArg int (int_text_injective h)
    | double e => exact absurd h (int_ne_double i e)
  | double d =>
    cases m with
    | int j => exact absurd h.symm (int_ne_double j d)
    | double e => exact congrArg double (Layout.write_injective h)

end Number

end Json

end QuerySql
