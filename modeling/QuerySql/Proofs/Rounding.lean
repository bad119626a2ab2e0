import Mathlib.Algebra.Order.Field.Power
import Mathlib.Data.Rat.Cast.Order
import Mathlib.Order.Compare
import Mathlib.Order.Monotone.Basic
import Mathlib.Tactic.Linarith
import Mathlib.Tactic.LinearCombination
import Mathlib.Tactic.Positivity
import Mathlib.Tactic.Ring
import QuerySql.Decimal.Shortest

/-!
# Rounding intervals

The reals that round to one double lie between the midpoints to its
neighbours. A midpoint itself goes to the neighbour with the even pattern, so
that no real rounds to two doubles. The shortest decimal of a double lies in
its interval, and tells its magnitude by that.
-/

set_option autoImplicit false

namespace QuerySql

theorem zpow_mul_pow (b : ℚ) (hb : b ≠ 0) (i : ℤ) : b ^ i * b ^ (-i).toNat = b ^ i.toNat := by
  rw [← zpow_natCast, ← zpow_natCast, ← zpow_add₀ hb]
  congr 1
  omega

namespace Decimal

def value (x : Decimal) : ℚ := x.digits * 10 ^ x.exponent

/-- Numbers are compared by natural ones, both sides scaled up until they are whole. -/
theorem compare_scaled (a : ℕ) (i : ℤ) (n : ℕ) (j : ℤ) :
    compareScaled a i n j = compare ((a : ℚ) * 10 ^ i) (n * 2 ^ j) := by
  have hscale : (0 : ℚ) < 10 ^ (-i).toNat * 2 ^ (-j).toNat := by positivity
  have hleft : ((a * Nat.pow 10 i.toNat * Nat.pow 2 (-j).toNat : ℕ) : ℚ) =
      a * 10 ^ i * (10 ^ (-i).toNat * 2 ^ (-j).toNat) := by
    rw [Nat.pow_eq, Nat.pow_eq]
    push_cast
    rw [← zpow_mul_pow 10 (by norm_num) i]
    ring
  have hright : ((n * Nat.pow 2 j.toNat * Nat.pow 10 (-i).toNat : ℕ) : ℚ) =
      n * 2 ^ j * (10 ^ (-i).toNat * 2 ^ (-j).toNat) := by
    rw [Nat.pow_eq, Nat.pow_eq]
    push_cast
    rw [← zpow_mul_pow 2 (by norm_num) j]
    ring
  rw [compareScaled]
  rcases lt_trichotomy ((a : ℚ) * 10 ^ i) (n * 2 ^ j) with h | h | h
  · rw [compare_lt_iff_lt.mpr h, compare_lt_iff_lt, ← Nat.cast_lt (α := ℚ), hleft, hright]
    exact mul_lt_mul_of_pos_right h hscale
  · rw [compare_eq_iff_eq.mpr h, compare_eq_iff_eq, ← Nat.cast_inj (R := ℚ), hleft, hright, h]
  · rw [compare_gt_iff_gt.mpr h, compare_gt_iff_gt, ← Nat.cast_lt (α := ℚ), hleft, hright]
    exact mul_lt_mul_of_pos_right h hscale

end Decimal

namespace Double

def wholePart (pattern : ℕ) : ℕ :=
  if pattern / 2 ^ 52 = 0 then pattern % 2 ^ 52 else 2 ^ 52 + pattern % 2 ^ 52

def place (pattern : ℕ) : ℤ :=
  if pattern / 2 ^ 52 = 0 then -1074 else (pattern / 2 ^ 52 : ℕ) - 1075

/-- A quarter of the last place, in which the bounds of a pattern are whole. -/
def quarter (pattern : ℕ) : ℚ := 2 ^ (place pattern - 2)

/-- The gap below a power of two is half the gap above it. -/
def narrow (pattern : ℕ) : Prop := pattern % 2 ^ 52 = 0 ∧ 1 < pattern / 2 ^ 52

instance (pattern : ℕ) : Decidable (narrow pattern) := inferInstanceAs (Decidable (_ ∧ _))

def lower (pattern : ℕ) : ℚ :=
  (4 * wholePart pattern - if narrow pattern then 1 else 2) * quarter pattern

def upper (pattern : ℕ) : ℚ := (4 * wholePart pattern + 2) * quarter pattern

theorem quarter_pos (pattern : ℕ) : 0 < quarter pattern := by
  unfold quarter
  positivity

theorem lower_lt_upper (pattern : ℕ) : lower pattern < upper pattern := by
  unfold lower upper
  refine mul_lt_mul_of_pos_right ?_ (quarter_pos pattern)
  split <;> linarith

theorem upper_eq_lower (pattern : ℕ) : upper pattern = lower (pattern + 1) := by
  by_cases hcarry : pattern % 2 ^ 52 + 1 = 2 ^ 52 ∧ pattern / 2 ^ 52 ≠ 0
  · -- a full fraction: the next significand is the least one, and its place is twice as wide
    have hwhole : wholePart pattern + 1 = 2 * wholePart (pattern + 1) := by
      unfold wholePart
      split <;> split <;> omega
    have hnarrow : narrow (pattern + 1) := ⟨by omega, by omega⟩
    have hplace : place (pattern + 1) - 2 = 1 + (place pattern - 2) := by
      unfold place
      split <;> split <;> omega
    have hcast : (wholePart pattern : ℚ) + 1 = 2 * wholePart (pattern + 1) := by
      exact_mod_cast hwhole
    rw [upper, lower, if_pos hnarrow, quarter, quarter, hplace, zpow_one_add₀ (by norm_num)]
    linear_combination (4 * 2 ^ (place pattern - 2)) * hcast
  · have hwhole : wholePart (pattern + 1) = wholePart pattern + 1 := by
      unfold wholePart
      split <;> split <;> omega
    have hnarrow : ¬narrow (pattern + 1) := by
      unfold narrow
      omega
    have hplace : place (pattern + 1) = place pattern := by
      unfold place
      split <;> split <;> omega
    rw [upper, lower, if_neg hnarrow, quarter, quarter, hplace, hwhole]
    push_cast
    ring

theorem lower_strict_mono : StrictMono lower :=
  strictMono_nat_of_lt_succ fun pattern => upper_eq_lower pattern ▸ lower_lt_upper pattern

theorem whole_part_parity (pattern : ℕ) : wholePart pattern % 2 = pattern % 2 := by
  unfold wholePart
  split <;> omega

/-- The number rounds to the pattern: it lies between the midpoints, and on one only if the
pattern is even. -/
structure Covers (pattern : ℕ) (q : ℚ) : Prop where
  above : lower pattern ≤ q
  below : q ≤ upper pattern
  even : q = lower pattern ∨ q = upper pattern → pattern % 2 = 0

theorem covers_unique {pattern other : ℕ} {q : ℚ} (h : Covers pattern q)
    (h' : Covers other q) : pattern = other := by
  wlog hlt : pattern < other generalizing pattern other with hwlog
  · rcases Nat.lt_or_eq_of_le (not_lt.mp hlt) with h'' | h''
    · exact (hwlog h' h h'').symm
    · exact h''.symm
  · -- the number is the midpoint that only neighbours share, and one of these is odd
    have hnext : lower (pattern + 1) ≤ lower other := lower_strict_mono.monotone hlt
    have hupper := upper_eq_lower pattern
    have hqu : q = upper pattern := le_antisymm h.below (by linarith [h'.above])
    have hql : q = lower other := le_antisymm (by linarith [h.below]) h'.above
    have hsame : pattern + 1 = other :=
      lower_strict_mono.injective (by rw [← hupper, ← hqu, hql])
    have heven := h.even (.inr hqu)
    have heven' := h'.even (.inl hql)
    omega

theorem whole_part_pos {pattern : ℕ} (h : pattern ≠ 0) : 0 < wholePart pattern := by
  unfold wholePart
  split <;> omega

theorem lower_pos {pattern : ℕ} (h : pattern ≠ 0) : 0 < lower pattern := by
  have hwhole : (1 : ℚ) ≤ wholePart pattern := by exact_mod_cast whole_part_pos h
  unfold lower
  refine mul_pos ?_ (quarter_pos pattern)
  split <;> linarith

theorem significand_eq (d : Double) : d.significand = wholePart d.magnitude := rfl

theorem scale_eq (d : Double) : d.scale = place d.magnitude := rfl

theorem is_zero_iff (d : Double) : d.isZero = true ↔ d.magnitude = 0 := decide_eq_true_iff

theorem eq_of_parts {d e : Double} (hsign : d.negative = e.negative)
    (hmagnitude : d.magnitude = e.magnitude) : d = e := by
  have hd := d.bits.toNat_lt
  have he := e.bits.toNat_lt
  have hside : 2 ^ 63 ≤ d.bits.toNat ↔ 2 ^ 63 ≤ e.bits.toNat := decide_eq_decide.mp hsign
  have hrest : d.bits.toNat % 2 ^ 63 = e.bits.toNat % 2 ^ 63 := hmagnitude
  have hbits : d.bits.toNat = e.bits.toNat := by omega
  exact congrArg Double.mk (UInt64.toNat_inj.mp hbits)

end Double

namespace Decimal

open Double

theorem narrow_below_eq (d : Double) : narrowBelow d = decide (narrow d.magnitude) :=
  (Bool.decide_and _ _).symm

theorem reads_back_iff {d : Double} (hd : d.magnitude ≠ 0) (x : Decimal) :
    readsBack d x = true ↔ Covers d.magnitude x.value := by
  have hwhole := whole_part_pos hd
  have hlow : ((if narrowBelow d then 4 * d.significand - 1 else 4 * d.significand - 2 : ℕ) : ℚ) *
      2 ^ (d.scale - 2) = lower d.magnitude := by
    rw [narrow_below_eq, significand_eq, scale_eq, lower, quarter]
    by_cases hnarrow : narrow d.magnitude
    · rw [if_pos (decide_eq_true hnarrow), if_pos hnarrow, Nat.cast_sub (by omega)]
      push_cast
      ring
    · rw [if_neg (by simpa using hnarrow), if_neg hnarrow, Nat.cast_sub (by omega)]
      push_cast
      ring
  have hhigh : ((4 * d.significand + 2 : ℕ) : ℚ) * 2 ^ (d.scale - 2) = upper d.magnitude := by
    rw [significand_eq, scale_eq, upper, quarter]
    push_cast
    ring
  have hparity : d.significand % 2 = 0 ↔ d.magnitude % 2 = 0 := by
    rw [significand_eq, whole_part_parity]
  have hnumber : (x.digits : ℚ) * 10 ^ x.exponent = x.value := rfl
  simp only [readsBack, compare_scaled, hlow, hhigh, hnumber, Bool.and_eq_true, Bool.or_eq_true,
    beq_iff_eq, compare_gt_iff_gt, compare_lt_iff_lt, compare_eq_iff_eq, decide_eq_true_eq,
    hparity]
  constructor
  · rintro ⟨habove, hbelow⟩
    refine ⟨?_, ?_, ?_⟩
    · rcases habove with h | ⟨_, h⟩
      · exact h.le
      · exact h.ge
    · rcases hbelow with h | ⟨_, h⟩
      · exact h.le
      · exact h.le
    · rintro (heq | heq)
      · exact (habove.resolve_left (heq ▸ lt_irrefl _)).1
      · exact (hbelow.resolve_left (heq ▸ lt_irrefl _)).1
  · rintro ⟨habove, hbelow, heven⟩
    refine ⟨?_, ?_⟩
    · rcases habove.lt_or_eq with h | h
      · exact .inl h
      · exact .inr ⟨heven (.inl h.symm), h.symm⟩
    · rcases hbelow.lt_or_eq with h | h
      · exact .inl h
      · exact .inr ⟨heven (.inr h), h⟩

theorem on_grid_reads_back {tie : Tie} {d : Double} {grid : ℤ} {x : Decimal}
    (h : onGrid tie d grid = some x) : readsBack d x = true := by
  unfold onGrid at h
  simp only at h
  split at h
  case h_1 => exact absurd h nofun
  case h_2 hbelow _ => exact Option.some.inj h ▸ hbelow
  case h_3 _ habove => exact Option.some.inj h ▸ habove
  case h_4 hbelow habove =>
    -- whichever neighbour is taken, it reads back
    split at h
    · exact Option.some.inj h ▸ hbelow
    · exact Option.some.inj h ▸ habove
    · cases tie with
      | upward => exact Option.some.inj h ▸ habove
      | toEven =>
        refine Option.some.inj h ▸ ?_
        split
        · exact hbelow
        · exact habove

theorem exact_covers {d : Double} {q : ℚ}
    (h : q = wholePart d.magnitude * 2 ^ place d.magnitude) : Covers d.magnitude q := by
  have hquarter : q = 4 * wholePart d.magnitude * quarter d.magnitude := by
    rw [h, quarter, zpow_sub₀ (by norm_num)]
    ring
  have hpos := quarter_pos d.magnitude
  have habove : lower d.magnitude < q := by
    rw [hquarter, lower]
    refine mul_lt_mul_of_pos_right ?_ hpos
    split <;> linarith
  have hbelow : q < upper d.magnitude := by
    rw [hquarter, upper]
    exact mul_lt_mul_of_pos_right (by linarith) hpos
  refine ⟨habove.le, hbelow.le, ?_⟩
  rintro (heq | heq)
  · exact absurd heq habove.ne'
  · exact absurd heq hbelow.ne

/-- The decimal that is found reads back. -/
theorem search_covers {d : Double} (hd : d.magnitude ≠ 0) (tie : Tie) (grid : ℤ) (fuel : ℕ) :
    Covers d.magnitude (search tie d grid fuel).value := by
  induction fuel generalizing grid with
  | zero =>
    refine exact_covers ?_
    rw [search, significand_eq, scale_eq]
    split
    · rename_i hneg
      have hscale : ((-place d.magnitude).toNat : ℤ) = -place d.magnitude :=
        Int.toNat_of_nonneg (by omega)
      rw [value, Nat.pow_eq]
      push_cast
      rw [← zpow_natCast, hscale, show (10 : ℚ) = 5 * 2 by norm_num, mul_zpow, mul_assoc,
        ← mul_assoc ((5 : ℚ) ^ _), ← zpow_add₀ (by norm_num), neg_add_cancel, zpow_zero, one_mul]
    · rename_i hpos
      have hscale : ((place d.magnitude).toNat : ℤ) = place d.magnitude :=
        Int.toNat_of_nonneg (by omega)
      rw [value, Nat.pow_eq]
      push_cast
      rw [← zpow_natCast, hscale, mul_one]
  | succ fuel ih =>
    rw [search]
    cases hgrid : onGrid tie d grid with
    | none => exact ih (grid - 1)
    | some x => exact (reads_back_iff hd x).mp (on_grid_reads_back hgrid)

theorem strip_value (x : Decimal) : (strip x).value = x.value := by
  have hgo : ∀ (fuel digits : ℕ) (exponent : ℤ),
      (strip.go digits exponent fuel).value = (digits : ℚ) * 10 ^ exponent := by
    intro fuel
    induction fuel with
    | zero => exact fun _ _ => rfl
    | succ fuel ih =>
      intro digits exponent
      rw [strip.go]
      split
      · rename_i hzero
        have hten : (digits : ℚ) = 10 * (digits / 10 : ℕ) := by
          exact_mod_cast (Nat.mul_div_cancel' (Nat.dvd_of_mod_eq_zero hzero)).symm
        rw [ih, hten, zpow_add_one₀ (by norm_num)]
        ring
      · rfl
  exact hgo _ _ _

theorem magnitude_of_shortest {tie : Tie} {d e : Double}
    (h : (shortest tie d).value = (shortest tie e).value) : d.magnitude = e.magnitude := by
  have hcovers : ∀ d : Double, d.magnitude ≠ 0 →
      Covers d.magnitude (shortest tie d).value := by
    intro d hd
    rw [shortest, if_neg (by simpa [is_zero_iff] using hd), strip_value]
    exact search_covers hd tie _ _
  have hzero : ∀ d : Double, d.magnitude = 0 ↔ (shortest tie d).value = 0 := by
    intro d
    constructor
    · intro hd
      rw [shortest, if_pos ((is_zero_iff d).mpr hd)]
      simp [value]
    · intro hvalue
      by_contra hd
      have hpos := (lower_pos hd).trans_le (hcovers d hd).above
      exact hpos.ne' hvalue
  by_cases hd : d.magnitude = 0
  · rw [hd, eq_comm, hzero e, ← h, ← hzero d, hd]
  · have he : e.magnitude ≠ 0 := by rwa [Ne, hzero e, ← h, ← hzero d]
    exact covers_unique (hcovers d hd) (h ▸ hcovers e he)

end Decimal

end QuerySql
