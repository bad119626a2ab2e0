import QuerySql.Double

/-!
# The fewest digits that read back

A decimal stands for a double when it lies among the reals that round to it.
For one, two, … digits the two neighbours of the double on that decimal grid
are tested by cross multiplication of naturals; the first grid with a hit
wins, of two hits the nearer, and an equal distance goes as the caller says.
-/

set_option autoImplicit false

namespace QuerySql

structure Decimal where
  digits : Nat
  exponent : Int
  deriving DecidableEq, Repr

namespace Decimal

inductive Tie where
  | toEven
  | upward
  deriving DecidableEq, Repr

/-- Compares `a * 10 ^ i` with `n * 2 ^ j`. -/
def compareScaled (a : Nat) (i : Int) (n : Nat) (j : Int) : Ordering :=
  compare (a * Nat.pow 10 i.toNat * Nat.pow 2 (-j).toNat)
    (n * Nat.pow 2 j.toNat * Nat.pow 10 (-i).toNat)

/-- The gap below a power of two is half the gap above it. -/
def narrowBelow (d : Double) : Bool :=
  d.magnitude % Nat.pow 2 52 = 0 && 1 < d.magnitude / Nat.pow 2 52

/-- The decimal lies among the reals that round to the double's magnitude:
between the midpoints to its neighbours, which count for an even significand. -/
def readsBack (d : Double) (x : Decimal) : Bool :=
  let m := d.significand
  let low := compareScaled x.digits x.exponent
    (if narrowBelow d then 4 * m - 1 else 4 * m - 2) (d.scale - 2)
  let high := compareScaled x.digits x.exponent (4 * m + 2) (d.scale - 2)
  let closed := m % 2 = 0
  (low == .gt || (closed && low == .eq)) && (high == .lt || (closed && high == .eq))

def orderFrom (d : Double) (start : Int) : Nat → Int
  | 0 => start
  | fuel + 1 =>
    if compareScaled 1 start d.significand d.scale == .gt then start
    else orderFrom d (start + 1) fuel

/-- The least `k` with the magnitude below `10 ^ k`. The start, one less than
the binary order times the logarithm of two, lies at most three below it. -/
def order (d : Double) : Int :=
  let bits := (Nat.log2 d.significand : Int) + d.scale
  orderFrom d (bits * 30103 / 100000 - 1) 8

def gridRatio (d : Double) (grid : Int) : Nat × Nat :=
  (d.significand * Nat.pow 2 d.scale.toNat * Nat.pow 10 (-grid).toNat,
    Nat.pow 2 (-d.scale).toNat * Nat.pow 10 grid.toNat)

def onGrid (tie : Tie) (d : Double) (grid : Int) : Option Decimal :=
  let (num, den) := gridRatio d grid
  let below := num / den
  let above := below + 1
  match readsBack d ⟨below, grid⟩, readsBack d ⟨above, grid⟩ with
  | false, false => none
  | true, false => some ⟨below, grid⟩
  | false, true => some ⟨above, grid⟩
  | true, true =>
    match compare (2 * num) ((below + above) * den) with
    | .lt => some ⟨below, grid⟩
    | .gt => some ⟨above, grid⟩
    | .eq =>
      match tie with
      | .upward => some ⟨above, grid⟩
      | .toEven => some ⟨if below % 2 = 0 then below else above, grid⟩

/-- The first hit among the grids `10 ^ grid`, `10 ^ (grid - 1)`, …; the exact
value if `fuel` grids hold none. -/
def search (tie : Tie) (d : Double) (grid : Int) : Nat → Decimal
  | 0 =>
    if d.scale < 0 then ⟨d.significand * Nat.pow 5 (-d.scale).toNat, d.scale⟩
    else ⟨d.significand * Nat.pow 2 d.scale.toNat, 0⟩
  | fuel + 1 => (onGrid tie d grid).getD (search tie d (grid - 1) fuel)

/-- Moves trailing zeros of the digits into the exponent. -/
def strip (x : Decimal) : Decimal :=
  go x.digits x.exponent (Nat.log2 x.digits)
where
  go (digits : Nat) (exponent : Int) : Nat → Decimal
    | 0 => ⟨digits, exponent⟩
    | fuel + 1 =>
      if digits % 10 = 0 then go (digits / 10) (exponent + 1) fuel else ⟨digits, exponent⟩

/-- The shortest decimal of a finite double's magnitude; zero is `0 * 10 ^ 0`. -/
def shortest (tie : Tie) (d : Double) : Decimal :=
  if d.isZero then ⟨0, 0⟩
  else strip (search tie d (order d - 1) 17)

end Decimal

end QuerySql
