import QuerySql.Decimal.Shortest

/-!
# Layouts of decimal text

One layout is a record of decisions: which leading exponents are written
positionally, whether a whole number keeps a fractional zero, and which of two
equally short decimals is taken.
-/

set_option autoImplicit false

namespace QuerySql

structure Layout where
  /-- The leading digit stands for `10 ^ e`; these `e` are written positionally. -/
  positional : Int → Bool
  fraction : Bool
  tie : Decimal.Tie

namespace Layout

/-- The digits with the point after the first `point` of them, zeros filled in
on either side. -/
def place (fraction : Bool) (digits : List Char) (point : Int) : List Char :=
  let count : Int := digits.length
  if point ≤ 0 then '0' :: '.' :: List.replicate (-point).toNat '0' ++ digits
  else if count ≤ point then
    digits ++ List.replicate (point - count).toNat '0' ++ (if fraction then ['.', '0'] else [])
  else digits.take point.toNat ++ '.' :: digits.drop point.toNat

def scientific (digits : List Char) (leading : Int) : List Char :=
  digits.take 1 ++ (if digits.length ≤ 1 then [] else '.' :: digits.drop 1) ++
    'e' :: (if leading < 0 then '-' else '+') :: Nat.toDigits 10 leading.natAbs

def write (layout : Layout) (d : Double) : String :=
  let x := Decimal.shortest layout.tie d
  let digits := Nat.toDigits 10 x.digits
  let point := digits.length + x.exponent
  let body :=
    if d.isZero || layout.positional (point - 1) then place layout.fraction digits point
    else scientific digits (point - 1)
  String.ofList (if d.negative then '-' :: body else body)

/-- JSON text: positional from `0.00001` up to, but not including, `10 ^ 16`. -/
def json : Layout where
  positional e := -5 ≤ e && e < 16
  fraction := true
  tie := .toEven

/-- Plain text: always positional, whole numbers without a point. -/
def plain : Layout where
  positional _ := true
  fraction := false
  tie := .upward

end Layout

end QuerySql
