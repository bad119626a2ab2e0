/-!
# Doubles by their bits

A double is carried as its 64 bits and never computed with, so equality is
equality of bits and every fact about it is a fact about naturals. A ratio of
naturals is rounded to the nearest double by exact arithmetic, an even
significand winning a tie.
-/

set_option autoImplicit false

namespace QuerySql

structure Double where
  bits : UInt64
  deriving DecidableEq, Repr, Inhabited

namespace Double

def signBit : Nat := Nat.pow 2 63

/-- The least magnitude pattern that no longer stands for a finite number. -/
def infinite : Nat := 2047 * Nat.pow 2 52

def negative (d : Double) : Bool := signBit ≤ d.bits.toNat

def magnitude (d : Double) : Nat := d.bits.toNat % signBit

def isZero (d : Double) : Bool := d.magnitude = 0

def ofMagnitude (negative : Bool) (magnitude : Nat) : Double :=
  ⟨UInt64.ofNat (magnitude + if negative then signBit else 0)⟩

def significand (d : Double) : Nat :=
  let fraction := d.magnitude % Nat.pow 2 52
  if d.magnitude / Nat.pow 2 52 = 0 then fraction else Nat.pow 2 52 + fraction

def scale (d : Double) : Int :=
  let exponent : Nat := d.magnitude / Nat.pow 2 52
  if exponent = 0 then -1074 else (exponent : Int) - 1075

def roundHalfEven (num den : Nat) : Nat :=
  let q := num / den
  let r := num % den
  if 2 * r < den then q
  else if den < 2 * r then q + 1
  else if q % 2 = 0 then q else q + 1

/-- The greatest `e` with `2 ^ e ≤ num / den`, for positive arguments. -/
def binaryOrder (num den : Nat) : Int :=
  let e := (Nat.log2 num : Int) - Nat.log2 den
  if num * Nat.pow 2 (-e).toNat < den * Nat.pow 2 e.toNat then e - 1 else e

/-- The magnitude pattern nearest to `num / den`, not yet checked for
overflow. A significand that rounds up to the next power of two carries into
the exponent by itself. -/
def roundRatio (num den : Nat) : Nat :=
  if num = 0 then 0
  else
    let q := max (binaryOrder num den - 52) (-1074)
    let m := roundHalfEven (num * Nat.pow 2 (-q).toNat) (den * Nat.pow 2 q.toNat)
    (q + 1074).toNat * Nat.pow 2 52 + m

def ofRatio? (negative : Bool) (num den : Nat) : Option Double :=
  let m := roundRatio num den
  if m < infinite then some (ofMagnitude negative m) else none

def ofInt (i : Int) : Double :=
  ofMagnitude (decide (i < 0)) (roundRatio i.natAbs 1)

/-- The double nearest to `digits * 10 ^ exponent`, `none` past the finite
range. A decimal whose leading digit lies four hundred places off is settled
without building the power of ten. -/
def ofDecimal? (negative : Bool) (digits : Nat) (exponent : Int) : Option Double :=
  if digits = 0 then some (ofMagnitude negative 0)
  else
    let leading := (Nat.toDigits 10 digits).length + exponent
    if 400 < leading then none
    else if leading < -400 then some (ofMagnitude negative 0)
    else ofRatio? negative (digits * Nat.pow 10 exponent.toNat) (Nat.pow 10 (-exponent).toNat)

def isNan (d : Double) : Bool := infinite < d.magnitude

/-- Equality of the numbers: the two zeros agree, and a NaN is equal to no number, not
even to itself. -/
def sameNumber (a b : Double) : Bool :=
  (a = b && !a.isNan) || (a.isZero && b.isZero)

end Double

end QuerySql
