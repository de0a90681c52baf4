/-!
# Doubles as scaled integers

A finite double is `± m · 2 ^ q` with `m < 2 ^ 53` and `q ≥ -1074`.  `Binary.ofFloat` takes a double
apart this way and `Binary.nearest` goes back: it rounds a positive quotient of natural numbers to
the nearest double, a half to the even neighbour, in exact integer arithmetic.
-/

namespace TagLang

/-- A double taken apart. -/
inductive Binary where
  /-- Not a number. -/
  | nan
  /-- An infinity with its sign. -/
  | infinite (negative : Bool)
  /-- The number `± m · 2 ^ q`. -/
  | finite (negative : Bool) (m : Nat) (q : Int)
  deriving DecidableEq, Repr

namespace Binary

/-- The least exponent of a double's unit in the last place. -/
def minExponent : Int := -1074

/-- The sign, the significand and the exponent of a double. -/
def ofFloat (x : Float) : Binary :=
  let bits : Nat := x.toBits.toNat
  let negative := bits / Nat.pow 2 63 == 1
  let exponent : Nat := bits / Nat.pow 2 52 % Nat.pow 2 11
  let fraction : Nat := bits % Nat.pow 2 52
  if exponent = Nat.pow 2 11 - 1 then
    if fraction = 0 then infinite negative else nan
  else if exponent = 0 then
    finite negative fraction minExponent
  else
    finite negative (Nat.pow 2 52 + fraction) (exponent + minExponent - 1)

/-- The quotient `num / den` rounded to the nearest integer, a half to the even neighbour. -/
def roundHalfEven (num den : Nat) : Nat :=
  let quotient := num / den
  let twice := 2 * (num % den)
  if twice < den then quotient
  else if den < twice then quotient + 1
  else quotient + quotient % 2

/-- `m · 2 ^ q` as a numerator and a denominator. -/
def ratio (m : Nat) (q : Int) : Nat × Nat :=
  (m * Nat.pow 2 q.toNat, Nat.pow 2 (-q).toNat)

/-- The exponent of the last place of the doubles around the positive quotient `num / den`. -/
def lastPlace (num den : Nat) : Int :=
  let e : Int := (num.log2 : Int) - (den.log2 : Int) - 52
  let (scaleUp, scaleDown) := ratio 1 (-e)
  let e := if num * scaleUp < Nat.pow 2 52 * (den * scaleDown) then e - 1 else e
  max e minExponent

/-- The bits of the double nearest to the quotient `num / den`, infinity beyond the largest one.

The significand, with its leading bit, is added to the exponent field, so that a carry out of the
significand raises the exponent by itself. -/
def nearestBits (num den : Nat) : Nat :=
  if num = 0 then 0
  else
    let e := lastPlace num den
    let (scaleUp, scaleDown) := ratio 1 (-e)
    let m := roundHalfEven (num * scaleUp) (den * scaleDown)
    min ((e - minExponent).toNat * Nat.pow 2 52 + m) ((Nat.pow 2 11 - 1) * Nat.pow 2 52)

/-- The double nearest to `num / den`, with a sign. -/
def nearest (negative : Bool) (num den : Nat) : Float :=
  let bits := nearestBits num den
  Float.ofBits (UInt64.ofNat (if negative then Nat.pow 2 63 + bits else bits))

/-- An infinity with its sign. -/
def infinity (negative : Bool) : Float :=
  if negative then -(1.0 / 0.0) else 1.0 / 0.0

/-- The double nearest to `± d · 10 ^ k`.

Numbers of more than 310 digits before the point, or whose first digit stands more than 330 places
after it, are beyond the doubles and need no power of ten. -/
def ofDecimal (negative : Bool) (d : Nat) (k : Int) : Float :=
  let places := ((Nat.toDigits 10 d).length : Int) + k
  if d = 0 ∨ places < -330 then nearest negative 0 1
  else if 310 < places then infinity negative
  else nearest negative (d * Nat.pow 10 k.toNat) (Nat.pow 10 (-k).toNat)

end Binary

end TagLang
