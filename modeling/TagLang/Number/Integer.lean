/-!
# Integers of 64 bits

Integer arithmetic is exact: every operation computes in the unbounded integers and succeeds only
when the result is a signed 64-bit integer.  A remainder counts as out of range when its quotient
is, which happens for the least integer divided by `-1` and nowhere else.
-/

namespace TagLang.Integer

/-- The signed 64-bit integer with a given value, if the value is in range. -/
def ofInt? (n : Int) : Option Int64 :=
  if Int64.minValue.toInt ≤ n ∧ n ≤ Int64.maxValue.toInt then some (Int64.ofInt n) else none

/-- The sum, if it is in range. -/
def add? (a b : Int64) : Option Int64 :=
  ofInt? (a.toInt + b.toInt)

/-- The difference, if it is in range. -/
def sub? (a b : Int64) : Option Int64 :=
  ofInt? (a.toInt - b.toInt)

/-- The product, if it is in range. -/
def mul? (a b : Int64) : Option Int64 :=
  ofInt? (a.toInt * b.toInt)

/-- The quotient truncated toward zero, if it is in range. -/
def div? (a b : Int64) : Option Int64 :=
  ofInt? (a.toInt.tdiv b.toInt)

/-- The remainder with the sign of the dividend, if the quotient is in range. -/
def mod? (a b : Int64) : Option Int64 :=
  (div? a b).bind fun _ => ofInt? (a.toInt.tmod b.toInt)

/-- The opposite, if it is in range. -/
def neg? (a : Int64) : Option Int64 :=
  ofInt? (-a.toInt)

/-- The absolute value, if it is in range. -/
def abs? (a : Int64) : Option Int64 :=
  ofInt? a.toInt.natAbs

/-- The power with a natural exponent, if it is in range.

Of the powers with an exponent of 64 or more only those of `-1`, `0` and `1` are in range, and these
depend on the parity of the exponent alone. -/
def pow? (a : Int64) (n : Nat) : Option Int64 :=
  if n < 64 then ofInt? (a.toInt.pow n)
  else if 2 ≤ a.toInt.natAbs then none
  else ofInt? (a.toInt.pow (64 + n % 2))

end TagLang.Integer
