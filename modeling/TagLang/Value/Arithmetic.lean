import TagLang.Number.Integer
import TagLang.Number.Remainder
import TagLang.Value.Fault

/-!
# Operators on values

`Value.binary` and `Value.unary` apply an operator.  Equality and order treat an integer and a
double as numbers of one scale, the doubles; arithmetic stays with the integers as long as both
operands are integers and the result is one.
-/

namespace TagLang.Value

/-! ### Equality and order -/

mutual

/-- The values are equal to a script: numbers by their value as doubles unless both are integers. -/
def same : Value → Value → Bool
  | str a, str b => a == b
  | int a, int b => a == b
  | int a, float b => a.toFloat == b
  | float a, int b => a == b.toFloat
  | float a, float b => a == b
  | bool a, bool b => a == b
  | array as, array bs => sameItems as bs
  | none, none => true
  | _, _ => false

/-- The lists have the same length and their elements are equal in pairs. -/
def sameItems : List Value → List Value → Bool
  | [], [] => true
  | a :: as, b :: bs => same a b && sameItems as bs
  | _, _ => false

end

/-- The order of two doubles; `NaN` has none. -/
def compareFloats (a b : Float) : Option Ordering :=
  if a < b then some .lt
  else if b < a then some .gt
  else if a == b then some .eq
  else Option.none

/-- The order of two values: integers, texts by code points, and numbers as doubles. -/
def compare? : Value → Value → Option Ordering
  | int a, int b => some (compare a.toInt b.toInt)
  | str a, str b => some (compare a b)
  | a, b =>
    match a.toFloat?, b.toFloat? with
    | some a, some b => compareFloats a b
    | _, _ => Option.none

/-! ### Arithmetic -/

/-- A checked integer result. -/
def ofChecked : Option Int64 → Except Fault Value
  | some n => .ok (int n)
  | Option.none => .error .overflow

/-- Arithmetic on doubles; `a // b` is the `b`-th root of `a`. -/
def floatArithmetic (op : Operator) (a b : Float) : Float :=
  match op with
  | .add => a + b
  | .sub => a - b
  | .mul => a * b
  | .div => a / b
  | .mod => Binary.remainder a b
  | .pow => Float.pow a b
  | _ => Float.pow a (1.0 / b)

/-- Arithmetic on integers; roots and negative powers leave the integers.

The exponent of a power is limited to 32 bits, whatever the base. -/
def intArithmetic (op : Operator) (a b : Int64) : Except Fault Value :=
  match op with
  | .add => ofChecked (Integer.add? a b)
  | .sub => ofChecked (Integer.sub? a b)
  | .mul => ofChecked (Integer.mul? a b)
  | .div => if b = 0 then .error .divisionByZero else ofChecked (Integer.div? a b)
  | .mod => if b = 0 then .error .divisionByZero else ofChecked (Integer.mod? a b)
  | .pow =>
    if b.toInt < 0 then .ok (float (floatArithmetic .pow a.toFloat b.toFloat))
    else if b.toInt < Int.pow 2 32 then ofChecked (Integer.pow? a b.toInt.toNat)
    else .error .overflow
  | op => .ok (float (floatArithmetic op a.toFloat b.toFloat))

/-- Arithmetic on numbers, with doubles as soon as one operand is a double. -/
def arithmetic (op : Operator) (lhs rhs : Value) : Except Fault Value :=
  match lhs, rhs with
  | int a, int b => intArithmetic op a b
  | lhs, rhs =>
    match lhs.toFloat?, rhs.toFloat? with
    | some a, some b => .ok (float (floatArithmetic op a b))
    | _, _ => .error (.operands op lhs.kind rhs.kind)

/-- Sums: texts and lists are joined, numbers added. -/
def sum (lhs rhs : Value) : Except Fault Value :=
  match lhs, rhs with
  | str a, str b => .ok (str (a ++ b))
  | array as, array bs => .ok (array (as ++ bs))
  | lhs, rhs => arithmetic .add lhs rhs

/-- A test on truth values. -/
def logic (op : Operator) (test : Bool → Bool → Bool) (lhs rhs : Value) : Except Fault Value :=
  match lhs, rhs with
  | bool a, bool b => .ok (bool (test a b))
  | lhs, rhs => .error (.operands op lhs.kind rhs.kind)

/-- A test on the order of two values. -/
def ordered (op : Operator) (test : Ordering → Bool) (lhs rhs : Value) : Except Fault Value :=
  match compare? lhs rhs with
  | some o => .ok (bool (test o))
  | Option.none => .error (.operands op lhs.kind rhs.kind)

/-! ### Operators -/

/-- The value of a binary operator between two operands. -/
def binary (op : Operator) (lhs rhs : Value) : Except Fault Value :=
  match op with
  | .equal => .ok (bool (same lhs rhs))
  | .notEqual => .ok (bool (!same lhs rhs))
  | .and => logic op (· && ·) lhs rhs
  | .or => logic op (· || ·) lhs rhs
  | .less => ordered op (· == .lt) lhs rhs
  | .greater => ordered op (· == .gt) lhs rhs
  | .lessEqual => ordered op (· != .gt) lhs rhs
  | .greaterEqual => ordered op (· != .lt) lhs rhs
  | .add => sum lhs rhs
  | .sub | .mul | .div | .mod | .pow | .root => arithmetic op lhs rhs
  | .assign | .addAssign | .subAssign | .mulAssign | .divAssign | .modAssign | .not =>
    .error (.notBinary op)

/-- The value of an operator in front of an operand. -/
def unary (op : Operator) (operand : Value) : Except Fault Value :=
  match op, operand with
  | .sub, int n => ofChecked (Integer.neg? n)
  | .sub, float x => .ok (float (-x))
  | .not, bool b => .ok (bool !b)
  | op, operand => .error (.operand op operand.kind)

end TagLang.Value
