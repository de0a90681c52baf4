import TagLang.Operator
import TagLang.Value.Basic

/-!
# Faults of value operations

Why an operator, an element access or a conversion has no result, and the message that says so.
-/

namespace TagLang

/-- The kinds that a script can convert to. -/
inductive Conversion where
  | str
  | int
  | float
  | bool
  deriving DecidableEq, Repr, Inhabited

namespace Conversion

/-- The keyword that asks for a conversion. -/
def keyword : Conversion → String
  | str => "string"
  | int => "int"
  | float => "float"
  | bool => "bool"

/-- The target of a conversion as messages name it. -/
def title : Conversion → String
  | str => "String"
  | int => "Int"
  | float => "Float"
  | bool => "Bool"

end Conversion

/-- The reasons why an operation on values has no result. -/
inductive Fault where
  /-- The operator has no meaning for operands of these kinds. -/
  | operands (op : Operator) (lhs rhs : Kind)
  /-- The operator does not stand between two operands. -/
  | notBinary (op : Operator)
  /-- The operator has no meaning in front of an operand of this kind. -/
  | operand (op : Operator) (kind : Kind)
  /-- The integer result is out of range. -/
  | overflow
  /-- An integer is divided by zero. -/
  | divisionByZero
  /-- Values of this kind have no elements. -/
  | noElements (kind : Kind)
  /-- A list of this length has no element at this index. -/
  | indexRange (index : Int64) (length : Nat)
  /-- A value of this kind is no index. -/
  | indexKind (kind : Kind)
  /-- The value, given by its kind and text, has no counterpart of the asked kind. -/
  | conversion (kind : Kind) (text : String) (target : Conversion)
  deriving DecidableEq, Repr

/-- The wording of a fault. -/
def Fault.message : Fault → String
  | operands op lhs rhs => s!"'{op.symbol}' is not defined for {lhs.name} and {rhs.name}"
  | notBinary op => s!"'{op.symbol}' is not a binary operator"
  | operand op kind => s!"unary '{op.symbol}' is not defined for {kind.name}"
  | overflow => "integer overflow"
  | divisionByZero => "division by zero"
  | noElements kind => s!"cannot index into {kind.name}"
  | indexRange index length => s!"index {index.toInt} out of range for length {length}"
  | indexKind kind => s!"index must be an int, got {kind.name}"
  | conversion kind text target => s!"cannot convert {kind.name} '{text}' to {target.title}"

end TagLang
