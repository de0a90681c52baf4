import TagLang.Machine.Basic
import TagLang.Value.Arithmetic

/-!
# Reducing an expression

An expression is reduced with a stack of values and a stack of operators that wait for their right
operand.  Before an operator goes on the stack, all waiting ones that bind at least as tightly are
applied, so operators of equal precedence group to the left.  Operands are evaluated once each, from
left to right.
-/

namespace TagLang.Sequence

/-- The values with the topmost two replaced by what the operator makes of them; the upper one is
the right operand. -/
def applyTop (op : Operator) (line : Nat) : List Value → Except Failure (List Value)
  | rhs :: lhs :: values =>
    match Value.binary op lhs rhs with
    | .ok v => .ok (v :: values)
    | .error fault => .error ⟨line, .fault fault⟩
  | _ => .error ⟨line, .missingOperand op⟩

/-- Applies the waiting operators that bind at least as tightly as `tightness`. -/
def unwind (tightness : Nat) (values : List Value) :
    List (Operator × Nat) → Except Failure (List Value × List (Operator × Nat))
  | [] => .ok (values, [])
  | (top, line) :: waiting =>
    if top.precedence < tightness then .ok (values, (top, line) :: waiting)
    else (applyTop top line values).bind fun values => unwind tightness values waiting

variable {σ : Type} (operand : Operand → EStateM Stop σ Value)

/-- Reduces what is left of an expression: operators, each with the operand behind it. -/
def reduceRest : List ((Operator × Nat) × Operand) → List Value → List (Operator × Nat) →
    EStateM Stop σ Value
  | [], values, waiting => do
    let (values, _) ← Run.ofExcept (unwind 0 values waiting)
    match values with
    | v :: _ => pure v
    | [] => Run.fail 0 .emptyExpression
  | ((op, line), next) :: rest, values, waiting => do
    let (values, waiting) ← Run.ofExcept (unwind op.precedence values waiting)
    let v ← operand next
    reduceRest rest (v :: values) ((op, line) :: waiting)

/-- The value of an expression, given the values of its operands. -/
def reduce (s : Sequence) : EStateM Stop σ Value :=
  match s.operands with
  | [] => pure .none
  | first :: rest => do
    let v ← operand first
    reduceRest operand (s.operators.zip rest) [v] []

end TagLang.Sequence
