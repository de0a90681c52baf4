import TagLang.Number.Integer
import TagLang.Text.Blank
import TagLang.Value.Fault

/-!
# Conversions

Every value has a text.  A text becomes a number or a truth value when it denotes one, blanks at its
ends aside.
-/

namespace TagLang.Value

/-- The integer that a value stands for: doubles lose their fraction and stop at the ends of the
range, and `NaN` counts as zero. -/
def asInt? : Value → Option Int64
  | int n => some n
  | float x => some x.toInt64
  | bool b => some (if b then 1 else 0)
  | str s => (Notation.integer? (Text.trim s.toList)).bind Integer.ofInt?
  | array _ | none => Option.none

/-- The double that a value stands for. -/
def asFloat? : Value → Option Float
  | int n => some n.toFloat
  | float x => some x
  | bool b => some (if b then 1.0 else 0.0)
  | str s => Notation.read? (Text.trim s.toList)
  | array _ | none => Option.none

/-- The truth value that a value stands for: zeros, the empty list and the absence of a value are
false. -/
def asBool? : Value → Option Bool
  | int n => some (n != 0)
  | float x => some (x != 0.0)
  | bool b => some b
  | str s =>
    let word := String.ofList (Text.trim s.toList)
    if word = "true" then some true
    else if word = "false" then some false
    else Option.none
  | array items => some !items.isEmpty
  | none => some false

/-- The value converted to another kind. -/
def convert (target : Conversion) (v : Value) : Except Fault Value :=
  let converted := match target with
    | .str => some (str v.text)
    | .int => v.asInt?.map int
    | .float => v.asFloat?.map float
    | .bool => v.asBool?.map bool
  match converted with
  | some w => .ok w
  | Option.none => .error (.conversion v.kind v.text target)

end TagLang.Value
