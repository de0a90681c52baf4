import TagLang.Host.Basic
import TagLang.Number.Integer
import TagLang.Text.LetterCase
import TagLang.Value.Fault

/-!
# The standard modules

Mathematics, text, lists and the clock.
-/

namespace TagLang.Host

/-! ### Arguments -/

/-- The argument at a place; a missing one is no value. -/
def argument (args : List Value) (i : Nat) : Value :=
  args.getD i .none

/-- The complaint about an argument of the wrong kind. -/
def unexpected (wanted : String) (v : Value) : String :=
  s!"expected {wanted}, got {v.kind.name}"

/-- The argument as a double. -/
def number (v : Value) : Except String Float :=
  match v.toFloat? with
  | some x => .ok x
  | none => .error (unexpected "a number" v)

/-- The argument as a text. -/
def text (v : Value) : Except String String :=
  match v.toStr? with
  | some s => .ok s
  | none => .error (unexpected "a string" v)

/-- The argument as a list. -/
def items : Value → Except String (List Value)
  | .array items => .ok items
  | v => .error (unexpected "an array" v)

/-- A count as a value. -/
def count (n : Nat) : Value :=
  .int (Int64.ofNat n)

/-! ### Mathematics -/

/-- A function from a number to a double. -/
def onNumber (f : Float → Float) (args : List Value) : Except String Value :=
  (number (argument args 0)).map fun x => .float (f x)

/-- The absolute value of a number. -/
def abs (args : List Value) : Except String Value :=
  match argument args 0 with
  | .int n =>
    match Integer.abs? n with
    | some m => .ok (.int m)
    | none => .error Fault.overflow.message
  | .float x => .ok (.float x.abs)
  | v => .error (unexpected "a number" v)

/-- The first number to the power of the second. -/
def pow (args : List Value) : Except String Value := do
  let base ← number (argument args 0)
  let exponent ← number (argument args 1)
  return .float (Float.pow base exponent)

/-! ### Text and lists -/

/-- The number of characters of a text. -/
def textLength (args : List Value) : Except String Value :=
  (text (argument args 0)).map fun s => count s.length

/-- A function from text to text. -/
def onText (f : String → String) (args : List Value) : Except String Value :=
  (text (argument args 0)).map fun s => .str (f s)

/-- The number of elements of a list. -/
def listLength (args : List Value) : Except String Value :=
  (items (argument args 0)).map fun vs => count vs.length

/-- A list with one more element at its end. -/
def push (args : List Value) : Except String Value :=
  (items (argument args 0)).map fun vs => .array (vs ++ [argument args 1])

/-! ### The table -/

/-- The double nearest to Euler's number. -/
def euler : Float := 2.718281828459045

/-- The standard modules; `now` is what the clock shows, in seconds. -/
def standard (now : Float) : Host :=
  empty
    |>.register "math" "sqrt" (some 1) (onNumber Float.sqrt)
    |>.register "math" "floor" (some 1) (onNumber Float.floor)
    |>.register "math" "ceil" (some 1) (onNumber Float.ceil)
    |>.register "math" "abs" (some 1) abs
    |>.register "math" "pow" (some 2) pow
    |>.registerConstant "math" "e" (.float euler)
    |>.register "string" "len" (some 1) textLength
    |>.register "string" "upper" (some 1) (onText Text.upper)
    |>.register "string" "lower" (some 1) (onText Text.lower)
    |>.register "array" "len" (some 1) listLength
    |>.register "array" "push" (some 2) push
    |>.register "time" "clock" (some 0) fun _ => .ok (.float now)

end TagLang.Host
