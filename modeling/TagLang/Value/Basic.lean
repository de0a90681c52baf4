import TagLang.Number.Notation

/-!
# Values

What a script computes with: text, integers, doubles, truth values, lists of values, and the absence
of a value.  Each has a kind, by which errors name it, and a text, which is what a script prints.
-/

namespace TagLang

/-- A value of a script. -/
inductive Value where
  | str (s : String)
  | int (n : Int64)
  | float (x : Float)
  | bool (b : Bool)
  | array (items : List Value)
  | none
  deriving Inhabited

/-- The kinds of values. -/
inductive Kind where
  | str
  | int
  | float
  | bool
  | array
  | none
  deriving DecidableEq, Repr, Inhabited

/-- The name of a kind in messages. -/
def Kind.name : Kind → String
  | str => "string"
  | int => "int"
  | float => "float"
  | bool => "bool"
  | array => "array"
  | none => "none"

namespace Value

/-- The kind of a value. -/
def kind : Value → Kind
  | str _ => .str
  | int _ => .int
  | float _ => .float
  | bool _ => .bool
  | array _ => .array
  | none => .none

/-- The truth value, if the value is one. -/
def toBool? : Value → Option Bool
  | bool b => some b
  | _ => Option.none

/-- The integer, if the value is one. -/
def toInt? : Value → Option Int64
  | int n => some n
  | _ => Option.none

/-- The number as a double, if the value is a number. -/
def toFloat? : Value → Option Float
  | int n => some n.toFloat
  | float x => some x
  | _ => Option.none

/-- The text, if the value is one. -/
def toStr? : Value → Option String
  | str s => some s
  | _ => Option.none

mutual

/-- What a script prints for a value: text bare, list elements in brackets. -/
def text : Value → String
  | str s => s
  | int n => toString n.toInt
  | float x => Notation.write x
  | bool b => if b then "true" else "false"
  | array items => "[" ++ String.intercalate ", " (texts items) ++ "]"
  | none => "none"

/-- The texts of the elements of a list. -/
def texts : List Value → List String
  | [] => []
  | v :: vs => v.text :: texts vs

end

end Value

end TagLang
