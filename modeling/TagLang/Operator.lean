/-!
# Operators

The operators of the language, the symbols they are written with and how tightly they bind.  The
assignment family (`=`, `+=`, ...) shares the type with the binary operators because both are read
the same way from text; only a declaration gives the family a meaning.
-/

namespace TagLang

/-- An operator as it is written in a script. -/
inductive Operator where
  | assign
  | addAssign
  | subAssign
  | mulAssign
  | divAssign
  | modAssign
  | or
  | and
  | equal
  | notEqual
  | less
  | greater
  | lessEqual
  | greaterEqual
  | add
  | sub
  | mul
  | div
  | mod
  | pow
  | root
  | not
  deriving DecidableEq, Repr, Inhabited

namespace Operator

/-- Every operator once. -/
def all : List Operator :=
  [assign, addAssign, subAssign, mulAssign, divAssign, modAssign, or, and, equal, notEqual, less,
    greater, lessEqual, greaterEqual, add, sub, mul, div, mod, pow, root, not]

/-- The symbol an operator is written with. -/
def symbol : Operator → String
  | assign => "="
  | addAssign => "+="
  | subAssign => "-="
  | mulAssign => "*="
  | divAssign => "/="
  | modAssign => "%="
  | or => "||"
  | and => "&&"
  | equal => "=="
  | notEqual => "!="
  | less => "<"
  | greater => ">"
  | lessEqual => "<="
  | greaterEqual => ">="
  | add => "+"
  | sub => "-"
  | mul => "*"
  | div => "/"
  | mod => "%"
  | pow => "**"
  | root => "//"
  | not => "!"

/-- The operator written with a given symbol, if there is one. -/
def ofSymbol? (s : String) : Option Operator :=
  all.find? fun op => op.symbol == s

/-- Binding strength: the higher, the tighter. -/
def precedence : Operator → Nat
  | assign | addAssign | subAssign | mulAssign | divAssign | modAssign => 0
  | or => 1
  | and => 2
  | equal | notEqual => 3
  | less | greater | lessEqual | greaterEqual => 4
  | add | sub => 5
  | mul | div | mod => 6
  | pow => 7
  | root => 8
  | not => 9

/-- The operators that may stand between the name and the value of a declaration. -/
def isAssignment (op : Operator) : Bool :=
  op.precedence == 0

/-- The operators that may stand between two operands of an expression. -/
def isBinary (op : Operator) : Bool :=
  !op.isAssignment && op != not

/-- The operators that may stand in front of an operand. -/
def isPrefix (op : Operator) : Bool :=
  op == sub || op == not

theorem isPrefix_sub : isPrefix sub = true :=
  rfl

/-- The arithmetic that a compound assignment applies; plain `=` has none. -/
def compound : Operator → Option Operator
  | addAssign => some add
  | subAssign => some sub
  | mulAssign => some mul
  | divAssign => some div
  | modAssign => some mod
  | _ => none

/-! ### Symbols -/

theorem mem_all (op : Operator) : op ∈ all := by
  cases op <;> decide

/-- Reading an operator's symbol gives the operator back. -/
@[simp]
theorem ofSymbol?_symbol (op : Operator) : ofSymbol? op.symbol = some op := by
  cases op <;> decide

/-- A symbol is read as the one operator that is written with it. -/
theorem ofSymbol?_eq_some_iff {s : String} {op : Operator} :
    ofSymbol? s = some op ↔ op.symbol = s := by
  constructor
  · intro h
    simpa using List.find?_some h
  · rintro rfl
    exact ofSymbol?_symbol op

end Operator

end TagLang
