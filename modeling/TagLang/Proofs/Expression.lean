import TagLang.Failure
import TagLang.Value.Arithmetic
import TagLang.Value.Element

/-!
# Expressions as trees

Expressions without names, as trees: what such a tree evaluates to (`Expr.eval`), and how it is
written (`Expr.text`).  Neither knows anything about tokens, nodes or stacks.

In writing, parentheses stand only where the tree would be read differently without them.  An
operand of a binary operator is enclosed if it binds more loosely than the operator, and on the
right-hand side also if it binds as tightly, since operators of equal precedence group to the left.
A prefix operator binds more tightly than any binary one, and a subscript more tightly than that.
-/

namespace TagLang

/-! ### Trees -/

/-- The literals of an expression.  A text is written between double quotes, so it holds none. -/
inductive Atom where
  | int (n : Int64)
  | bool (b : Bool)
  | str (s : { s : String // '"' ∉ s.toList })

/-- An expression without names. -/
inductive Expr where
  | atom (a : Atom)
  | array (items : List Expr)
  | index (target position : Expr)
  | unary (op : { op : Operator // op.isPrefix = true }) (operand : Expr)
  | binary (op : { op : Operator // op.isBinary = true }) (lhs rhs : Expr)

namespace Expr

mutual

/-- The height of a tree; a literal has height 1. -/
def height : Expr → Nat
  | atom _ => 1
  | array items => heights items + 1
  | index target position => max target.height position.height + 1
  | unary _ operand => operand.height + 1
  | binary _ lhs rhs => max lhs.height rhs.height + 1

/-- The height of the highest tree of a list. -/
def heights : List Expr → Nat
  | [] => 0
  | e :: rest => max e.height (heights rest)

end

end Expr

/-! ### What they evaluate to -/

/-- The value of a literal. -/
def Atom.value : Atom → Value
  | int n => .int n
  | bool b => .bool b
  | str s => .str s

/-- Why an expression has no value: the fault of its first operation that fails, and the category of
that failure. -/
structure Mishap where
  category : Category
  fault : Fault
  deriving DecidableEq, Repr

namespace Expr

mutual

/-- The value of an expression.  Operands are evaluated before the operation that they belong to,
and from left to right. -/
def eval : Expr → Except Mishap Value
  | atom a => pure a.value
  | array items => do
    let values ← evalAll items
    pure (.array values)
  | index target position => do
    let v ← target.eval
    let i ← position.eval
    (v.index i).mapError (⟨.arity, ·⟩)
  | unary op operand => do
    let v ← operand.eval
    (Value.unary op v).mapError (⟨.operator, ·⟩)
  | binary op lhs rhs => do
    let a ← lhs.eval
    let b ← rhs.eval
    (Value.binary op a b).mapError (⟨.operator, ·⟩)

/-- The values of expressions from left to right. -/
def evalAll : List Expr → Except Mishap (List Value)
  | [] => pure []
  | e :: rest => do
    let v ← e.eval
    let vs ← evalAll rest
    pure (v :: vs)

end

end Expr

/-! ### How they are written -/

/-- The parts of a written expression: literals, operators, commas, and what stands in parentheses
or in brackets. -/
inductive Term where
  | atom (a : Atom)
  | operator (op : Operator)
  | comma
  | group (inner : List Term)
  | brackets (inner : List Term)

/-- The terms of something that binds as tightly as `level`, in parentheses unless that is as tight
as `bound`. -/
def Term.enclosed (bound level : Nat) (terms : List Term) : List Term :=
  if level < bound then [.group terms] else terms

namespace Expr

/-- Binding strength of the outermost operation, on the scale of `Operator.precedence`. -/
def level : Expr → Nat
  | binary op _ _ => op.val.precedence
  | unary _ _ => Operator.not.precedence
  | atom _ | array _ | index _ _ => Operator.not.precedence + 1

mutual

/-- The terms that an expression is written with. -/
def terms : Expr → List Term
  | atom a => [.atom a]
  | array items => [.brackets (row items)]
  | index target position =>
    Term.enclosed (Operator.not.precedence + 1) target.level target.terms ++
      [.brackets position.terms]
  | unary op operand =>
    .operator op :: Term.enclosed Operator.not.precedence operand.level operand.terms
  | binary op lhs rhs =>
    Term.enclosed op.val.precedence lhs.level lhs.terms ++
      .operator op :: Term.enclosed (op.val.precedence + 1) rhs.level rhs.terms

/-- The terms of expressions with commas between them. -/
def row : List Expr → List Term
  | [] => []
  | [e] => e.terms
  | e :: next :: rest => e.terms ++ .comma :: row (next :: rest)

end

end Expr

/-- The tokens of a written expression. -/
inductive Piece where
  | atom (a : Atom)
  | operator (op : Operator)
  | mark (m : Mark)

namespace Term

mutual

/-- The tokens of a term. -/
def pieces : Term → List Piece
  | atom a => [.atom a]
  | operator op => [.operator op]
  | comma => [.mark .comma]
  | group inner => .mark .openGroup :: (piecesAll inner ++ [.mark .closeGroup])
  | brackets inner => .mark .openIndex :: (piecesAll inner ++ [.mark .closeIndex])

/-- The tokens of terms one after the other. -/
def piecesAll : List Term → List Piece
  | [] => []
  | t :: rest => t.pieces ++ piecesAll rest

end

theorem piecesAll_append (ts us : List Term) :
    piecesAll (ts ++ us) = piecesAll ts ++ piecesAll us := by
  induction ts with
  | nil => rfl
  | cons t rest ih => rw [List.cons_append, piecesAll, piecesAll, ih, List.append_assoc]

end Term

/-- The characters of a literal. -/
def Atom.text : Atom → String
  | int n => toString n.toInt
  | bool b => if b then "true" else "false"
  | str s => "\"" ++ s ++ "\""

/-- The character of a punctuation mark. -/
def Mark.char : Mark → Char
  | separator => ';'
  | openGroup => '('
  | closeGroup => ')'
  | openBlock => '{'
  | closeBlock => '}'
  | openIndex => '['
  | closeIndex => ']'
  | comma => ','
  | colon => ':'

/-- The characters of a token. -/
def Piece.text : Piece → String
  | atom a => a.text
  | operator op => op.symbol
  | mark m => String.singleton m.char

/-- An expression in writing, with one space between any two tokens. -/
def Expr.text (e : Expr) : String :=
  " ".intercalate ((Term.piecesAll e.terms).map Piece.text)

end TagLang
