import TagLang.Token.Basic

/-!
# Nodes

A source is read into a tree of nodes that follow its tokens closely: a keyword, a group in
parentheses or a name is a node, and what follows it up to the next separator are its children.
What a node is *for* is its shape, which is found out once per node when the tree is loaded.
-/

namespace TagLang

/-- Nodes are named by their place in the forest. -/
abbrev NodeId := Nat

/-- What a node was read from. -/
inductive NodeKind where
  /-- Statements in braces; also the root of a source. -/
  | block
  /-- What stands in parentheses. -/
  | group
  /-- What stands in square brackets. -/
  | brackets
  | literal (v : Value)
  | operator (op : Operator)
  /-- A name inside a statement. -/
  | reference (name : String)
  /-- A name that starts a statement. -/
  | declaration (name : String)
  | comma
  | colon
  | keyword (k : Keyword)
  deriving Inhabited

namespace NodeKind

/-- The node yields a value where an operand is expected. -/
def isValue : NodeKind → Bool
  | group | brackets | literal _ | reference _ => true
  | keyword .call | keyword .input | keyword (.convert _) => true
  | _ => false

/-- The node is a keyword that lives inside an expression and ends with it. -/
def isInline : NodeKind → Bool
  | keyword .call | keyword .input | keyword (.convert _) => true
  | _ => false

/-- The node is a group in parentheses. -/
def isGroup : NodeKind → Bool
  | group => true
  | _ => false

/-- The node is a block in braces. -/
def isBlock : NodeKind → Bool
  | block => true
  | _ => false

/-- The node is a pair of square brackets. -/
def isBrackets : NodeKind → Bool
  | brackets => true
  | _ => false

/-- The node separates the elements of a list. -/
def isComma : NodeKind → Bool
  | comma => true
  | _ => false

/-- The node separates a loop's name from its collection. -/
def isColon : NodeKind → Bool
  | colon => true
  | _ => false

/-- The node is the given keyword. -/
def isKeyword (k : Keyword) : NodeKind → Bool
  | keyword k' => k' == k
  | _ => false

/-- The node as messages name it. -/
def description : NodeKind → String
  | block => "block"
  | group => "expression"
  | brackets => "brackets"
  | literal v => s!"literal '{v.text}'"
  | operator op => s!"operator '{op.symbol}'"
  | reference name | declaration name => s!"name '{name}'"
  | comma => "','"
  | colon => "':'"
  | keyword k => s!"'{k.word}'"

variable {kind : NodeKind}

theorem isGroup_iff : kind.isGroup = true ↔ kind = .group := by
  cases kind <;> simp [isGroup]

theorem isBlock_iff : kind.isBlock = true ↔ kind = .block := by
  cases kind <;> simp [isBlock]

theorem isComma_iff : kind.isComma = true ↔ kind = .comma := by
  cases kind <;> simp [isComma]

theorem isKeyword_iff {k : Keyword} : kind.isKeyword k = true ↔ kind = .keyword k := by
  cases kind with
  | keyword k' => simp [isKeyword]
  | _ => simp [isKeyword]

end NodeKind

/-- An operand of an expression: the node that gives its value, the operators in front of it and the
brackets behind it. -/
structure Operand where
  node : NodeId
  prefixes : List Operator
  subscripts : List NodeId
  deriving DecidableEq, Repr, Inhabited

/-- An expression: operands with binary operators between them, each with its line. -/
structure Sequence where
  operands : List Operand
  operators : List (Operator × Nat)
  deriving DecidableEq, Repr, Inhabited

namespace Sequence

/-- The expression without operands, which has no value. -/
def empty : Sequence := ⟨[], []⟩

/-- There are no operands. -/
def isEmpty (s : Sequence) : Bool :=
  s.operands.isEmpty

/-- The node of the only operand, if it stands alone and bare. -/
def single? (s : Sequence) : Option NodeId :=
  match s.operands with
  | [⟨node, [], []⟩] => some node
  | _ => none

end Sequence

/-- A function of a script. -/
structure Function where
  name : String
  params : List String
  body : NodeId
  deriving DecidableEq, Repr, Inhabited

/-- The number of arguments that a function of a script takes. -/
def Function.arity (f : Function) : Nat :=
  f.params.length

/-- What a node does when it runs, as found out when its tree was loaded. -/
inductive Shape where
  /-- Nothing is known yet. -/
  | unloaded
  /-- The node has no children to look at. -/
  | leaf
  /-- Statements, which are the node's children. -/
  | block
  /-- Expressions in parentheses with commas between them. -/
  | groups (values : List Sequence)
  /-- `name : collection` in parentheses. -/
  | pair (item : String) (collection : Sequence)
  /-- A list, or a subscript. -/
  | array (values : List Sequence)
  | print (value : Sequence)
  | input (prompt : Sequence)
  | return_ (value : Sequence)
  | convert (target : Conversion) (value : Sequence)
  | insert (target : Sequence)
  | declaration (name : String) (subscripts : List Sequence) (op : Operator) (value : Sequence)
  /-- A branch that runs its body when its condition holds and otherwise arms the branch chained to
  it; `opening` tells the first branch of a chain from the further ones. -/
  | branch (opening : Bool) (condition body : NodeId) (chained : Option NodeId)
  /-- The last branch of a chain. -/
  | else_ (body : NodeId)
  | while_ (condition body : NodeId)
  | repeat_ (count body : NodeId)
  | foreach (item : String) (collection : Sequence) (body : NodeId)
  | call (name : String) (arguments : List Sequence)
  | function (f : Function)
  | break_
  | free (names : List String)
  | freeAll
  | local_ (body : NodeId)
  | extern_ (source nickname : String)
  deriving Inhabited

/-- A node of a forest. -/
structure Node where
  kind : NodeKind
  parent : NodeId
  line : Nat
  children : Array NodeId := #[]
  shape : Shape := .unloaded
  deriving Inhabited

end TagLang
