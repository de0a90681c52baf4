import TagLang.Failure
import TagLang.Text.Runs
import TagLang.Tree.Forest

/-!
# Shapes of nodes

`Forest.shapeOf` looks at a node's children, which have their shapes already, and finds out what the
node does when it runs, or what is wrong with it.  Nothing is changed here; `Shape.muted` lists the
nodes that run only on demand once a node has its shape.
-/

namespace TagLang.Forest

variable (f : Forest)

/-! ### Expressions -/

/-- A group that stands for a value holds at most one expression. -/
def checkSingle (id : NodeId) : Except Failure Unit :=
  match f.shape id with
  | .groups [] | .groups [_] => .ok ()
  | .pair .. => .error ⟨f.line id, .colonOutsideRepeat⟩
  | _ => .error ⟨f.line id, .notSingleValue⟩

/-- The index in brackets that stand behind an operand. -/
def subscript (id : NodeId) : Except Failure Sequence :=
  match f.shape id with
  | .array [index] => .ok index
  | _ => .error ⟨f.line id, .badSubscript⟩

mutual

/-- Reads on where an operand is due, behind the given prefix operators; `last` is the line on which
the expression ends. -/
def operandNext (last : Nat) (prefixes : List Operator) : List NodeId → Except Failure Sequence
  | [] => .error ⟨last, .unfinishedExpression⟩
  | id :: rest =>
    match f.kind id with
    | .operator op =>
      if op.isPrefix then operandNext last (prefixes ++ [op]) rest
      else .error ⟨f.line id, .missingLeft op⟩
    | kind =>
      if kind.isValue then
        if kind.isGroup then
          (f.checkSingle id).bind fun _ => operatorNext last ⟨id, prefixes, []⟩ rest
        else operatorNext last ⟨id, prefixes, []⟩ rest
      else .error ⟨f.line id, .notInExpression kind⟩

/-- Reads on behind an operand, where brackets are subscripts. -/
def operatorNext (last : Nat) (operand : Operand) : List NodeId → Except Failure Sequence
  | [] => .ok ⟨[operand], []⟩
  | id :: rest =>
    match f.kind id with
    | .operator op =>
      if op.isBinary then
        (operandNext last [] rest).map fun s =>
          ⟨operand :: s.operands, (op, f.line id) :: s.operators⟩
      else .error ⟨f.line id, .strayOperator op⟩
    | .brackets =>
      (f.subscript id).bind fun _ =>
        operatorNext last { operand with subscripts := operand.subscripts ++ [id] } rest
    | kind =>
      if kind.isValue then .error ⟨f.line id, .missingOperator kind⟩
      else .error ⟨f.line id, .notInExpression kind⟩

end

/-- The expression that a list of nodes is; no nodes are the empty expression. -/
def sequence (ids : List NodeId) : Except Failure Sequence :=
  match ids with
  | [] => .ok .empty
  | _ => f.operandNext ((ids.getLast?.map f.line).getD 0) [] ids

/-- The expression that a list of nodes is, which must not be empty; `after` is the word or symbol
that asks for it. -/
def required (ids : List NodeId) (line : Nat) (after : String) : Except Failure Sequence :=
  (f.sequence ids).bind fun s =>
    if s.isEmpty then .error ⟨line, .missingValue after⟩ else .ok s

/-- The expressions between commas; none of them may be empty, but there may be none. -/
def groups (ids : List NodeId) (line : Nat) : Except Failure (List Sequence) :=
  match ids with
  | [] => .ok []
  | _ =>
    (runs (fun id => (f.kind id).isComma) ids).mapM fun run =>
      (f.sequence run).bind fun s => if s.isEmpty then .error ⟨line, .emptyGroup⟩ else .ok s

/-- The shape of a group: expressions, or a name and a collection with a colon between them. -/
def groupShape (ids : List NodeId) (line : Nat) : Except Failure Shape :=
  if ids.any fun id => (f.kind id).isColon then
    match ids with
    | name :: colon :: collection =>
      match f.kind name, f.kind colon with
      | .reference item, .colon => (f.required collection line ":").map (.pair item)
      | _, _ => .error ⟨line, .badPair⟩
    | _ => .error ⟨line, .badPair⟩
  else (f.groups ids line).map .groups

/-! ### Statements -/

/-- A statement starts neither with an operator nor with a separator of lists, and a group that is a
statement is a value. -/
def checkStatement (id : NodeId) : Except Failure Unit :=
  match f.kind id with
  | .operator _ | .comma | .colon => .error ⟨f.line id, .strayStart (f.kind id)⟩
  | .group => f.checkSingle id
  | _ => .ok ()

/-- The shape of a block: every child is a statement. -/
def blockShape (ids : List NodeId) : Except Failure Shape :=
  (ids.forM f.checkStatement).map fun _ => .block

/-- The shape of an assignment: subscripts, an operator of the assignment family, and a value. -/
def declarationShape (name : String) (ids : List NodeId) (line : Nat) : Except Failure Shape :=
  let isSubscript (id : NodeId) : Bool := (f.kind id).isBrackets
  ((ids.takeWhile isSubscript).mapM f.subscript).bind fun subscripts =>
    match ids.dropWhile isSubscript with
    | [] => .error ⟨line, .missingAssignment name⟩
    | first :: value =>
      match f.kind first with
      | .operator op =>
        if op.isAssignment then
          (f.required value line op.symbol).map (.declaration name subscripts op)
        else .error ⟨line, .missingAssignment name⟩
      | _ => .error ⟨line, .missingAssignment name⟩

/-- The group and the block that follow a keyword. -/
def header (k : Keyword) (ids : List NodeId) (line : Nat) : Except Failure (NodeId × NodeId) :=
  match ids with
  | [head, body] =>
    if (f.kind head).isGroup && (f.kind body).isBlock then .ok (head, body)
    else .error ⟨line, .missingHeader k⟩
  | _ => .error ⟨line, .missingHeader k⟩

/-- The block that follows a keyword. -/
def body (k : Keyword) (ids : List NodeId) (line : Nat) : Except Failure NodeId :=
  match ids with
  | [body] => if (f.kind body).isBlock then .ok body else .error ⟨line, .missingBlock k⟩
  | _ => .error ⟨line, .missingBlock k⟩

/-- The condition and the block that follow a keyword. -/
def conditional (k : Keyword) (ids : List NodeId) (line : Nat) :
    Except Failure (NodeId × NodeId) :=
  (f.header k ids line).bind fun (condition, body) =>
    match f.shape condition with
    | .groups [_] => .ok (condition, body)
    | _ => .error ⟨line, .missingCondition k⟩

/-- The branch that a branch hands over to: the next sibling, if it continues the chain. -/
def chained (id : NodeId) : Option NodeId :=
  (f.siblings id).2.filter fun next =>
    (f.kind next).isKeyword .elif || (f.kind next).isKeyword .else_

/-- A further branch stands right behind a branch with a condition. -/
def checkFollows (k : Keyword) (id : NodeId) (line : Nat) : Except Failure Unit :=
  match (f.siblings id).1 with
  | some before =>
    if (f.kind before).isKeyword .if_ || (f.kind before).isKeyword .elif then .ok ()
    else .error ⟨line, .strayBranch k⟩
  | none => .error ⟨line, .strayBranch k⟩

/-- The shape of a branch with a condition. -/
def branchShape (opening : Bool) (k : Keyword) (id : NodeId) (ids : List NodeId) (line : Nat) :
    Except Failure Shape :=
  (f.conditional k ids line).map fun (condition, body) =>
    .branch opening condition body (f.chained id)

/-- The shape of a counted loop, or of a loop over a list. -/
def repeatShape (ids : List NodeId) (line : Nat) : Except Failure Shape :=
  (f.header .repeat_ ids line).bind fun (head, body) =>
    match f.shape head with
    | .pair item collection => .ok (.foreach item collection body)
    | .groups [_] => .ok (.repeat_ head body)
    | _ => .error ⟨line, .badRepeat⟩

/-- The names in a parameter list, in order and without repetition. -/
def parameters (function : String) (line : Nat) :
    List String → List Sequence → Except Failure (List String)
  | names, [] => .ok names
  | names, s :: rest =>
    match s.single?.map f.kind with
    | some (.reference param) =>
      if names.contains param then .error ⟨line, .duplicateParameter param function⟩
      else parameters function line (names ++ [param]) rest
    | _ => .error ⟨line, .badParameters⟩

/-- The shape of a function declaration: a name, a parameter list and a block. -/
def functionShape (ids : List NodeId) (line : Nat) : Except Failure Shape :=
  match ids with
  | [name, params, body] =>
    match f.kind name, f.kind params, f.kind body with
    | .reference name, .group, .block =>
      match f.shape params with
      | .groups groups =>
        (f.parameters name line [] groups).map fun params => .function ⟨name, params, body⟩
      | _ => .error ⟨line, .badParameters⟩
    | _, _, _ => .error ⟨line, .badFunction⟩
  | _ => .error ⟨line, .badFunction⟩

/-- The shape of a call: a name and an argument list. -/
def callShape (ids : List NodeId) (line : Nat) : Except Failure Shape :=
  match ids with
  | [name, args] =>
    match f.kind name, f.kind args, f.shape args with
    | .reference name, .group, .groups groups => .ok (.call name groups)
    | _, _, _ => .error ⟨line, .badCall⟩
  | _ => .error ⟨line, .badCall⟩

/-- The names after `free`; commas between them may be left out. -/
def freeNames (line : Nat) : List NodeId → Except Failure (List String)
  | [] => .ok []
  | id :: rest =>
    match f.kind id with
    | .reference name => (freeNames line rest).map (name :: ·)
    | .comma => freeNames line rest
    | found => .error ⟨line, .badFree found⟩

/-- The shape of a `free` statement; the single name `all` frees everything. -/
def freeShape (ids : List NodeId) (line : Nat) : Except Failure Shape :=
  (f.freeNames line ids).bind fun
    | [] => .error ⟨line, .emptyFree⟩
    | ["all"] => .ok .freeAll
    | names => .ok (.free names)

/-- The shape of an `extern` statement: a module and the name to use for it. -/
def externShape (ids : List NodeId) (line : Nat) : Except Failure Shape :=
  match ids.map f.kind with
  | [.reference source] => .ok (.extern_ source source)
  | [.reference source, .reference nickname] => .ok (.extern_ source nickname)
  | _ => .error ⟨line, .badExtern⟩

/-- The shape of a keyword node. -/
def keywordShape (k : Keyword) (id : NodeId) (ids : List NodeId) (line : Nat) :
    Except Failure Shape :=
  match k with
  | .print => (f.sequence ids).map .print
  | .input => (f.sequence ids).map .input
  | .return_ => (f.sequence ids).map .return_
  | .insert => (f.required ids line k.word).map .insert
  | .convert target => (f.required ids line k.word).map (.convert target)
  | .if_ => f.branchShape true k id ids line
  | .elif => (f.checkFollows k id line).bind fun _ => f.branchShape false k id ids line
  | .else_ => (f.checkFollows k id line).bind fun _ => (f.body k ids line).map .else_
  | .while_ => (f.conditional k ids line).map fun (condition, body) => .while_ condition body
  | .repeat_ => f.repeatShape ids line
  | .function => f.functionShape ids line
  | .call => f.callShape ids line
  | .break_ => if ids.isEmpty then .ok .break_ else .error ⟨line, .breakOperand⟩
  | .free => f.freeShape ids line
  | .local_ => (f.body k ids line).map .local_
  | .extern_ => f.externShape ids line

/-- The shape of a node whose children have theirs. -/
def shapeOf (id : NodeId) : Except Failure Shape :=
  let ids := f.children id
  let line := f.line id
  match f.kind id with
  | .literal _ | .operator _ | .reference _ | .comma | .colon => .ok .leaf
  | .block => f.blockShape ids
  | .group => f.groupShape ids line
  | .brackets => (f.groups ids line).map .array
  | .declaration name => f.declarationShape name ids line
  | .keyword k => f.keywordShape k id ids line

end TagLang.Forest

namespace TagLang.Shape

/-- The nodes that no longer run by themselves once the node `id` has this shape: bodies, and the
further branches of a chain. -/
def muted (id : NodeId) : Shape → List NodeId
  | branch opening _ body _ => if opening then [body] else [id, body]
  | else_ body => [id, body]
  | while_ _ body | repeat_ _ body | foreach _ _ body | local_ body => [body]
  | function f => [f.body]
  | _ => []

end TagLang.Shape
