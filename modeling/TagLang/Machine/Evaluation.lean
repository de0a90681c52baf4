import TagLang.Machine.Reduction
import TagLang.Value.Convert
import TagLang.Value.Element

/-!
# Values of nodes

What literals, names, groups, lists, calls, input and conversions evaluate to.  The inner
expressions and the bodies of functions are left to an `Engine`, which stands for the machine at a
smaller depth; the machine itself ties the knot.
-/

namespace TagLang

/-- The machine at a smaller depth. -/
structure Engine where
  /-- Runs a statement, if it is switched on. -/
  execute : NodeId → Run Flow
  /-- Runs a body, whether it is switched on or not. -/
  force : NodeId → Run Flow
  /-- Evaluates an expression. -/
  eval : Sequence → Run Value

namespace Engine

open Machine (look change note make)

variable (e : Engine)

/-- The values of expressions from left to right. -/
def evalAll : List Sequence → Run (List Value)
  | [] => pure []
  | s :: rest => do
    let v ← e.eval s
    let vs ← evalAll rest
    pure (v :: vs)

/-! ### Names -/

/-- The value of a name. -/
def lookup (name : String) (line : Nat) : Run Value := do
  match ← look (·.registry.value? name) with
  | some v => pure v
  | none => Run.fail line (.undefined name)

/-! ### Calls -/

/-- The registry at the start of a call: the function has given nothing yet. -/
def beginCall (f : Function) (r : Registry) : Registry :=
  (r.setResult f.name .none).pushFrame f.name

/-- The parameters of a function with the arguments of a call. -/
def parameters (f : Function) (args : List Value) : List (String × Binding) :=
  (f.params.zip args).map fun (param, arg) => (param, .ofVariable arg none)

/-- Runs what belongs to a call: the parameters hide what they are named like until it is over. -/
def duringCall (f : Function) (args : List Value) (x : Run Flow) : Run Flow := do
  note (.answers f.name)
  change fun s => { s with registry := beginCall f s.registry, depth := s.depth + 1 }
  make (parameters f args) (Situation.onRegistry fun r => r.bindLocals (parameters f args))
  Run.ensuring x fun s => { s with registry := s.registry.popFrame, depth := s.depth - 1 }

/-- Calls a function of a script. -/
def callScript (f : Function) (args : List Value) (line : Nat) : Run Value := do
  if f.arity ≠ args.length then Run.fail line (.argumentCount f.name f.arity args.length)
  else if maxCallDepth ≤ (← look (·.depth)) then Run.fail line (.callDepth f.name)
  else
    match ← duringCall f args (e.force f.body) with
    | .return_ v => pure v
    | .completed | .break_ => pure .none

/-- Calls a function of the host. -/
def callHost (f : HostFunction) (args : List Value) (line : Nat) : Run Value :=
  match f.arity with
  | some n =>
    if n ≠ args.length then Run.fail line (.argumentCount f.name n args.length) else result
  | none => result
where
  /-- What the function gives. -/
  result : Run Value := do
    note (.asks f args)
    match f.call args with
    | .ok v => pure v
    | .error message => Run.fail line (.host f.name message)

/-- Calls what a name stands for; the name is looked up before the arguments are evaluated. -/
def invoke (name : String) (args : List Sequence) (line : Nat) : Run Value := do
  match ← look (·.registry.get? name) with
  | none => Run.fail line (.undefinedFunction name)
  | some b =>
    match b.kind with
    | .function (.script f) => do
      let values ← e.evalAll args
      e.callScript f values line
    | .function (.host f) => do
      let values ← e.evalAll args
      callHost f values line
    | _ => Run.fail line (.notFunction name)

/-! ### Nodes -/

/-- Shows a prompt, if there is one. -/
def showPrompt (prompt : Sequence) (line : Nat) : Run Unit :=
  if prompt.isEmpty then pure ()
  else do
    let v ← e.eval prompt
    Machine.write line v.text
    Machine.flush line

/-- Reads a line, after showing the prompt. -/
def input (prompt : Sequence) (line : Nat) : Run Value := do
  e.showPrompt prompt line
  let s ← Machine.readLine line
  pure (.str s)

/-- The value of a node. -/
def nodeValue (id : NodeId) : Run Value := do
  note (.evaluates id)
  let kind ← look (·.forest.kind id)
  let line ← look (·.forest.line id)
  match ← look (·.forest.shape id) with
  | .leaf =>
    match kind with
    | .literal v => pure v
    | .reference name => lookup name line
    | kind => Run.fail line (.noValue kind)
  | .groups [] => pure .none
  | .groups (s :: _) => e.eval s
  | .array values => do
    let vs ← e.evalAll values
    pure (.array vs)
  | .call name args => e.invoke name args line
  | .input prompt => e.input prompt line
  | .convert target value => do
    let v ← e.eval value
    Run.orFault line .fault (Value.convert target v)
  | _ => Run.fail line (.noValue kind)

/-- The element of a value that subscripts lead to. -/
def subscripted (line : Nat) (v : Value) : List NodeId → Run Value
  | [] => pure v
  | id :: rest => do
    match ← look (·.forest.shape id) with
    | .array [index] => do
      let i ← e.eval index
      let element ← Run.orFault line .element (v.index i)
      subscripted line element rest
    | _ => Run.fail line .badSubscript

/-- The value under prefix operators, of which the last one stands next to it. -/
def prefixed (line : Nat) (v : Value) : List Operator → Run Value
  | [] => pure v
  | op :: ops => do
    let v ← prefixed line v ops
    note (.applies op)
    Run.orFault line .fault (Value.unary op v)

/-- The value of an operand. -/
def operand (o : Operand) : Run Value := do
  let line ← look (·.forest.line o.node)
  let v ← e.nodeValue o.node
  let v ← e.subscripted line v o.subscripts
  prefixed line v o.prefixes

end Engine

end TagLang
