import TagLang.Machine.Evaluation

/-!
# Running nodes

What every shape does when it runs.  `Engine.runNode` runs one node and leaves the nodes below it to
the engine; `Machine.exec` and `Machine.eval` tie the knot.

A script may run forever, so both take a bound: on the depth of the nesting, and on the passes of a
single `while` loop.  All other loops end by themselves.
-/

namespace TagLang

namespace Engine

open Machine (look change note make)

variable (w : World) (e : Engine)

/-! ### Blocks and loops -/

/-- Runs statements until one of them ends the block. -/
def runBlock : List NodeId → Run Flow
  | [] => pure .completed
  | id :: rest => do
    match ← e.execute id with
    | .completed => runBlock rest
    | flow => pure flow

/-- The truth value of a condition. -/
def condition (id : NodeId) (line : Nat) : Run Bool := do
  let v ← e.nodeValue id
  match v.toBool? with
  | some b => pure b
  | none => Run.fail line (.conditionKind v.kind)

/-- Runs a body as long as a condition holds, at most the given number of times. -/
def runWhile (test body : NodeId) (line : Nat) : Nat → Run Flow
  | 0 => throw .outOfFuel
  | n + 1 => do
    if ← e.condition test line then
      match ← e.force body with
      | .completed => runWhile test body line n
      | .break_ => pure .completed
      | .return_ v => pure (.return_ v)
    else pure .completed

/-- Runs a body a number of times. -/
def runTimes (body : NodeId) : Nat → Run Flow
  | 0 => pure .completed
  | n + 1 => do
    match ← e.force body with
    | .completed => runTimes body n
    | .break_ => pure .completed
    | .return_ v => pure (.return_ v)

/-- Runs a body as often as a count says. -/
def runRepeat (count body : NodeId) (line : Nat) : Run Flow := do
  let v ← e.nodeValue count
  match v.toInt? with
  | some n => e.runTimes body n.toInt.toNat
  | none => Run.fail line (.repeatKind v.kind)

/-- Runs a body with a name bound to one value after the other. -/
def runItems (item : String) (body : NodeId) : List Value → Run Flow
  | [] => pure .completed
  | v :: rest => do
    make [(item, .ofVariable v none)] <| Situation.onRegistry fun r =>
      r.define item (.ofVariable v none)
    match ← e.force body with
    | .completed => runItems item body rest
    | .break_ => pure .completed
    | .return_ v => pure (.return_ v)

/-- Runs what belongs to a loop over a list: the name hides what it is named like until it is
over. -/
def duringLoop {α : Type} (item : String) (x : Run α) : Run α := do
  make [(item, .ofVariable .none none)] (Situation.onRegistry fun r => r.pushItem item)
  Run.ensuring x (Situation.onRegistry Registry.popItem)

/-- Runs a body for every element of a list. -/
def runForeach (item : String) (collection : Sequence) (body : NodeId) (line : Nat) :
    Run Flow := do
  match ← e.eval collection with
  | .array values => duringLoop item (e.runItems item body values)
  | v => Run.fail line (.notIterable v.kind)

/-! ### Branches -/

/-- Arms or disarms the branch that is chained to a branch, if there is one. -/
def arm (chained : Option NodeId) (on : Bool) : Run Unit :=
  match chained with
  | some next => change (Situation.switch next on)
  | none => pure ()

/-- Runs a branch with a condition: its body if the condition holds, and otherwise it arms the
branch chained to it.  A further branch disarms itself first. -/
def runBranch (id : NodeId) (opening : Bool) (test body : NodeId) (chained : Option NodeId)
    (line : Nat) : Run Flow := do
  arm (if opening then none else some id) false
  let holds ← e.condition test line
  arm chained !holds
  if holds then e.force body else pure .completed

/-- Runs the last branch of a chain, which disarms itself first. -/
def runElse (id body : NodeId) : Run Flow := do
  change (Situation.switch id false)
  e.force body

/-! ### Assignments -/

/-- Gives a bound name a new value. -/
def assign (name : String) (v : Value) (line : Nat) : Run Unit := do
  match ← look (·.registry.assign name v) with
  | .ok r => do
    note (.assigns name)
    change fun s => { s with registry := r }
  | .error .constant => Run.fail line (.constant name)
  | .error .undefined => Run.fail line (.undefined name)

/-- Binds a name for the first time: in a call for the time of the call. -/
def bindNew (id : NodeId) (name : String) (v : Value) : Run Unit :=
  make [(name, .ofVariable v (some id))] <| Situation.onRegistry fun r =>
    if r.inCall then r.bindLocal name (.ofVariable v (some id))
    else r.define name (.ofVariable v (some id))

/-- A plain assignment binds a free name.  The statement that bound a name may run again, and then
gives it a new value, or binds it anew in a call that has not bound it; any other name is taken. -/
def declare (id : NodeId) (name : String) (v : Value) (line : Nat) : Run Unit := do
  let r ← look (·.registry)
  match r.get? name with
  | none => bindNew id name v
  | some b =>
    if b.origin = some id then
      if r.inCall && !r.isLocal name then bindNew id name v else assign name v line
    else Run.fail line (.alreadyDeclared name)

/-- The value that an assignment stores, where `current` is the value before. -/
def combined (op : Operator) (current rhs : Value) (line : Nat) : Run Value :=
  match op.compound with
  | some arithmetic => Run.orFault line .fault (Value.binary arithmetic current rhs)
  | none => pure rhs

/-- The value that an assignment to an element stores; the element is looked at only if it
counts. -/
def combinedElement (target : Value) (path : List Value) (op : Operator) (rhs : Value)
    (line : Nat) :
    Run Value :=
  match op.compound with
  | some _ => do
    let current ← Run.orFault line .element (target.follow path)
    combined op current rhs line
  | none => pure rhs

/-- Assigns to an element of a list. -/
def assignElement (name : String) (path : List Value) (op : Operator) (rhs : Value) (line : Nat) :
    Run Unit := do
  let target ← lookup name line
  let v ← combinedElement target path op rhs line
  let target ← Run.orFault line .element (target.setIndex path v)
  assign name target line

/-- Runs an assignment: the right-hand side is evaluated first, then the subscripts. -/
def runDeclaration (id : NodeId) (name : String) (subscripts : List Sequence) (op : Operator)
    (value : Sequence) (line : Nat) : Run Unit := do
  let rhs ← e.eval value
  if !subscripts.isEmpty then
    let path ← e.evalAll subscripts
    assignElement name path op rhs line
  else if op.compound.isSome then
    let current ← lookup name line
    let v ← combined op current rhs line
    assign name v line
  else declare id name rhs line

/-! ### Names -/

/-- Keeps what a function gave under its name. -/
def answer (function : String) (v : Value) : Run Unit := do
  note (.answers function)
  change (Situation.onRegistry fun r => r.setResult function v)

/-- Ends a call with a value, which the name of the function keeps. -/
def runReturn (value : Sequence) : Run Flow := do
  let v ← e.eval value
  match ← look (·.registry.currentFunction?) with
  | some function => answer function v
  | none => pure ()
  pure (.return_ v)

/-- Frees names one after the other. -/
def freeNames (line : Nat) : List String → Run Unit
  | [] => pure ()
  | name :: rest => do
    match ← look (·.registry.remove? name) with
    | some r => do
      change fun s => { s with registry := r }
      freeNames line rest
    | none => Run.fail line (.undefined name)

/-- Frees names. -/
def runFree (names : List String) (line : Nat) : Run Unit := do
  note (.frees names)
  freeNames line names

/-- Frees all names. -/
def runFreeAll : Run Unit := do
  change (Situation.onRegistry Registry.clear)
  note .clears

/-- The binding of a host entry. -/
def hostBinding : HostEntry → Binding
  | .function f => .ofFunction (.host f) none
  | .constant v => .ofConstant v

/-- Binds the entries of a module one after the other; a name that a statement has bound stays. -/
def bindEntries (nickname : String) (line : Nat) : List (String × HostEntry) → Run Unit
  | [] => pure ()
  | (member, entry) :: rest => do
    let key := Host.qualified nickname member
    if ((← look (·.registry.get? key)).bind (·.origin)).isSome then
      Run.fail line (.alreadyDeclared key)
    else
      make [(key, hostBinding entry)]
        (Situation.onRegistry fun r => r.define key (hostBinding entry))
      bindEntries nickname line rest

/-- Binds the members of a module of the host. -/
def bindModule (source nickname : String) (line : Nat) : Run Unit :=
  match w.host.module? source with
  | some entries => bindEntries nickname line entries
  | none => Run.fail line (.unknownModule source)

/-- Brings in a module of the host. -/
def runExtern (source nickname : String) (line : Nat) : Run Unit := do
  note (.imports source nickname)
  bindModule w source nickname line

/-! ### Inserted files -/

/-- The tree of a file: a file is read and loaded once. -/
def inserted (path : Path) (line : Nat) : Run NodeId := do
  match ← look (·.inserted.get? path.components) with
  | some root => pure root
  | none => do
    note (.reads path)
    let source ← Run.orIo line (w.library.load path)
    let root ← Machine.prepare true source
    change fun s => { s with inserted := s.inserted.insert path.components root }
    pure root

/-- Runs what belongs to an inserted file: its directory is the base directory meanwhile. -/
def duringFile (path : Path) (x : Run Flow) : Run Flow := do
  let base ← look (·.baseDir)
  change fun s =>
    { s with baseDir := path.parent?.getD .empty, inserting := path :: s.inserting }
  Run.ensuring x fun s => { s with baseDir := base, inserting := s.inserting.tail }

/-- Runs a file; what ends the file early ends nothing else. -/
def runInserted (path : Path) (line : Nat) : Run Flow := do
  note (.finds path)
  let root ← inserted w path line
  note (.enters path root)
  let _ ← duringFile path (e.execute root)
  pure .completed

/-- Runs the file at a path, unless it is being run already or too many files are. -/
def runPath (path : Path) (line : Nat) : Run Flow := do
  let inserting ← look (·.inserting)
  if inserting.any path.same then Run.fail line (.alreadyInserting path.text)
  else if maxInsertDepth ≤ inserting.length then Run.fail line .insertDepth
  else e.runInserted w path line

/-- Runs the file that a target means. -/
def runTarget (target : Sequence) (line : Nat) : Run Flow := do
  let v ← e.eval target
  match v.toStr? with
  | none => Run.fail line (.insertKind v.kind)
  | some target => do
    let path ← look fun s => w.library.resolve s.baseDir target
    e.runPath w path line

/-- Inserts a file. -/
def runInsert (target : Sequence) (line : Nat) : Run Flow := do
  note .inserts
  e.runTarget w target line

/-! ### Nodes -/

/-- A statement that ends normally. -/
def done (x : Run Unit) : Run Flow := do
  x
  pure .completed

/-- Runs a node; a `while` loop makes at most `passes` passes. -/
def runNode (passes : Nat) (id : NodeId) : Run Flow := do
  note (.runs id)
  let line ← look (·.forest.line id)
  match ← look (·.forest.shape id) with
  | .block => do
    let statements ← look (·.forest.children id)
    e.runBlock statements
  | .print value => do
    let v ← e.eval value
    done (Machine.write line (v.text ++ "\n"))
  | .declaration name subscripts op value =>
    done (e.runDeclaration id name subscripts op value line)
  | .branch opening test body chained => e.runBranch id opening test body chained line
  | .else_ body => e.runElse id body
  | .while_ test body => e.runWhile test body line passes
  | .repeat_ count body => e.runRepeat count body line
  | .foreach item collection body => e.runForeach item collection body line
  | .break_ => pure .break_
  | .return_ value => e.runReturn value
  | .function _ => pure .completed
  | .free names => done (runFree names line)
  | .freeAll => done runFreeAll
  | .local_ body => e.force body
  | .extern_ source nickname => done (runExtern w source nickname line)
  | .insert target => e.runInsert w target line
  | .leaf | .groups _ | .array _ | .input _ | .convert .. | .call .. => do
    let _ ← e.nodeValue id
    pure .completed
  | .pair .. | .unloaded => do
    let kind ← look (·.forest.kind id)
    Run.fail line (.notExecutable kind)

end Engine

namespace Machine

mutual

/-- Runs a node within a bound. -/
def exec (w : World) : Nat → NodeId → Run Flow
  | 0, _ => throw .outOfFuel
  | n + 1, id =>
    Engine.runNode w ⟨ifSwitchedOn (exec w n), switchingOn (exec w n), eval w n⟩ n id

/-- Evaluates an expression within a bound. -/
def eval (w : World) : Nat → Sequence → Run Value
  | 0, _ => throw .outOfFuel
  | n + 1, s =>
    s.reduce (Engine.operand ⟨ifSwitchedOn (exec w n), switchingOn (exec w n), eval w n⟩)

end

/-- The machine within a bound. -/
def engine (w : World) (n : Nat) : Engine :=
  ⟨ifSwitchedOn (exec w n), switchingOn (exec w n), eval w n⟩

end Machine

end TagLang
