import TagLang.Proofs.Shapes
import TagLang.Session

/-!
# Structured control flow

A second interpreter, which knows no switches.  The branches of a chain are kept together and run as
one statement: the conditions are evaluated in order, and the body behind the first one that holds
is run.  `break` and `return` are jumps.  A jump leaves all blocks on its way; a loop ends the jump
of a `break`, and a call that of a `return`.

Expressions, assignments and calls are those of the machine, with this interpreter in the place of
the machine at a smaller depth (`Level.engine`).  Nothing here looks at a switch.
-/

namespace TagLang

open Machine (look change)

/-! ### Jumps -/

/-- Ways to leave a statement before its end. -/
inductive Jump where
  | break_
  | return_ (v : Value)

/-- Computations that may jump. -/
abbrev Jumps := ExceptT Jump Run

namespace Jumps

/-- Runs a loop, which a `break` leaves. -/
def untilBreak (x : Jumps Unit) : Jumps Unit :=
  ExceptT.tryCatch x fun
    | .break_ => pure ()
    | .return_ v => throw (.return_ v)

/-- Runs a computation a number of times. -/
def times (x : Jumps Unit) : Nat → Jumps Unit
  | 0 => pure ()
  | n + 1 => do
    x
    times x n

end Jumps

/-- How a statement ends that may have jumped. -/
def Flow.ofJump : Except Jump Unit → Flow
  | .ok _ => .completed
  | .error .break_ => .break_
  | .error (.return_ v) => .return_ v

/-! ### Chains of branches -/

namespace Forest

/-- The node is a `local` statement that has been passed over. -/
def isSuppressed (f : Forest) (id : NodeId) : Bool :=
  match f.kind id, f.shape id with
  | .keyword .local_, .leaf => true
  | _, _ => false

/-- The further branches in front of the first statement, and the statements, each with the further
branches behind it. -/
def chains (f : Forest) : List NodeId → List NodeId × List (NodeId × List NodeId)
  | [] => ([], [])
  | id :: rest =>
    let (further, statements) := f.chains rest
    if (f.kind id).isFurther then (id :: further, statements) else ([], (id, further) :: statements)

/-- The statements that are not passed over, each with the further branches behind it. -/
def statements (f : Forest) (ids : List NodeId) : List (NodeId × List NodeId) :=
  (f.chains ids).2.filter fun s => !f.isSuppressed s.1

end Forest

/-! ### The interpreter -/

namespace Structured

open ExceptT (lift)

/-- The interpreter at a smaller depth. -/
structure Level where
  /-- Runs a statement, with the further branches of the chain that it may open. -/
  run : NodeId → List NodeId → Jumps Unit
  /-- Evaluates an expression. -/
  eval : Sequence → Run Value

namespace Level

variable (w : World) (l : Level)

/-- Runs a node to its end or its jump. -/
def flow (id : NodeId) : Run Flow := do
  let jumped ← (l.run id []).run
  pure (.ofJump jumped)

/-- What expressions and calls are left to. -/
def engine : Engine :=
  ⟨l.flow, l.flow, l.eval⟩

/-- Runs the body behind the first condition that holds, or behind `else`. -/
def runChain : List NodeId → Jumps Unit
  | [] => pure ()
  | id :: rest => do
    let line ← lift (look (·.forest.line id))
    match ← lift (look (·.forest.shape id)) with
    | .branch _ test body _ => do
      if ← lift (l.engine.condition test line) then l.run body [] else runChain rest
    | .else_ body => l.run body []
    | _ => pure ()

/-- Runs statements one after the other. -/
def runAll : List (NodeId × List NodeId) → Jumps Unit
  | [] => pure ()
  | (id, further) :: rest => do
    l.run id further
    runAll rest

/-- Runs a body as long as a condition holds, at most the given number of times. -/
def whileLoop (test body : NodeId) (line : Nat) : Nat → Jumps Unit
  | 0 => lift (throw .outOfFuel)
  | n + 1 => do
    if ← lift (l.engine.condition test line) then
      l.run body []
      whileLoop test body line n

/-- Runs a body with a name bound to one value after the other. -/
def forItems (item : String) (body : NodeId) : List Value → Jumps Unit
  | [] => pure ()
  | v :: rest => do
    lift (change (Situation.onRegistry fun r => r.define item (.ofVariable v none)))
    l.run body []
    forItems item body rest

/-- Runs a statement; a `while` loop makes at most `passes` passes. -/
def runStatement (passes : Nat) (id : NodeId) (further : List NodeId) : Jumps Unit := do
  let line ← lift (look (·.forest.line id))
  match ← lift (look (·.forest.shape id)) with
  | .block => do
    let statements ← lift (look fun s => s.forest.statements (s.forest.children id))
    l.runAll statements
  | .branch .. => l.runChain (id :: further)
  | .while_ test body => Jumps.untilBreak (l.whileLoop test body line passes)
  | .repeat_ count body => do
    let v ← lift (l.engine.nodeValue count)
    match v.toInt? with
    | some n => Jumps.untilBreak (Jumps.times (l.run body []) n.toInt.toNat)
    | none => lift (Run.fail line (.repeatKind v.kind))
  | .foreach item collection body => do
    match ← lift (l.eval collection) with
    | .array values =>
      ExceptT.mk (Engine.duringLoop item (Jumps.untilBreak (l.forItems item body values)).run)
    | v => lift (Run.fail line (.notIterable v.kind))
  | .break_ => throw .break_
  | .return_ value => do
    let v ← lift (l.eval value)
    match ← lift (look (·.registry.currentFunction?)) with
    | some function => lift (Engine.answer function v)
    | none => pure ()
    throw (.return_ v)
  | .local_ body => l.run body []
  | .function _ | .else_ _ => pure ()
  | .print value => do
    let v ← lift (l.eval value)
    lift (Machine.write line (v.text ++ "\n"))
  | .declaration name subscripts op value =>
    lift (l.engine.runDeclaration id name subscripts op value line)
  | .free names => lift (Engine.runFree names line)
  | .freeAll => lift Engine.runFreeAll
  | .extern_ source nickname => lift (Engine.runExtern w source nickname line)
  | .insert target => do
    let _ ← lift (l.engine.runInsert w target line)
  | .leaf | .groups _ | .array _ | .input _ | .convert .. | .call .. => do
    let _ ← lift (l.engine.nodeValue id)
  | .pair .. | .unloaded => do
    let kind ← lift (look (·.forest.kind id))
    lift (Run.fail line (.notExecutable kind))

end Level

/-- The interpreter within a bound. -/
def level (w : World) : Nat → Level
  | 0 => ⟨fun _ _ => lift (throw .outOfFuel), fun _ => throw .outOfFuel⟩
  | n + 1 => ⟨(level w n).runStatement w n, fun s => s.reduce (level w n).engine.operand⟩

/-! ### Sessions -/

variable (w : World)

/-- Runs a source within a bound. -/
def runSource (fuel : Nat) (text : String) : Run Unit := do
  let root ← Machine.prepare false text
  let _ ← (level w fuel).flow root
  pure ()

/-- Runs a file within a bound; its directory becomes the base directory. -/
def runFile (fuel : Nat) (target : String) : Run Unit := do
  let path := w.library.resolve .empty target
  let text ← Run.orIo 0 (w.library.load path)
  change fun s =>
    { s with baseDir := path.parent?.getD s.baseDir, inserting := path :: s.inserting }
  Run.ensuring (runSource w fuel text) fun s => { s with inserting := s.inserting.tail }

/-- Runs a step within a bound. -/
def runStep (fuel : Nat) : Step → Run Unit
  | .source text => runSource w fuel text
  | .file target => runFile w fuel target

end Structured

end TagLang
