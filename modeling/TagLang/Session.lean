import TagLang.Machine.Execution

/-!
# Sessions

A session runs one source after the other on the same machine.  What a step leaves behind (names,
trees, unread input, the base directory) is there for the next one, also when the step failed.
-/

namespace TagLang

/-- A step of a session: a source, or the file that a target means. -/
inductive Step where
  | source (text : String)
  | file (target : String)
  deriving DecidableEq, Repr

/-- How a step ends. -/
inductive Outcome where
  | ok
  | failed (failure : Failure)
  /-- The bound on the step was too small. -/
  | outOfFuel

namespace Session

variable (w : World)

/-- Runs a source within a bound; nothing runs unless all of it can be read and loaded. -/
def runSource (fuel : Nat) (text : String) : Run Unit := do
  let root ← Machine.prepare false text
  let _ ← (Machine.engine w fuel).execute root
  pure ()

/-- Runs a file within a bound; its directory becomes the base directory. -/
def runFile (fuel : Nat) (target : String) : Run Unit := do
  let path := w.library.resolve .empty target
  let text ← Run.orIo 0 (w.library.load path)
  Machine.change fun s =>
    { s with baseDir := path.parent?.getD s.baseDir, inserting := path :: s.inserting }
  Run.ensuring (runSource w fuel text) fun s => { s with inserting := s.inserting.tail }

/-- Runs a step within a bound. -/
def runStep (fuel : Nat) : Step → Run Unit
  | .source text => runSource w fuel text
  | .file target => runFile w fuel target

/-- The outcome of a step within a bound, and the machine behind it. -/
def stepWithin (fuel : Nat) (m : Machine) (s : Step) : Outcome × Machine :=
  match runStep w fuel s m with
  | .ok _ m => (.ok, m)
  | .error (.failed failure) m => (.failed failure, m)
  | .error .outOfFuel m => (.outOfFuel, m)

/-- A bound that no machine lives to reach. -/
def patience : Nat := 1000000000000000000

/-- The outcome of a step and the machine behind it. -/
def step (m : Machine) (s : Step) : Outcome × Machine :=
  stepWithin w patience m s

end Session

end TagLang
