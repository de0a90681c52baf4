import TagLang.Console
import TagLang.Registry
import TagLang.Source.Library
import TagLang.Tree.Builder
import TagLang.Tree.Load
import TagLang.Tree.Switches

/-!
# The machine

The state of a running script and the computations on it.  A computation gives a value or stops;
both leave a state behind, and a stopped session goes on from there.

A machine that is watched keeps an account of its run: what happened, each with the situation in
which it happened.  Computations read and change the situation only (`look`, `change`), so the
account never decides how a run goes on.
-/

namespace TagLang

/-- What a session consists of at a moment. -/
structure Situation where
  forest : Forest
  switches : Switches
  registry : Registry
  console : Console
  /-- The directory that relative targets are seen from. -/
  baseDir : Path
  /-- The files being run, innermost first. -/
  inserting : List Path
  /-- The trees of the files inserted so far, by their paths' components. -/
  inserted : Table (List String) NodeId
  /-- The number of calls under way. -/
  depth : Nat

namespace Situation

/-- The situation with its registry changed. -/
def onRegistry (f : Registry → Registry) (s : Situation) : Situation :=
  { s with registry := f s.registry }

/-- The situation with a node switched on or off. -/
def switch (id : NodeId) (on : Bool) (s : Situation) : Situation :=
  { s with switches := s.switches.set id on }

/-- The situation with what loading has made. -/
def settle (w : Workshop) (s : Situation) : Situation :=
  { s with forest := w.forest, registry := w.registry, switches := s.switches.turnOff w.muted }

end Situation

/-- What happens in a run, as far as the account of the run tells it. -/
inductive Event where
  /-- A node is run. -/
  | runs (id : NodeId)
  /-- A node is asked for its value. -/
  | evaluates (id : NodeId)
  /-- An operator in front of an operand is applied. -/
  | applies (op : Operator)
  /-- A function of the host is called. -/
  | asks (f : HostFunction) (args : List Value)
  /-- A bound name is given a new value. -/
  | assigns (name : String)
  /-- What a function gave is kept under its name. -/
  | answers (function : String)
  /-- A statement frees some names. -/
  | frees (names : List String)
  /-- A statement has freed all names. -/
  | clears
  /-- A statement brings in a module of the host. -/
  | imports (source nickname : String)
  /-- A statement inserts a file. -/
  | inserts
  /-- An insertion has got to its file. -/
  | finds (path : Path)
  /-- The library is asked for the text of a file. -/
  | reads (path : Path)
  /-- The tree of an inserted file is about to be run. -/
  | enters (path : Path) (root : NodeId)
  /-- A source cannot be read or loaded; `inserting` tells an inserted file from the source of a
  step. -/
  | refuses (inserting : Bool) (failure : Failure)
  /-- Names are bound to something new, but not by loading functions. -/
  | makes (made : List (String × Binding))

/-- An event and the situation in which it happened. -/
structure Moment where
  event : Event
  situation : Situation

/-- The state of a session. -/
structure Machine extends Situation where
  /-- The machine keeps an account of its run. -/
  watched : Bool := false
  /-- The moments of the run so far, the latest first. -/
  account : List Moment := []

/-- What a session cannot change. -/
structure World where
  host : Host
  library : Library

/-- How a node ends: it is done, or leaves the nearest loop, or leaves the nearest call with a
value. -/
inductive Flow where
  | completed
  | break_
  | return_ (v : Value)
  deriving Inhabited

/-- Why a computation stops without a value. -/
inductive Stop where
  | failed (failure : Failure)
  /-- The bound on its steps was too small. -/
  | outOfFuel

/-- Computations of a machine. -/
abbrev Run := EStateM Stop Machine

namespace Machine

/-- The double nearest to the ratio of a circle's circumference to its diameter. -/
def circleConstant : Float := 3.141592653589793

/-- A machine that has run nothing: the only bound name is the constant `π`. -/
def fresh (console : Console) (baseDir : Path) : Machine where
  forest := .empty
  switches := .allOn
  registry := Registry.empty.define "π" (.ofConstant (.float circleConstant))
  console := console
  baseDir := baseDir
  inserting := []
  inserted := .empty
  depth := 0

/-- The machine with its situation changed. -/
def update (f : Situation → Situation) (m : Machine) : Machine :=
  { m with toSituation := f m.toSituation }

/-- The machine with an event put on its account, if it keeps one. -/
def record (event : Event) (m : Machine) : Machine :=
  if m.watched then { m with account := ⟨event, m.toSituation⟩ :: m.account } else m

/-- Reads something off the situation. -/
def look (g : Situation → α) : Run α := fun m =>
  .ok (g m.toSituation) m

/-- Changes the situation. -/
def change (f : Situation → Situation) : Run Unit := fun m =>
  .ok () (m.update f)

/-- Puts an event on the account. -/
def note (event : Event) : Run Unit := fun m =>
  .ok () (m.record event)

/-- Changes the situation by binding names to something new. -/
def make (made : List (String × Binding)) (f : Situation → Situation) : Run Unit := do
  note (.makes made)
  change f

end Machine

namespace Run

variable {σ α : Type}

/-- Stops with a failure. -/
def fail (line : Nat) (cause : Cause) : EStateM Stop σ α :=
  throw (.failed ⟨line, cause⟩)

/-- Goes on with a result, or stops with its failure. -/
def ofExcept : Except Failure α → EStateM Stop σ α
  | .ok a => pure a
  | .error failure => throw (.failed failure)

/-- Goes on with the result of a value operation, or stops with its fault. -/
def orFault (line : Nat) (cause : Fault → Cause) : Except Fault α → EStateM Stop σ α
  | .ok a => pure a
  | .error fault => fail line (cause fault)

/-- Goes on with the result of an input or output operation, or stops with its error. -/
def orIo (line : Nat) : Except IoError α → EStateM Stop σ α
  | .ok a => pure a
  | .error error => fail line (.io error)

/-- Changes the situation behind a computation, however it ends. -/
def ensuring (x : Run α) (after : Situation → Situation) : Run α := fun m =>
  match x m with
  | .ok a m => .ok a (m.update after)
  | .error e m => .error e (m.update after)

end Run

namespace Machine

/-! ### The console -/

/-- Writes a text. -/
def write (line : Nat) (text : String) : Run Unit := fun m =>
  let (result, console) := m.console.write text
  Run.orIo line result { m with console }

/-- Flushes the output. -/
def flush (line : Nat) : Run Unit := fun m =>
  Run.orIo line m.console.flush m

/-- Reads a line. -/
def readLine (line : Nat) : Run String := fun m =>
  let (result, console) := m.console.readLine
  Run.orIo line result { m with console }

/-! ### Sources -/

/-- Stops because a source cannot be read or loaded. -/
def refuse (inserting : Bool) (failure : Failure) : Run α := do
  note (.refuses inserting failure)
  throw (.failed failure)

/-- Loads a tree of the forest. -/
def load (inserting : Bool) (root : NodeId) : Run Unit := do
  match ← look fun s => Workshop.load inserting root ⟨s.forest, s.registry, []⟩ with
  | .ok _ w => change (Situation.settle w)
  | .error failure w => do
    change (Situation.settle w)
    refuse inserting failure

/-- Reads a source into the forest and loads its tree. -/
def prepare (inserting : Bool) (source : String) : Run NodeId := do
  let (forest, parsed) ← look (·.forest.parse source)
  change fun s => { s with forest }
  match parsed with
  | .error failure => refuse inserting failure
  | .ok root => do
    load inserting root
    pure root

/-! ### Switches -/

/-- Runs a node if it is switched on. -/
def ifSwitchedOn (run : NodeId → Run Flow) (id : NodeId) : Run Flow := do
  if ← look (·.switches.isOn id) then run id else pure .completed

/-- Runs a node even if it is switched off, and leaves the switch as it was. -/
def switchingOn (run : NodeId → Run Flow) (id : NodeId) : Run Flow := do
  let was ← look (·.switches.isOn id)
  change (Situation.switch id true)
  Run.ensuring (run id) (Situation.switch id was)

end Machine

end TagLang
