import TagLang.Table
import TagLang.Value.Basic

/-!
# Host modules

Functions and constants that a script can bring in from outside.  A module is a table of entries,
and the host a table of modules: entries are listed in the order in which their names were first
registered, each with what was registered last.
-/

namespace TagLang

/-- A function that is not written in the language; it fails with a message of its own. -/
structure HostFunction where
  name : String
  /-- The number of arguments it takes; none if it takes any number. -/
  arity : Option Nat
  call : List Value → Except String Value

/-- An entry of a module. -/
inductive HostEntry where
  | function (f : HostFunction)
  | constant (v : Value)

/-- The modules that a script can bring in. -/
structure Host where
  modules : Table String (Table String HostEntry)

namespace Host

/-- The host without modules. -/
def empty : Host := ⟨.empty⟩

/-- The name of a module's member as scripts write it. -/
def qualified (module member : String) : String :=
  module ++ "." ++ member

/-- The host with an entry set. -/
def insert (host : Host) (module member : String) (entry : HostEntry) : Host :=
  ⟨host.modules.insert module (((host.modules.get? module).getD .empty).insert member entry)⟩

/-- The host with a function registered. -/
def register (host : Host) (module member : String) (arity : Option Nat)
    (call : List Value → Except String Value) : Host :=
  host.insert module member (.function ⟨qualified module member, arity, call⟩)

/-- The host with a constant registered. -/
def registerConstant (host : Host) (module member : String) (v : Value) : Host :=
  host.insert module member (.constant v)

/-- The entries of a module in order, if something was registered under its name. -/
def module? (host : Host) (module : String) : Option (List (String × HostEntry)) :=
  (host.modules.get? module).map (·.entries)

/-- The parts of a name before and behind its first dot. -/
def splitAtDot (cs : List Char) : Option (String × String) :=
  match cs.dropWhile (· != '.') with
  | [] => none
  | _ :: member => some (String.ofList (cs.takeWhile (· != '.')), String.ofList member)

/-- The function of a qualified name. -/
def lookup? (host : Host) (name : String) : Option HostFunction := do
  let (module, member) ← splitAtDot name.toList
  match (← host.modules.get? module).get? member with
  | some (.function f) => some f
  | _ => none

end Host

end TagLang
