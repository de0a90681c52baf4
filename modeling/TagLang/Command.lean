import TagLang.Session

/-!
# The command

The command takes one argument, the script, and runs it.  A failure is reported behind the script's
output and ends the command with status 1; any other number of arguments is a usage error.
-/

namespace TagLang.Command

/-- What the command leaves behind. -/
structure Reply where
  status : Nat
  /-- What goes to the standard output. -/
  output : ByteArray
  /-- What goes to the standard error. -/
  diagnostics : String

/-- The reminder of how to use the command. -/
def usage : String := "Usage: tag [script]\n"

/-- The exit status of a usage error. -/
def usageStatus : Nat := 64

/-- The report on the outcome of a script. -/
def report : Outcome → String
  | .ok => ""
  | .failed failure => failure.message ++ "\n"
  | .outOfFuel => "the script does not end\n"

/-- The exit status for the outcome of a script. -/
def status : Outcome → Nat
  | .ok => 0
  | .failed _ | .outOfFuel => 1

/-- Runs the script on a console. -/
def runScript (w : World) (console : Console) (script : String) : Outcome × Machine :=
  Session.step w (.fresh console .empty) (.file script)

/-- Runs the command. -/
def run (w : World) (console : Console) (args : List String) : Reply :=
  match args with
  | [script] =>
    let (outcome, m) := runScript w console script
    ⟨status outcome, m.console.output ++ (report outcome).toUTF8, ""⟩
  | _ => ⟨usageStatus, .empty, usage⟩

end TagLang.Command
