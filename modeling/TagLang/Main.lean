import Std.Time.DateTime.Timestamp
import TagLang.Command
import TagLang.Host.Standard
import TagLang.Source.FileTree
import TagLang.Source.Sighting

/-!
# The command line

Runs a script from the disk.  The script is run on what is known of the disk and of the input; where
it needs more, a file or a line is fetched and it is run again from the start, which ends in the
same state and goes on from there.  Output is shown once.
-/

namespace TagLang.Terminal

/-- The seconds since the start of 1970. -/
def now : IO Float := do
  let time := (← Std.Time.Timestamp.now).toDurationSinceUnixEpoch
  return Float.ofInt time.second.val + Float.ofInt time.nano.val / 1000000000.0

/-- The error that a failed read stands for; codes come with either sign. -/
def ioError : IO.Error → IoError
  | .noFileOrDirectory .. => .notFound
  | .inappropriateType .. => .notDirectory
  | e@(.invalidArgument _ code _) =>
    if code == 36 || code == -36 then .nameTooLong else .system (toString e)
  | .permissionDenied .. => .system "Permission denied (os error 13)"
  | e => .system (toString e)

/-- Reads the file at a path. -/
def readText (path : String) : IO (Except IoError String) := do
  match ← (IO.FS.readBinFile path).toBaseIO with
  | .error e => return .error (ioError e)
  | .ok bytes =>
    match Utf8.decode? bytes.toList with
    | some text => return .ok text
    | none => return .error .invalidText

/-- The path of an existing file or directory without detours, and whether it is a directory. -/
def place? (path : String) : IO (Option (String × Bool)) := do
  match ← (IO.FS.realPath path).toBaseIO with
  | .error _ => return none
  | .ok place => return some (place.toString, ← place.isDir)

/-- Looks at a path: a directory stands for its index. -/
def look (path : String) : IO Sighting := do
  if (Path.mk path).hasNull then return ⟨⟨path⟩, .error .nullInPath⟩
  let path := match ← place? path with
    | some (_, true) =>
      if FileTree.tooLong ⟨path⟩ then path else ((Path.mk path).join FileTree.indexFile).text
    | _ => path
  match ← place? path with
  | some (place, true) => return ⟨⟨place⟩, .error .isDirectory⟩
  | some (place, false) => return ⟨⟨place⟩, ← readText place⟩
  | none => return ⟨⟨path⟩, ← readText path⟩

/-- Shows what has been written since `shown` bytes were. -/
def present (output : ByteArray) (shown : Nat) : IO Unit := do
  let stdout ← IO.getStdout
  stdout.write (output.extract shown output.size)
  stdout.flush

/-- Runs a script, fetching files and lines as it needs them. -/
partial def serve (host : Host) (script : String) (seen : Sightings) (input : List UInt8)
    (inputOpen : Bool) (shown : Nat) : IO UInt32 := do
  let (outcome, m) := Command.runScript ⟨host, seen.library⟩ { input, inputOpen } script
  let output := m.console.output
  match outcome with
  | .failed ⟨_, .io (.unseen path)⟩ =>
    serve host script (seen.insert path (← look path)) input inputOpen shown
  | .failed ⟨_, .io .starved⟩ =>
    present output shown
    let more ← (← IO.getStdin).read 4096
    serve host script seen (input ++ more.toList) (!more.isEmpty) output.size
  | _ =>
    present (output ++ (Command.report outcome).toUTF8) shown
    return UInt32.ofNat (Command.status outcome)

end TagLang.Terminal

/-- Runs the script that is the only argument. -/
def main (args : List String) : IO UInt32 := do
  match args with
  | [script] => TagLang.Terminal.serve (.standard (← TagLang.Terminal.now)) script .empty [] true 0
  | _ =>
    IO.eprint TagLang.Command.usage
    return UInt32.ofNat TagLang.Command.usageStatus
