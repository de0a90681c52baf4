import TagLang.Failure
import TagLang.Text.Blank
import TagLang.Text.Utf8

/-!
# The console

The input that a script has not read yet and the output that it has written.  Output may be limited
to a number of bytes: what does not fit is cut off, and the write fails.
-/

namespace TagLang

/-- Input to come and output so far. -/
structure Console where
  /-- The bytes that have not been read. -/
  input : List UInt8
  /-- More input may arrive behind these bytes. -/
  inputOpen : Bool := false
  /-- The bytes that have been written. -/
  output : ByteArray := .empty
  /-- The most bytes that may be written. -/
  capacity : Option Nat := none
  /-- Flushing the output fails. -/
  flushFails : Bool := false

namespace Console

/-- The newline as a byte. -/
def newline : UInt8 := 10

/-- The console with a text written, and whether all of it was taken. -/
def write (c : Console) (text : String) : Except IoError Unit × Console :=
  let bytes := text.toUTF8
  let room := match c.capacity with
    | some n => n - c.output.size
    | none => bytes.size
  if bytes.size ≤ room then (.ok (), { c with output := c.output ++ bytes })
  else (.error .sinkFull, { c with output := c.output ++ bytes.extract 0 room })

/-- Whether the output can be flushed. -/
def flush (c : Console) : Except IoError Unit :=
  if c.flushFails then .error .flushFailed else .ok ()

/-- The first line of some bytes with its end, and the rest. -/
def splitLine : List UInt8 → List UInt8 × List UInt8
  | [] => ([], [])
  | b :: bs =>
    if b = newline then ([b], bs)
    else
      let (line, rest) := splitLine bs
      (b :: line, rest)

/-- A text without the line ends behind it. -/
def chomp (s : String) : String :=
  String.ofList (Text.dropEnd (fun c => c == '\r' || c == '\n') s.toList)

/-- The next line without its end; at the end of the input it is empty.  The bytes of a line that is
not UTF-8 are gone as well. -/
def readLine (c : Console) : Except IoError String × Console :=
  let (line, rest) := splitLine c.input
  if c.inputOpen && !line.contains newline then (.error .starved, c)
  else
    match Utf8.decode? line with
    | some s => (.ok (chomp s), { c with input := rest })
    | none => (.error .invalidText, { c with input := rest })

end Console

end TagLang
