import TagLang.Failure
import TagLang.Source.Path
import TagLang.Table

/-!
# Libraries

A library is where sources come from: it says which path a target means and gives the text at a
path.
-/

namespace TagLang

/-- Where sources come from. -/
structure Library where
  /-- The path that a target means, seen from a directory. -/
  resolve : Path → String → Path
  /-- The text at a path. -/
  load : Path → Except IoError String

namespace Library

/-- Sources kept in a table under their paths' components. -/
def ofTable (files : Table (List String) String) : Library where
  resolve := Path.join
  load path :=
    match files.get? path.components with
    | some text => .ok text
    | none => .error .noSuchFile

/-- The same source under every path. -/
def constant (text : String) : Library where
  resolve := Path.join
  load _ := .ok text

end Library

end TagLang
