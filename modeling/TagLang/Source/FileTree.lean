import TagLang.Source.Library
import TagLang.Text.Utf8

/-!
# File trees

A tree of directories and files without links, as a library.  A directory stands for the file
`index.tag` in it, and a target that exists is known by its place in the tree, however it was
reached.

A name has at most `maxName` bytes, which is noticed only once it is looked for in a directory.  A
path that is looked up in one go has at most `maxPath` bytes; the place of a file is found part by
part, so for that the length of the path does not count.
-/

namespace TagLang

/-- Directories and files; a place is the list of names that leads to it from the top. -/
structure FileTree where
  files : Table (List String) (List UInt8)
  /-- Directories apart from those that files stand in. -/
  directories : List (List String)

namespace FileTree

/-- The file that a directory stands for. -/
def indexFile : String := "index.tag"

/-- The most bytes that a name has. -/
def maxName : Nat := 255

/-- The most bytes that a path has where it is looked up in one go. -/
def maxPath : Nat := 4095

/-- A file stands at the place. -/
def isFile (t : FileTree) (place : List String) : Bool :=
  t.files.contains place

/-- A directory stands at the place: the top, and every place on the way to another one. -/
def isDirectory (t : FileTree) (place : List String) : Bool :=
  place.isEmpty || t.directories.any place.isPrefixOf ||
    t.files.keys.any fun file => file != place && place.isPrefixOf file

/-- The place reached from another one by the parts of a path, each of which must exist. -/
def walk (t : FileTree) (place : List String) : List String → Except IoError (List String)
  | [] => .ok place
  | part :: rest =>
    if t.isFile place then .error .notDirectory
    else if Path.isFiller part then walk t place rest
    else if part = ".." then walk t place.dropLast rest
    else if maxName < part.utf8ByteSize then .error .nameTooLong
    else if t.isFile (place ++ [part]) || t.isDirectory (place ++ [part]) then
      walk t (place ++ [part]) rest
    else .error .notFound

/-- The place that a path leads to, found part by part from the directory `here`. -/
def locate (t : FileTree) (here : List String) (path : Path) : Except IoError (List String) :=
  if path.hasNull then .error .nullInPath
  else if path.text.isEmpty then .error .notFound
  else t.walk (if path.isAbsolute then [] else here) path.parts

/-- The path is too long to be looked up in one go; a null character is noticed before. -/
def tooLong (path : Path) : Bool :=
  !path.hasNull && maxPath < path.text.utf8ByteSize

/-- The place that a path leads to, looked up in one go. -/
def lookUp (t : FileTree) (here : List String) (path : Path) : Except IoError (List String) :=
  if tooLong path then .error .nameTooLong else t.locate here path

/-- The absolute path of a place. -/
def absolute (place : List String) : Path :=
  ⟨"/" ++ String.intercalate "/" place⟩

/-- The path leads to a directory. -/
def leadsToDirectory (t : FileTree) (here : List String) (path : Path) : Bool :=
  match t.lookUp here path with
  | .ok place => t.isDirectory place
  | .error _ => false

/-- The path that a target means: a directory's index, by its place if it exists. -/
def resolve (t : FileTree) (here : List String) (base : Path) (target : String) : Path :=
  let path := base.join target
  let path := if t.leadsToDirectory here path then path.join indexFile else path
  match t.locate here path with
  | .ok place => absolute place
  | .error _ => path

/-- The text of the file that a path leads to. -/
def load (t : FileTree) (here : List String) (path : Path) : Except IoError String :=
  (t.lookUp here path).bind fun place =>
    match t.files.get? place with
    | none => .error .isDirectory
    | some bytes =>
      match Utf8.decode? bytes with
      | some text => .ok text
      | none => .error .invalidText

/-- The tree as a library, seen from the directory `here`. -/
def library (t : FileTree) (here : List String) : Library where
  resolve := t.resolve here
  load := t.load here

end FileTree

end TagLang
