import TagLang.Text.Runs

/-!
# Paths

A path keeps the text it was made from, which is what messages show, and is compared by its
components: empty parts and parts that are `.` do not count, except a `.` at the very front, while
`..` does.
-/

namespace TagLang

/-- A path as it was written. -/
structure Path where
  text : String
  deriving DecidableEq, Repr, Inhabited

namespace Path

/-- The empty path. -/
def empty : Path := ⟨""⟩

/-- The path starts at the root. -/
def isAbsolute (p : Path) : Bool :=
  p.text.toList.head? == some '/'

/-- The path holds the null character. -/
def hasNull (p : Path) : Bool :=
  p.text.toList.any (· == '\x00')

/-- The parts between slashes, empty ones included. -/
def parts (p : Path) : List String :=
  (runs (· == '/') p.text.toList).map String.ofList

/-- The part names nothing. -/
def isFiller (part : String) : Bool :=
  part == "" || part == "."

/-- The components by which paths are compared; the root is `/`. -/
def components (p : Path) : List String :=
  let solid := p.parts.filter fun part => !isFiller part
  if p.isAbsolute then "/" :: solid
  else if p.parts.head? == some "." then "." :: solid
  else solid

/-- The paths have the same components. -/
def same (p q : Path) : Bool :=
  p.components == q.components

/-- A target seen from a base: an absolute target stands for itself, any other follows the base. -/
def join (base : Path) (target : String) : Path :=
  if (Path.mk target).isAbsolute || base.text.isEmpty then ⟨target⟩
  else if base.text.toList.getLast? == some '/' then ⟨base.text ++ target⟩
  else ⟨base.text ++ "/" ++ target⟩

/-- The parts without the fillers at the end. -/
def trimFillers (parts : List String) : List String :=
  (parts.reverse.dropWhile isFiller).reverse

/-- The path without its last component; the root and the empty path have no parent. -/
def parent? (p : Path) : Option Path :=
  let (anchor, body) := match p.parts with
    | first :: rest => if p.isAbsolute || first == "." then (some first, rest) else (none, p.parts)
    | [] => (none, [])
  match trimFillers body, anchor with
  | [], some _ => if p.isAbsolute then none else some empty
  | [], none => none
  | kept, anchor =>
    let kept := trimFillers kept.dropLast
    if p.isAbsolute && kept.isEmpty then some ⟨"/"⟩
    else some ⟨String.intercalate "/" (anchor.toList ++ kept)⟩

end Path

end TagLang
