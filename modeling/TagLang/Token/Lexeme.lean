import TagLang.Number.Integer
import TagLang.Text.Blank
import TagLang.Token.Basic

/-!
# Lexemes

A text is a sequence of pieces: gaps (white space and comments) and lexemes.  `Lexeme.munch` tells
from the first character what kind of piece starts there and takes all further characters that
belong to it, so pieces are maximal: a word ends only where a word cannot go on.
-/

namespace TagLang.Lexeme

/-! ### Character classes -/

/-- The character opens and closes quoted text. -/
def isQuote (c : Char) : Bool :=
  c == '"' || c == '\''

/-- The character starts and ends a comment. -/
def isFence (c : Char) : Bool :=
  c == '#'

/-- The characters that operators are written with. -/
def operatorChars : List Char :=
  ['=', '+', '-', '*', '/', '%', '<', '>', '!', '&', '|']

/-- The character belongs to an operator. -/
def isOperatorChar (c : Char) : Bool :=
  operatorChars.contains c

/-- A name of one character, whatever stands beside it. -/
def isLoneName (c : Char) : Bool :=
  c == 'π'

/-- The character can continue a number. -/
def isNumberChar (c : Char) : Bool :=
  c.isDigit || c == '_' || c == '.'

/-- The character can stand in a word. -/
def isWordChar (c : Char) : Bool :=
  !(isFence c || isQuote c || Text.isBlank c || (Mark.ofChar? c).isSome || isLoneName c ||
    isOperatorChar c)

/-! ### Pieces -/

/-- What a piece of text is. -/
inductive Form where
  | gap
  | quoted (quote : Char)
  | mark (m : Mark)
  | loneName
  | number
  | operator
  | word
  deriving DecidableEq, Repr

/-- The characters up to and including the first `fence`, or all of them if there is none. -/
def through (fence : Char) : List Char → List Char
  | [] => []
  | c :: cs => if c = fence then [c] else c :: through fence cs

/-- A digit comes next. -/
def digitFollows : List Char → Bool
  | [] => false
  | c :: _ => c.isDigit

/-- The second character of an operator, if the pair is an operator. -/
def secondOfPair (c : Char) : List Char → List Char
  | [] => []
  | d :: _ => if (Operator.ofSymbol? (String.ofList [c, d])).isSome then [d] else []

/-- The form of the piece that starts with `c`, and the characters of `cs` that belong to it.

`signed` says that a `-` in front of a digit is a sign here. -/
def munch (signed : Bool) (c : Char) (cs : List Char) : Form × List Char :=
  if isFence c then (.gap, through c cs)
  else if isQuote c then (.quoted c, through c cs)
  else if Text.isBlank c then (.gap, [])
  else
    match Mark.ofChar? c with
    | some m => (.mark m, [])
    | none =>
      if isLoneName c then (.loneName, [])
      else if c.isDigit || (c == '-' && signed && digitFollows cs) then
        (.number, cs.takeWhile isNumberChar)
      else if isOperatorChar c then (.operator, secondOfPair c cs)
      else (.word, cs.takeWhile isWordChar)

/-! ### From lexemes to token kinds -/

/-- The text between the quotes; the closing one may be missing. -/
def unquote (quote : Char) (cs : List Char) : String :=
  String.ofList ((cs.drop 1).takeWhile (· != quote))

/-- The kind of a word: a truth value, a keyword or a name. -/
def wordKind (s : String) : TokenKind :=
  if s = "true" then .bool true
  else if s = "false" then .bool false
  else
    match Keyword.ofWord? s with
    | some k => .keyword k
    | none => .name

/-- The kind of a number, a double as soon as a point occurs; underscores do not count. -/
def numberKind? (cs : List Char) : Option TokenKind :=
  let digits := cs.filter (· != '_')
  if cs.contains '.' then
    (Notation.read? digits).map .float
  else
    ((Notation.integer? digits).bind Integer.ofInt?).map .int

/-- The kind of an operator lexeme; a lone `&` or `|` is a name. -/
def operatorKind (s : String) : TokenKind :=
  match Operator.ofSymbol? s with
  | some op => .operator op
  | none => .name

/-- The kind of the token written `cs`; none for a malformed number (and for a gap). -/
def Form.kind? (form : Form) (cs : List Char) : Option TokenKind :=
  match form with
  | gap => none
  | quoted quote => some (.str (unquote quote cs))
  | mark m => some (.mark m)
  | loneName => some .name
  | number => numberKind? cs
  | operator => some (operatorKind (String.ofList cs))
  | word => some (wordKind (String.ofList cs))

end TagLang.Lexeme
