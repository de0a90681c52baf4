import TagLang.Value.Fault

/-!
# Tokens

The units that a script is read in: words, numbers, quoted texts, operators and marks, each with the
characters it was written with and the place where it stands.
-/

namespace TagLang

/-- The reserved words that start a statement or an inline call. -/
inductive Keyword where
  | print
  | input
  | free
  | function
  | break_
  | return_
  | call
  | if_
  | else_
  | elif
  | repeat_
  | while_
  | insert
  | local_
  | convert (target : Conversion)
  | extern_
  deriving DecidableEq, Repr, Inhabited

namespace Keyword

/-- Every keyword once. -/
def all : List Keyword :=
  [print, input, free, function, break_, return_, call, if_, else_, elif, repeat_, while_, insert,
    local_, convert .str, convert .int, convert .float, convert .bool, extern_]

/-- The word that a keyword is written with. -/
def word : Keyword → String
  | print => "print"
  | input => "input"
  | free => "free"
  | function => "fun"
  | break_ => "break"
  | return_ => "return"
  | call => "call"
  | if_ => "if"
  | else_ => "else"
  | elif => "elif"
  | repeat_ => "repeat"
  | while_ => "while"
  | insert => "insert"
  | local_ => "local"
  | convert target => target.keyword
  | extern_ => "extern"

/-- The keyword written with a given word, if there is one. -/
def ofWord? (s : String) : Option Keyword :=
  all.find? fun k => k.word == s

end Keyword

/-- The punctuation marks. -/
inductive Mark where
  | separator
  | openGroup
  | closeGroup
  | openBlock
  | closeBlock
  | openIndex
  | closeIndex
  | comma
  | colon
  deriving DecidableEq, Repr, Inhabited

/-- The mark that a character stands for, if it is one. -/
def Mark.ofChar? : Char → Option Mark
  | ';' => some separator
  | '(' => some openGroup
  | ')' => some closeGroup
  | '{' => some openBlock
  | '}' => some closeBlock
  | '[' => some openIndex
  | ']' => some closeIndex
  | ',' => some comma
  | ':' => some colon
  | _ => none

/-- What a token is; literals carry their value. -/
inductive TokenKind where
  | name
  | keyword (k : Keyword)
  | operator (op : Operator)
  | mark (m : Mark)
  | str (s : String)
  | int (n : Int64)
  | float (x : Float)
  | bool (b : Bool)
  | endOfText
  deriving Inhabited

namespace TokenKind

/-- After these tokens a `-` subtracts; elsewhere it may be the sign of a number. -/
def endsValue : TokenKind → Bool
  | name | str _ | int _ | float _ | bool _ => true
  | mark .closeGroup | mark .closeIndex => true
  | _ => false

/-- The value of a literal token. -/
def literal? : TokenKind → Option Value
  | str s => some (.str s)
  | int n => some (.int n)
  | float x => some (.float x)
  | bool b => some (.bool b)
  | _ => none

end TokenKind

/-- A place in a text: lines count from 1, columns from 0 in characters. -/
structure Position where
  line : Nat
  column : Nat
  deriving DecidableEq, Repr, Inhabited

namespace Position

/-- The first place of a text. -/
def start : Position := ⟨1, 0⟩

/-- The place behind a character. -/
def step (p : Position) (c : Char) : Position :=
  if c = '\n' then ⟨p.line + 1, 0⟩ else ⟨p.line, p.column + 1⟩

/-- The place behind a run of characters. -/
def after (p : Position) (cs : List Char) : Position :=
  cs.foldl step p

end Position

/-- A token with its characters, its place and its number in the stream. -/
structure Token where
  kind : TokenKind
  lexeme : String
  position : Position
  index : Nat
  deriving Inhabited

end TagLang
