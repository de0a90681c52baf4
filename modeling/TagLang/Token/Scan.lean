import TagLang.Token.Lexeme

/-!
# Scanning

`Scan.ofText` reads a text piece by piece.  Gaps are skipped, lexemes become tokens numbered from 0,
and the stream ends with one token that marks the end of the text, or with the first number that is
malformed.

What a `-` in front of a digit means depends on what stands before it: it subtracts after a token
that ends a value and right behind a word, and is a sign otherwise.
-/

namespace TagLang

/-- A number that denotes nothing: it has two points, or is an integer out of range. -/
structure Malformed where
  lexeme : String
  line : Nat
  deriving DecidableEq, Repr

/-- The wording of the complaint about a malformed number. -/
def Malformed.message (m : Malformed) : String :=
  s!"malformed number '{m.lexeme}'"

/-- The tokens of a text, and the malformed number that ended it early if there is one. -/
structure Scan where
  tokens : List Token
  stop : Option Malformed
  deriving Inhabited

namespace Scan

/-- What stands before the place that is being read. -/
structure Context where
  /-- The last token ends a value. -/
  afterValue : Bool
  /-- The last token is a word that ends right here. -/
  afterWord : Bool
  deriving DecidableEq, Repr

namespace Context

/-- Nothing stands before the first place. -/
def start : Context := ⟨false, false⟩

/-- A `-` in front of a digit is a sign. -/
def signed (context : Context) : Bool :=
  !context.afterValue && !context.afterWord

/-- The context behind a gap. -/
def afterGap (context : Context) : Context :=
  { context with afterWord := false }

/-- The context behind a token. -/
def afterToken (form : Lexeme.Form) (kind : TokenKind) : Context :=
  ⟨kind.endsValue, form == .word⟩

end Context

/-- The stream with a token put in front. -/
def cons (token : Token) (scan : Scan) : Scan :=
  { scan with tokens := token :: scan.tokens }

/-- The tokens of the text that starts at `position`, numbered from `index`. -/
def ofChars (position : Position) (index : Nat) (context : Context) : List Char → Scan
  | [] => ⟨[⟨.endOfText, "", position, index⟩], none⟩
  | c :: cs =>
    let (form, more) := Lexeme.munch context.signed c cs
    let next := position.after (c :: more)
    let rest := cs.drop more.length
    if form = .gap then
      ofChars next index context.afterGap rest
    else
      let lexeme := String.ofList (c :: more)
      match form.kind? (c :: more) with
      | some kind =>
        cons ⟨kind, lexeme, position, index⟩
          (ofChars next (index + 1) (.afterToken form kind) rest)
      | none => ⟨[], some ⟨lexeme, position.line⟩⟩
termination_by cs => cs.length
decreasing_by all_goals simp only [List.length_drop, List.length_cons]; omega

/-- The tokens of a text. -/
def ofText (text : String) : Scan :=
  ofChars .start 0 .start text.toList

end Scan

end TagLang
