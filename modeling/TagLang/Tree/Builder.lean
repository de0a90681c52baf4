import TagLang.Failure
import TagLang.Token.Scan
import TagLang.Tree.Forest

/-!
# Growing a tree from tokens

A tree grows token by token without looking ahead.  The builder remembers the node under which the
next one goes, the cursor, and the blocks that are open.  Every token hangs a node under the cursor,
moves the cursor, or does both; a `}` or `]` that closes nothing is refused.

Nodes stay in the forest when a source is refused.
-/

namespace TagLang

/-- A tree under construction. -/
structure Builder where
  forest : Forest
  root : NodeId
  /-- The node under which the next one goes. -/
  cursor : NodeId
  /-- The open blocks, innermost first. -/
  scopes : List NodeId
  deriving Inhabited

namespace Builder

/-- A new tree in a forest. -/
def start (f : Forest) : Builder :=
  ⟨f.addRoot 1, f.size, f.size, []⟩

/-- The innermost open block, or the root. -/
def boundary (b : Builder) : NodeId :=
  b.scopes.head?.getD b.root

/-- A new node under the cursor. -/
def attach (b : Builder) (kind : NodeKind) (line : Nat) : Builder :=
  { b with forest := b.forest.attach b.cursor kind line }

/-- A new node under the cursor, which becomes the cursor. -/
def descend (b : Builder) (kind : NodeKind) (line : Nat) : Builder :=
  let id := b.forest.size
  { b with forest := b.forest.attach b.cursor kind line, cursor := id }

/-- A separator ends a statement; inside parentheses it ends only the group. -/
def separate (b : Builder) : Builder :=
  if (b.forest.kind b.cursor).isGroup then { b with cursor := b.forest.parent b.cursor }
  else { b with cursor := b.boundary }

/-- A `)` leaves the inline keywords around the cursor and then the group they are in; the argument
list of a call ends the call too.  Where no group is open it does nothing. -/
def closeGroup (b : Builder) : Builder :=
  let solid (id : NodeId) : Bool := !(b.forest.kind id).isInline || id == b.root
  match b.forest.nearest? solid b.cursor with
  | none => b
  | some id =>
    if (b.forest.kind id).isGroup then
      let parent := b.forest.parent id
      if (b.forest.kind parent).isKeyword .call then { b with cursor := b.forest.parent parent }
      else { b with cursor := parent }
    else b

/-- The brackets that a `]` closes: the innermost ones around the cursor, if they were opened in the
innermost block. -/
def closable? (b : Builder) : Option NodeId :=
  let isEnd (id : NodeId) : Bool := (b.forest.kind id).isBrackets || id == b.boundary
  (b.forest.nearest? isEnd b.cursor).filter fun id => (b.forest.kind id).isBrackets

/-- A `]` leaves the innermost brackets of the innermost block. -/
def closeIndex (b : Builder) : Builder :=
  match b.closable? with
  | some id => { b with cursor := b.forest.parent id }
  | none => b

/-- A `{` opens a block. -/
def openBlock (b : Builder) (line : Nat) : Builder :=
  let b := b.descend .block line
  { b with scopes := b.cursor :: b.scopes }

/-- A `}` leaves the innermost block. -/
def closeBlock (b : Builder) : Builder :=
  let b := { b with scopes := b.scopes.tail }
  { b with cursor := b.boundary }

/-- The tree after a mark. -/
def mark (b : Builder) (line : Nat) : Mark → Builder
  | .separator => b.separate
  | .openGroup => b.descend .group line
  | .closeGroup => b.closeGroup
  | .openBlock => b.openBlock line
  | .closeBlock => b.closeBlock
  | .openIndex => b.descend .brackets line
  | .closeIndex => b.closeIndex
  | .comma => b.attach .comma line
  | .colon => b.attach .colon line

/-- A name starts a declaration where a statement may start, and is a reference elsewhere. -/
def name (b : Builder) (lexeme : String) (line : Nat) : Builder :=
  if b.cursor = b.boundary then b.descend (.declaration lexeme) line
  else b.attach (.reference lexeme) line

/-- The tree after a token that is not refused. -/
def consume (b : Builder) (token : Token) : Builder :=
  let line := token.position.line
  match token.kind with
  | .name => b.name token.lexeme line
  | .keyword k => b.descend (.keyword k) line
  | .operator op => b.attach (.operator op) line
  | .mark m => b.mark line m
  | .str s => b.attach (.literal (.str s)) line
  | .int n => b.attach (.literal (.int n)) line
  | .float x => b.attach (.literal (.float x)) line
  | .bool v => b.attach (.literal (.bool v)) line
  | .endOfText => b

/-- Why a token is refused: it closes a block or brackets, and there is nothing to close. -/
def refusal? (b : Builder) (token : Token) : Option Cause :=
  match token.kind with
  | .mark .closeBlock => if b.scopes.isEmpty then some .unbalancedBlock else none
  | .mark .closeIndex => if b.closable?.isNone then some .unbalancedIndex else none
  | _ => none

/-- The tree after all tokens, or before the first one that is refused. -/
def consumeAll (b : Builder) : List Token → Builder × Option Failure
  | [] => (b, none)
  | token :: rest =>
    match b.refusal? token with
    | some cause => (b, some ⟨token.position.line, cause⟩)
    | none => (b.consume token).consumeAll rest

/-- What is wrong with a tree after the last token: a number that stopped the stream, or a block
that is still open at the end, on the line `last`. -/
def unfinished? (b : Builder) (stop : Option Malformed) (last : Nat) : Option Failure :=
  match stop, b.scopes with
  | some m, _ => some ⟨m.line, .malformedNumber m.lexeme⟩
  | none, opened :: _ => some ⟨last, .unclosedBlock (b.forest.line opened)⟩
  | none, [] => none

end Builder

namespace Forest

/-- The forest with the tree of a source, and the root of the tree unless the source is refused. -/
def parse (f : Forest) (source : String) : Forest × Except Failure NodeId :=
  let scan := Scan.ofText source
  let (b, refused) := (Builder.start f).consumeAll scan.tokens
  let last := (scan.tokens.getLast?.map (·.position.line)).getD 1
  match refused.or (b.unfinished? scan.stop last) with
  | some failure => (b.forest, .error failure)
  | none => (b.forest, .ok b.root)

end Forest

end TagLang
