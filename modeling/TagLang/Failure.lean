import TagLang.Tree.Node

/-!
# Failures

Everything that can go wrong with a script, from reading it to running it.  A failure is a line and
a cause; the cause decides the category and the wording.
-/

namespace TagLang

/-- The deepest nesting of calls. -/
def maxCallDepth : Nat := 256

/-- The most files that may be under way at a time. -/
def maxInsertDepth : Nat := 64

/-- Reasons why a source cannot be read, a line not be taken in, or text not be put out. -/
inductive IoError where
  /-- The path is not among the sources. -/
  | noSuchFile
  /-- No entry of a directory has this name. -/
  | notFound
  /-- A file stands where a directory is needed. -/
  | notDirectory
  /-- A directory stands where a file is needed. -/
  | isDirectory
  /-- The path, or a name in it, is longer than a file system takes. -/
  | nameTooLong
  /-- The path holds the null character, which no file name can. -/
  | nullInPath
  /-- The bytes are not UTF-8. -/
  | invalidText
  /-- The output takes no more bytes. -/
  | sinkFull
  /-- The output cannot be flushed. -/
  | flushFailed
  /-- Any other complaint of the operating system. -/
  | system (complaint : String)
  /-- Nobody has looked at this path yet. -/
  | unseen (path : String)
  /-- The input goes on, but its next line has not arrived. -/
  | starved
  deriving DecidableEq, Repr

/-- The wording of an input or output error. -/
def IoError.message : IoError → String
  | noSuchFile => "no such file"
  | notFound => "No such file or directory (os error 2)"
  | notDirectory => "Not a directory (os error 20)"
  | isDirectory => "Is a directory (os error 21)"
  | nameTooLong => "File name too long (os error 36)"
  | nullInPath => "file name contained an unexpected NUL byte"
  | invalidText => "stream did not contain valid UTF-8"
  | sinkFull => "sink full"
  | flushFailed => "flush failed"
  | system complaint => complaint
  | unseen path => s!"'{path}' has not been read"
  | starved => "no line to read yet"

/-- The categories of failures. -/
inductive Category where
  | parser
  | spelling
  | name
  | arity
  | operator
  | recursion
  | io
  deriving DecidableEq, Repr

/-- The name of a category. -/
def Category.word : Category → String
  | parser => "parser"
  | spelling => "spelling"
  | name => "name"
  | arity => "arity"
  | operator => "operator"
  | recursion => "recursion"
  | io => "io"

/-- The causes of failures. -/
inductive Cause where
  -- reading
  | malformedNumber (lexeme : String)
  | unbalancedBlock
  | unbalancedIndex
  | unclosedBlock (opened : Nat)
  -- loading: expressions
  | strayStart (found : NodeKind)
  | colonOutsideRepeat
  | notSingleValue
  | badPair
  | emptyGroup
  | missingValue (after : String)
  | missingLeft (op : Operator)
  | strayOperator (op : Operator)
  | missingOperator (before : NodeKind)
  | notInExpression (found : NodeKind)
  | unfinishedExpression
  | badSubscript
  -- loading: statements
  | missingAssignment (name : String)
  | missingHeader (k : Keyword)
  | missingCondition (k : Keyword)
  | strayBranch (k : Keyword)
  | missingBlock (k : Keyword)
  | badRepeat
  | badFunction
  | badParameters
  | duplicateParameter (param name : String)
  | badCall
  | breakOperand
  | badFree (found : NodeKind)
  | emptyFree
  | badExtern
  -- running: structure
  | notExecutable (found : NodeKind)
  | noValue (found : NodeKind)
  | missingOperand (op : Operator)
  | emptyExpression
  -- running: names
  | alreadyDeclared (name : String)
  | undefined (name : String)
  | constant (name : String)
  | notFunction (name : String)
  | undefinedFunction (name : String)
  | unknownModule (name : String)
  -- running: values
  | conditionKind (kind : Kind)
  | repeatKind (kind : Kind)
  | notIterable (kind : Kind)
  | insertKind (kind : Kind)
  | fault (fault : Fault)
  | element (fault : Fault)
  | argumentCount (name : String) (expected got : Nat)
  | host (name message : String)
  | callDepth (name : String)
  -- running: sources, input and output
  | alreadyInserting (path : String)
  | insertDepth
  | io (error : IoError)
  deriving Inhabited

namespace Cause

/-- The category of a cause. -/
def category : Cause → Category
  | malformedNumber _ | unbalancedBlock | unbalancedIndex | unclosedBlock _ => .parser
  | alreadyInserting _ | insertDepth => .parser
  | strayStart _ | colonOutsideRepeat | notSingleValue | badPair | emptyGroup | missingValue _
  | missingLeft _ | strayOperator _ | missingOperator _ | notInExpression _ | unfinishedExpression
  | badSubscript | missingAssignment _ | missingHeader _ | missingCondition _ | strayBranch _
  | missingBlock _ | badRepeat | badFunction | badParameters | badCall | breakOperand | badFree _
  | emptyFree | badExtern | notExecutable _ | noValue _ => .spelling
  | duplicateParameter .. | alreadyDeclared _ | undefined _ | constant _ | notFunction _
  | undefinedFunction _ | unknownModule _ => .name
  | repeatKind _ | notIterable _ | element _ | argumentCount .. => .arity
  | conditionKind _ | insertKind _ | fault _ | host .. | missingOperand _ | emptyExpression =>
    .operator
  | callDepth _ => .recursion
  | io _ => .io

/-- The wording of a cause. -/
def message : Cause → String
  | malformedNumber lexeme => s!"malformed number '{lexeme}'"
  | unbalancedBlock => "unbalanced '\x7d'"
  | unbalancedIndex => "unbalanced ']'"
  | unclosedBlock opened => s!"block opened on line {opened} is never closed"
  | strayStart found => s!"unexpected {found.description} at the start of a statement"
  | colonOutsideRepeat => "':' is only allowed in a repeat header"
  | notSingleValue => "expected a single value in parentheses"
  | badPair => "expected 'name : collection'"
  | emptyGroup => "expected a value around ','"
  | missingValue after => s!"expected a value after '{after}'"
  | missingLeft op => s!"expected a value before '{op.symbol}'"
  | strayOperator op => s!"unexpected '{op.symbol}'"
  | missingOperator before => s!"expected an operator before {before.description}"
  | notInExpression found => s!"unexpected {found.description} in an expression"
  | unfinishedExpression => "expected a value at the end of the expression"
  | badSubscript => "a subscript takes exactly one index"
  | missingAssignment name => s!"expected an assignment after '{name}'"
  | missingHeader k => s!"'{k.word}' expects a header in parentheses followed by a block"
  | missingCondition k => s!"'{k.word}' expects a condition"
  | strayBranch k => s!"'{k.word}' must follow 'if' or 'elif'"
  | missingBlock k => s!"'{k.word}' expects a block"
  | badRepeat => "'repeat' expects a count or 'name : collection'"
  | badFunction => "'fun' expects a name, a parameter list and a block"
  | badParameters => "parameters must be names"
  | duplicateParameter param name => s!"duplicate parameter '{param}' in function '{name}'"
  | badCall => "'call' expects a function name and an argument list"
  | breakOperand => "'break' takes no operand"
  | badFree found => s!"'free' expects names, found {found.description}"
  | emptyFree => "'free' expects at least one name"
  | badExtern => "'extern' expects a module name and an optional alias"
  | notExecutable found => s!"{found.description} cannot be executed"
  | noValue found => s!"{found.description} has no value"
  | missingOperand op => s!"'{op.symbol}' is missing an operand"
  | emptyExpression => "empty expression"
  | alreadyDeclared name => s!"'{name}' is already declared"
  | undefined name => s!"'{name}' is not defined"
  | constant name => s!"cannot assign to constant '{name}'"
  | notFunction name => s!"'{name}' is not a function"
  | undefinedFunction name => s!"function '{name}' is not defined"
  | unknownModule name => s!"unknown module '{name}'"
  | conditionKind kind => s!"condition must be a bool, got {kind.name}"
  | repeatKind kind => s!"repeat count must be an int, got {kind.name}"
  | notIterable kind => s!"cannot iterate over {kind.name}"
  | insertKind kind => s!"'insert' expects a string path, got {kind.name}"
  | fault f | element f => f.message
  | argumentCount name expected got =>
    s!"function '{name}' expects {expected} argument(s), got {got}"
  | host name message => s!"{name}: {message}"
  | callDepth name => s!"call to '{name}' exceeds the maximum depth of {maxCallDepth}"
  | alreadyInserting path => s!"'{path}' is already being inserted"
  | insertDepth => s!"inserts nested deeper than {maxInsertDepth}"
  | io error => error.message

end Cause

/-- A failure: its cause and the line that it is reported on. -/
structure Failure where
  line : Nat
  cause : Cause
  deriving Inhabited

/-- The full wording of a failure. -/
def Failure.message (f : Failure) : String :=
  s!"[line {f.line}] {f.cause.category.word} error: {f.cause.message}"

end TagLang
