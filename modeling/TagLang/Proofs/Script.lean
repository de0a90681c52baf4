import TagLang.Proofs.Expression
import TagLang.Token.Lexeme
import TagLang.Tree.Node

/-!
# Scripts

The statements of the language as syntax trees, with all that can stand in them: what is written for
one (`Script.text`), and which nodes stand for it (`Script.tree`).  Every construct says side by
side how it is written and what is read from it, as a `Passage`: words, and the trees of their
nodes.

An expression is a row of operands with binary operators between them.  How the operators group is
no matter here; the nodes of an expression stand in a row as well.
-/

namespace TagLang.Script

/-! ### Names and literals -/

/-- The words that are no names. -/
def reserved : List String :=
  "true" :: "false" :: Keyword.all.map Keyword.word

/-- The text is a name: a word that is not reserved and does not start with a digit, or one of the
characters that are names by themselves. -/
def isName (s : String) : Bool :=
  ["π", "&", "|"].contains s ||
    (!s.toList.isEmpty && s.toList.all Lexeme.isWordChar && !Lexeme.digitFollows s.toList &&
      !reserved.contains s)

/-- A name as it stands in a script. -/
abbrev Name := { s : String // isName s = true }

/-- A number with a point, and at least one digit before it. -/
structure Decimal where
  negative : Bool
  whole : List Char
  fraction : List Char
  whole_ne_nil : whole ≠ []
  isDigit : ∀ c ∈ whole ++ fraction, c.isDigit = true

/-- The double nearest to the number. -/
def Decimal.value (d : Decimal) : Float :=
  Binary.ofDecimal d.negative (Notation.ofDigits (d.whole ++ d.fraction)) (-d.fraction.length)

/-- The characters of the number. -/
def Decimal.text (d : Decimal) : String :=
  String.ofList (Notation.signed d.negative (d.whole ++ '.' :: d.fraction))

/-- A literal.  A text is written between two quotes of one kind, and holds none of that kind. -/
inductive Literal where
  | int (n : Int64)
  | float (d : Decimal)
  | bool (b : Bool)
  | str (quote : { c : Char // Lexeme.isQuote c = true })
    (s : { s : String // quote.val ∉ s.toList })

/-- The value of a literal. -/
def Literal.value : Literal → Value
  | int n => .int n
  | float d => .float d.value
  | bool b => .bool b
  | str _ s => .str s

/-- The characters of a literal. -/
def Literal.text : Literal → String
  | int n => toString n.toInt
  | float d => d.text
  | bool b => if b then "true" else "false"
  | str quote s => String.singleton quote ++ s ++ String.singleton quote

/-! ### Syntax -/

mutual

/-- What gives an operand its value: a literal, a name, an expression in parentheses or `()`, an
array, a call, or an `input` or a conversion in parentheses. -/
inductive Primary where
  | literal (l : Literal)
  | name (n : Name)
  | unit
  | group (inner : Sequence)
  | array (items : List Sequence)
  | call (function : Name) (arguments : List Sequence)
  | input (prompt : Option Sequence)
  | convert (target : Conversion) (value : Sequence)

/-- Prefix operators, what they apply to, and subscripts. -/
inductive Operand where
  | mk (prefixes : List { op : Operator // op.isPrefix = true }) (primary : Primary)
      (subscripts : List Sequence)

/-- Operands with binary operators between them. -/
inductive Sequence where
  | operand (o : Operand)
  | binary (o : Operand) (op : { op : Operator // op.isBinary = true }) (rest : Sequence)

end

mutual

/-- A statement. -/
inductive Statement where
  | assign (name : Name) (subscripts : List Sequence)
      (op : { op : Operator // op.isAssignment = true }) (value : Sequence)
  | print (value : Option Sequence)
  | return_ (value : Option Sequence)
  | break_
  | call (function : Name) (arguments : List Sequence)
  | block (body : List Statement)
  | if_ (condition : Sequence) (body : List Statement) (further : Branches)
  | repeat_ (count : Sequence) (body : List Statement)
  | foreach (item : Name) (collection : Sequence) (body : List Statement)
  | while_ (condition : Sequence) (body : List Statement)
  | function (name : Name) (params : List Name) (body : List Statement)
  /-- The names after the first one stand behind a comma or not. -/
  | free (first : Name) (more : List (Bool × Name))
  | freeAll
  | insert (target : Sequence)
  | local_ (body : List Statement)
  | extern_ (source : Name) (nickname : Option Name)

/-- The further branches of an `if`: any number of `elif`, and an `else` or none. -/
inductive Branches where
  | done
  | elif (condition : Sequence) (body : List Statement) (further : Branches)
  | else_ (body : List Statement)

end

/-! ### Words and trees -/

/-- A token as it is written. -/
inductive Word where
  | literal (l : Literal)
  | name (n : Name)
  | keyword (k : Keyword)
  | operator (op : Operator)
  | mark (m : Mark)

/-- The characters of a token. -/
def Word.text : Word → String
  | literal l => l.text
  | name n => n
  | keyword k => k.word
  | operator op => op.symbol
  | mark m => String.singleton m.char

/-- A tree of nodes. -/
inductive Tree where
  | node (kind : NodeKind) (children : List Tree)

/-- The kind of the root. -/
def Tree.kind : Tree → NodeKind
  | node kind _ => kind

mutual

/-- The kinds of the nodes, each before those below it and with its depth; the root has the given
one. -/
def Tree.outline (depth : Nat) : Tree → List (Nat × NodeKind)
  | node kind children => (depth, kind) :: Tree.outlines (depth + 1) children

/-- The outlines of trees one after the other. -/
def Tree.outlines (depth : Nat) : List Tree → List (Nat × NodeKind)
  | [] => []
  | t :: rest => t.outline depth ++ Tree.outlines depth rest

end

/-- A part of a script: the words that it is written with, and the trees that stand for it. -/
structure Passage where
  words : List Word
  trees : List Tree

namespace Passage

/-- Nothing. -/
def empty : Passage := ⟨[], []⟩

instance : Append Passage where
  append p q := ⟨p.words ++ q.words, p.trees ++ q.trees⟩

/-- A word that is a node by itself. -/
def bare (w : Word) (kind : NodeKind) : Passage :=
  ⟨[w], [.node kind []]⟩

def literal (l : Literal) : Passage := bare (.literal l) (.literal l.value)

def reference (n : Name) : Passage := bare (.name n) (.reference n)

def operator (op : Operator) : Passage := bare (.operator op) (.operator op)

def comma : Passage := bare (.mark .comma) .comma

def colon : Passage := bare (.mark .colon) .colon

/-- A passage between two marks, which are a node around it. -/
def enclosed (first last : Mark) (kind : NodeKind) (p : Passage) : Passage :=
  ⟨.mark first :: (p.words ++ [.mark last]), [.node kind p.trees]⟩

def group (p : Passage) : Passage := enclosed .openGroup .closeGroup .group p

def brackets (p : Passage) : Passage := enclosed .openIndex .closeIndex .brackets p

def block (p : Passage) : Passage := enclosed .openBlock .closeBlock .block p

/-- A word that is a node above the passage behind it. -/
def headed (w : Word) (kind : NodeKind) (p : Passage) : Passage :=
  ⟨w :: p.words, [.node kind p.trees]⟩

def keyword (k : Keyword) (p : Passage) : Passage := headed (.keyword k) (.keyword k) p

/-- A passage with a semicolon behind it. -/
def ended (p : Passage) : Passage :=
  ⟨p.words ++ [.mark .separator], p.trees⟩

/-- Passages with commas between them. -/
def row : List Passage → Passage
  | [] => empty
  | [p] => p
  | p :: q :: rest => p ++ (comma ++ row (q :: rest))

/-- A passage with operators in front of it. -/
def prefixed (ops : List Operator) (p : Passage) : Passage :=
  ops.foldr (fun op p => operator op ++ p) p

/-- A passage with subscripts behind it. -/
def subscripted (p : Passage) (subscripts : List Passage) : Passage :=
  subscripts.foldl (fun p s => p ++ brackets s) p

def call (f : Name) (arguments : List Passage) : Passage :=
  keyword .call (reference f ++ group (row arguments))

end Passage

/-! ### Writing scripts -/

mutual

def Primary.passage : Primary → Passage
  | .literal l => .literal l
  | .name n => .reference n
  | .unit => .group .empty
  | .group inner => .group inner.passage
  | .array items => .brackets (.row (Sequence.passages items))
  | .call f arguments => .call f (Sequence.passages arguments)
  | .input none => .group (.keyword .input .empty)
  | .input (some prompt) => .group (.keyword .input prompt.passage)
  | .convert target value => .group (.keyword (.convert target) value.passage)

def Operand.passage : Operand → Passage
  | .mk prefixes primary subscripts =>
    .prefixed (prefixes.map (·.val)) (primary.passage.subscripted (Sequence.passages subscripts))

def Sequence.passage : Sequence → Passage
  | .operand o => o.passage
  | .binary o op rest => o.passage ++ (.operator op ++ rest.passage)

def Sequence.passages : List Sequence → List Passage
  | [] => []
  | s :: rest => s.passage :: Sequence.passages rest

end

/-- Properties that the parts of an expression hand on to the whole: the one belongs to operands,
the other to expressions. -/
structure Passage.Composes (P Q : Passage → Prop) : Prop where
  literal : ∀ l, P (.literal l)
  name : ∀ n, P (.reference n)
  unit : P (.group .empty)
  group : ∀ p, Q p → P (.group p)
  array : ∀ ps, (∀ p ∈ ps, Q p) → P (.brackets (.row ps))
  call : ∀ f ps, (∀ p ∈ ps, Q p) → P (.call f ps)
  ask : P (.group (.keyword .input .empty))
  input : ∀ p, Q p → P (.group (.keyword .input p))
  convert : ∀ target p, Q p → P (.group (.keyword (.convert target) p))
  unary : ∀ (op : Operator) p, op.isPrefix = true → P p → P (.operator op ++ p)
  index : ∀ p s, P p → Q s → P (p ++ .brackets s)
  operand : ∀ p, P p → Q p
  binary : ∀ (op : Operator) p q, op.isBinary = true → P p → Q q → Q (p ++ (.operator op ++ q))

section Composes

variable {P Q : Passage → Prop}

theorem Passage.Composes.subscripted (h : Composes P Q) {p : Passage} (hp : P p)
    {ss : List Passage} (hss : ∀ s ∈ ss, Q s) : P (p.subscripted ss) := by
  induction ss generalizing p with
  | nil => exact hp
  | cons s ss ih =>
    exact ih (h.index p s hp (hss s (List.mem_cons_self ..))) fun t ht =>
      hss t (List.mem_cons_of_mem _ ht)

theorem Passage.Composes.prefixed (h : Composes P Q) {p : Passage} (hp : P p)
    (ops : List { op : Operator // op.isPrefix = true }) : P (.prefixed (ops.map (·.val)) p) := by
  induction ops with
  | nil => exact hp
  | cons op ops ih => exact h.unary op _ op.property ih

mutual

theorem Primary.of_composes (h : Passage.Composes P Q) : (p : Primary) → P p.passage
  | .literal l => h.literal l
  | .name n => h.name n
  | .unit => h.unit
  | .group inner => h.group _ (Sequence.of_composes h inner)
  | .array items => h.array _ (Sequence.of_composes_of_mem h items)
  | .call f arguments => h.call f _ (Sequence.of_composes_of_mem h arguments)
  | .input none => h.ask
  | .input (some prompt) => h.input _ (Sequence.of_composes h prompt)
  | .convert target value => h.convert target _ (Sequence.of_composes h value)

theorem Operand.of_composes (h : Passage.Composes P Q) : (o : Operand) → P o.passage
  | .mk prefixes primary subscripts =>
    h.prefixed
      (h.subscripted (Primary.of_composes h primary) (Sequence.of_composes_of_mem h subscripts))
      prefixes

/-- What composes holds of every expression. -/
theorem Sequence.of_composes (h : Passage.Composes P Q) : (s : Sequence) → Q s.passage
  | .operand o => h.operand _ (Operand.of_composes h o)
  | .binary o op rest =>
    h.binary op _ _ op.property (Operand.of_composes h o) (Sequence.of_composes h rest)

theorem Sequence.of_composes_of_mem (h : Passage.Composes P Q) : (ss : List Sequence) →
    ∀ p ∈ Sequence.passages ss, Q p
  | [] => nofun
  | s :: rest =>
    List.forall_mem_cons.mpr ⟨Sequence.of_composes h s, Sequence.of_composes_of_mem h rest⟩

end

end Composes

/-- An expression that may be left out. -/
def Sequence.optional : Option Sequence → Passage
  | none => .empty
  | some s => s.passage

/-- Names behind commas, or without them. -/
def Passage.names : List (Bool × Name) → Passage
  | [] => .empty
  | (true, n) :: rest => .comma ++ (.reference n ++ names rest)
  | (false, n) :: rest => .reference n ++ names rest

/-- The name that stands for all names where names are freed. -/
def allNames : Name := ⟨"all", by decide +kernel⟩

mutual

def Statement.passage : Statement → Passage
  | .assign n subscripts op value =>
    .ended (.headed (.name n) (.declaration n)
      (.subscripted .empty (Sequence.passages subscripts) ++ (.operator op ++ value.passage)))
  | .print value => .ended (.keyword .print (Sequence.optional value))
  | .return_ value => .ended (.keyword .return_ (Sequence.optional value))
  | .break_ => .ended (.keyword .break_ .empty)
  | .call f arguments => .ended (.call f (Sequence.passages arguments))
  | .block body => .block (Statement.passageAll body)
  | .if_ condition body further =>
    .keyword .if_ (.group condition.passage ++ .block (Statement.passageAll body)) ++
      further.passage
  | .repeat_ count body =>
    .keyword .repeat_ (.group count.passage ++ .block (Statement.passageAll body))
  | .foreach item collection body =>
    .keyword .repeat_ (.group (.reference item ++ (.colon ++ collection.passage)) ++
      .block (Statement.passageAll body))
  | .while_ condition body =>
    .keyword .while_ (.group condition.passage ++ .block (Statement.passageAll body))
  | .function n params body =>
    .keyword .function (.reference n ++ (.group (.row (params.map .reference)) ++
      .block (Statement.passageAll body)))
  | .free first more => .ended (.keyword .free (.reference first ++ .names more))
  | .freeAll => .ended (.keyword .free (.reference allNames ++ .names []))
  | .insert target => .ended (.keyword .insert target.passage)
  | .local_ body => .keyword .local_ (.block (Statement.passageAll body))
  | .extern_ source nickname =>
    .ended (.keyword .extern_ (.reference source ++ .names (nickname.toList.map (false, ·))))

def Branches.passage : Branches → Passage
  | .done => .empty
  | .elif condition body further =>
    .keyword .elif (.group condition.passage ++ .block (Statement.passageAll body)) ++
      further.passage
  | .else_ body => .keyword .else_ (.block (Statement.passageAll body))

/-- Statements one after the other. -/
def Statement.passageAll : List Statement → Passage
  | [] => .empty
  | s :: rest => s.passage ++ Statement.passageAll rest

end

/-- Properties that the parts of a script hand on to the whole: the first belongs to expressions,
the second to statements one after the other, and the third to the further branches of an `if`. -/
structure Statement.Composes (Q S B : Passage → Prop) : Prop where
  empty : S .empty
  append : ∀ p q, S p → S q → S (p ++ q)
  assign : ∀ n ss (op : Operator) q, op.isAssignment = true → (∀ s ∈ ss, Q s) → Q q →
    S (.ended (.headed (.name n) (.declaration n) (.subscripted .empty ss ++ (.operator op ++ q))))
  bare : ∀ k, k = .print ∨ k = .return_ ∨ k = .break_ → S (.ended (.keyword k .empty))
  value : ∀ k q, k = .print ∨ k = .return_ ∨ k = .insert → Q q → S (.ended (.keyword k q))
  call : ∀ f ps, (∀ p ∈ ps, Q p) → S (.ended (.call f ps))
  block : ∀ p, S p → S (.block p)
  if_ : ∀ q p r, Q q → S p → B r → S (.keyword .if_ (.group q ++ .block p) ++ r)
  loop : ∀ k q p, k = .repeat_ ∨ k = .while_ → Q q → S p → S (.keyword k (.group q ++ .block p))
  foreach : ∀ n q p, Q q → S p →
    S (.keyword .repeat_ (.group (.reference n ++ (.colon ++ q)) ++ .block p))
  function : ∀ n (params : List Name) p, S p →
    S (.keyword .function (.reference n ++ (.group (.row (params.map .reference)) ++ .block p)))
  free : ∀ n more, S (.ended (.keyword .free (.reference n ++ .names more)))
  local_ : ∀ p, S p → S (.keyword .local_ (.block p))
  extern_ : ∀ n (nickname : Option Name),
    S (.ended (.keyword .extern_ (.reference n ++ .names (nickname.toList.map (false, ·)))))
  done : B .empty
  elif : ∀ q p r, Q q → S p → B r → B (.keyword .elif (.group q ++ .block p) ++ r)
  else_ : ∀ p, S p → B (.keyword .else_ (.block p))

section

variable {P Q S B : Passage → Prop}

theorem Statement.Composes.optional (hq : Passage.Composes P Q) (h : Composes Q S B) {k : Keyword}
    (hk : k = .print ∨ k = .return_) (value : Option Sequence) :
    S (.ended (.keyword k (Sequence.optional value))) := by
  cases value with
  | none => exact h.bare k (hk.imp_right .inl)
  | some s => exact h.value k _ (hk.imp_right .inl) (s.of_composes hq)

mutual

theorem Statement.of_composes (hq : Passage.Composes P Q) (h : Statement.Composes Q S B) :
    (s : Statement) → S s.passage
  | .assign n subscripts op value =>
    h.assign n _ op _ op.property (Sequence.of_composes_of_mem hq subscripts) (value.of_composes hq)
  | .print value => h.optional hq (.inl rfl) value
  | .return_ value => h.optional hq (.inr rfl) value
  | .break_ => h.bare _ (.inr (.inr rfl))
  | .call f arguments => h.call f _ (Sequence.of_composes_of_mem hq arguments)
  | .block body => h.block _ (Statement.of_composes_all hq h body)
  | .if_ condition body further =>
    h.if_ _ _ _ (condition.of_composes hq) (Statement.of_composes_all hq h body)
      (Branches.of_composes hq h further)
  | .repeat_ count body =>
    h.loop _ _ _ (.inl rfl) (count.of_composes hq) (Statement.of_composes_all hq h body)
  | .foreach item collection body =>
    h.foreach item _ _ (collection.of_composes hq) (Statement.of_composes_all hq h body)
  | .while_ condition body =>
    h.loop _ _ _ (.inr rfl) (condition.of_composes hq) (Statement.of_composes_all hq h body)
  | .function n params body => h.function n params _ (Statement.of_composes_all hq h body)
  | .free first more => h.free first more
  | .freeAll => h.free allNames []
  | .insert target => h.value _ _ (.inr (.inr rfl)) (target.of_composes hq)
  | .local_ body => h.local_ _ (Statement.of_composes_all hq h body)
  | .extern_ source nickname => h.extern_ source nickname

theorem Branches.of_composes (hq : Passage.Composes P Q) (h : Statement.Composes Q S B) :
    (b : Branches) → B b.passage
  | .done => h.done
  | .elif condition body further =>
    h.elif _ _ _ (condition.of_composes hq) (Statement.of_composes_all hq h body)
      (Branches.of_composes hq h further)
  | .else_ body => h.else_ _ (Statement.of_composes_all hq h body)

/-- What composes holds of every script. -/
theorem Statement.of_composes_all (hq : Passage.Composes P Q) (h : Statement.Composes Q S B) :
    (script : List Statement) → S (Statement.passageAll script)
  | [] => h.empty
  | s :: rest =>
    h.append _ _ (Statement.of_composes hq h s) (Statement.of_composes_all hq h rest)

end

end

/-- A script in writing, with one space between any two words. -/
def text (script : List Statement) : String :=
  " ".intercalate ((Statement.passageAll script).words.map Word.text)

/-- The tree of a script: its statements stand under one block. -/
def tree (script : List Statement) : Tree :=
  .node .block (Statement.passageAll script).trees

/-! ### Functions of a script -/

mutual

/-- The functions that a statement declares, with their parameters.  Those declared in the body of a
function stand before it. -/
def Statement.functions : Statement → List (String × List String)
  | .block body | .repeat_ _ body | .foreach _ _ body | .while_ _ body | .local_ body =>
    Statement.functionsAll body
  | .if_ _ body further => Statement.functionsAll body ++ further.functions
  | .function n params body =>
    Statement.functionsAll body ++ [(n.val, params.map (·.val))]
  | _ => []

def Branches.functions : Branches → List (String × List String)
  | .done => []
  | .elif _ body further => Statement.functionsAll body ++ further.functions
  | .else_ body => Statement.functionsAll body

/-- The functions that statements declare. -/
def Statement.functionsAll : List Statement → List (String × List String)
  | [] => []
  | s :: rest => s.functions ++ Statement.functionsAll rest

end

end TagLang.Script
