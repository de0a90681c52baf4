import Mathlib.Data.List.Forall2
import Mathlib.Logic.ExistsUnique
import TagLang.Tree.Shaping

/-!
# The grammar of expressions

A row of nodes is read as an expression exactly if it is empty or has the form

    operand (operator operand)*        operand = (`-` | `!`)* value brackets*

(`Forest.sequence_eq_ok_iff`).  A row has this form in one way only (`Clause.eq_of_nodes_eq`), and
nothing of it is lost: what was read, put in a row again, is the row it was read from
(`Clause.parts_sequence`).  The expressions of a list are those of the runs between its commas
(`Forest.groups_eq_ok_iff`).

The same node means different things in different places: `-` is a prefix operator where an operand
is due and a binary operator behind one, and brackets are a list or a subscript.  What the two
readers do with the next node is said once for each of them (`Forest.operandNext_cons_eq_ok_iff`,
`Forest.operatorNext_cons_eq_ok_iff`).
-/

/-! ### General facts about results and lists -/

section General

variable {ε α β : Type}

theorem Except.bind_eq_ok_iff {x : Except ε α} {h : α → Except ε β} {b : β} :
    x.bind h = .ok b ↔ ∃ a, x = .ok a ∧ h a = .ok b := by
  cases x <;> simp [Except.bind]

theorem Except.map_eq_ok_iff {x : Except ε α} {h : α → β} {b : β} :
    x.map h = .ok b ↔ ∃ a, x = .ok a ∧ h a = b := by
  cases x <;> simp [Except.map]

theorem List.mapM_eq_ok_iff {h : α → Except ε β} {as : List α} {bs : List β} :
    as.mapM h = .ok bs ↔ List.Forall₂ (fun a b => h a = .ok b) as bs := by
  induction as generalizing bs with
  | nil =>
    rw [List.mapM_nil, List.forall₂_nil_left_iff]
    exact ⟨fun hb => (Except.ok.inj hb).symm, fun hb => by rw [hb]; rfl⟩
  | cons a as ih =>
    rw [List.mapM_cons, List.forall₂_cons_left_iff]
    show (h a).bind (fun b => (as.mapM h).bind fun bs => .ok (b :: bs)) = .ok bs ↔ _
    simp only [Except.bind_eq_ok_iff, ih, Except.ok.injEq, exists_and_left, @eq_comm _ bs]

/-- A list is cut in one way at the first element that does not satisfy `P`. -/
theorem List.append_inj_of_head {P : α → Prop} {as as' bs bs' : List α}
    (ha : ∀ a ∈ as, P a) (ha' : ∀ a ∈ as', P a) (hb : ∀ b ∈ bs.head?, ¬ P b)
    (hb' : ∀ b ∈ bs'.head?, ¬ P b) (h : as ++ bs = as' ++ bs') : as = as' ∧ bs = bs' := by
  induction as generalizing as' with
  | nil =>
    cases as' with
    | nil => exact ⟨rfl, h⟩
    | cons a as' =>
      rw [List.nil_append] at h
      exact absurd (ha' a (List.mem_cons_self ..)) (hb a (by simp [h]))
  | cons a as ih =>
    cases as' with
    | nil =>
      rw [List.nil_append] at h
      exact absurd (ha a (List.mem_cons_self ..)) (hb' a (by simp [← h]))
    | cons a' as' =>
      obtain ⟨rfl, htail⟩ := List.cons.inj h
      obtain ⟨rfl, hbs⟩ := ih (List.forall_mem_cons.mp ha).2 (List.forall_mem_cons.mp ha').2 htail
      exact ⟨rfl, hbs⟩

end General

namespace TagLang

/-! ### Forms -/

/-- An operand in a row of nodes: prefix operators, a value and the subscripts behind it. -/
structure Phrase where
  prefixes : List NodeId
  value : NodeId
  subscripts : List NodeId
  deriving DecidableEq, Repr

/-- The nodes in order. -/
def Phrase.nodes (p : Phrase) : List NodeId :=
  p.prefixes ++ p.value :: p.subscripts

/-- An expression in a row of nodes: an operand, and further ones with an operator before each. -/
structure Clause where
  first : Phrase
  rest : List (NodeId × Phrase)
  deriving DecidableEq, Repr

namespace Clause

/-- The nodes of operators and operands in order. -/
def row (rest : List (NodeId × Phrase)) : List NodeId :=
  rest.flatMap fun e => e.1 :: e.2.nodes

/-- The nodes in order. -/
def nodes (c : Clause) : List NodeId :=
  c.first.nodes ++ row c.rest

@[simp]
theorem row_nil : row [] = [] := rfl

@[simp]
theorem row_cons (e : NodeId × Phrase) (rest : List (NodeId × Phrase)) :
    row (e :: rest) = e.1 :: (e.2.nodes ++ row rest) := rfl

end Clause

namespace Forest

/-- The node is a `-` or a `!`. -/
def IsPrefix (f : Forest) (id : NodeId) : Prop :=
  f.kind id = .operator .sub ∨ f.kind id = .operator .not

/-- The node is an operator, but no assignment and no `!`. -/
def IsBinary (f : Forest) (id : NodeId) : Prop :=
  ∃ op, f.kind id = .operator op ∧ op.isAssignment = false ∧ op ≠ .not

/-- The node yields a value; if it is a group, it holds at most one expression. -/
def IsValue (f : Forest) (id : NodeId) : Prop :=
  (f.kind id).isValue = true ∧
    (f.kind id = .group → ∃ qs, f.shape id = .groups qs ∧ qs.length ≤ 1)

/-- The node is a pair of brackets that hold one index. -/
def IsIndex (f : Forest) (id : NodeId) : Prop :=
  f.kind id = .brackets ∧ ∃ index, f.shape id = .array [index]

/-- The operator that a node is; of interest for operators only. -/
def operatorAt (f : Forest) (id : NodeId) : Operator :=
  match f.kind id with
  | .operator op => op
  | _ => default

end Forest

/-- The nodes are of the sorts that an operand is made of. -/
structure Phrase.Fits (f : Forest) (p : Phrase) : Prop where
  prefixes : ∀ id ∈ p.prefixes, f.IsPrefix id
  value : f.IsValue p.value
  subscripts : ∀ id ∈ p.subscripts, f.IsIndex id

/-- The nodes are of the sorts that an expression is made of. -/
structure Clause.Fits (f : Forest) (c : Clause) : Prop where
  first : c.first.Fits f
  rest : ∀ e ∈ c.rest, f.IsBinary e.1 ∧ e.2.Fits f

/-- The operand that the nodes are read as. -/
def Phrase.operand (f : Forest) (p : Phrase) : Operand :=
  ⟨p.value, p.prefixes.map f.operatorAt, p.subscripts⟩

/-- The expression that the nodes are read as. -/
def Clause.sequence (f : Forest) (c : Clause) : Sequence :=
  ⟨c.first.operand f :: c.rest.map fun e => e.2.operand f,
    c.rest.map fun e => (f.operatorAt e.1, f.line e.1)⟩

/-! ### One node -/

namespace Forest

variable {f : Forest} {id : NodeId}

theorem operatorAt_eq {op : Operator} (h : f.kind id = .operator op) : f.operatorAt id = op := by
  rw [operatorAt, h]

theorem isPrefix_iff : f.IsPrefix id ↔ ∃ op, f.kind id = .operator op ∧ op.isPrefix = true := by
  constructor
  · rintro (h | h)
    · exact ⟨_, h, rfl⟩
    · exact ⟨_, h, rfl⟩
  · rintro ⟨op, h, hop⟩
    rw [Operator.isPrefix, Bool.or_eq_true, beq_iff_eq, beq_iff_eq] at hop
    rcases hop with rfl | rfl
    · exact .inl h
    · exact .inr h

theorem IsPrefix.exists_operator (h : f.IsPrefix id) : ∃ op, f.kind id = .operator op :=
  h.elim (⟨_, ·⟩) (⟨_, ·⟩)

/-- An operator yields no value. -/
theorem not_operator_of_isValue (h : (f.kind id).isValue = true) :
    ¬ ∃ op, f.kind id = .operator op := by
  rintro ⟨op, hk⟩
  rw [hk] at h
  cases h

theorem isBinary_iff : f.IsBinary id ↔ ∃ op, f.kind id = .operator op ∧ op.isBinary = true := by
  simp [IsBinary, Operator.isBinary]

theorem checkSingle_eq_ok_iff {u : Unit} :
    f.checkSingle id = .ok u ↔ ∃ qs, f.shape id = .groups qs ∧ qs.length ≤ 1 := by
  unfold checkSingle
  split
  next h => simp [h]
  next h => simp [h]
  next h => simp [h]
  next hnil hone _ =>
    simp only [reduceCtorEq, false_iff]
    rintro ⟨qs, hqs, hlength⟩
    cases qs with
    | nil => exact hnil hqs
    | cons q qs =>
      have hempty : qs = [] := by simpa using hlength
      exact hone q (hempty ▸ hqs)

theorem subscript_eq_ok_iff {index : Sequence} :
    f.subscript id = .ok index ↔ f.shape id = .array [index] := by
  unfold subscript
  split
  next h => simp [h]
  next h =>
    simp only [reduceCtorEq, false_iff]
    exact h index

variable {last : Nat} {ids : List NodeId} {q : Sequence}

/-- Where an operand is due, the next node is a prefix operator or the value. -/
theorem operandNext_cons_eq_ok_iff {ops : List Operator} :
    f.operandNext last ops (id :: ids) = .ok q ↔
      (f.IsPrefix id ∧ f.operandNext last (ops ++ [f.operatorAt id]) ids = .ok q) ∨
      (f.IsValue id ∧ f.operatorNext last ⟨id, ops, []⟩ ids = .ok q) := by
  rw [operandNext, isPrefix_iff]
  split
  next op hk =>
    have hvalue : ¬ f.IsValue id := fun hv => not_operator_of_isValue hv.1 ⟨op, hk⟩
    rw [operatorAt_eq hk]
    split
    next hop => simp [hk, hop, hvalue]
    next hop => simp [hk, hop, hvalue]
  next hk =>
    have hoperator : ¬ ∃ op, f.kind id = .operator op ∧ op.isPrefix = true := by
      rintro ⟨op, h, _⟩
      exact hk op h
    simp only [hoperator, false_and, false_or, IsValue, ← NodeKind.isGroup_iff]
    split
    next hv =>
      split
      next hg => simp [Except.bind_eq_ok_iff, hv, hg, checkSingle_eq_ok_iff]
      next hg => simp [hv, hg]
    next hv => simp [hv]

/-- Behind an operand, the next node is a binary operator or a subscript. -/
theorem operatorNext_cons_eq_ok_iff {o : Operand} :
    f.operatorNext last o (id :: ids) = .ok q ↔
      (f.IsBinary id ∧ ∃ s, f.operandNext last [] ids = .ok s ∧
        ⟨o :: s.operands, (f.operatorAt id, f.line id) :: s.operators⟩ = q) ∨
      (f.IsIndex id ∧
        f.operatorNext last { o with subscripts := o.subscripts ++ [id] } ids = .ok q) := by
  rw [operatorNext, isBinary_iff]
  split
  next op hk =>
    rw [operatorAt_eq hk]
    split
    next hop => simp [hk, hop, IsIndex, Except.map_eq_ok_iff]
    next hop => simp [hk, hop, IsIndex]
  next hk => simp [hk, IsIndex, Except.bind_eq_ok_iff, subscript_eq_ok_iff]
  next hoperator hbrackets =>
    have hnone : ¬ ∃ op, f.kind id = .operator op ∧ op.isBinary = true := by
      rintro ⟨op, h, _⟩
      exact hoperator op h
    have hindex : ¬ f.IsIndex id := fun h => hbrackets h.1
    simp only [hnone, hindex, false_and, or_false, iff_false]
    split <;> simp

/-! ### Rows that have the form are read -/

theorem operandNext_prefixes {prefixes : List NodeId} (hp : ∀ id ∈ prefixes, f.IsPrefix id)
    {ops : List Operator} (h : f.operandNext last (ops ++ prefixes.map f.operatorAt) ids = .ok q) :
    f.operandNext last ops (prefixes ++ ids) = .ok q := by
  induction prefixes generalizing ops with
  | nil => simpa using h
  | cons id prefixes ih =>
    obtain ⟨hid, hrest⟩ := List.forall_mem_cons.mp hp
    exact operandNext_cons_eq_ok_iff.mpr (.inl ⟨hid, ih hrest (by simpa using h)⟩)

theorem operatorNext_subscripts {subscripts : List NodeId} (hs : ∀ id ∈ subscripts, f.IsIndex id)
    {o : Operand}
    (h : f.operatorNext last { o with subscripts := o.subscripts ++ subscripts } ids = .ok q) :
    f.operatorNext last o (subscripts ++ ids) = .ok q := by
  induction subscripts generalizing o with
  | nil => simpa using h
  | cons id subscripts ih =>
    obtain ⟨hid, hrest⟩ := List.forall_mem_cons.mp hs
    exact operatorNext_cons_eq_ok_iff.mpr (.inr ⟨hid, ih hrest (by simpa using h)⟩)

theorem operandNext_phrase {p : Phrase} (hp : p.Fits f)
    (h : f.operatorNext last (p.operand f) ids = .ok q) :
    f.operandNext last [] (p.nodes ++ ids) = .ok q := by
  rw [Phrase.nodes, List.append_assoc]
  refine operandNext_prefixes hp.prefixes (operandNext_cons_eq_ok_iff.mpr (.inr ⟨hp.value, ?_⟩))
  exact operatorNext_subscripts hp.subscripts h

/-- A row that has the form of an expression is read as this expression. -/
theorem operandNext_clause (last : Nat) {c : Clause} (hc : c.Fits f) :
    f.operandNext last [] c.nodes = .ok (c.sequence f) := by
  obtain ⟨first, rest⟩ := c
  induction rest generalizing first with
  | nil => exact operandNext_phrase hc.first (by rw [Clause.row_nil, operatorNext]; rfl)
  | cons e rest ih =>
    obtain ⟨⟨hbinary, hphrase⟩, hrest⟩ := List.forall_mem_cons.mp hc.rest
    have hmore := ih e.2 ⟨hphrase, hrest⟩
    exact operandNext_phrase hc.first
      (operatorNext_cons_eq_ok_iff.mpr (.inl ⟨hbinary, _, hmore, rfl⟩))

/-! ### Rows that are read have the form -/

/-- Where a reader succeeds, the nodes before it have the form that it asks for. -/
theorem exists_form (last : Nat) (ids : List NodeId) :
    (∀ ops q, f.operandNext last ops ids = .ok q → ∃ c : Clause, c.Fits f ∧ c.nodes = ids) ∧
    ∀ o q, f.operatorNext last o ids = .ok q → ∃ subscripts rest,
      (∀ id ∈ subscripts, f.IsIndex id) ∧ (∀ e ∈ rest, f.IsBinary e.1 ∧ e.2.Fits f) ∧
        subscripts ++ Clause.row rest = ids := by
  -- The readers call each other, so the induction is on the nodes to come, for both at once.
  induction ids with
  | nil =>
    refine ⟨fun ops q h => ?_, fun o q h => ?_⟩
    · rw [operandNext] at h
      cases h
    · exact ⟨[], [], List.forall_mem_nil _, List.forall_mem_nil _, rfl⟩
  | cons id ids ih =>
    obtain ⟨ihOperand, ihOperator⟩ := ih
    constructor
    · intro ops q h
      rcases operandNext_cons_eq_ok_iff.mp h with ⟨hsign, h⟩ | ⟨hvalue, h⟩
      · obtain ⟨⟨first, rest⟩, hc, rfl⟩ := ihOperand _ _ h
        have hfirst : Phrase.Fits f { first with prefixes := id :: first.prefixes } :=
          ⟨List.forall_mem_cons.mpr ⟨hsign, hc.first.prefixes⟩, hc.first.value, hc.first.subscripts⟩
        exact ⟨⟨_, rest⟩, ⟨hfirst, hc.rest⟩, rfl⟩
      · obtain ⟨subscripts, rest, hs, hrest, rfl⟩ := ihOperator _ _ h
        exact ⟨⟨⟨[], id, subscripts⟩, rest⟩, ⟨⟨List.forall_mem_nil _, hvalue, hs⟩, hrest⟩, rfl⟩
    · intro o q h
      rcases operatorNext_cons_eq_ok_iff.mp h with ⟨hbinary, s, h, _⟩ | ⟨hindex, h⟩
      · obtain ⟨c, hc, rfl⟩ := ihOperand _ _ h
        exact ⟨[], (id, c.first) :: c.rest, List.forall_mem_nil _,
          List.forall_mem_cons.mpr ⟨⟨hbinary, hc.first⟩, hc.rest⟩, rfl⟩
      · obtain ⟨subscripts, rest, hs, hrest, rfl⟩ := ihOperator _ _ h
        exact ⟨id :: subscripts, rest, List.forall_mem_cons.mpr ⟨hindex, hs⟩, hrest, rfl⟩

/-- Nodes that are read as an expression are that expression. -/
theorem sequence_of_operandNext (h : ∀ last, f.operandNext last [] ids = .ok q) :
    f.sequence ids = .ok q := by
  cases ids with
  | nil =>
    have hnone := h 0
    rw [operandNext] at hnone
    cases hnone
  | cons id ids => exact h _

/-- A row is read as an expression exactly if it is empty or has the form of one. -/
theorem sequence_eq_ok_iff :
    f.sequence ids = .ok q ↔
      (ids = [] ∧ q = .empty) ∨ ∃ c : Clause, c.Fits f ∧ c.nodes = ids ∧ c.sequence f = q := by
  have hread : ∀ c : Clause, c.Fits f → f.sequence c.nodes = .ok (c.sequence f) :=
    fun c hc => sequence_of_operandNext fun last => operandNext_clause last hc
  constructor
  · intro h
    cases ids with
    | nil =>
      cases h
      exact .inl ⟨rfl, rfl⟩
    | cons id ids =>
      obtain ⟨c, hc, hnodes⟩ := (exists_form _ _).1 _ _ h
      have hsequence := hread c hc
      rw [hnodes, h] at hsequence
      exact .inr ⟨c, hc, hnodes, (Except.ok.inj hsequence).symm⟩
  · rintro (⟨rfl, rfl⟩ | ⟨c, hc, rfl, rfl⟩)
    · rfl
    · exact hread c hc

end Forest

/-! ### Only one form -/

variable {f : Forest}

/-- Prefix operators are operators and values are not; subscripts are brackets, and what follows
them is not. -/
theorem Phrase.append_inj {p p' : Phrase} (hp : p.Fits f) (hp' : p'.Fits f) {ids ids' : List NodeId}
    (hids : ∀ id ∈ ids.head?, f.kind id ≠ .brackets)
    (hids' : ∀ id ∈ ids'.head?, f.kind id ≠ .brackets)
    (h : p.nodes ++ ids = p'.nodes ++ ids') : p = p' ∧ ids = ids' := by
  obtain ⟨prefixes, value, subscripts⟩ := p
  obtain ⟨prefixes', value', subscripts'⟩ := p'
  have hvalue := Forest.not_operator_of_isValue hp.value.1
  have hvalue' := Forest.not_operator_of_isValue hp'.value.1
  simp only [nodes, List.append_assoc, List.cons_append] at h
  -- The row is cut before the first node that is no operator, and again behind the brackets.
  obtain ⟨hprefixes, hbehind⟩ := List.append_inj_of_head
    (fun id hid => (hp.prefixes id hid).exists_operator)
    (fun id hid => (hp'.prefixes id hid).exists_operator) (by simpa using hvalue)
    (by simpa using hvalue') h
  obtain ⟨hsame, hbehind⟩ := List.cons.inj hbehind
  obtain ⟨hsubscripts, hrest⟩ := List.append_inj_of_head (fun id hid => (hp.subscripts id hid).1)
    (fun id hid => (hp'.subscripts id hid).1) hids hids' hbehind
  subst hprefixes hsame hsubscripts
  exact ⟨rfl, hrest⟩

namespace Clause

/-- What follows an operand starts with an operator. -/
theorem kind_head_row {rest : List (NodeId × Phrase)}
    (h : ∀ e ∈ rest, f.IsBinary e.1 ∧ e.2.Fits f) :
    ∀ id ∈ (row rest).head?, f.kind id ≠ .brackets := by
  cases rest with
  | nil => simp
  | cons e rest =>
    obtain ⟨op, hk, _⟩ := (h e (List.mem_cons_self ..)).1
    simp [hk]

/-- A row has the form of an expression in one way only. -/
theorem eq_of_nodes_eq {c c' : Clause} (hc : c.Fits f) (hc' : c'.Fits f) (h : c.nodes = c'.nodes) :
    c = c' := by
  obtain ⟨first, rest⟩ := c
  obtain ⟨first', rest'⟩ := c'
  induction rest generalizing first first' rest' with
  | nil =>
    obtain ⟨rfl, hrow⟩ := Phrase.append_inj hc.first hc'.first (kind_head_row hc.rest)
      (kind_head_row hc'.rest) h
    cases rest' with
    | nil => rfl
    | cons e' rest' => cases hrow
  | cons e rest ih =>
    obtain ⟨rfl, hrow⟩ := Phrase.append_inj hc.first hc'.first (kind_head_row hc.rest)
      (kind_head_row hc'.rest) h
    cases rest' with
    | nil => cases hrow
    | cons e' rest' =>
      obtain ⟨id, p⟩ := e
      obtain ⟨id', p'⟩ := e'
      obtain ⟨rfl, hmore⟩ := List.cons.inj hrow
      obtain ⟨⟨_, hp⟩, hrest⟩ := List.forall_mem_cons.mp hc.rest
      obtain ⟨⟨_, hp'⟩, hrest'⟩ := List.forall_mem_cons.mp hc'.rest
      cases ih p ⟨hp, hrest⟩ p' rest' ⟨hp', hrest'⟩ hmore
      rfl

end Clause

/-! ### Nothing is lost -/

/-- What an expression keeps of a node: its name, or its operator if it is one. -/
inductive Sequence.Part where
  | operator (op : Operator)
  | node (id : NodeId)
  deriving DecidableEq, Repr

/-- What an expression keeps of a node. -/
def Forest.part (f : Forest) (id : NodeId) : Sequence.Part :=
  match f.kind id with
  | .operator op => .operator op
  | _ => .node id

/-- Prefix operators, value and subscripts in a row. -/
def Operand.parts (o : Operand) : List Sequence.Part :=
  o.prefixes.map .operator ++ .node o.node :: o.subscripts.map .node

/-- Operands and operators in a row, by turns. -/
def Sequence.parts (q : Sequence) : List Sequence.Part :=
  match q.operands with
  | [] => []
  | o :: os => o.parts ++ (q.operators.zip os).flatMap fun e => .operator e.1.1 :: e.2.parts

theorem Forest.part_of_operator {id : NodeId} (h : ∃ op, f.kind id = .operator op) :
    f.part id = .operator (f.operatorAt id) := by
  obtain ⟨op, hk⟩ := h
  rw [part, operatorAt, hk]

theorem Forest.part_of_isValue {id : NodeId} (h : (f.kind id).isValue = true) :
    f.part id = .node id := by
  unfold part
  split
  next op hk => exact absurd ⟨op, hk⟩ (not_operator_of_isValue h)
  next => rfl

theorem Phrase.parts_operand {p : Phrase} (hp : p.Fits f) :
    (p.operand f).parts = p.nodes.map f.part := by
  have hprefixes : p.prefixes.map f.part = (p.prefixes.map f.operatorAt).map .operator := by
    rw [List.map_map]
    exact List.map_congr_left fun id hid =>
      Forest.part_of_operator (hp.prefixes id hid).exists_operator
  have hsubscripts : p.subscripts.map f.part = p.subscripts.map .node :=
    List.map_congr_left fun id hid => Forest.part_of_isValue (by rw [(hp.subscripts id hid).1]; rfl)
  rw [nodes, List.map_append, List.map_cons, hprefixes, hsubscripts,
    Forest.part_of_isValue hp.value.1]
  rfl

/-- The expression, put in a row again, is the row that it was read from. -/
theorem Clause.parts_sequence {c : Clause} (hc : c.Fits f) :
    (c.sequence f).parts = c.nodes.map f.part := by
  have hrow : (row c.rest).map f.part =
      c.rest.flatMap fun e => .operator (f.operatorAt e.1) :: (e.2.operand f).parts := by
    rw [row, List.map_flatMap]
    refine List.flatMap_congr fun e he => ?_
    obtain ⟨⟨op, hk, _⟩, hp⟩ := hc.rest e he
    rw [List.map_cons, Forest.part_of_operator ⟨op, hk⟩, Phrase.parts_operand hp]
  calc (c.sequence f).parts
      = (c.first.operand f).parts ++
          ((c.rest.map fun e => (f.operatorAt e.1, f.line e.1)).zip
            (c.rest.map fun e => e.2.operand f)).flatMap
              fun e => .operator e.1.1 :: e.2.parts := rfl
    _ = c.first.nodes.map f.part ++ (row c.rest).map f.part := by
      rw [hrow, Phrase.parts_operand hc.first, List.zip_map', List.flatMap_map]
    _ = c.nodes.map f.part := List.map_append.symm

theorem Clause.nodes_ne_nil (c : Clause) : c.nodes ≠ [] := by
  simp [nodes, Phrase.nodes]

theorem Clause.length_operands (c : Clause) :
    (c.sequence f).operands.length = (c.sequence f).operators.length + 1 := by
  simp [sequence]

namespace Forest

variable {ids : List NodeId} {q : Sequence}

theorem isEmpty_of_sequence (h : f.sequence ids = .ok q) : q.isEmpty = true ↔ ids = [] := by
  rcases sequence_eq_ok_iff.mp h with ⟨rfl, rfl⟩ | ⟨c, _, rfl, rfl⟩
  · exact iff_of_true rfl rfl
  · exact iff_of_false Bool.false_ne_true c.nodes_ne_nil

/-- An expression is a single bare operand exactly if it was read from one node. -/
theorem single?_eq_some_iff (h : f.sequence ids = .ok q) {id : NodeId} :
    q.single? = some id ↔ ids = [id] := by
  rcases sequence_eq_ok_iff.mp h with ⟨rfl, rfl⟩ | ⟨⟨first, rest⟩, _, rfl, rfl⟩
  · simp [Sequence.single?, Sequence.empty]
  · obtain ⟨prefixes, value, subscripts⟩ := first
    simp only [Clause.sequence, Phrase.operand, Clause.nodes, Phrase.nodes]
    cases rest with
    | cons e rest => simp [Sequence.single?, List.append_eq_cons_iff]
    | nil =>
      cases prefixes with
      | cons id prefixes => simp [Sequence.single?]
      | nil => cases subscripts <;> simp [Sequence.single?]

/-! ### Between commas -/

/-- The rows are the longest runs of nodes without a comma, in order, with one comma between any two
of them and nothing else left out. -/
inductive CommaRuns (f : Forest) : List NodeId → List (List NodeId) → Prop
  | last {row : List NodeId} (h : ∀ id ∈ row, f.kind id ≠ .comma) : CommaRuns f row [row]
  | cons {row ids : List NodeId} {comma : NodeId} {rows : List (List NodeId)}
    (h : ∀ id ∈ row, f.kind id ≠ .comma) (hcomma : f.kind comma = .comma)
    (hrest : CommaRuns f ids rows) : CommaRuns f (row ++ comma :: ids) (row :: rows)

theorem CommaRuns.push {id : NodeId} {row : List NodeId} {rows : List (List NodeId)}
    (h : f.CommaRuns ids (row :: rows)) (hid : f.kind id ≠ .comma) :
    f.CommaRuns (id :: ids) ((id :: row) :: rows) := by
  cases h with
  | last h => exact .last (List.forall_mem_cons.mpr ⟨hid, h⟩)
  | cons h hcomma hrest => exact .cons (List.forall_mem_cons.mpr ⟨hid, h⟩) hcomma hrest

theorem commaRuns_runs (ids : List NodeId) :
    f.CommaRuns ids (runs (fun id => (f.kind id).isComma) ids) := by
  induction ids with
  | nil => exact .last (List.forall_mem_nil _)
  | cons id ids ih =>
    rw [runs]
    split
    next hcomma => exact .cons (List.forall_mem_nil _) (NodeKind.isComma_iff.mp hcomma) ih
    next hcomma =>
      have hid : f.kind id ≠ .comma := fun hk => hcomma (NodeKind.isComma_iff.mpr hk)
      split
      next hnil => exact absurd hnil (runs_ne_nil _ _)
      next row rows hrows => exact (hrows ▸ ih).push hid

/-- Commas cut a list of nodes in one way. -/
theorem CommaRuns.eq_runs {rows : List (List NodeId)} (h : f.CommaRuns ids rows) :
    rows = runs (fun id => (f.kind id).isComma) ids := by
  have hfalse : ∀ {row : List NodeId}, (∀ id ∈ row, f.kind id ≠ .comma) →
      ∀ id ∈ row, (f.kind id).isComma = false :=
    fun h id hid => Bool.eq_false_iff.mpr fun hc => h id hid (NodeKind.isComma_iff.mp hc)
  induction h with
  | last h => exact (runs_of_forall (hfalse h)).symm
  | cons h hcomma _ ih => rw [runs_append (hfalse h) (NodeKind.isComma_iff.mpr hcomma), ih]

/-- The expressions between commas are those of the runs, none of which may be empty. -/
theorem groups_eq_ok_iff {rows : List (List NodeId)} {line : Nat} {qs : List Sequence}
    (h : f.CommaRuns ids rows) :
    f.groups ids line = .ok qs ↔ (ids = [] ∧ qs = []) ∨
      (ids ≠ [] ∧ [] ∉ rows ∧ List.Forall₂ (fun row q => f.sequence row = .ok q) rows qs) := by
  have hone : ∀ row q, ((f.sequence row).bind fun s =>
      if s.isEmpty then .error ⟨line, .emptyGroup⟩ else .ok s) = .ok q ↔
        row ≠ [] ∧ f.sequence row = .ok q := by
    intro row q
    rw [Except.bind_eq_ok_iff]
    constructor
    · rintro ⟨s, hs, hq⟩
      split at hq
      · cases hq
      next hempty =>
        cases hq
        exact ⟨fun hrow => hempty ((isEmpty_of_sequence hs).mpr hrow), hs⟩
    · rintro ⟨hrow, hq⟩
      exact ⟨q, hq, if_neg fun hempty => hrow ((isEmpty_of_sequence hq).mp hempty)⟩
  have hnone : (∀ row ∈ rows, row ≠ []) ↔ [] ∉ rows :=
    ⟨fun hall hmem => hall [] hmem rfl, fun hmem row hrow hnil => hmem (hnil ▸ hrow)⟩
  rw [← hnone, ← List.forall₂_and_left]
  cases ids with
  | nil => simp [groups, eq_comm]
  | cons id ids => simp [groups, ← h.eq_runs, List.mapM_eq_ok_iff, hone]

/-- Runs that are all read as expressions, none of them empty, give these expressions. -/
theorem CommaRuns.groups_eq_ok {rows : List (List NodeId)} {qs : List Sequence}
    (h : f.CommaRuns ids rows)
    (hall : List.Forall₂ (fun row q => f.sequence row = .ok q ∧ q.isEmpty = false) rows qs)
    (line : Nat) : f.groups ids line = .ok qs := by
  have hne : ∀ row ∈ rows, row ≠ [] := by
    clear h
    induction hall with
    | nil => exact List.forall_mem_nil _
    | cons hq _ ih =>
      refine List.forall_mem_cons.mpr ⟨fun hrow => ?_, ih⟩
      rw [(isEmpty_of_sequence hq.1).mpr hrow] at hq
      cases hq.2
  refine (groups_eq_ok_iff h).mpr
    (.inr ⟨?_, fun hmem => hne [] hmem rfl, hall.imp fun _ _ hq => hq.1⟩)
  -- Without nodes there is one run, which is empty.
  rintro rfl
  refine hne [] ?_ rfl
  rw [h.eq_runs]
  exact List.mem_singleton_self _

/-- Reading follows the grammar of expressions and drops nothing.

A row of nodes is read as an expression exactly if it is empty or has the form of one: operands with
binary operators between them, where an operand is a value behind any number of prefix operators and
before any number of subscripts.  The form is then the only one of the row, the expression is the
one that it spells, and put in a row again it is the row that was read; there is one operand more
than operators, or none of either.

Commas cut a row into runs in one way.  The expressions of a list are those of the runs, in order,
and there are none if one of the runs is empty, unless the whole row is. -/
theorem sequence_follows_grammar (f : Forest) (ids : List NodeId) :
    ((∃ q, f.sequence ids = .ok q) ↔ ids = [] ∨ ∃ c : Clause, c.Fits f ∧ c.nodes = ids) ∧
    (∀ c c' : Clause, c.Fits f ∧ c.nodes = ids → c'.Fits f ∧ c'.nodes = ids → c = c') ∧
    (∀ q, f.sequence ids = .ok q →
      (∀ c : Clause, c.Fits f ∧ c.nodes = ids → c.sequence f = q) ∧
      q.parts = ids.map f.part ∧
      (q.operands.length = q.operators.length + 1 ∨ q.operands = [] ∧ q.operators = [])) ∧
    (∃! rows, f.CommaRuns ids rows) ∧
    ∀ rows, f.CommaRuns ids rows → ∀ line,
      (∀ qs, f.groups ids line = .ok qs ↔ (ids = [] ∧ qs = []) ∨
        (ids ≠ [] ∧ [] ∉ rows ∧ List.Forall₂ (fun row q => f.sequence row = .ok q) rows qs)) ∧
      (ids ≠ [] → [] ∈ rows → ∃ failure, f.groups ids line = .error failure) := by
  refine ⟨?_, ?_, ?_, ?_, ?_⟩
  · simp only [sequence_eq_ok_iff]
    constructor
    · rintro ⟨q, ⟨hids, _⟩ | ⟨c, hc, hnodes, _⟩⟩
      · exact .inl hids
      · exact .inr ⟨c, hc, hnodes⟩
    · rintro (hids | ⟨c, hc, hnodes⟩)
      · exact ⟨.empty, .inl ⟨hids, rfl⟩⟩
      · exact ⟨c.sequence f, .inr ⟨c, hc, hnodes, rfl⟩⟩
  · rintro c c' ⟨hc, hnodes⟩ ⟨hc', hnodes'⟩
    exact Clause.eq_of_nodes_eq hc hc' (hnodes.trans hnodes'.symm)
  · intro q h
    refine ⟨fun c hc => ?_, ?_⟩
    · have hread := sequence_eq_ok_iff.mpr (.inr ⟨c, hc.1, hc.2, rfl⟩)
      exact Except.ok.inj (hread.symm.trans h)
    · rcases sequence_eq_ok_iff.mp h with ⟨rfl, rfl⟩ | ⟨c, hc, rfl, rfl⟩
      · exact ⟨rfl, .inr ⟨rfl, rfl⟩⟩
      · exact ⟨Clause.parts_sequence hc, .inl c.length_operands⟩
  · exact ⟨_, commaRuns_runs ids, fun rows h => h.eq_runs⟩
  · intro rows hrows line
    refine ⟨fun qs => groups_eq_ok_iff hrows, fun hids hempty => ?_⟩
    cases h : f.groups ids line with
    | error failure => exact ⟨failure, rfl⟩
    | ok qs =>
      rcases (groups_eq_ok_iff hrows).mp h with ⟨hnil, _⟩ | ⟨_, hnone, _⟩
      · exact absurd hnil hids
      · exact absurd hempty hnone

-- In `-a[0] - -[0]` the same nodes play different parts: the first and the last `-` are prefix
-- operators and the one between them is binary; the first brackets are a subscript and the last
-- ones a list.
example :
    let zero : Sequence := ⟨[⟨6, [], []⟩], []⟩
    let minus : Node := { kind := .operator .sub, parent := 0, line := 1, shape := .leaf }
    let brackets : Node := { kind := .brackets, parent := 0, line := 1, shape := .array [zero] }
    let a : Node := { kind := .reference "a", parent := 0, line := 1, shape := .leaf }
    let f : Forest := ⟨#[minus, a, brackets, minus, minus, brackets]⟩
    f.sequence [0, 1, 2, 3, 4, 5] =
      .ok ⟨[⟨1, [.sub], [2]⟩, ⟨5, [.sub], []⟩], [(.sub, 1)]⟩ :=
  rfl

end Forest

end TagLang
