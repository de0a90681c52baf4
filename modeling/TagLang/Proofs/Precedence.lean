import TagLang.Machine.Reduction

/-!
# Precedence

A sequence of operands and operators stands for the tree in which every operator takes what binds
more tightly: on its left also what binds as tightly, on its right only what binds more tightly
(`Spine.Grouped`).  Reducing the sequence with two stacks gives what evaluating the tree gives, with
the same effects in the same order (`Sequence.reduce_grouped`).

Whether a tree without `!` between its operands is grouped shows at the outermost operators of its
parts (`Spine.WellGrouped`).
-/

namespace TagLang

/-- A tree of binary operators, each with its line, over operands. -/
inductive Spine where
  | operand (o : Operand)
  | binary (op : Operator) (line : Nat) (lhs rhs : Spine)

namespace Spine

/-- The first operand. -/
def first : Spine → Operand
  | operand o => o
  | binary _ _ lhs _ => lhs.first

/-- The operators from left to right, each with the operand behind it. -/
def rest : Spine → List ((Operator × Nat) × Operand)
  | operand _ => []
  | binary op line lhs rhs => lhs.rest ++ ((op, line), rhs.first) :: rhs.rest

/-- The operands and the operators between them. -/
def sequence (s : Spine) : Sequence :=
  ⟨s.first :: s.rest.map (·.2), s.rest.map (·.1)⟩

/-- The operators from left to right, each with its line. -/
def operators (s : Spine) : List (Operator × Nat) :=
  s.rest.map (·.1)

@[simp]
theorem operators_operand (o : Operand) : (operand o).operators = [] := rfl

@[simp]
theorem operators_binary (op : Operator) (line : Nat) (lhs rhs : Spine) :
    (binary op line lhs rhs).operators = lhs.operators ++ (op, line) :: rhs.operators := by
  simp [operators, rest]

/-- At every operator, all operators on its left bind at least as tightly, and all on its right bind
more tightly. -/
def Grouped : Spine → Prop
  | operand _ => True
  | binary op _ lhs rhs =>
    ((∀ p ∈ lhs.operators, op.precedence ≤ p.1.precedence) ∧ lhs.Grouped) ∧
      (∀ p ∈ rhs.operators, op.precedence < p.1.precedence) ∧ rhs.Grouped

/-- Binding strength of the outermost operator; an operand binds more tightly than any of them. -/
def level : Spine → Nat
  | operand _ => Operator.not.precedence
  | binary op _ _ _ => op.precedence

/-- The tree is the one that precedence gives its sequence, if operators of equal precedence group
to the left. -/
def WellGrouped : Spine → Prop
  | operand _ => True
  | binary op _ lhs rhs =>
    (op.precedence ≤ lhs.level ∧ lhs.WellGrouped) ∧ op.precedence < rhs.level ∧ rhs.WellGrouped

/-- In a well-grouped tree no operator binds more loosely than the outermost one. -/
theorem WellGrouped.level_le {s : Spine} (hs : s.WellGrouped) :
    ∀ p ∈ s.operators, s.level ≤ p.1.precedence := by
  induction s with
  | operand o => simp
  | binary op line lhs rhs ihl ihr =>
    obtain ⟨⟨hlevel, hlhs⟩, hlevel', hrhs⟩ := hs
    intro p hp
    show op.precedence ≤ p.1.precedence
    rcases List.mem_append.mp (operators_binary op line lhs rhs ▸ hp) with hp | hp
    · exact Nat.le_trans hlevel (ihl hlhs p hp)
    · rcases List.mem_cons.mp hp with rfl | hp
      · exact Nat.le_refl _
      · exact Nat.le_trans (Nat.le_of_lt hlevel') (ihr hrhs p hp)

theorem WellGrouped.grouped {s : Spine} (hs : s.WellGrouped) : s.Grouped := by
  induction s with
  | operand o => trivial
  | binary op line lhs rhs ihl ihr =>
    obtain ⟨⟨hlevel, hlhs⟩, hlevel', hrhs⟩ := hs
    refine ⟨⟨fun p hp => ?_, ihl hlhs⟩, fun p hp => ?_, ihr hrhs⟩
    · exact Nat.le_trans hlevel (hlhs.level_le p hp)
    · exact Nat.lt_of_lt_of_le hlevel' (hrhs.level_le p hp)

variable {σ : Type} (value : Operand → EStateM Stop σ Value)

/-- The value of a tree, given the values of its operands. -/
def eval : Spine → EStateM Stop σ Value
  | operand o => value o
  | binary op line lhs rhs => do
    let a ← lhs.eval
    let b ← rhs.eval
    Run.orFault line .fault (Value.binary op a b)

end Spine

namespace Sequence

variable {σ : Type} {value : Operand → EStateM Stop σ Value}

/-- The operators that wait bind more loosely than `tightness`, as far as the next one tells. -/
def Waits (tightness : Nat) (waiting : List (Operator × Nat)) : Prop :=
  ∀ top ∈ waiting.head?, top.1.precedence < tightness

/-- What is left starts with an operator that binds at most as tightly as `tightness`, if at all. -/
def Yields (tightness : Nat) (rest : List ((Operator × Nat) × Operand)) : Prop :=
  ∀ next ∈ rest.head?, next.1.1.precedence ≤ tightness

/-- Operators that bind more loosely go on waiting. -/
theorem unwind_of_waits {tightness : Nat} {waiting : List (Operator × Nat)}
    (h : Waits tightness waiting) (values : List Value) :
    unwind tightness values waiting = .ok (values, waiting) := by
  cases waiting with
  | nil => rfl
  | cons top waiting => rw [unwind, if_pos (h top rfl)]

/-- The last operator is applied before anything that does not bind more tightly. -/
theorem unwind_apply {tightness : Nat} {op : Operator} (h : tightness ≤ op.precedence) (line : Nat)
    (a b : Value) (values : List Value) (waiting : List (Operator × Nat)) :
    unwind tightness (b :: a :: values) ((op, line) :: waiting) =
      match Value.binary op a b with
      | .ok v => unwind tightness (v :: values) waiting
      | .error fault => .error ⟨line, .fault fault⟩ := by
  rw [unwind, if_neg (Nat.not_lt_of_le h), applyTop]
  cases Value.binary op a b <;> rfl

theorem reduceRest_apply {op : Operator} {rest : List ((Operator × Nat) × Operand)}
    (h : Yields op.precedence rest) (line : Nat) (a b : Value) (values : List Value)
    (waiting : List (Operator × Nat)) :
    reduceRest value rest (b :: a :: values) ((op, line) :: waiting) = (do
      let v ← Run.orFault line .fault (Value.binary op a b)
      reduceRest value rest (v :: values) waiting) := by
  cases rest with
  | nil =>
    rw [reduceRest, unwind_apply (Nat.zero_le _)]
    cases Value.binary op a b <;> rfl
  | cons next rest =>
    obtain ⟨⟨op', line'⟩, o⟩ := next
    rw [reduceRest, unwind_apply (h _ rfl)]
    cases Value.binary op a b <;> rfl

/-- Reducing a tree's part of a sequence pushes the value of the tree.

The tree may stand behind operators that bind more loosely than all of its own, and in front of
operators that do not bind more tightly. -/
theorem reduceRest_spine (s : Spine) (hs : s.Grouped) {p : Nat}
    (hp : ∀ q ∈ s.operators, p ≤ q.1.precedence)
    {values : List Value} {waiting : List (Operator × Nat)} (hw : Waits p waiting)
    {rest : List ((Operator × Nat) × Operand)} (hr : Yields p rest) :
    (do
      let v ← value s.first
      reduceRest value (s.rest ++ rest) (v :: values) waiting) = (do
      let v ← s.eval value
      reduceRest value rest (v :: values) waiting) := by
  induction s generalizing p values waiting rest with
  | operand o => rfl
  | binary op line lhs rhs ihl ihr =>
    obtain ⟨⟨hleft, hlhs⟩, hright, hrhs⟩ := hs
    have hop : p ≤ op.precedence := hp (op, line) (by simp)
    have hwait : Waits op.precedence waiting := fun top ht => Nat.lt_of_lt_of_le (hw top ht) hop
    have hyield : Yields op.precedence rest := fun next hn => Nat.le_trans (hr next hn) hop
    have hmiddle : Yields op.precedence (((op, line), rhs.first) :: (rhs.rest ++ rest)) := by
      rintro next ⟨⟩
      exact Nat.le_refl _
    have hbehind : Waits (op.precedence + 1) ((op, line) :: waiting) := by
      rintro top ⟨⟩
      exact Nat.lt_succ_self _
    -- The left tree comes first, then the operator, then the right tree, and the operator is
    -- applied.
    rw [Spine.first, Spine.rest, List.append_assoc, List.cons_append, ihl hlhs hleft hwait hmiddle,
      Spine.eval, bind_assoc]
    congr 1
    funext a
    rw [reduceRest, unwind_of_waits hwait, bind_assoc]
    refine (pure_bind _ _).trans ?_
    dsimp only
    rw [ihr hrhs hright hbehind fun next hn => Nat.le_succ_of_le (hyield next hn)]
    congr 1
    funext b
    exact reduceRest_apply hyield ..

/-- Reducing a sequence evaluates the tree that precedence gives it. -/
theorem reduce_grouped {s : Spine} (hs : s.Grouped) : s.sequence.reduce value = s.eval value := by
  have hzip : (s.rest.map (·.1)).zip (s.rest.map (·.2)) = s.rest := by
    rw [List.zip_map', List.map_id']
  have hnone : Waits 0 [] := nofun
  have hend : Yields 0 [] := nofun
  have hresult : ∀ v : Value, reduceRest value [] [v] [] = pure v := fun _ => rfl
  calc s.sequence.reduce value
      = (do
          let v ← value s.first
          reduceRest value (s.rest ++ []) [v] []) := by
        rw [List.append_nil]
        show (value s.first >>= fun v =>
          reduceRest value ((s.rest.map (·.1)).zip (s.rest.map (·.2))) [v] []) = _
        rw [hzip]
    _ = (do
          let v ← s.eval value
          reduceRest value [] [v] []) :=
        reduceRest_spine s hs (fun _ _ => Nat.zero_le _) hnone hend
    _ = s.eval value := by
        simp only [hresult, bind_pure]

theorem reduce_spine {s : Spine} (hs : s.WellGrouped) : s.sequence.reduce value = s.eval value :=
  reduce_grouped hs.grouped

end Sequence

end TagLang
