import Mathlib.Data.List.Induction
import Mathlib.Logic.ExistsUnique
import TagLang.Proofs.Precedence

/-!
# Grouping

Every sequence with one operand more than it has operators has exactly one grouped tree.  The tree
is built by adding one operator and one operand at a time at its right end (`Spine.push`).  It is
the only one because the outermost operator of a grouped tree is the rightmost of those that bind
most loosely, so the sequence says where to cut (`Spine.Grouped.unique`).

To say which operands are asked for, and when, an evaluator is made to write down every operand
before it evaluates it (`Operand.recorded`).  Evaluating a tree asks for its operands from left to
right, once each, and stops at the first that fails (`Spine.eval_recorded`).
-/

namespace TagLang

namespace Spine

instance decidableGrouped : (s : Spine) → Decidable s.Grouped
  | operand _ => inferInstanceAs (Decidable True)
  | binary op _ lhs rhs =>
    have := decidableGrouped lhs
    have := decidableGrouped rhs
    inferInstanceAs (Decidable (
      ((∀ p ∈ lhs.operators, op.precedence ≤ p.1.precedence) ∧ lhs.Grouped) ∧
        (∀ p ∈ rhs.operators, op.precedence < p.1.precedence) ∧ rhs.Grouped))

/-! ### Every sequence has a tree -/

/-- The tree with one more operator and operand at its right end.  The operator takes as its left
operand as much of the right edge as binds at least as tightly. -/
def push (op : Operator) (line : Nat) (o : Operand) : Spine → Spine
  | operand a => binary op line (operand a) (operand o)
  | binary op' line' lhs rhs =>
    if op.precedence ≤ op'.precedence then binary op line (binary op' line' lhs rhs) (operand o)
    else binary op' line' lhs (rhs.push op line o)

variable {op : Operator} {line : Nat} {o : Operand} {s t : Spine}

@[simp]
theorem first_push (s : Spine) : (s.push op line o).first = s.first := by
  cases s with
  | operand a => rfl
  | binary op' line' lhs rhs =>
    rw [push]
    split <;> rfl

@[simp]
theorem rest_push (s : Spine) : (s.push op line o).rest = s.rest ++ [((op, line), o)] := by
  induction s with
  | operand a => rfl
  | binary op' line' lhs rhs _ ih =>
    rw [push]
    split
    · rfl
    · simp [rest, ih]

theorem operators_push (s : Spine) :
    (s.push op line o).operators = s.operators ++ [(op, line)] := by
  simp [operators]

/-- No operator of a grouped tree binds more loosely than the outermost one. -/
theorem Grouped.outermost_le {lhs rhs : Spine} (h : (binary op line lhs rhs).Grouped) :
    ∀ p ∈ (binary op line lhs rhs).operators, op.precedence ≤ p.1.precedence := by
  obtain ⟨⟨hleft, -⟩, hright, -⟩ := h
  intro p hp
  simp only [operators_binary, List.mem_append, List.mem_cons] at hp
  rcases hp with hp | rfl | hp
  · exact hleft p hp
  · exact Nat.le_refl _
  · exact Nat.le_of_lt (hright p hp)

theorem Grouped.push (h : s.Grouped) : (s.push op line o).Grouped := by
  induction s with
  | operand a => exact ⟨⟨by simp, trivial⟩, by simp, trivial⟩
  | binary op' line' lhs rhs _ ih =>
    rw [Spine.push]
    split
    case isTrue hle =>
      -- The whole tree becomes the left operand.
      refine ⟨⟨fun p hp => ?_, h⟩, by simp, trivial⟩
      exact Nat.le_trans hle (h.outermost_le p hp)
    case isFalse hlt =>
      obtain ⟨hlhs, hright, hrhs⟩ := h
      refine ⟨hlhs, fun p hp => ?_, ih hrhs⟩
      rw [operators_push, List.mem_append, List.mem_singleton] at hp
      rcases hp with hp | rfl
      · exact hright p hp
      · exact Nat.lt_of_not_le hlt

/-- The tree that precedence gives an operand with operators and operands behind it. -/
def grouping (o : Operand) (rest : List ((Operator × Nat) × Operand)) : Spine :=
  rest.foldl (fun s p => s.push p.1.1 p.1.2 p.2) (operand o)

theorem grouping_concat (o : Operand) (rest : List ((Operator × Nat) × Operand))
    (p : (Operator × Nat) × Operand) :
    grouping o (rest ++ [p]) = (grouping o rest).push p.1.1 p.1.2 p.2 := by
  simp [grouping]

theorem grouping_spec (o : Operand) (rest : List ((Operator × Nat) × Operand)) :
    (grouping o rest).first = o ∧ (grouping o rest).rest = rest ∧ (grouping o rest).Grouped := by
  -- The last operator was added last, so the induction takes the list apart at its end.
  induction rest using List.reverseRecOn with
  | nil => exact ⟨rfl, rfl, trivial⟩
  | append_singleton rest p ih =>
    obtain ⟨hfirst, hrest, hgrouped⟩ := ih
    rw [grouping_concat]
    exact ⟨by rw [first_push, hfirst], by rw [rest_push, hrest], hgrouped.push⟩

/-! ### A sequence has only one tree -/

theorem mem_operators_of_mem_rest {p : (Operator × Nat) × Operand} (h : p ∈ s.rest) :
    p.1 ∈ s.operators :=
  List.mem_map_of_mem h

/-- Of two grouped trees of one sequence, the second does not have the outermost operator of the
first inside its left operand: it would bind at least as tightly as that of the second and also more
loosely. -/
theorem Grouped.cut_eq_nil {op' : Operator} {line' : Nat} {lhs rhs lhs' rhs' : Spine}
    (h : (binary op line lhs rhs).Grouped) (h' : (binary op' line' lhs' rhs').Grouped)
    {cut : List ((Operator × Nat) × Operand)} (hleft : lhs'.rest = lhs.rest ++ cut)
    (hright : ((op, line), rhs.first) :: rhs.rest =
      cut ++ ((op', line'), rhs'.first) :: rhs'.rest) :
    cut = [] := by
  cases cut with
  | nil => rfl
  | cons p cut =>
    rw [List.cons_append, List.cons.injEq] at hright
    obtain ⟨rfl, hright⟩ := hright
    have hle : op'.precedence ≤ op.precedence := by
      apply h'.1.1 (op, line)
      apply mem_operators_of_mem_rest (p := ((op, line), rhs.first))
      simp [hleft]
    have hlt : op.precedence < op'.precedence := by
      apply h.2.1 (op', line')
      apply mem_operators_of_mem_rest (p := ((op', line'), rhs'.first))
      simp [hright]
    omega

/-- Two grouped trees of one sequence are the same. -/
theorem Grouped.unique (hs : s.Grouped) (ht : t.Grouped) (hfirst : s.first = t.first)
    (hrest : s.rest = t.rest) : s = t := by
  induction s generalizing t with
  | operand a =>
    cases t with
    | operand b => exact congrArg operand hfirst
    | binary op' line' lhs' rhs' => simp [rest] at hrest
  | binary op line lhs rhs ihl ihr =>
    cases t with
    | operand b => simp [rest] at hrest
    | binary op' line' lhs' rhs' =>
      -- Both cut the sequence at the same place, or one has the other's operator in its left
      -- operand.
      have hcut : lhs.rest = lhs'.rest ∧ ((op, line), rhs.first) :: rhs.rest =
          ((op', line'), rhs'.first) :: rhs'.rest := by
        rcases List.append_eq_append_iff.mp hrest with ⟨cut, hleft, hright⟩ | ⟨cut, hleft, hright⟩
        · obtain rfl := hs.cut_eq_nil ht hleft hright
          exact ⟨by simp [hleft], hright⟩
        · obtain rfl := ht.cut_eq_nil hs hleft hright
          exact ⟨by simp [hleft], hright.symm⟩
      obtain ⟨hleft, hright⟩ := hcut
      simp only [List.cons.injEq, Prod.mk.injEq] at hright
      obtain ⟨⟨⟨rfl, rfl⟩, hmiddle⟩, hright⟩ := hright
      rw [ihl hs.1.2 ht.1.2 hfirst hleft, ihr hs.2.2 ht.2.2 hmiddle hright]

/-! ### Trees and sequences -/

theorem sequence_eq_iff {s : Spine} {q : Sequence} :
    s.sequence = q ↔
      q.operands = s.first :: s.rest.map (·.2) ∧ q.operators = s.rest.map (·.1) := by
  obtain ⟨operands, operators⟩ := q
  simp only [sequence, Sequence.mk.injEq]
  exact ⟨fun h => ⟨h.1.symm, h.2.symm⟩, fun h => ⟨h.1.symm, h.2.symm⟩⟩

theorem rest_eq_zip (s : Spine) : s.rest = s.sequence.operators.zip s.sequence.operands.tail := by
  show s.rest = (s.rest.map (·.1)).zip (s.rest.map (·.2))
  rw [List.zip_map', List.map_id']

theorem operands_binary (op : Operator) (line : Nat) (lhs rhs : Spine) :
    (binary op line lhs rhs).sequence.operands =
    lhs.sequence.operands ++ rhs.sequence.operands := by
  simp [sequence, rest, first]

end Spine

/-- A sequence with an operator between any two operands has exactly one grouped tree. -/
theorem Sequence.existsUnique_grouped (q : Sequence)
    (h : q.operands.length = q.operators.length + 1) :
    ∃! s : Spine, s.sequence = q ∧ s.Grouped := by
  obtain ⟨_ | ⟨o, operands⟩, operators⟩ := q
  · simp at h
  have hlength : operands.length = operators.length := by simpa using h
  obtain ⟨hfirst, hrest, hgrouped⟩ := Spine.grouping_spec o (operators.zip operands)
  refine ⟨Spine.grouping o (operators.zip operands), ⟨?_, hgrouped⟩, ?_⟩
  · show (⟨_ :: _, _⟩ : Sequence) = _
    rw [hfirst, hrest, List.map_snd_zip (Nat.le_of_eq hlength),
      List.map_fst_zip (Nat.le_of_eq hlength.symm)]
  · rintro s ⟨hs, hgrouped'⟩
    apply hgrouped'.unique hgrouped
    · rw [hfirst]
      exact (List.cons.inj (Spine.sequence_eq_iff.mp hs).1).1.symm
    · rw [hrest, s.rest_eq_zip, hs]
      rfl

/-! ### Operands that are asked for -/

/-- The end of a run, with something beside its state. -/
def Run.beside {σ α β : Type} (b : β) : EStateM.Result Stop σ α → EStateM.Result Stop (σ × β) α
  | .ok a st => .ok a (st, b)
  | .error stop st => .error stop (st, b)

theorem Run.orFault_beside {σ β : Type} (line : Nat) (x : Except Fault Value) (st : σ) (b : β) :
    Run.orFault line .fault x (st, b) = Run.beside b (Run.orFault line .fault x st) := by
  cases x <;> rfl

/-- The evaluator with a list of the operands it has been asked for, in order. -/
def Operand.recorded {σ : Type} (value : Operand → EStateM Stop σ Value) (o : Operand) :
    EStateM Stop (σ × List Operand) Value :=
  fun st => Run.beside (st.2 ++ [o]) (value o st.1)

namespace Spine

variable {σ : Type} {value : Operand → EStateM Stop σ Value}

/-- Evaluating a tree asks for operands from left to right, once each: for all of them, unless one
of them or an operator fails, and then for none behind it.  Writing them down changes nothing
else. -/
theorem eval_recorded (s : Spine) (st : σ) (before : List Operand) :
    ∃ asked, asked <+: s.sequence.operands ∧
      s.eval (Operand.recorded value) (st, before) =
      Run.beside (before ++ asked) (s.eval value st) ∧
      ∀ v st', s.eval value st = .ok v st' → asked = s.sequence.operands := by
  induction s generalizing st before with
  | operand o =>
    exact ⟨[o], List.prefix_rfl, rfl, fun _ _ _ => rfl⟩
  | binary op line lhs rhs ihl ihr =>
    obtain ⟨left, hleft, hl, hlall⟩ := ihl st before
    rw [operands_binary]
    simp only [eval, bind, EStateM.bind, hl]
    cases hlhs : lhs.eval value st with
    | error stop st₁ =>
      -- The right operand is not asked for anything.
      refine ⟨left, hleft.trans (List.prefix_append ..), rfl, ?_⟩
      intro v st' h
      cases h
    | ok a st₁ =>
      obtain rfl := hlall a st₁ hlhs
      obtain ⟨right, hright, hr, hrall⟩ := ihr st₁ (before ++ lhs.sequence.operands)
      refine ⟨lhs.sequence.operands ++ right, (List.prefix_append_right_inj _).mpr hright, ?_, ?_⟩
      · simp only [Run.beside, hr, List.append_assoc]
        cases rhs.eval value st₁ with
        | error stop st₂ => rfl
        | ok b st₂ => exact Run.orFault_beside ..
      · intro v st' h
        cases hrhs : rhs.eval value st₁ with
        | error stop st₂ => simp only [hrhs, reduceCtorEq] at h
        | ok b st₂ => rw [hrall b st₂ hrhs]

end Spine

/-- Reducing a sequence of operands with an operator between any two of them, with whatever effects
the operands have, is evaluating the tree that precedence gives it: there is exactly one grouped
tree, and the reduction has its value or its first failure, with the line of the operator that
fails, and its final state.  The operands are asked for from left to right, each at most once, and
all of them if the reduction succeeds. -/
theorem Sequence.reduce_eq_eval_of_grouped (q : Sequence)
    (h : q.operands.length = q.operators.length + 1) :
    (∃! s : Spine, s.sequence = q ∧ s.Grouped) ∧
    ∀ s : Spine, s.sequence = q → s.Grouped →
      ∀ (σ : Type) (value : Operand → EStateM Stop σ Value),
        q.reduce value = s.eval value ∧
        ∀ st, ∃ asked, asked <+: q.operands ∧
          q.reduce (Operand.recorded value) (st, []) = Run.beside asked (q.reduce value st) ∧
          ∀ v st', q.reduce value st = .ok v st' → asked = q.operands := by
  refine ⟨q.existsUnique_grouped h, ?_⟩
  rintro s rfl hs σ value
  rw [reduce_grouped hs, reduce_grouped hs]
  exact ⟨rfl, fun st => s.eval_recorded st []⟩

/-- In `1 - 2 * 3 ^ 4 / 5 - 6` the power comes first and the second difference last. -/
theorem Sequence.reduce_eq_eval_of_grouped_mixed :
    let o (n : Nat) : Operand := ⟨n, [], []⟩
    let q : Sequence := ⟨[o 1, o 2, o 3, o 4, o 5, o 6],
      [(.sub, 1), (.mul, 1), (.pow, 2), (.div, 2), (.sub, 3)]⟩
    let s : Spine := .binary .sub 3
      (.binary .sub 1 (.operand (o 1))
        (.binary .div 2
          (.binary .mul 1 (.operand (o 2)) (.binary .pow 2 (.operand (o 3)) (.operand (o 4))))
          (.operand (o 5))))
      (.operand (o 6))
    q.operands.length = q.operators.length + 1 ∧ (s.sequence = q ∧ s.Grouped) ∧
      (∀ s', s'.sequence = q ∧ s'.Grouped → s' = s) ∧
      ∀ value : Operand → EStateM Stop Nat Value, q.reduce value = s.eval value := by
  intro o q s
  have hlength : q.operands.length = q.operators.length + 1 := rfl
  have hs : s.sequence = q ∧ s.Grouped := ⟨rfl, by decide⟩
  obtain ⟨hunique, hreduce⟩ := Sequence.reduce_eq_eval_of_grouped q hlength
  exact ⟨hlength, hs, fun s' hs' => hunique.unique hs' hs, fun value =>
    (hreduce s hs.1 hs.2 Nat value).1⟩

end TagLang
