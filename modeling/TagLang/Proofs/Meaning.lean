import TagLang.Proofs.Account
import TagLang.Proofs.Expression
import TagLang.Proofs.Precedence
import TagLang.Proofs.Shapes

/-!
# What loaded expressions mean

An expression of the machine denotes a tree (`Sequence.Denotes`) if evaluating it gives the value of
the tree, or fails as the tree does, and changes nothing.  The same is said of operands and of trees
of operands; it stays true while more nodes are loaded.
-/

namespace TagLang

open Machine

/-! ### Computations that answer -/

/-- Started in a situation, the computation ends in it: with the value, or with a failure of the
category and the message that the mishap tells. -/
def Run.Answers {α : Type} (x : Run α) (s : Situation) : Except Mishap α → Prop
  | .ok a => ∀ m : Machine, m.toSituation = s → ∃ m', x m = .ok a m' ∧ m'.toSituation = s
  | .error e => ∀ m : Machine, m.toSituation = s → ∃ failure m',
      x m = .error (.failed failure) m' ∧ m'.toSituation = s ∧
        failure.cause.category = e.category ∧ failure.cause.message = e.fault.message

namespace Run.Answers

variable {α β : Type} {x : Run α} {f : α → Run β} {s : Situation}

theorem pure (a : α) (s : Situation) : Run.Answers (pure a) s (.ok a) :=
  fun m hm => ⟨m, rfl, hm⟩

theorem bind {r : Except Mishap α} {k : α → Except Mishap β} (hx : Run.Answers x s r)
    (hf : ∀ a, Run.Answers (f a) s (k a)) : Run.Answers (x >>= f) s (r >>= k) := by
  cases r with
  | error e =>
    intro m hm
    obtain ⟨failure, m', hrun, hm', he⟩ := hx m hm
    exact ⟨failure, m', bind_of_error hrun f, hm', he⟩
  | ok a =>
    have hfa := hf a
    show Run.Answers (x >>= f) s (k a)
    generalize k a = r' at hfa ⊢
    cases r' with
    | error e | ok b =>
      intro m hm
      obtain ⟨m₁, hrun, hm₁⟩ := hx m hm
      rw [bind_of_ok hrun]
      exact hfa m₁ hm₁

theorem look_bind {γ : Type} {g : Situation → γ} {f : γ → Run β} {r : Except Mishap β}
    (h : Run.Answers (f (g s)) s r) : Run.Answers (look g >>= f) s r := by
  cases r with
  | error e | ok b =>
    rintro m rfl
    exact h m rfl

theorem note_bind {event : Event} {f : Unit → Run β} {r : Except Mishap β}
    (h : Run.Answers (f ()) s r) : Run.Answers (note event >>= f) s r := by
  cases r with
  | error e | ok b =>
    rintro m rfl
    exact h (m.record event) (toSituation_record m event)

theorem fault (line : Nat) (r : Except Fault α) (s : Situation) :
    Run.Answers (Run.orFault line .fault r) s (r.mapError (⟨.operator, ·⟩)) := by
  cases r with
  | ok a => exact .pure a s
  | error fault => exact fun m hs => ⟨⟨line, .fault fault⟩, m, rfl, hs, rfl, rfl⟩

theorem element (line : Nat) (r : Except Fault α) (s : Situation) :
    Run.Answers (Run.orFault line .element r) s (r.mapError (⟨.arity, ·⟩)) := by
  cases r with
  | ok a => exact .pure a s
  | error fault => exact fun m hs => ⟨⟨line, .element fault⟩, m, rfl, hs, rfl, rfl⟩

end Run.Answers

/-! ### Denotations -/

/-- The value of an operand; `line` is where its failures are reported. -/
def Engine.operandAt (e : Engine) (line : Nat) (o : Operand) : Run Value := do
  let v ← e.nodeValue o.node
  let v ← e.subscripted line v o.subscripts
  prefixed line v o.prefixes

/-- Evaluating the sequence in any forest with the nodes of `g` gives what the tree evaluates to. -/
def Sequence.Denotes (g : Forest) (q : Sequence) (e : Expr) : Prop :=
  ∀ (w : World) (n : Nat) (s : Situation), g.Le s.forest → e.height ≤ n →
    Run.Answers (Machine.eval w n q) s e.eval

/-- The sequences denote the trees, one each. -/
def Sequence.DenoteAll (g : Forest) : List Sequence → List Expr → Prop
  | [], [] => True
  | q :: qs, e :: es => q.Denotes g e ∧ DenoteAll g qs es
  | _, _ => False

/-- At a depth of at least `d`, the operand gives what the tree evaluates to, wherever its failures
are reported. -/
def Operand.Denotes (g : Forest) (d : Nat) (o : Operand) (e : Expr) : Prop :=
  ∀ (w : World) (n line : Nat) (s : Situation), g.Le s.forest → d ≤ n + 1 →
    Run.Answers ((engine w n).operandAt line o) s e.eval

/-- At a depth of at least `d`, the tree of operands gives what the tree evaluates to. -/
def Spine.Denotes (g : Forest) (d : Nat) (sp : Spine) (e : Expr) : Prop :=
  ∀ (w : World) (n : Nat) (s : Situation), g.Le s.forest → d ≤ n + 1 →
    Run.Answers (sp.eval (engine w n).operand) s e.eval

/-- A shape that has been found stays. -/
theorem Forest.Le.shape_of_loaded {f g : Forest} (h : f.Le g) {id : NodeId} {shape : Shape}
    (hs : f.shape id = shape) (hne : shape ≠ .unloaded) : g.shape id = shape := by
  rw [h.shape_eq id (hs ▸ hne), hs]

theorem Expr.height_pos (e : Expr) : 0 < e.height := by
  cases e <;> simp [height]

section Denotes

variable {g g' : Forest} {e : Expr} {d : Nat}

theorem Sequence.Denotes.mono (hle : g.Le g') {q : Sequence} (h : q.Denotes g e) : q.Denotes g' e :=
  fun w n s hs hn => h w n s (hle.trans hs) hn

theorem Sequence.DenoteAll.mono (hle : g.Le g') {qs : List Sequence} {es : List Expr}
    (h : DenoteAll g qs es) : DenoteAll g' qs es := by
  induction qs generalizing es with
  | nil =>
    cases es with
    | nil => trivial
    | cons e es => exact h.elim
  | cons q qs ih =>
    cases es with
    | nil => exact h.elim
    | cons e es => exact ⟨h.1.mono hle, ih h.2⟩

/-- A sequence denotes what the tree that precedence gives it denotes. -/
theorem Spine.Denotes.sequence {sp : Spine} (hg : sp.WellGrouped) (h : sp.Denotes g e.height e) :
    sp.sequence.Denotes g e := by
  intro w n s hs hn
  obtain ⟨k, rfl⟩ : ∃ k, n = k + 1 := Nat.exists_eq_add_one.mpr (Nat.lt_of_lt_of_le e.height_pos hn)
  show Run.Answers (sp.sequence.reduce (engine w k).operand) s e.eval
  rw [Sequence.reduce_spine hg]
  exact h w k s hs hn

theorem Spine.Denotes.deeper {sp : Spine} {d' : Nat} (hd : d ≤ d') (h : sp.Denotes g d e) :
    sp.Denotes g d' e :=
  fun w n s hs hn => h w n s hs (Nat.le_trans hd hn)

theorem Operand.Denotes.deeper {o : Operand} {d' : Nat} (hd : d ≤ d') (h : o.Denotes g d e) :
    o.Denotes g d' e :=
  fun w n line s hs hn => h w n line s hs (Nat.le_trans hd hn)

theorem Operand.Denotes.spine {o : Operand} (h : o.Denotes g d e) :
    (Spine.operand o).Denotes g d e :=
  fun w n s hs hn => .look_bind (h w n _ s hs hn)

theorem Spine.Denotes.binary {lhs rhs : Spine} {a b : Expr}
    (op : { op : Operator // op.isBinary = true }) (line : Nat) (ha : lhs.Denotes g d a)
    (hb : rhs.Denotes g d b) : (Spine.binary op line lhs rhs).Denotes g d (.binary op a b) := by
  intro w n s hs hn
  rw [Expr.eval, Spine.eval]
  exact (ha w n s hs hn).bind fun v => (hb w n s hs hn).bind fun v' => .fault line _ s

/-! ### Operands -/

/-- A prefix operator is applied to what stands behind it. -/
theorem Operand.Denotes.unary {o : Operand} (op : { op : Operator // op.isPrefix = true })
    (h : o.Denotes g d e) :
    Operand.Denotes g d { o with prefixes := op :: o.prefixes } (.unary op e) := by
  intro w n line s hs hn
  have heq : (engine w n).operandAt line { o with prefixes := op :: o.prefixes } = (do
      let v ← (engine w n).operandAt line o
      note (.applies op)
      Run.orFault line .fault (Value.unary op v)) := by
    simp only [Engine.operandAt, Engine.prefixed, bind_assoc]
  rw [heq, Expr.eval]
  exact (h w n line s hs hn).bind fun v => .note_bind (.fault line _ s)

theorem Engine.subscripted_append (eng : Engine) (line : Nat) (v : Value) (ids more : List NodeId) :
    eng.subscripted line v (ids ++ more) =
      eng.subscripted line v ids >>= fun v => eng.subscripted line v more := by
  induction ids generalizing v with
  | nil => exact (pure_bind _ _).symm
  | cons id ids ih =>
    rw [List.cons_append, subscripted, subscripted, bind_assoc]
    congr 1
    funext shape
    split
    · simp only [ih, bind_assoc]
    · rfl

/-- A subscript applies to what stands before it, if no prefix operator is applied first. -/
theorem Operand.Denotes.index {o : Operand} (hp : o.prefixes = []) (h : o.Denotes g d e)
    {id : NodeId} {q : Sequence} {position : Expr} (hs : g.shape id = .array [q])
    (hq : q.Denotes g position) (hd : position.height < d) :
    Operand.Denotes g d { o with subscripts := o.subscripts ++ [id] } (.index e position) := by
  intro w n line s hle hn
  have heq : (engine w n).operandAt line { o with subscripts := o.subscripts ++ [id] } = (do
      let v ← (engine w n).operandAt line o
      (engine w n).subscripted line v [id]) := by
    simp only [Engine.operandAt, Engine.subscripted_append, hp, Engine.prefixed, bind_assoc,
      bind_pure]
  have hshape := hle.shape_of_loaded hs Shape.noConfusion
  rw [heq, Expr.eval]
  refine (h w n line s hle hn).bind fun v => ?_
  rw [Engine.subscripted]
  refine .look_bind ?_
  rw [hshape]
  refine (hq w n s hle (by omega)).bind fun i => ?_
  have helement := Run.Answers.element line (v.index i) s
  simp only [Engine.subscripted, bind_pure]
  exact helement

/-! ### Nodes -/

/-- A node alone is an operand. -/
theorem Operand.Denotes.ofNode {id : NodeId}
    (h : ∀ (w : World) (n : Nat) (s : Situation), g.Le s.forest → d ≤ n + 1 →
      Run.Answers ((engine w n).nodeValue id) s e.eval) : Operand.Denotes g d ⟨id, [], []⟩ e := by
  intro w n line s hs hn
  have heq : (engine w n).operandAt line ⟨id, [], []⟩ = (engine w n).nodeValue id := by
    simp only [Engine.operandAt, Engine.subscripted, Engine.prefixed, bind_pure]
  rw [heq]
  exact h w n s hs hn

theorem Operand.Denotes.atom {id : NodeId} {a : Atom} (hlt : id < g.size)
    (hk : g.kind id = .literal a.value) (hs : g.shape id = .leaf) :
    Operand.Denotes g d ⟨id, [], []⟩ (.atom a) := by
  refine .ofNode fun w n s hle _ => ?_
  have hkind : s.forest.kind id = .literal a.value := (hle.kind_eq id hlt).trans hk
  rw [Engine.nodeValue, Expr.eval]
  refine .note_bind (.look_bind (.look_bind (.look_bind ?_)))
  rw [hle.shape_of_loaded hs Shape.noConfusion, hkind]
  exact .pure a.value s

theorem Operand.Denotes.group {id : NodeId} {q : Sequence} (hs : g.shape id = .groups [q])
    (hq : q.Denotes g e) (hd : e.height < d) : Operand.Denotes g d ⟨id, [], []⟩ e := by
  refine .ofNode fun w n s hle hn => ?_
  rw [Engine.nodeValue]
  refine .note_bind (.look_bind (.look_bind (.look_bind ?_)))
  rw [hle.shape_of_loaded hs Shape.noConfusion]
  exact hq w n s hle (by omega)

theorem Sequence.DenoteAll.evalAll {qs : List Sequence} {es : List Expr} (h : DenoteAll g qs es)
    {w : World} {n : Nat} {s : Situation} (hs : g.Le s.forest) (hn : Expr.heights es ≤ n) :
    Run.Answers ((engine w n).evalAll qs) s (Expr.evalAll es) := by
  induction qs generalizing es with
  | nil =>
    cases es with
    | nil => exact .pure [] s
    | cons e es => exact h.elim
  | cons q qs ih =>
    cases es with
    | nil => exact h.elim
    | cons e es =>
      rw [Expr.heights] at hn
      rw [Engine.evalAll, Expr.evalAll]
      exact (h.1 w n s hs (by omega)).bind fun v => (ih h.2 (by omega)).bind fun vs => .pure _ s

theorem Operand.Denotes.array {id : NodeId} {qs : List Sequence} {es : List Expr}
    (hs : g.shape id = .array qs) (hq : Sequence.DenoteAll g qs es) (hd : Expr.heights es < d) :
    Operand.Denotes g d ⟨id, [], []⟩ (.array es) := by
  refine .ofNode fun w n s hle hn => ?_
  rw [Engine.nodeValue, Expr.eval]
  refine .note_bind (.look_bind (.look_bind (.look_bind ?_)))
  rw [hle.shape_of_loaded hs Shape.noConfusion]
  exact (hq.evalAll hle (by omega)).bind fun vs => .pure _ s

end Denotes

end TagLang
