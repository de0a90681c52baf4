import TagLang.Proofs.Account
import TagLang.Proofs.Loading
import TagLang.Session

/-!
# Sound moments and good situations

* `Moment.Sound`: what holds at every moment of a run of a loaded program.
* `Situation.Good`: what holds of a session at all times.  The forest is sound, and everything that
  can be called or inserted again is a loaded block.
* `Machine.Advances`: a part of a run with sound moments only, in a forest that grows.
* `Excused`: the failures that a loaded program may have.  Operators between well-formed operands
  have no others (`Regular`, `Sequence.unwind_applies`).
-/

namespace TagLang

open Machine

/-! ### Names in a shape -/

/-- The nodes that an expression names. -/
def Sequence.nodes (s : Sequence) : List NodeId :=
  s.operands.flatMap fun o => o.node :: o.subscripts

/-- The nodes that a shape names. -/
def Shape.nodes : Shape → List NodeId
  | unloaded | leaf | block | break_ | free _ | freeAll | extern_ .. => []
  | groups values | array values | call _ values => values.flatMap Sequence.nodes
  | pair _ s | print s | input s | return_ s | convert _ s | insert s => s.nodes
  | declaration _ subscripts _ value => subscripts.flatMap Sequence.nodes ++ value.nodes
  | branch _ test body chained => test :: body :: chained.toList
  | while_ test body | repeat_ test body => [test, body]
  | foreach _ collection body => body :: collection.nodes
  | else_ body | local_ body => [body]
  | function f => [f.body]

/-! ### Sound moments -/

namespace Situation

/-- Every node that a node, a function or an inserted file is said to lead to is in the forest. -/
structure InForest (s : Situation) : Prop where
  children : ∀ id, ∀ c ∈ s.forest.children id, c < s.forest.size
  shapes : ∀ id, ∀ n ∈ (s.forest.shape id).nodes, n < s.forest.size
  bound : ∀ name b f, s.registry.get? name = some b → b.kind = .function (.script f) →
    f.body < s.forest.size
  hidden : ∀ h ∈ s.registry.pending, ∀ b f, h.hidden = some b → b.kind = .function (.script f) →
    f.body < s.forest.size
  inserted : ∀ path root, s.inserted.get? path = some root → root < s.forest.size

/-- The node and everything above it is in the part of the forest that is not passed over. -/
def Exposed (s : Situation) (id : NodeId) : Prop :=
  id < s.forest.size ∧ ∀ a ∈ s.forest.lineage id, ¬ s.forest.IsPassedOver a

end Situation

/-- What holds at every moment of a run. -/
def Moment.Sound (t : Moment) : Prop :=
  t.situation.InForest ∧
    match t.event with
    | .runs id => t.situation.forest.IsStatement id ∧ t.situation.Exposed id
    | .evaluates id => t.situation.forest.HasValue id ∧ t.situation.Exposed id
    | .applies op => op = .sub ∨ op = .not
    | .asks f args => ∀ n, f.arity = some n → args.length = n
    | _ => True

/-- Failures that only a broken expression has. -/
def Cause.isStructural : Cause → Bool
  | missingOperand _ | emptyExpression | fault (.notBinary _) => true
  | _ => false

/-- The failure is none of a broken expression, and is one of spelling only if loading an inserted
file has raised it. -/
def Excused (watched : Bool) (moments : List Moment) (failure : Failure) : Prop :=
  failure.cause.isStructural = false ∧
    (watched = true → failure.cause.category = .spelling →
      ∃ t ∈ moments, t.event = .refuses true failure)

/-! ### Good situations -/

/-- The node is the root of a tree that has been loaded. -/
structure Forest.IsRoot (f : Forest) (id : NodeId) : Prop where
  isBody : f.IsBody id
  parent_eq : f.parent id = id

theorem Forest.Le.isRoot {f g : Forest} (h : f.Le g) {id : NodeId} (hr : f.IsRoot id) :
    g.IsRoot id where
  isBody := h.isBody hr.isBody
  parent_eq := (h.parent_eq id (lt_size_of_shape hr.isBody.shape_ne)).trans hr.parent_eq

theorem Forest.IsStatement.not_isPassedOver {f : Forest} {id : NodeId} (h : f.IsStatement id) :
    ¬ f.IsPassedOver id := by
  intro hp
  rw [Forest.IsStatement, hp.2, hp.1] at h
  cases h

theorem Forest.HasValue.not_isPassedOver {f : Forest} {id : NodeId} (h : f.HasValue id) :
    ¬ f.IsPassedOver id := by
  intro hp
  rw [Forest.HasValue, hp.2, hp.1] at h
  cases h

/-- What holds of a session at all times. -/
structure Situation.Good (s : Situation) : Prop where
  forest : s.forest.Good
  registry : s.registry.Fits s.forest
  inserted : ∀ path root, s.inserted.get? path = some root → s.forest.IsRoot root

namespace Forest

variable {f : Forest}

theorem Sound.nodes_sequence {s : Sequence} (hs : s.Fits f) : ∀ n ∈ s.nodes, n < f.size := by
  intro n hn
  obtain ⟨o, ho, hn⟩ := List.mem_flatMap.mp hn
  have hfit := hs.operands o ho
  rcases List.mem_cons.mp hn with rfl | hn
  · exact lt_size_of_shape hfit.node.shape_ne
  · obtain ⟨index, hi⟩ := hfit.subscripts n hn
    refine lt_size_of_shape ?_
    rw [hi]
    exact Shape.noConfusion

theorem Sound.nodes_sequences {values : List Sequence} (hs : ∀ s ∈ values, s.Fits f) :
    ∀ n ∈ values.flatMap Sequence.nodes, n < f.size := by
  intro n hn
  obtain ⟨s, hm, hn⟩ := List.mem_flatMap.mp hn
  exact nodes_sequence (hs s hm) n hn

/-- The branch that is chained to a node is a further branch of the forest. -/
theorem chained_eq_some {id next : NodeId} (h : f.chained id = some next) :
    (f.kind next).isFurther = true ∧ next ∈ f.children (f.parent id) := by
  obtain ⟨hn, hk⟩ := Option.filter_eq_some_iff.mp h
  exact ⟨hk, Le.mem_children_of_siblings (.inr hn)⟩

/-- A shape that fits names only nodes of the forest. -/
theorem Sound.nodes_shape (hf : f.WellFormed) {id : NodeId} {shape : Shape}
    (h : shape.Fits f id) : ∀ n ∈ shape.nodes, n < f.size := by
  have hbody : ∀ {body}, f.IsBody body → body < f.size := fun hb => lt_size_of_shape hb.shape_ne
  cases shape with
  | groups values | array values | call name arguments => exact nodes_sequences h.2
  | pair item collection | print value | input prompt | return_ value | convert target value
  | insert target => exact nodes_sequence h.2
  | declaration name subscripts op value =>
    intro n hn
    rcases List.mem_append.mp hn with hn | hn
    · exact nodes_sequences h.2.1 n hn
    · exact nodes_sequence h.2.2.2 n hn
  | branch opening test body chained =>
    obtain ⟨_, ht, hb, hc, _⟩ := h
    intro n hn
    rcases List.mem_cons.mp hn with rfl | hn
    · exact lt_size_of_shape ht.shape_ne
    · rcases List.mem_cons.mp hn with rfl | hn
      · exact hbody hb.2
      · rw [Option.mem_toList, hc] at hn
        exact ((hf.mem_children _ n).mp (chained_eq_some hn).2).1
  | while_ test body | repeat_ count body =>
    intro n hn
    rcases List.mem_cons.mp hn with rfl | hn
    · exact lt_size_of_shape h.2.1.shape_ne
    · exact List.mem_singleton.mp hn ▸ hbody h.2.2.2
  | foreach item collection body =>
    intro n hn
    rcases List.mem_cons.mp hn with rfl | hn
    · exact hbody h.2.2.2
    · exact nodes_sequence h.2.1 n hn
  | else_ body => exact fun n hn => List.mem_singleton.mp hn ▸ hbody h.2.1.2
  | local_ body => exact fun n hn => List.mem_singleton.mp hn ▸ hbody h.2.2
  | function g => exact fun n hn => List.mem_singleton.mp hn ▸ hbody h.2.2
  | _ => exact fun n hn => nomatch hn

end Forest

namespace Situation.Good

variable {s : Situation}

theorem inForest (h : s.Good) : s.InForest where
  children id c hc := ((h.forest.wellFormed.mem_children id c).mp hc).1
  shapes id := Forest.Sound.nodes_shape h.forest.wellFormed (h.forest.sound id)
  bound name b f hb hf := Forest.lt_size_of_shape (h.registry.bound name b hb f hf).shape_ne
  hidden t ht b f hb hf := Forest.lt_size_of_shape (h.registry.hidden t ht b hb f hf).shape_ne
  inserted path root hr := Forest.lt_size_of_shape (h.inserted path root hr).isBody.shape_ne

/-- A loaded node is exposed unless it was itself passed over. -/
theorem exposed (h : s.Good) {id : NodeId} (hs : s.forest.shape id ≠ .unloaded)
    (hp : ¬ s.forest.IsPassedOver id) : s.Exposed id := by
  refine ⟨Forest.lt_size_of_shape hs, fun a ha => ?_⟩
  by_cases hne : a = id
  · exact hne ▸ hp
  · exact h.forest.sheltered id hs a ha hne

/-- Changes that leave the forest and the inserted files alone. -/
theorem of_eq (h : s.Good) {s' : Situation} (hf : s'.forest = s.forest)
    (hi : s'.inserted = s.inserted) (hr : s'.registry.Fits s.forest) : s'.Good where
  forest := hf ▸ h.forest
  registry := hf ▸ hr
  inserted path root hp := hf ▸ h.inserted path root (hi ▸ hp)

theorem onRegistry (h : s.Good) {f : Registry → Registry} (hr : (f s.registry).Fits s.forest) :
    (s.onRegistry f).Good :=
  h.of_eq rfl rfl hr

theorem switch (h : s.Good) (id : NodeId) (on : Bool) : (s.switch id on).Good :=
  h.of_eq rfl rfl h.registry

theorem runs (h : s.Good) {id : NodeId} (hid : s.forest.IsStatement id) :
    Moment.Sound ⟨.runs id, s⟩ :=
  ⟨h.inForest, hid, h.exposed hid.shape_ne hid.not_isPassedOver⟩

theorem evaluates (h : s.Good) {id : NodeId} (hid : s.forest.HasValue id) :
    Moment.Sound ⟨.evaluates id, s⟩ :=
  ⟨h.inForest, hid, h.exposed hid.shape_ne hid.not_isPassedOver⟩

end Situation.Good

/-! ### Parts of runs -/

/-- A part of a run that leaves a larger forest behind and only sound moments on the account. -/
structure Machine.Advances (m m' : Machine) : Prop where
  le : m.forest.Le m'.forest
  continues : Continues m m'
  sound : ∀ t ∈ since m m', t.Sound

namespace Machine.Advances

variable {m m₁ m₂ : Machine}

theorem refl (m : Machine) : Advances m m where
  le := .refl _
  continues := .refl m
  sound t ht := by
    rw [Continues.since_self] at ht
    cases ht

theorem trans (h₁ : Advances m m₁) (h₂ : Advances m₁ m₂) : Advances m m₂ where
  le := h₁.le.trans h₂.le
  continues := h₁.continues.trans h₂.continues
  sound t ht := by
    rw [h₁.continues.since_trans h₂.continues] at ht
    rcases List.mem_append.mp ht with ht | ht
    · exact h₂.sound t ht
    · exact h₁.sound t ht

theorem mem_since (h₁ : Advances m m₁) (h₂ : Advances m₁ m₂) {t : Moment}
    (ht : t ∈ since m₁ m₂) : t ∈ since m m₂ := by
  rw [h₁.continues.since_trans h₂.continues]
  exact List.mem_append_left _ ht

theorem update {f : Situation → Situation} (hle : m.forest.Le (f m.toSituation).forest) :
    Advances m (m.update f) where
  le := hle
  continues := .update m f
  sound t ht := by
    rw [Continues.since_update] at ht
    cases ht

theorem record {event : Event} (hs : Moment.Sound ⟨event, m.toSituation⟩) :
    Advances m (m.record event) where
  le := by
    rw [toSituation_record]
    exact .refl _
  continues := .record m event
  sound t ht := by
    by_cases hw : m.watched = true
    · rw [Continues.since_record hw, List.mem_singleton] at ht
      exact ht ▸ hs
    · rw [Machine.record, if_neg hw, Continues.since_self] at ht
      cases ht

end Machine.Advances

/-! ### Results of value operations -/

/-- The fault, if there is one, is not that an operator stands where it does not belong. -/
def Regular {α : Type} : Except Fault α → Prop
  | .ok _ => True
  | .error fault => (Cause.fault fault).isStructural = false

namespace Regular

theorem ofChecked (r : Option Int64) : Regular (Value.ofChecked r) := by
  cases r <;> trivial

theorem intArithmetic (op : Operator) (a b : Int64) : Regular (Value.intArithmetic op a b) := by
  unfold Value.intArithmetic
  split
  · exact ofChecked _
  · exact ofChecked _
  · exact ofChecked _
  · split
    · rfl
    · exact ofChecked _
  · split
    · rfl
    · exact ofChecked _
  · split
    · trivial
    · split
      · exact ofChecked _
      · rfl
  · trivial

theorem arithmetic (op : Operator) (a b : Value) : Regular (Value.arithmetic op a b) := by
  unfold Value.arithmetic
  split
  · exact intArithmetic _ _ _
  · split
    · trivial
    · rfl

theorem sum (a b : Value) : Regular (Value.sum a b) := by
  unfold Value.sum
  split
  · trivial
  · trivial
  · exact arithmetic _ _ _

theorem logic (op : Operator) (test : Bool → Bool → Bool) (a b : Value) :
    Regular (Value.logic op test a b) := by
  unfold Value.logic
  split
  · trivial
  · rfl

theorem ordered (op : Operator) (test : Ordering → Bool) (a b : Value) :
    Regular (Value.ordered op test a b) := by
  unfold Value.ordered
  split
  · trivial
  · rfl

/-- An operator between two operands is one that belongs there. -/
theorem binary {op : Operator} (h : op.isBinary = true) (a b : Value) :
    Regular (Value.binary op a b) := by
  cases op with
  | equal => trivial
  | notEqual => trivial
  | and => exact logic _ _ _ _
  | or => exact logic _ _ _ _
  | less => exact ordered _ _ _ _
  | greater => exact ordered _ _ _ _
  | lessEqual => exact ordered _ _ _ _
  | greaterEqual => exact ordered _ _ _ _
  | add => exact sum _ _
  | sub => exact arithmetic _ _ _
  | mul => exact arithmetic _ _ _
  | div => exact arithmetic _ _ _
  | mod => exact arithmetic _ _ _
  | pow => exact arithmetic _ _ _
  | root => exact arithmetic _ _ _
  | _ => cases h

theorem unary (op : Operator) (a : Value) : Regular (Value.unary op a) := by
  unfold Value.unary
  split
  · exact ofChecked _
  · trivial
  · trivial
  · rfl

theorem convert (target : Conversion) (v : Value) : Regular (Value.convert target v) := by
  unfold Value.convert
  dsimp only
  split
  · trivial
  · rfl

end Regular

/-- The arithmetic of a compound assignment stands between two operands. -/
theorem Operator.isBinary_of_compound {op arithmetic : Operator}
    (h : op.compound = some arithmetic) : arithmetic.isBinary = true := by
  cases op with
  | addAssign => cases h; rfl
  | subAssign => cases h; rfl
  | mulAssign => cases h; rfl
  | divAssign => cases h; rfl
  | modAssign => cases h; rfl
  | _ => cases h

/-! ### Reducing expressions -/

namespace Sequence

/-- What applying operators does to the stacks: there is one value more than there are operators. -/
def Balanced (values : List Value) (waiting : List (Operator × Nat)) : Prop :=
  values.length = waiting.length + 1 ∧ ∀ op ∈ waiting, op.1.isBinary = true

/-- The failure of applying an operator is none of a broken expression. -/
def Applies (r : Except Failure α) (R : α → Prop) : Prop :=
  (∀ a, r = .ok a → R a) ∧
    ∀ e, r = .error e → e.cause.isStructural = false ∧ e.cause.category ≠ .spelling

theorem unwind_applies (tightness : Nat) {values : List Value} {waiting : List (Operator × Nat)}
    (h : Balanced values waiting) :
    Applies (unwind tightness values waiting) fun p => Balanced p.1 p.2 := by
  induction waiting generalizing values with
  | nil => exact ⟨fun p hp => (by cases hp; exact h), fun e he => nomatch he⟩
  | cons top waiting ih =>
    obtain ⟨op, line⟩ := top
    obtain ⟨hlen, hops⟩ := h
    rw [unwind]
    split
    · exact ⟨fun p hp => (by cases hp; exact ⟨hlen, hops⟩), fun e he => nomatch he⟩
    · obtain ⟨rhs, lhs, rest, rfl⟩ : ∃ rhs lhs rest, values = rhs :: lhs :: rest := by
        match values, hlen with
        | rhs :: lhs :: rest, _ => exact ⟨rhs, lhs, rest, rfl⟩
        | [_], hlen => simp at hlen
        | [], hlen => simp at hlen
      have hreg := Regular.binary (hops (op, line) (List.mem_cons_self ..)) lhs rhs
      rw [applyTop]
      cases hv : Value.binary op lhs rhs with
      | ok v =>
        refine ih ⟨?_, fun o ho => hops o (List.mem_cons_of_mem _ ho)⟩
        simp only [List.length_cons] at hlen ⊢
        omega
      | error fault =>
        rw [hv] at hreg
        refine ⟨fun p hp => (nomatch hp), fun e he => ?_⟩
        cases he
        exact ⟨hreg, Category.noConfusion⟩

end Sequence

end TagLang
