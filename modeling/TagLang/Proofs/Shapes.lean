import TagLang.Proofs.Growth
import TagLang.Tree.Load

/-!
# What a shape promises

`Shape.Fits` says what holds of a node that was given a shape: the shape goes with the kind of the
node, the expressions in it are well formed, and the nodes that it names have shapes of their own
that go with the use made of them.  `Forest.shapeOf_meets`: a shape that is found for a node whose
children have been loaded fits.

What a shape promises does not change when the forest grows or more nodes are loaded
(`Forest.Le`).
-/

namespace TagLang

namespace NodeKind

/-- The node is a value by itself. -/
def isAtom : NodeKind → Bool
  | literal _ | reference _ => true
  | _ => false

/-- The node has nothing below it. -/
def isBare : NodeKind → Bool
  | literal _ | operator _ | reference _ | comma | colon => true
  | _ => false

/-- The node is a further branch of a chain. -/
def isFurther (kind : NodeKind) : Bool :=
  kind.isKeyword .elif || kind.isKeyword .else_

theorem isAtom_of_isBare {kind : NodeKind} (hb : kind.isBare = true) (hv : kind.isValue = true) :
    kind.isAtom = true := by
  cases kind <;> simp_all [isBare, isValue, isAtom]

end NodeKind

namespace Forest

/-- The node is a `local` statement of an inserted file, which has been passed over. -/
def IsPassedOver (f : Forest) (id : NodeId) : Prop :=
  f.kind id = .keyword .local_ ∧ f.shape id = .leaf

/-- The node gives a value when it is asked. -/
def HasValue (f : Forest) (id : NodeId) : Prop :=
  match f.shape id with
  | .leaf => (f.kind id).isAtom = true
  | .groups _ | .array _ | .call .. | .input _ | .convert .. => True
  | _ => False

/-- The node can be run. -/
def IsStatement (f : Forest) (id : NodeId) : Prop :=
  match f.shape id with
  | .leaf => (f.kind id).isAtom = true
  | .unloaded | .pair .. => False
  | _ => True

/-- The node is a block that has been loaded. -/
def IsBody (f : Forest) (id : NodeId) : Prop :=
  f.kind id = .block ∧ f.shape id = .block

/-- The node stands right behind a branch with a condition. -/
def Follows (f : Forest) (id : NodeId) : Prop :=
  ∃ before, (f.siblings id).1 = some before ∧
    ((f.kind before).isKeyword .if_ || (f.kind before).isKeyword .elif) = true

end Forest

/-- An operand whose value can be found. -/
structure Operand.Fits (f : Forest) (o : Operand) : Prop where
  node : f.HasValue o.node
  prefixes : ∀ op ∈ o.prefixes, op.isPrefix = true
  subscripts : ∀ id ∈ o.subscripts, ∃ index, f.shape id = .array [index]

/-- An expression that can be reduced: there is an operator between any two operands. -/
structure Sequence.Fits (f : Forest) (s : Sequence) : Prop where
  operands : ∀ o ∈ s.operands, o.Fits f
  operators : ∀ op ∈ s.operators, op.1.isBinary = true
  between : s.operators.length = s.operands.length - 1

section Fits

variable {f : Forest} {o : Operand}

theorem Operand.Fits.subscript (h : o.Fits f) {id : NodeId} {index : Sequence}
    (hs : f.shape id = .array [index]) :
    Operand.Fits f { o with subscripts := o.subscripts ++ [id] } :=
  ⟨h.node, h.prefixes,
    List.forall_mem_append.mpr ⟨h.subscripts, List.forall_mem_singleton.mpr ⟨index, hs⟩⟩⟩

end Fits

/-- The expression has operands with the property, at least one, and an operator between any two. -/
structure Sequence.Consists (P : Operand → Prop) (s : Sequence) : Prop where
  operands : ∀ o ∈ s.operands, P o
  operators : ∀ op ∈ s.operators, op.1.isBinary = true
  between : s.operands.length = s.operators.length + 1

section Consists

variable {P : Operand → Prop} {o : Operand}

theorem Sequence.Consists.singleton (h : P o) : Sequence.Consists P ⟨[o], []⟩ :=
  ⟨List.forall_mem_singleton.mpr h, List.forall_mem_nil _, rfl⟩

theorem Sequence.Consists.cons {s : Sequence} (hs : s.Consists P) (h : P o) {op : Operator × Nat}
    (hop : op.1.isBinary = true) : Sequence.Consists P ⟨o :: s.operands, op :: s.operators⟩ where
  operands := List.forall_mem_cons.mpr ⟨h, hs.operands⟩
  operators := List.forall_mem_cons.mpr ⟨hop, hs.operators⟩
  between := congrArg Nat.succ hs.between

theorem Sequence.Consists.fits {f : Forest} {s : Sequence} (h : s.Consists (Operand.Fits f)) :
    s.Fits f where
  operands := h.operands
  operators := h.operators
  between := by rw [h.between, Nat.add_sub_cancel]

end Consists

/-- What holds of a node that has been given a shape. -/
def Shape.Fits (f : Forest) (id : NodeId) : Shape → Prop
  | unloaded => True
  | leaf => (f.kind id).isBare = true ∨ f.kind id = .keyword .local_
  | block => f.kind id = .block ∧ ∀ c ∈ f.children id, f.IsStatement c ∨ f.IsPassedOver c
  | groups values => f.kind id = .group ∧ ∀ s ∈ values, s.Fits f
  | pair _ collection => f.kind id = .group ∧ collection.Fits f
  | array values => f.kind id = .brackets ∧ ∀ s ∈ values, s.Fits f
  | print value => f.kind id = .keyword .print ∧ value.Fits f
  | input prompt => f.kind id = .keyword .input ∧ prompt.Fits f
  | return_ value => f.kind id = .keyword .return_ ∧ value.Fits f
  | convert target value => f.kind id = .keyword (.convert target) ∧ value.Fits f
  | insert target => f.kind id = .keyword .insert ∧ target.Fits f
  | declaration name subscripts op value => f.kind id = .declaration name ∧
      (∀ s ∈ subscripts, s.Fits f) ∧ op.isAssignment = true ∧ value.Fits f
  | branch opening test body chained =>
    f.kind id = .keyword (if opening then .if_ else .elif) ∧ f.HasValue test ∧
      (body ∈ f.children id ∧ f.IsBody body) ∧ chained = f.chained id ∧
      (opening = false → f.Follows id)
  | else_ body =>
    f.kind id = .keyword .else_ ∧ (body ∈ f.children id ∧ f.IsBody body) ∧ f.Follows id
  | while_ test body =>
    f.kind id = .keyword .while_ ∧ f.HasValue test ∧ body ∈ f.children id ∧ f.IsBody body
  | repeat_ count body =>
    f.kind id = .keyword .repeat_ ∧ f.HasValue count ∧ body ∈ f.children id ∧ f.IsBody body
  | foreach _ collection body =>
    f.kind id = .keyword .repeat_ ∧ collection.Fits f ∧ body ∈ f.children id ∧ f.IsBody body
  | call _ arguments => f.kind id = .keyword .call ∧ ∀ s ∈ arguments, s.Fits f
  | function g => f.kind id = .keyword .function ∧ g.body ∈ f.children id ∧ f.IsBody g.body
  | break_ => f.kind id = .keyword .break_
  | free _ | freeAll => f.kind id = .keyword .free
  | local_ body => f.kind id = .keyword .local_ ∧ body ∈ f.children id ∧ f.IsBody body
  | extern_ .. => f.kind id = .keyword .extern_

/-- Every shape that has been given fits. -/
def Forest.Sound (f : Forest) : Prop :=
  ∀ id, (f.shape id).Fits f id

/-! ### Loading more -/

/-- The second forest has all nodes of the first one, with their shapes if they had one. -/
structure Forest.Le (f g : Forest) : Prop where
  size_le : f.size ≤ g.size
  kind_eq : ∀ id, id < f.size → g.kind id = f.kind id
  line_eq : ∀ id, id < f.size → g.line id = f.line id
  parent_eq : ∀ id, id < f.size → g.parent id = f.parent id
  children_eq : ∀ id, id < f.size → g.children id = f.children id
  shape_eq : ∀ id, f.shape id ≠ .unloaded → g.shape id = f.shape id

namespace Forest

variable {f g : Forest}

theorem lt_size_of_shape {id : NodeId} (h : f.shape id ≠ .unloaded) : id < f.size := by
  refine Nat.lt_of_not_le fun hle => h ?_
  rw [shape, node_of_size_le hle]

theorem shape_of_size_le {id : NodeId} (h : f.size ≤ id) : f.shape id = .unloaded := by
  rw [shape, node_of_size_le h]

theorem HasValue.shape_ne {id : NodeId} (h : f.HasValue id) : f.shape id ≠ .unloaded := by
  intro hs
  rw [HasValue, hs] at h
  exact h

theorem IsStatement.shape_ne {id : NodeId} (h : f.IsStatement id) : f.shape id ≠ .unloaded := by
  intro hs
  rw [IsStatement, hs] at h
  exact h

theorem IsBody.shape_ne {id : NodeId} (h : f.IsBody id) : f.shape id ≠ .unloaded := by
  rw [h.2]
  exact Shape.noConfusion

namespace Le

theorem refl (f : Forest) : f.Le f :=
  ⟨Nat.le_refl _, fun _ _ => rfl, fun _ _ => rfl, fun _ _ => rfl, fun _ _ => rfl, fun _ _ => rfl⟩

theorem trans {k : Forest} (h₁ : f.Le g) (h₂ : g.Le k) : f.Le k where
  size_le := Nat.le_trans h₁.size_le h₂.size_le
  kind_eq id hid := (h₂.kind_eq id (Nat.lt_of_lt_of_le hid h₁.size_le)).trans (h₁.kind_eq id hid)
  line_eq id hid := (h₂.line_eq id (Nat.lt_of_lt_of_le hid h₁.size_le)).trans (h₁.line_eq id hid)
  parent_eq id hid :=
    (h₂.parent_eq id (Nat.lt_of_lt_of_le hid h₁.size_le)).trans (h₁.parent_eq id hid)
  children_eq id hid :=
    (h₂.children_eq id (Nat.lt_of_lt_of_le hid h₁.size_le)).trans (h₁.children_eq id hid)
  shape_eq id hid := by
    have h := h₁.shape_eq id hid
    rw [← h] at hid ⊢
    exact h₂.shape_eq id hid

theorem of_sprouts (h : f.Sprouts g) : f.Le g where
  size_le := Nat.le_of_lt h.size_lt
  kind_eq id hid := by rw [kind, kind, h.old id hid]
  line_eq id hid := by rw [line, line, h.old id hid]
  parent_eq id hid := by rw [parent, parent, h.old id hid]
  children_eq id hid := by rw [children, children, h.old id hid]
  shape_eq id hid := by rw [shape, shape, h.old id (lt_size_of_shape hid)]

variable (h : f.Le g)
include h

theorem hasValue {id : NodeId} (hv : f.HasValue id) : g.HasValue id := by
  have hs := hv.shape_ne
  rw [HasValue, h.shape_eq id hs, h.kind_eq id (lt_size_of_shape hs)]
  exact hv

theorem isStatement {id : NodeId} (hv : f.IsStatement id) : g.IsStatement id := by
  have hs := hv.shape_ne
  rw [IsStatement, h.shape_eq id hs, h.kind_eq id (lt_size_of_shape hs)]
  exact hv

theorem isBody {id : NodeId} (hv : f.IsBody id) : g.IsBody id := by
  have hs := hv.shape_ne
  rw [IsBody, h.shape_eq id hs, h.kind_eq id (lt_size_of_shape hs)]
  exact hv

theorem isPassedOver {id : NodeId} (hv : f.IsPassedOver id) : g.IsPassedOver id := by
  have hs : f.shape id ≠ .unloaded := by
    rw [hv.2]
    exact Shape.noConfusion
  rw [IsPassedOver, h.shape_eq id hs, h.kind_eq id (lt_size_of_shape hs)]
  exact hv

theorem operand {o : Operand} (ho : o.Fits f) : o.Fits g where
  node := h.hasValue ho.node
  prefixes := ho.prefixes
  subscripts id hid := by
    obtain ⟨index, hs⟩ := ho.subscripts id hid
    refine ⟨index, ?_⟩
    rw [h.shape_eq id (by rw [hs]; exact Shape.noConfusion), hs]

theorem sequence {s : Sequence} (hs : s.Fits f) : s.Fits g :=
  { hs with operands := fun o ho => h.operand (hs.operands o ho) }

theorem sequences {values : List Sequence} (hs : ∀ s ∈ values, s.Fits f) :
    ∀ s ∈ values, s.Fits g :=
  fun s hm => h.sequence (hs s hm)

theorem siblings (hf : f.WellFormed) {id : NodeId} (hid : id < f.size) :
    g.siblings id = f.siblings id := by
  have hp : f.parent id < f.size := hf.parent_lt_size hid
  have hrow : (g.node (f.parent id)).children = (f.node (f.parent id)).children :=
    Array.toList_inj.mp (h.children_eq _ hp)
  rw [Forest.siblings, Forest.siblings, h.parent_eq id hid, hrow]

omit h in
/-- The neighbours of a node have the same parent. -/
theorem mem_children_of_siblings {id n : NodeId}
    (hn : (f.siblings id).1 = some n ∨ (f.siblings id).2 = some n) :
    n ∈ f.children (f.parent id) := by
  unfold Forest.siblings at hn
  split at hn
  · rcases hn with hn | hn <;> cases hn
  · dsimp only at hn
    split at hn
    · rcases hn with hn | hn <;> cases hn
    next i hi =>
      rcases hn with hn | hn
      · dsimp only at hn
        split at hn
        · cases hn
        · exact Array.mem_toList_iff.mpr (Array.mem_of_getElem? hn)
      · exact Array.mem_toList_iff.mpr (Array.mem_of_getElem? hn)

theorem chained (hf : f.WellFormed) {id : NodeId} (hid : id < f.size) :
    g.chained id = f.chained id := by
  rw [Forest.chained, Forest.chained, h.siblings hf hid]
  cases hn : (f.siblings id).2 with
  | none => rfl
  | some next =>
    have hlt := ((hf.mem_children _ next).mp (mem_children_of_siblings (.inr hn))).1
    simp only [Option.filter, h.kind_eq next hlt]

theorem follows (hf : f.WellFormed) {id : NodeId} (hid : id < f.size) (hw : f.Follows id) :
    g.Follows id := by
  obtain ⟨before, hb, hk⟩ := hw
  have hlt := ((hf.mem_children _ before).mp (mem_children_of_siblings (.inl hb))).1
  refine ⟨before, ?_, ?_⟩
  · rw [h.siblings hf hid, hb]
  · rw [h.kind_eq before hlt, hk]

theorem fits (hf : f.WellFormed) {id : NodeId} (hid : id < f.size) {shape : Shape}
    (hs : shape.Fits f id) : shape.Fits g id := by
  have hk := h.kind_eq id hid
  have hbody : ∀ {body}, body ∈ f.children id ∧ f.IsBody body →
      body ∈ g.children id ∧ g.IsBody body := by
    intro body hb
    exact ⟨h.children_eq id hid ▸ hb.1, h.isBody hb.2⟩
  cases shape with
  | unloaded => trivial
  | leaf =>
    rw [Shape.Fits, hk]
    exact hs
  | block =>
    refine ⟨hk.trans hs.1, fun c hc => ?_⟩
    rw [h.children_eq id hid] at hc
    exact (hs.2 c hc).imp h.isStatement h.isPassedOver
  | groups values => exact ⟨hk.trans hs.1, h.sequences hs.2⟩
  | pair item collection => exact ⟨hk.trans hs.1, h.sequence hs.2⟩
  | array values => exact ⟨hk.trans hs.1, h.sequences hs.2⟩
  | print value => exact ⟨hk.trans hs.1, h.sequence hs.2⟩
  | input prompt => exact ⟨hk.trans hs.1, h.sequence hs.2⟩
  | return_ value => exact ⟨hk.trans hs.1, h.sequence hs.2⟩
  | convert target value => exact ⟨hk.trans hs.1, h.sequence hs.2⟩
  | insert target => exact ⟨hk.trans hs.1, h.sequence hs.2⟩
  | declaration name subscripts op value =>
    obtain ⟨hkind, hsub, hop, hval⟩ := hs
    exact ⟨hk.trans hkind, h.sequences hsub, hop, h.sequence hval⟩
  | branch opening test body chained =>
    obtain ⟨hkind, htest, hb, hc, hw⟩ := hs
    exact ⟨hk.trans hkind, h.hasValue htest, hbody hb, hc.trans (h.chained hf hid).symm,
      fun ho => h.follows hf hid (hw ho)⟩
  | else_ body =>
    obtain ⟨hkind, hb, hw⟩ := hs
    exact ⟨hk.trans hkind, hbody hb, h.follows hf hid hw⟩
  | while_ test body => exact ⟨hk.trans hs.1, h.hasValue hs.2.1, hbody hs.2.2⟩
  | repeat_ count body => exact ⟨hk.trans hs.1, h.hasValue hs.2.1, hbody hs.2.2⟩
  | foreach item collection body => exact ⟨hk.trans hs.1, h.sequence hs.2.1, hbody hs.2.2⟩
  | call name arguments => exact ⟨hk.trans hs.1, h.sequences hs.2⟩
  | function g' => exact ⟨hk.trans hs.1, hbody hs.2⟩
  | break_ => exact hk.trans hs
  | free names => exact hk.trans hs
  | freeAll => exact hk.trans hs
  | local_ body => exact ⟨hk.trans hs.1, hbody hs.2⟩
  | extern_ source nickname => exact hk.trans hs

end Le

end Forest

/-! ### What loading may complain about -/

/-- The cause is something that is wrong with a source itself. -/
def Cause.isOfSource (c : Cause) : Bool :=
  c.category == .parser || c.category == .spelling || c.category == .name

/-- The result, if there is one, has a property, and otherwise a source is to blame. -/
def Meets {α : Type} (P : α → Prop) : Except Failure α → Prop
  | .ok a => P a
  | .error e => e.cause.isOfSource = true

namespace Meets

variable {α β : Type} {P : α → Prop} {Q : β → Prop} {x : Except Failure α}

theorem of_eq_ok {a : α} (h : Meets P x) (hx : x = .ok a) : P a := by
  rw [hx] at h
  exact h

theorem of_eq_error {e : Failure} (h : Meets P x) (hx : x = .error e) :
    e.cause.isOfSource = true := by
  rw [hx] at h
  exact h

theorem mono (h : Meets P x) {P' : α → Prop} (hp : ∀ a, P a → P' a) : Meets P' x := by
  cases x with
  | ok a => exact hp a h
  | error e => exact h

theorem bind {g : α → Except Failure β} (h : Meets P x) (hg : ∀ a, P a → Meets Q (g a)) :
    Meets Q (x.bind g) := by
  cases x with
  | ok a => exact hg a h
  | error e => exact h

theorem map {g : α → β} (h : Meets P x) (hg : ∀ a, P a → Q (g a)) : Meets Q (x.map g) := by
  cases x with
  | ok a => exact hg a h
  | error e => exact h

theorem mapM {γ : Type} {g : γ → Except Failure β} {cs : List γ}
    (hg : ∀ c ∈ cs, Meets Q (g c)) : Meets (fun bs => ∀ b ∈ bs, Q b) (cs.mapM g) := by
  induction cs with
  | nil => exact fun b hb => by cases hb
  | cons c rest ih =>
    rw [List.mapM_cons]
    refine bind (hg c (List.mem_cons_self ..)) fun b hb => ?_
    refine bind (ih fun d hd => hg d (List.mem_cons_of_mem _ hd)) fun bs hbs => ?_
    intro b' hb'
    rcases List.mem_cons.mp hb' with rfl | hb'
    · exact hb
    · exact hbs b' hb'

theorem forM {γ : Type} {g : γ → Except Failure Unit} {R : γ → Prop} {cs : List γ}
    (hg : ∀ c ∈ cs, Meets (fun _ => R c) (g c)) : Meets (fun _ => ∀ c ∈ cs, R c) (cs.forM g) := by
  induction cs with
  | nil => exact fun c hc => by cases hc
  | cons c rest ih =>
    refine bind (hg c (List.mem_cons_self ..)) fun _ hc => ?_
    refine (ih fun d hd => hg d (List.mem_cons_of_mem _ hd)).mono fun _ hrest => ?_
    intro d hd
    rcases List.mem_cons.mp hd with rfl | hd
    · exact hc
    · exact hrest d hd

end Meets

/-! ### Finding shapes -/

namespace Forest

variable {f : Forest} (hf : f.Sound)

theorem checkSingle_meets (id : NodeId) :
    Meets (fun _ => ∃ values, f.shape id = .groups values) (f.checkSingle id) := by
  unfold checkSingle
  split
  next h => exact ⟨_, h⟩
  next h => exact ⟨_, h⟩
  · rfl
  · rfl

theorem subscript_meets (id : NodeId) :
    Meets (fun index => f.shape id = .array [index]) (f.subscript id) := by
  unfold subscript
  split
  next h => exact h
  · rfl

/-- Both readers of expressions find operands with a property, wherever they start, if values have
it behind prefix operators and a subscript does not take it away. -/
theorem nexts_meet {P : Operand → Prop} (last : Nat) (ids : List NodeId)
    (hvalue : ∀ id ∈ ids, (f.kind id).isValue = true →
      ((f.kind id).isGroup = true → ∃ values, f.shape id = .groups values) →
      ∀ prefixes : List Operator, (∀ op ∈ prefixes, op.isPrefix = true) → P ⟨id, prefixes, []⟩)
    (hindex : ∀ o, P o → ∀ id ∈ ids, ∀ index, f.shape id = .array [index] →
      P { o with subscripts := o.subscripts ++ [id] }) :
    (∀ prefixes : List Operator, (∀ op ∈ prefixes, op.isPrefix = true) →
      Meets (fun s => s.Consists P) (f.operandNext last prefixes ids)) ∧
    (∀ o, P o → Meets (fun s => s.Consists P) (f.operatorNext last o ids)) := by
  -- The readers call each other, so the induction is on the nodes to come, for both at once.
  induction ids with
  | nil =>
    refine ⟨fun prefixes _ => ?_, fun o ho => ?_⟩
    · rw [operandNext]
      rfl
    · rw [operatorNext]
      exact .singleton ho
  | cons id rest ih =>
    obtain ⟨ihOperand, ihOperator⟩ := ih (fun x hx => hvalue x (List.mem_cons_of_mem _ hx))
      fun o ho x hx => hindex o ho x (List.mem_cons_of_mem _ hx)
    have hid : id ∈ id :: rest := List.mem_cons_self ..
    constructor
    · intro prefixes hp
      rw [operandNext]
      split
      next op hk =>
        split
        next hop =>
          exact ihOperand _ (List.forall_mem_append.mpr ⟨hp, List.forall_mem_singleton.mpr hop⟩)
        · rfl
      next =>
        split
        next hv =>
          split
          next hg =>
            refine (checkSingle_meets id).bind fun _ hs => ihOperator _ ?_
            exact hvalue id hid hv (fun _ => hs) prefixes hp
          next hg => exact ihOperator _ (hvalue id hid hv (fun h => absurd h hg) prefixes hp)
        · rfl
    · intro o ho
      rw [operatorNext]
      split
      next op hk =>
        split
        next hop => exact (ihOperand [] (List.forall_mem_nil _)).map fun s hs => hs.cons ho hop
        · rfl
      next =>
        exact (subscript_meets id).bind fun index hs => ihOperator _ (hindex o ho id hid index hs)
      next =>
        split <;> rfl

theorem mem_of_mem_runs {p : NodeId → Bool} {ids run : List NodeId} (hr : run ∈ runs p ids)
    {id : NodeId} (hid : id ∈ run) : id ∈ ids := by
  induction ids generalizing run id with
  | nil =>
    simp only [runs, List.mem_singleton] at hr
    simp [hr] at hid
  | cons b rest ih => grind [runs]

section Expressions

variable {P : Sequence → Prop} {ids : List NodeId}

/-- What holds of an expression holds of it where it may not be left out. -/
theorem required_meets_of (h : Meets P (f.sequence ids)) (line : Nat) (after : String) :
    Meets P (f.required ids line after) := by
  unfold required
  refine h.bind fun s hs => ?_
  split
  · rfl
  · exact hs

/-- What holds of the expressions in some nodes holds of those between the commas there. -/
theorem groups_meets_of (h : ∀ run, (∀ id ∈ run, id ∈ ids) → Meets P (f.sequence run))
    (line : Nat) : Meets (fun values => ∀ s ∈ values, P s) (f.groups ids line) := by
  unfold groups
  split
  · exact List.forall_mem_nil _
  · refine Meets.mapM fun run hrun => ?_
    refine (h run fun id hid => mem_of_mem_runs hrun hid).bind fun s hs => ?_
    split
    · rfl
    · exact hs

end Expressions

include hf

/-- A loaded node of a kind that stands for a value has one; a group must not be a pair. -/
theorem hasValue_of_isValue {id : NodeId} (hl : f.shape id ≠ .unloaded)
    (hv : (f.kind id).isValue = true)
    (hg : (f.kind id).isGroup = true → ∃ values, f.shape id = .groups values) :
    f.HasValue id := by
  have hfit := hf id
  unfold HasValue
  cases hs : f.shape id with
  | unloaded => exact hl hs
  | leaf =>
    rw [hs] at hfit
    rcases hfit with hb | hk
    · exact NodeKind.isAtom_of_isBare hb hv
    · rw [hk] at hv
      cases hv
  | groups values => trivial
  | array values => trivial
  | call name arguments => trivial
  | input prompt => trivial
  | convert target value => trivial
  | pair item collection =>
    rw [hs] at hfit
    obtain ⟨values, hv⟩ := hg (by rw [hfit.1]; rfl)
    rw [hs] at hv
    cases hv
  | branch opening test body chained =>
    rw [hs] at hfit
    cases opening <;> simp_all [Shape.Fits, NodeKind.isValue]
  | _ =>
    rw [hs] at hfit
    simp_all [Shape.Fits, NodeKind.isValue]

theorem sequence_meets {ids : List NodeId} (hl : ∀ id ∈ ids, f.shape id ≠ .unloaded) :
    Meets (fun s => s.Fits f) (f.sequence ids) := by
  unfold sequence
  split
  · exact ⟨fun o ho => (by cases ho), fun op hop => (by cases hop), rfl⟩
  · refine ((nexts_meet _ _ (fun id hid hv hg prefixes hp => ?_) fun o ho id _ index hs => ?_).1 []
      (List.forall_mem_nil _)).mono fun s hs => hs.fits
    · exact ⟨hasValue_of_isValue hf (hl id hid) hv hg, hp, List.forall_mem_nil _⟩
    · exact ho.subscript hs

theorem required_meets {ids : List NodeId} (hl : ∀ id ∈ ids, f.shape id ≠ .unloaded) (line : Nat)
    (after : String) : Meets (fun s => s.Fits f) (f.required ids line after) :=
  required_meets_of (sequence_meets hf hl) line after

theorem groups_meets {ids : List NodeId} (hl : ∀ id ∈ ids, f.shape id ≠ .unloaded) (line : Nat) :
    Meets (fun values => ∀ s ∈ values, s.Fits f) (f.groups ids line) :=
  groups_meets_of (fun _ hrun => sequence_meets hf fun id hid => hl id (hrun id hid)) line

/-- A loaded node that may start a statement can be run, unless it is passed over. -/
theorem checkStatement_meets {id : NodeId} (hl : f.shape id ≠ .unloaded) :
    Meets (fun _ => f.IsStatement id ∨ f.IsPassedOver id) (f.checkStatement id) := by
  have hfit := hf id
  have hleaf : f.shape id = .leaf → (f.kind id).isBare = true ∨ f.kind id = .keyword .local_ := by
    intro hs
    rw [hs] at hfit
    exact hfit
  have hpair : ∀ item collection, f.shape id = .pair item collection → f.kind id = .group := by
    intro item collection hs
    rw [hs] at hfit
    exact hfit.1
  have hother : (f.kind id).isGroup = false →
      ((f.kind id).isBare = true → (f.kind id).isAtom = true) →
      f.IsStatement id ∨ f.IsPassedOver id := by
    intro hg ha
    unfold IsStatement
    cases hs : f.shape id with
    | unloaded => exact absurd hs hl
    | leaf => exact (hleaf hs).imp ha fun hk => ⟨hk, hs⟩
    | pair item collection =>
      rw [hpair item collection hs] at hg
      cases hg
    | _ => exact .inl trivial
  unfold checkStatement
  split
  · rfl
  · rfl
  · rfl
  next hk =>
    refine (checkSingle_meets id).mono fun _ hs => .inl ?_
    obtain ⟨values, hs⟩ := hs
    unfold IsStatement
    rw [hs]
    trivial
  next =>
    refine hother ?_ fun hb => ?_ <;> cases hk : f.kind id <;>
      simp_all [NodeKind.isGroup, NodeKind.isBare, NodeKind.isAtom]

theorem isBody_of_kind {id : NodeId} (hl : f.shape id ≠ .unloaded) (hk : f.kind id = .block) :
    f.IsBody id := by
  refine ⟨hk, ?_⟩
  have hfit := hf id
  cases hs : f.shape id with
  | unloaded => exact absurd hs hl
  | block => rfl
  | leaf =>
    rw [hs] at hfit
    simp_all [Shape.Fits, NodeKind.isBare]
  | _ =>
    rw [hs] at hfit
    simp_all [Shape.Fits]

section Node

variable {id : NodeId} (hl : ∀ c ∈ f.children id, f.shape c ≠ .unloaded)
include hl

theorem blockShape_meets (hk : f.kind id = .block) :
    Meets (fun s => s.Fits f id ∧ s ≠ .unloaded) (f.blockShape (f.children id)) := by
  unfold blockShape
  refine (Meets.forM fun c hc => checkStatement_meets hf (hl c hc)).map fun _ hs => ?_
  exact ⟨⟨hk, hs⟩, Shape.noConfusion⟩

theorem groupShape_meets (hk : f.kind id = .group) (line : Nat) :
    Meets (fun s => s.Fits f id ∧ s ≠ .unloaded) (f.groupShape (f.children id) line) := by
  unfold groupShape
  split
  · split
    next name colon collection hids =>
      split
      · refine (required_meets hf (fun c hc => hl c ?_) _ _).map fun s hs =>
          ⟨⟨hk, hs⟩, Shape.noConfusion⟩
        rw [hids]
        exact List.mem_cons_of_mem _ (List.mem_cons_of_mem _ hc)
      · rfl
    · rfl
  · exact (groups_meets hf hl line).map fun values hs => ⟨⟨hk, hs⟩, Shape.noConfusion⟩

theorem declarationShape_meets {name : String} (hk : f.kind id = .declaration name) (line : Nat) :
    Meets (fun s => s.Fits f id ∧ s ≠ .unloaded)
      (f.declarationShape name (f.children id) line) := by
  unfold declarationShape
  have hsub : Meets (fun subscripts => ∀ s ∈ subscripts, s.Fits f)
      (((f.children id).takeWhile fun c => (f.kind c).isBrackets).mapM f.subscript) := by
    refine Meets.mapM fun c _ => (subscript_meets c).mono fun index hs => ?_
    have hfit := hf c
    rw [hs] at hfit
    exact hfit.2 index (List.mem_singleton_self _)
  refine hsub.bind fun subscripts hsub => ?_
  split
  · rfl
  next first value hrest =>
    have hvalue : ∀ c ∈ value, f.shape c ≠ .unloaded := by
      intro c hc
      have hm : c ∈ (f.children id).dropWhile fun c => (f.kind c).isBrackets := by
        rw [hrest]
        exact List.mem_cons_of_mem _ hc
      exact hl c ((List.dropWhile_suffix _).subset hm)
    split
    next op _ =>
      split
      next hop =>
        exact (required_meets hf hvalue _ _).map fun s hs =>
          ⟨⟨hk, hsub, hop, hs⟩, Shape.noConfusion⟩
      · rfl
    · rfl

omit hf hl in
/-- The group and the block behind a keyword are children of its node. -/
theorem header_meets (k : Keyword) (line : Nat) :
    Meets (fun p => (p.1 ∈ f.children id ∧ f.kind p.1 = .group) ∧
      p.2 ∈ f.children id ∧ f.kind p.2 = .block) (f.header k (f.children id) line) := by
  unfold header
  split
  next head body hids =>
    split
    next h =>
      rw [Bool.and_eq_true, NodeKind.isGroup_iff, NodeKind.isBlock_iff] at h
      rw [hids]
      exact ⟨⟨List.mem_cons_self .., h.1⟩, List.mem_cons_of_mem _ (List.mem_singleton_self _), h.2⟩
    · rfl
  · rfl

theorem body_meets (k : Keyword) (line : Nat) :
    Meets (fun body => body ∈ f.children id ∧ f.IsBody body) (f.body k (f.children id) line) := by
  unfold body
  split
  next body hids =>
    split
    next h =>
      have hm : body ∈ f.children id := by
        rw [hids]
        exact List.mem_singleton_self _
      exact ⟨hm, isBody_of_kind hf (hl body hm) (NodeKind.isBlock_iff.mp h)⟩
    · rfl
  · rfl

theorem conditional_meets (k : Keyword) (line : Nat) :
    Meets (fun p => f.HasValue p.1 ∧ p.2 ∈ f.children id ∧ f.IsBody p.2)
      (f.conditional k (f.children id) line) := by
  unfold conditional
  refine (header_meets k line).bind fun ⟨test, body⟩ ⟨_, hm, hk⟩ => ?_
  dsimp only
  split
  next hs =>
    refine ⟨?_, hm, isBody_of_kind hf (hl body hm) hk⟩
    unfold HasValue
    rw [hs]
    trivial
  · rfl

theorem branchShape_meets (opening : Bool) {k : Keyword} (line : Nat)
    (hk : f.kind id = .keyword (if opening then .if_ else .elif))
    (hw : opening = false → f.Follows id) : Meets (fun s => s.Fits f id ∧ s ≠ .unloaded)
      (f.branchShape opening k id (f.children id) line) := by
  unfold branchShape
  refine (conditional_meets hf hl k line).map fun ⟨test, body⟩ ⟨htest, hbody⟩ => ?_
  exact ⟨⟨hk, htest, hbody, rfl, hw⟩, Shape.noConfusion⟩

theorem repeatShape_meets (hk : f.kind id = .keyword .repeat_) (line : Nat) :
    Meets (fun s => s.Fits f id ∧ s ≠ .unloaded) (f.repeatShape (f.children id) line) := by
  unfold repeatShape
  refine (header_meets .repeat_ line).bind fun ⟨head, body⟩ ⟨⟨_, _⟩, hm, hkb⟩ => ?_
  have hbody : f.IsBody body := isBody_of_kind hf (hl body hm) hkb
  dsimp only
  split
  next item collection hs =>
    have hfit := hf head
    rw [hs] at hfit
    exact ⟨⟨hk, hfit.2, hm, hbody⟩, Shape.noConfusion⟩
  next hs =>
    refine ⟨⟨hk, ?_, hm, hbody⟩, Shape.noConfusion⟩
    unfold HasValue
    rw [hs]
    trivial
  · rfl

omit hf hl in
theorem parameters_meets (function : String) (line : Nat) (names : List String)
    (groups : List Sequence) : Meets (fun _ => True) (f.parameters function line names groups) := by
  induction groups generalizing names with
  | nil => trivial
  | cons s rest ih =>
    unfold parameters
    split
    · split
      · rfl
      · exact ih _
    · rfl

theorem functionShape_meets (hk : f.kind id = .keyword .function) (line : Nat) :
    Meets (fun s => s.Fits f id ∧ s ≠ .unloaded) (f.functionShape (f.children id) line) := by
  unfold functionShape
  split
  next name params body hids =>
    split
    next hkb =>
      split
      · refine (parameters_meets _ _ _ _).map fun params _ => ⟨⟨hk, ?_⟩, Shape.noConfusion⟩
        have hm : body ∈ f.children id := by
          rw [hids]
          simp
        exact ⟨hm, isBody_of_kind hf (hl body hm) hkb⟩
      · rfl
    · rfl
  · rfl

omit hl in
theorem callShape_meets (hk : f.kind id = .keyword .call) (line : Nat) :
    Meets (fun s => s.Fits f id ∧ s ≠ .unloaded) (f.callShape (f.children id) line) := by
  unfold callShape
  split
  next args _ =>
    split
    next hs =>
      have hfit := hf args
      rw [hs] at hfit
      exact ⟨⟨hk, hfit.2⟩, Shape.noConfusion⟩
    · rfl
  · rfl

omit hf hl in
theorem freeNames_meets (line : Nat) (ids : List NodeId) :
    Meets (fun _ => True) (f.freeNames line ids) := by
  induction ids with
  | nil => trivial
  | cons c rest ih =>
    unfold freeNames
    split
    · exact ih.map fun _ _ => trivial
    · exact ih
    · rfl

omit hf hl in
theorem freeShape_meets (hk : f.kind id = .keyword .free) (line : Nat) :
    Meets (fun s => s.Fits f id ∧ s ≠ .unloaded) (f.freeShape (f.children id) line) := by
  unfold freeShape
  refine (freeNames_meets line _).bind fun names _ => ?_
  split
  · rfl
  · exact ⟨hk, Shape.noConfusion⟩
  · exact ⟨hk, Shape.noConfusion⟩

omit hf hl in
theorem externShape_meets (hk : f.kind id = .keyword .extern_) (line : Nat) :
    Meets (fun s => s.Fits f id ∧ s ≠ .unloaded) (f.externShape (f.children id) line) := by
  unfold externShape
  split
  · exact ⟨hk, Shape.noConfusion⟩
  · exact ⟨hk, Shape.noConfusion⟩
  · rfl

omit hf hl in
theorem checkFollows_meets (k : Keyword) (line : Nat) :
    Meets (fun _ => f.Follows id) (f.checkFollows k id line) := by
  unfold checkFollows
  split
  next before hb =>
    split
    next hk => exact ⟨before, hb, hk⟩
    · rfl
  · rfl

theorem keywordShape_meets {k : Keyword} (hk : f.kind id = .keyword k) (line : Nat) :
    Meets (fun s => s.Fits f id ∧ s ≠ .unloaded)
      (f.keywordShape k id (f.children id) line) := by
  have hs := sequence_meets hf hl
  have hr := required_meets hf hl line k.word
  cases k with
  | print => exact hs.map fun s h => ⟨⟨hk, h⟩, Shape.noConfusion⟩
  | input => exact hs.map fun s h => ⟨⟨hk, h⟩, Shape.noConfusion⟩
  | return_ => exact hs.map fun s h => ⟨⟨hk, h⟩, Shape.noConfusion⟩
  | insert => exact hr.map fun s h => ⟨⟨hk, h⟩, Shape.noConfusion⟩
  | convert target => exact hr.map fun s h => ⟨⟨hk, h⟩, Shape.noConfusion⟩
  | if_ => exact branchShape_meets hf hl true line hk fun h => nomatch h
  | elif =>
    exact (checkFollows_meets _ line).bind fun _ hw =>
      branchShape_meets hf hl false line hk fun _ => hw
  | else_ =>
    refine (checkFollows_meets _ line).bind fun _ hw => ?_
    exact (body_meets hf hl _ line).map fun body hb => ⟨⟨hk, hb, hw⟩, Shape.noConfusion⟩
  | while_ =>
    refine (conditional_meets hf hl _ line).map fun ⟨test, body⟩ ⟨htest, hb⟩ => ?_
    exact ⟨⟨hk, htest, hb⟩, Shape.noConfusion⟩
  | repeat_ => exact repeatShape_meets hf hl hk line
  | function => exact functionShape_meets hf hl hk line
  | call => exact callShape_meets hf hk line
  | break_ =>
    unfold keywordShape
    dsimp only
    split
    · exact ⟨hk, Shape.noConfusion⟩
    · rfl
  | free => exact freeShape_meets hk line
  | local_ =>
    exact (body_meets hf hl _ line).map fun body hb => ⟨⟨hk, hb⟩, Shape.noConfusion⟩
  | extern_ => exact externShape_meets hk line

/-- A shape that is found for a node whose children have been loaded fits. -/
theorem shapeOf_meets : Meets (fun s => s.Fits f id ∧ s ≠ .unloaded) (f.shapeOf id) := by
  have hbare : (f.kind id).isBare = true → Shape.Fits f id .leaf ∧ Shape.leaf ≠ .unloaded :=
    fun hb => ⟨.inl hb, Shape.noConfusion⟩
  unfold shapeOf
  dsimp only
  split
  next hk => exact hbare (by rw [hk]; rfl)
  next hk => exact hbare (by rw [hk]; rfl)
  next hk => exact hbare (by rw [hk]; rfl)
  next hk => exact hbare (by rw [hk]; rfl)
  next hk => exact hbare (by rw [hk]; rfl)
  next hk => exact blockShape_meets hf hl hk
  next hk => exact groupShape_meets hf hl hk _
  next hk =>
    exact (groups_meets hf hl _).map fun values hs => ⟨⟨hk, hs⟩, Shape.noConfusion⟩
  next hk => exact declarationShape_meets hf hl hk _
  next hk => exact keywordShape_meets hf hl hk _

omit hf hl in
/-- A `local` statement that is loaded is more than a leaf. -/
theorem shapeOf_ne_leaf (hk : f.kind id = .keyword .local_) : f.shapeOf id ≠ .ok .leaf := by
  have hs : f.shapeOf id = (f.body .local_ (f.children id) (f.line id)).map .local_ := by
    unfold shapeOf keywordShape
    rw [hk]
  rw [hs]
  cases f.body .local_ (f.children id) (f.line id) with
  | ok body => exact fun h => nomatch h
  | error e => exact fun h => nomatch h

end Node

end Forest

/-! ### What a shape mutes -/

namespace Shape.Fits

variable {f : Forest} {id x : NodeId} {shape : Shape}

/-- A further branch that has been loaded has the shape of one. -/
theorem of_isFurther (h : shape.Fits f id) (hne : shape ≠ .unloaded)
    (hk : (f.kind id).isFurther = true) :
    (∃ test body, shape = .branch false test body (f.chained id)) ∨
      ∃ body, shape = .else_ body := by
  cases shape with
  | unloaded => exact absurd rfl hne
  | branch opening test body chained =>
    obtain ⟨hkind, _, _, hchained, _⟩ := h
    cases opening with
    | true =>
      rw [hkind] at hk
      cases hk
    | false => exact .inl ⟨test, body, by rw [hchained]⟩
  | else_ body => exact .inr ⟨body, rfl⟩
  | leaf =>
    rcases h with hb | hl
    · cases hkind : f.kind id <;> simp_all [NodeKind.isBare, NodeKind.isFurther, NodeKind.isKeyword]
    · rw [hl] at hk
      cases hk
  | _ => simp_all [Shape.Fits, NodeKind.isFurther, NodeKind.isKeyword]

/-- A further branch mutes itself. -/
theorem mem_muted (h : shape.Fits f id) (hne : shape ≠ .unloaded)
    (hk : (f.kind id).isFurther = true) : id ∈ shape.muted id := by
  rcases h.of_isFurther hne hk with ⟨test, body, rfl⟩ | ⟨body, rfl⟩
  · exact List.mem_cons_self ..
  · exact List.mem_cons_self ..

/-- What a shape mutes is a further branch itself or a body below a keyword. -/
theorem of_mem_muted (h : shape.Fits f id) (hx : x ∈ shape.muted id) :
    (x = id ∧ (f.kind id).isFurther = true) ∨
      (x ∈ f.children id ∧ ∃ k, f.kind id = .keyword k) := by
  cases shape with
  | branch opening test body chained =>
    obtain ⟨hk, _, hb, _, _⟩ := h
    cases opening with
    | true =>
      rw [List.mem_singleton.mp hx]
      exact .inr ⟨hb.1, _, hk⟩
    | false =>
      rcases List.mem_cons.mp hx with rfl | hx
      · exact .inl ⟨rfl, by rw [hk]; rfl⟩
      · rw [List.mem_singleton.mp hx]
        exact .inr ⟨hb.1, _, hk⟩
  | else_ body =>
    obtain ⟨hk, hb, _⟩ := h
    rcases List.mem_cons.mp hx with rfl | hx
    · exact .inl ⟨rfl, by rw [hk]; rfl⟩
    · rw [List.mem_singleton.mp hx]
      exact .inr ⟨hb.1, _, hk⟩
  | while_ test body => rw [List.mem_singleton.mp hx]; exact .inr ⟨h.2.2.1, _, h.1⟩
  | repeat_ count body => rw [List.mem_singleton.mp hx]; exact .inr ⟨h.2.2.1, _, h.1⟩
  | foreach item collection body =>
    rw [List.mem_singleton.mp hx]
    exact .inr ⟨h.2.2.1, _, h.1⟩
  | function g => rw [List.mem_singleton.mp hx]; exact .inr ⟨h.2.1, _, h.1⟩
  | local_ body => rw [List.mem_singleton.mp hx]; exact .inr ⟨h.2.1, _, h.1⟩
  | _ => cases hx

end Shape.Fits

end TagLang
