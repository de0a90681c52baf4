import TagLang.Proofs.Correspondence
import TagLang.Proofs.Shapes

/-!
# Shapes of nodes that correspond

A node gets its shape from its children, so nodes whose children correspond and have corresponding
shapes get corresponding shapes, or fail for the same reason (`Forest.Skeleton.shapeOf`).  There is
one lemma for each function that looks for a shape.  Branches look at their neighbours too: at the
next one to hand over to, and at the one before, which has to be a branch (`Forest.Neighbours`).
-/

namespace TagLang

/-! ### Results -/

/-- Two results that go together: values that `Q` relates, or errors that `E` relates. -/
inductive Except.Alike {ε α β : Type} (E : ε → ε → Prop) (Q : α → β → Prop) :
    Except ε α → Except ε β → Prop where
  | ok {a : α} {b : β} (h : Q a b) : Alike E Q (.ok a) (.ok b)
  | error {e e' : ε} (h : E e e') : Alike E Q (.error e) (.error e')

/-- Two results whose failures correspond. -/
abbrev Correspondence.Results {α β : Type} (κ : Correspondence) (Q : α → β → Prop) :
    Except Failure α → Except Failure β → Prop :=
  Except.Alike (Failure.Alike κ) Q

namespace Except.Alike

variable {κ : Correspondence} {α β γ δ : Type} {Q : α → β → Prop} {P : γ → δ → Prop}
  {x : Except Failure α} {y : Except Failure β}

theorem fail {line line' : Nat} (hl : κ.line line line') (cause : Cause) :
    κ.Results Q (.error ⟨line, cause⟩) (.error ⟨line', cause⟩) :=
  .error ⟨hl, rfl⟩

theorem bind {k : α → Except Failure γ} {l : β → Except Failure δ} (hx : κ.Results Q x y)
    (hk : ∀ a b, Q a b → κ.Results P (k a) (l b)) : κ.Results P (x.bind k) (y.bind l) := by
  cases hx with
  | ok h => exact hk _ _ h
  | error h => exact .error h

theorem map {k : α → γ} {l : β → δ} (hx : κ.Results Q x y) (hk : ∀ a b, Q a b → P (k a) (l b)) :
    κ.Results P (x.map k) (y.map l) := by
  cases hx with
  | ok h => exact .ok (hk _ _ h)
  | error h => exact .error h

theorem mapM {φ : α → β} {k : α → Except Failure γ} {l : β → Except Failure δ} {as : List α}
    (hk : ∀ a ∈ as, κ.Results P (k a) (l (φ a))) :
    κ.Results (List.Forall₂ P) (as.mapM k) ((as.map φ).mapM l) := by
  induction as with
  | nil => exact .ok .nil
  | cons a as ih =>
    rw [List.map_cons, List.mapM_cons, List.mapM_cons]
    apply (hk a (List.mem_cons_self ..)).bind
    intro c d hcd
    apply (ih fun b hb => hk b (List.mem_cons_of_mem _ hb)).bind
    intro cs ds hall
    exact .ok (.cons hcd hall)

theorem exists_ok {E : Failure → Failure → Prop} {a : α} (h : Alike E Q (.ok a) y) :
    ∃ b, y = .ok b ∧ Q a b := by
  cases h with
  | ok hab => exact ⟨_, rfl, hab⟩

end Except.Alike

theorem runs_map {α β : Type} (φ : α → β) (p : β → Bool) (as : List α) :
    runs p (as.map φ) = (runs (fun a => p (φ a)) as).map (List.map φ) := by
  induction as with
  | nil => rfl
  | cons a as ih =>
    rw [List.map_cons, runs, runs, ih]
    split
    · rfl
    · cases runs (fun a => p (φ a)) as <;> rfl

/-! ### Shapes -/

namespace Forest

/-- The nodes have corresponding shapes. -/
def Shaped (κ : Correspondence) (f g : Forest) (ids : List NodeId) : Prop :=
  ∀ id ∈ ids, Shape.Alike κ (f.shape id) (g.shape (κ.node id))

theorem Shaped.mono {κ : Correspondence} {f g : Forest} {ids ids' : List NodeId}
    (h : Shaped κ f g ids) (hids : ∀ id ∈ ids', id ∈ ids) : Shaped κ f g ids' :=
  fun id hid => h id (hids id hid)

/-- A node stands next to the same branches in both forests, as far as a node of its kind asks. -/
structure Neighbours (κ : Correspondence) (f g : Forest) (id : NodeId) : Prop where
  chained : g.chained (κ.node id) = (f.chained id).map κ.node
  follows : (f.kind id).isFurther = true → ∀ (k : Keyword) {line line' : Nat}, κ.line line line' →
    κ.Results Eq (f.checkFollows k id line) (g.checkFollows k (κ.node id) line')

theorem Neighbours.reshape {κ : Correspondence} {f g f' g' : Forest} {id : NodeId}
    (h : Neighbours κ f g id) (hf : f.Reshaped f') (hg : g.Reshaped g') :
    Neighbours κ f' g' id where
  chained := by
    simp only [Forest.chained, hf.siblings, hg.siblings, hf.kind, hg.kind]
    exact h.chained
  follows hfurther k _ _ hl := by
    rw [hf.kind] at hfurther
    simp only [Forest.checkFollows, hf.siblings, hg.siblings, hf.kind, hg.kind]
    exact h.follows hfurther k hl

namespace Skeleton

variable {κ : Correspondence} {f g : Forest} (h : Skeleton κ f g)
include h

theorem checkFollows_of_siblings {id : NodeId}
    (hs : (g.siblings (κ.node id)).1 = (f.siblings id).1.map κ.node) (k : Keyword)
    {line line' : Nat} (hl : κ.line line line') :
    κ.Results Eq (f.checkFollows k id line) (g.checkFollows k (κ.node id) line') := by
  unfold Forest.checkFollows
  rw [hs]
  cases (f.siblings id).1 with
  | none => exact .fail hl _
  | some before =>
    simp only [Option.map_some, h.kind]
    split
    · exact .ok rfl
    · exact .fail hl _

theorem neighbours_of_siblings {id : NodeId} (hs : g.siblings (κ.node id) =
    ((f.siblings id).1.map κ.node, (f.siblings id).2.map κ.node)) : Neighbours κ f g id where
  chained := by
    unfold Forest.chained
    rw [hs, Option.filter_map]
    congr 2
    funext x
    rw [Function.comp_apply, h.kind]
  follows _ k _ _ hl := h.checkFollows_of_siblings (by rw [hs]) k hl

/-! ### Expressions -/

theorem checkSingle {id : NodeId} (hs : Shape.Alike κ (f.shape id) (g.shape (κ.node id))) :
    κ.Results Eq (f.checkSingle id) (g.checkSingle (κ.node id)) := by
  have hl := h.line id
  unfold Forest.checkSingle
  generalize f.shape id = s at hs
  generalize g.shape (κ.node id) = t at hs
  cases hs with
  | groups hvalues =>
    cases hvalues with
    | nil => exact .ok rfl
    | cons _ hrest =>
      cases hrest with
      | nil => exact .ok rfl
      | cons _ _ => exact .fail hl _
  | _ => exact .fail hl _

theorem subscript {id : NodeId} (hs : Shape.Alike κ (f.shape id) (g.shape (κ.node id))) :
    κ.Results (Sequence.Alike κ) (f.subscript id) (g.subscript (κ.node id)) := by
  have hl := h.line id
  unfold Forest.subscript
  generalize f.shape id = s at hs
  generalize g.shape (κ.node id) = t at hs
  cases hs with
  | array hvalues =>
    cases hvalues with
    | nil => exact .fail hl _
    | cons hindex hrest =>
      cases hrest with
      | nil => exact .ok hindex
      | cons _ _ => exact .fail hl _
  | _ => exact .fail hl _

/-- Both readers of an expression find the same operands. -/
theorem nexts {last last' : Nat} (hlast : κ.line last last') {ids : List NodeId}
    (hs : Shaped κ f g ids) :
    (∀ prefixes : List Operator, κ.Results (Sequence.Alike κ) (f.operandNext last prefixes ids)
      (g.operandNext last' prefixes (ids.map κ.node))) ∧
    ∀ operand : Operand, κ.Results (Sequence.Alike κ) (f.operatorNext last operand ids)
      (g.operatorNext last' (operand.rename κ.node) (ids.map κ.node)) := by
  -- The readers call each other, so the induction is on the nodes to come, for both at once.
  induction ids with
  | nil =>
    constructor
    · intro prefixes
      simp only [List.map_nil, operandNext]
      exact .fail hlast _
    · intro operand
      simp only [List.map_nil, operatorNext]
      exact .ok ⟨rfl, .nil⟩
  | cons id rest ih =>
    obtain ⟨ihOperand, ihOperator⟩ := ih (hs.mono fun x hx => List.mem_cons_of_mem _ hx)
    have hid := hs id (List.mem_cons_self ..)
    have hl := h.line id
    constructor
    · intro prefixes
      have hnew : κ.Results (Sequence.Alike κ) (f.operatorNext last ⟨id, prefixes, []⟩ rest)
          (g.operatorNext last' ⟨κ.node id, prefixes, []⟩ (rest.map κ.node)) :=
        ihOperator ⟨id, prefixes, []⟩
      simp only [List.map_cons, operandNext, h.kind]
      split
      · split
        · exact ihOperand _
        · exact .fail hl _
      · split
        · split
          · exact (h.checkSingle hid).bind fun _ _ _ => hnew
          · exact hnew
        · exact .fail hl _
    · intro operand
      have hindex : κ.Results (Sequence.Alike κ)
          (f.operatorNext last { operand with subscripts := operand.subscripts ++ [id] } rest)
          (g.operatorNext last'
            { operand.rename κ.node with
              subscripts := (operand.rename κ.node).subscripts ++ [κ.node id] }
            (rest.map κ.node)) := by
        have hnext := ihOperator { operand with subscripts := operand.subscripts ++ [id] }
        simp only [Operand.rename, List.map_append, List.map_cons, List.map_nil] at hnext
        exact hnext
      simp only [List.map_cons, operatorNext, h.kind]
      split
      · split
        · apply (ihOperand []).map
          intro s t hst
          exact ⟨by rw [hst.operands]; rfl, .cons ⟨rfl, hl⟩ hst.operators⟩
        · exact .fail hl _
      · exact (h.subscript hid).bind fun _ _ _ => hindex
      · split
        · exact .fail hl _
        · exact .fail hl _

theorem sequence {ids : List NodeId} (hs : Shaped κ f g ids) :
    κ.Results (Sequence.Alike κ) (f.sequence ids) (g.sequence (ids.map κ.node)) := by
  cases ids with
  | nil => exact .ok ⟨rfl, .nil⟩
  | cons id rest =>
    have hlast : κ.line (((id :: rest).getLast?.map f.line).getD 0)
        ((((id :: rest).map κ.node).getLast?.map g.line).getD 0) := by
      rw [List.getLast?_map]
      cases (id :: rest).getLast? with
      | none => exact κ.line_self 0
      | some x => exact h.line x
    exact (h.nexts hlast hs).1 []

/-- An expression that must not be empty, whatever is said if it is. -/
theorem nonempty {ids : List NodeId} (hs : Shaped κ f g ids) {line line' : Nat}
    (hl : κ.line line line') (cause : Cause) : κ.Results (Sequence.Alike κ)
      ((f.sequence ids).bind fun s => if s.isEmpty then .error ⟨line, cause⟩ else .ok s)
      ((g.sequence (ids.map κ.node)).bind fun s =>
        if s.isEmpty then .error ⟨line', cause⟩ else .ok s) := by
  apply (h.sequence hs).bind
  intro s t hst
  rw [hst.isEmpty]
  split
  · exact .fail hl _
  · exact .ok hst

theorem required {ids : List NodeId} (hs : Shaped κ f g ids) {line line' : Nat}
    (hl : κ.line line line') (after : String) : κ.Results (Sequence.Alike κ)
      (f.required ids line after) (g.required (ids.map κ.node) line' after) :=
  h.nonempty hs hl _

theorem groups {ids : List NodeId} (hs : Shaped κ f g ids) {line line' : Nat}
    (hl : κ.line line line') : κ.Results (List.Forall₂ (Sequence.Alike κ)) (f.groups ids line)
      (g.groups (ids.map κ.node) line') := by
  cases ids with
  | nil => exact .ok .nil
  | cons id rest =>
    have hcomma : (fun x => (g.kind (κ.node x)).isComma) = fun x => (f.kind x).isComma := by
      funext x
      rw [h.kind]
    show κ.Results _ ((runs (fun x => (f.kind x).isComma) (id :: rest)).mapM _)
      ((runs (fun x => (g.kind x).isComma) ((id :: rest).map κ.node)).mapM _)
    rw [runs_map, hcomma]
    apply Except.Alike.mapM
    intro run hrun
    exact h.nonempty (hs.mono fun x hx => mem_of_mem_runs hrun hx) hl _

theorem groupShape {ids : List NodeId} (hs : Shaped κ f g ids) {line line' : Nat}
    (hl : κ.line line line') :
    κ.Results (Shape.Alike κ) (f.groupShape ids line) (g.groupShape (ids.map κ.node) line') := by
  have hcolon : ((ids.map κ.node).any fun id => (g.kind id).isColon) =
      ids.any fun id => (f.kind id).isColon := by
    rw [List.any_map]
    congr 1
    funext x
    rw [Function.comp_apply, h.kind]
  unfold Forest.groupShape
  rw [hcolon]
  split
  · match ids with
    | [] => exact .fail hl _
    | [_] => exact .fail hl _
    | name :: colon :: collection =>
      have hcollection : Shaped κ f g collection := hs.mono fun x hx => by simp [hx]
      simp only [List.map_cons, h.kind]
      split
      · exact (h.required hcollection hl _).map fun _ _ hst => .pair _ hst
      · exact .fail hl _
  · exact (h.groups hs hl).map fun _ _ hst => .groups hst

/-! ### Statements -/

theorem checkStatement {id : NodeId} (hs : Shape.Alike κ (f.shape id) (g.shape (κ.node id))) :
    κ.Results Eq (f.checkStatement id) (g.checkStatement (κ.node id)) := by
  unfold Forest.checkStatement
  rw [h.kind]
  split
  · exact .fail (h.line id) _
  · exact .fail (h.line id) _
  · exact .fail (h.line id) _
  · exact h.checkSingle hs
  · exact .ok rfl

theorem blockShape {ids : List NodeId} (hs : Shaped κ f g ids) :
    κ.Results (Shape.Alike κ) (f.blockShape ids) (g.blockShape (ids.map κ.node)) := by
  have hall : κ.Results Eq (ids.forM f.checkStatement)
      ((ids.map κ.node).forM g.checkStatement) := by
    induction ids with
    | nil => exact .ok rfl
    | cons id rest ih =>
      apply (h.checkStatement (hs id (List.mem_cons_self ..))).bind
      intro _ _ _
      exact ih (hs.mono fun x hx => List.mem_cons_of_mem _ hx)
  exact hall.map fun _ _ _ => .block

theorem declarationShape (name : String) {ids : List NodeId} (hs : Shaped κ f g ids)
    {line line' : Nat} (hl : κ.line line line') : κ.Results (Shape.Alike κ)
      (f.declarationShape name ids line) (g.declarationShape name (ids.map κ.node) line') := by
  have hindex : (fun id => (g.kind id).isBrackets) ∘ κ.node = fun id => (f.kind id).isBrackets := by
    funext x
    rw [Function.comp_apply, h.kind]
  have hsubscripts : κ.Results (List.Forall₂ (Sequence.Alike κ))
      ((ids.takeWhile fun id => (f.kind id).isBrackets).mapM f.subscript)
      (((ids.takeWhile fun id => (f.kind id).isBrackets).map κ.node).mapM g.subscript) := by
    apply Except.Alike.mapM
    intro id hid
    exact h.subscript (hs id (List.takeWhile_subset _ hid))
  have hrest : Shaped κ f g (ids.dropWhile fun id => (f.kind id).isBrackets) :=
    hs.mono fun x hx => List.dropWhile_subset _ hx
  unfold Forest.declarationShape
  dsimp only
  rw [List.takeWhile_map, List.dropWhile_map, hindex]
  apply hsubscripts.bind
  intro subscripts subscripts' hall
  cases hvalue : ids.dropWhile fun id => (f.kind id).isBrackets with
  | nil => exact .fail hl _
  | cons first value =>
    rw [hvalue] at hrest
    have hs' : Shaped κ f g value := hrest.mono fun x hx => List.mem_cons_of_mem _ hx
    simp only [List.map_cons, h.kind]
    split
    · split
      · exact (h.required hs' hl _).map fun _ _ hst => .declaration _ _ hall hst
      · exact .fail hl _
    · exact .fail hl _

/-- The group and the block behind a keyword are among the nodes that follow it. -/
theorem header (k : Keyword) (ids : List NodeId) {line line' : Nat} (hl : κ.line line line') :
    κ.Results (fun p q => p.1 ∈ ids ∧ q = (κ.node p.1, κ.node p.2)) (f.header k ids line)
      (g.header k (ids.map κ.node) line') := by
  match ids with
  | [] => exact .fail hl _
  | [_] => exact .fail hl _
  | [head, body] =>
    simp only [List.map_cons, List.map_nil, Forest.header, h.kind]
    split
    · exact .ok ⟨List.mem_cons_self .., rfl⟩
    · exact .fail hl _
  | _ :: _ :: _ :: _ => exact .fail hl _

theorem body (k : Keyword) (ids : List NodeId) {line line' : Nat} (hl : κ.line line line') :
    κ.Results (fun b b' => b' = κ.node b) (f.body k ids line)
      (g.body k (ids.map κ.node) line') := by
  match ids with
  | [] => exact .fail hl _
  | [body] =>
    simp only [List.map_cons, List.map_nil, Forest.body, h.kind]
    split
    · exact .ok rfl
    · exact .fail hl _
  | _ :: _ :: _ => exact .fail hl _

theorem conditional (k : Keyword) {ids : List NodeId} (hs : Shaped κ f g ids) {line line' : Nat}
    (hl : κ.line line line') : κ.Results (fun p q => q = (κ.node p.1, κ.node p.2))
      (f.conditional k ids line) (g.conditional k (ids.map κ.node) line') := by
  apply (h.header k ids hl).bind
  rintro ⟨condition, body⟩ _ ⟨hmem, rfl⟩
  have hcondition := hs condition hmem
  dsimp only
  generalize f.shape condition = s at hcondition
  generalize g.shape (κ.node condition) = t at hcondition
  cases hcondition with
  | groups hvalues =>
    cases hvalues with
    | nil => exact .fail hl _
    | cons _ hrest =>
      cases hrest with
      | nil => exact .ok rfl
      | cons _ _ => exact .fail hl _
  | _ => exact .fail hl _

theorem branchShape (opening : Bool) (k : Keyword) {id : NodeId} (hn : Neighbours κ f g id)
    {ids : List NodeId} (hs : Shaped κ f g ids) {line line' : Nat} (hl : κ.line line line') :
    κ.Results (Shape.Alike κ) (f.branchShape opening k id ids line)
      (g.branchShape opening k (κ.node id) (ids.map κ.node) line') := by
  unfold Forest.branchShape
  rw [hn.chained]
  apply (h.conditional k hs hl).map
  rintro ⟨condition, body⟩ _ rfl
  exact .branch opening condition body _

theorem repeatShape {ids : List NodeId} (hs : Shaped κ f g ids) {line line' : Nat}
    (hl : κ.line line line') :
    κ.Results (Shape.Alike κ) (f.repeatShape ids line) (g.repeatShape (ids.map κ.node) line') := by
  apply (h.header .repeat_ ids hl).bind
  rintro ⟨head, body⟩ _ ⟨hmem, rfl⟩
  have hhead := hs head hmem
  dsimp only
  generalize f.shape head = s at hhead
  generalize g.shape (κ.node head) = t at hhead
  cases hhead with
  | groups hvalues =>
    cases hvalues with
    | nil => exact .fail hl _
    | cons _ hrest =>
      cases hrest with
      | nil => exact .ok (.repeat_ head body)
      | cons _ _ => exact .fail hl _
  | pair item hst => exact .ok (.foreach item body hst)
  | _ => exact .fail hl _

theorem parameters (function : String) {line line' : Nat} (hl : κ.line line line')
    (names : List String) {values values' : List Sequence}
    (hvalues : List.Forall₂ (Sequence.Alike κ) values values') :
    κ.Results Eq (f.parameters function line names values)
      (g.parameters function line' names values') := by
  induction hvalues generalizing names with
  | nil => exact .ok rfl
  | @cons s t rest rest' hst _ ih =>
    have hkind : t.single?.map g.kind = s.single?.map f.kind := by
      rw [hst.single?, Option.map_map]
      congr 1
      funext x
      exact h.kind x
    simp only [Forest.parameters, hkind]
    split
    · split
      · exact .fail hl _
      · exact ih _
    · exact .fail hl _

theorem functionShape {ids : List NodeId} (hs : Shaped κ f g ids) {line line' : Nat}
    (hl : κ.line line line') :
    κ.Results (Shape.Alike κ) (f.functionShape ids line)
      (g.functionShape (ids.map κ.node) line') := by
  match ids with
  | [] => exact .fail hl _
  | [_] => exact .fail hl _
  | [_, _] => exact .fail hl _
  | [name, params, body] =>
    have hparams := hs params (by simp)
    simp only [List.map_cons, List.map_nil, Forest.functionShape, h.kind]
    split
    · generalize f.shape params = s at hparams
      generalize g.shape (κ.node params) = t at hparams
      cases hparams with
      | groups hvalues =>
        apply (h.parameters _ hl [] hvalues).map
        rintro names _ rfl
        exact .function ⟨_, names, body⟩
      | _ => exact .fail hl _
    · exact .fail hl _
  | _ :: _ :: _ :: _ :: _ => exact .fail hl _

theorem callShape {ids : List NodeId} (hs : Shaped κ f g ids) {line line' : Nat}
    (hl : κ.line line line') :
    κ.Results (Shape.Alike κ) (f.callShape ids line) (g.callShape (ids.map κ.node) line') := by
  match ids with
  | [] => exact .fail hl _
  | [_] => exact .fail hl _
  | [name, args] =>
    have hargs := hs args (by simp)
    simp only [List.map_cons, List.map_nil, Forest.callShape, h.kind]
    generalize f.shape args = s at hargs
    generalize g.shape (κ.node args) = t at hargs
    cases f.kind name with
    | reference name =>
      cases f.kind args with
      | group =>
        cases hargs with
        | groups hvalues => exact .ok (.call name hvalues)
        | _ => exact .fail hl _
      | _ => exact .fail hl _
    | _ => exact .fail hl _
  | _ :: _ :: _ :: _ => exact .fail hl _

theorem freeNames {line line' : Nat} (hl : κ.line line line') (ids : List NodeId) :
    κ.Results Eq (f.freeNames line ids) (g.freeNames line' (ids.map κ.node)) := by
  induction ids with
  | nil => exact .ok rfl
  | cons id rest ih =>
    simp only [List.map_cons, Forest.freeNames, h.kind]
    split
    · apply ih.map
      rintro names _ rfl
      rfl
    · exact ih
    · exact .fail hl _

theorem freeShape (ids : List NodeId) {line line' : Nat} (hl : κ.line line line') :
    κ.Results (Shape.Alike κ) (f.freeShape ids line) (g.freeShape (ids.map κ.node) line') := by
  apply (h.freeNames hl ids).bind
  rintro names _ rfl
  split
  · exact .fail hl _
  · exact .ok .freeAll
  · exact .ok (.free _)

theorem externShape (ids : List NodeId) {line line' : Nat} (hl : κ.line line line') :
    κ.Results (Shape.Alike κ) (f.externShape ids line) (g.externShape (ids.map κ.node) line') := by
  have hkinds : (ids.map κ.node).map g.kind = ids.map f.kind := by
    rw [List.map_map]
    exact List.map_congr_left fun x _ => h.kind x
  unfold Forest.externShape
  rw [hkinds]
  split
  · exact .ok (.extern_ _ _)
  · exact .ok (.extern_ _ _)
  · exact .fail hl _

theorem keywordShape {k : Keyword} {id : NodeId} (hk : f.kind id = .keyword k)
    (hn : Neighbours κ f g id) {ids : List NodeId} (hs : Shaped κ f g ids) {line line' : Nat}
    (hl : κ.line line line') :
    κ.Results (Shape.Alike κ) (f.keywordShape k id ids line)
      (g.keywordShape k (κ.node id) (ids.map κ.node) line') := by
  cases k with
  | print => exact (h.sequence hs).map fun _ _ hst => .print hst
  | input => exact (h.sequence hs).map fun _ _ hst => .input hst
  | return_ => exact (h.sequence hs).map fun _ _ hst => .return_ hst
  | insert => exact (h.required hs hl _).map fun _ _ hst => .insert hst
  | convert target => exact (h.required hs hl _).map fun _ _ hst => .convert target hst
  | if_ => exact h.branchShape true .if_ hn hs hl
  | elif =>
    apply (hn.follows (by rw [hk]; rfl) .elif hl).bind
    intro _ _ _
    exact h.branchShape false .elif hn hs hl
  | else_ =>
    apply (hn.follows (by rw [hk]; rfl) .else_ hl).bind
    intro _ _ _
    apply (h.body .else_ ids hl).map
    rintro body _ rfl
    exact .else_ body
  | while_ =>
    apply (h.conditional .while_ hs hl).map
    rintro ⟨condition, body⟩ _ rfl
    exact .while_ condition body
  | repeat_ => exact h.repeatShape hs hl
  | function => exact h.functionShape hs hl
  | call => exact h.callShape hs hl
  | break_ =>
    simp only [Forest.keywordShape, List.isEmpty_map]
    split
    · exact .ok .break_
    · exact .fail hl _
  | free => exact h.freeShape ids hl
  | local_ =>
    apply (h.body .local_ ids hl).map
    rintro body _ rfl
    exact .local_ body
  | extern_ => exact h.externShape ids hl

/-- A node and its counterpart get the same shape, or fail for the same reason, if their children
correspond one by one. -/
theorem shapeOf {id : NodeId} (hrow : g.children (κ.node id) = (f.children id).map κ.node)
    (hs : Shaped κ f g (f.children id)) (hn : Neighbours κ f g id) :
    κ.Results (Shape.Alike κ) (f.shapeOf id) (g.shapeOf (κ.node id)) := by
  have hl := h.line id
  simp only [Forest.shapeOf, h.kind, hrow]
  split
  · exact .ok .leaf
  · exact .ok .leaf
  · exact .ok .leaf
  · exact .ok .leaf
  · exact .ok .leaf
  · exact h.blockShape hs
  · exact h.groupShape hs hl
  · exact (h.groups hs hl).map fun _ _ hst => .array hst
  · exact h.declarationShape _ hs hl
  next hk => exact h.keywordShape hk hn hs hl

end Skeleton

/-- Behind the bound of a correspondence, nodes and their counterparts get the same shapes. -/
theorem Alike.shapeOf {κ : Correspondence} {f g : Forest} (h : Alike κ f g) {id : NodeId}
    (hid : κ.bound ≤ id) : κ.Results (Shape.Alike κ) (f.shapeOf id) (g.shapeOf (κ.node id)) :=
  h.toSkeleton.shapeOf (h.children hid) (fun c _ => h.shape c)
    (h.neighbours_of_siblings (h.siblings hid))

end Forest

end TagLang
