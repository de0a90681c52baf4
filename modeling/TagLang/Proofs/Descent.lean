import TagLang.Proofs.ControlFlow
import TagLang.Proofs.Evolution

/-!
# Shapes lead forward

Nodes are named in the order of their age, and a shape is found from the children of a node and
their shapes.  So every node that a shape names is younger than the node itself
(`Forest.Descending`): a node can only lead to nodes of its own tree that come behind it.  Loading
keeps this (`Workshop.keeps_descending`).

A source without the keyword `while` (`WhileFree`) grows a tree without it, so that the trees of
such sources have no loops but those that end by themselves (`Forest.WhileFree`,
`Workshop.keeps_whileFree`).
-/

namespace TagLang

/-! ### Younger nodes -/

namespace Forest

/-- All nodes that a shape names are younger than its node. -/
def Descending (f : Forest) : Prop :=
  ∀ id, ∀ x ∈ (f.shape id).nodes, id < x

variable {f : Forest} {p : NodeId → Prop}

/-- An expression names only nodes that it was read from. -/
theorem sequence_nodes {ids : List NodeId} (hp : ∀ x ∈ ids, p x) :
    Meets (fun s => ∀ x ∈ s.nodes, p x) (f.sequence ids) := by
  unfold sequence
  split
  · exact fun x hx => nomatch hx
  · refine ((nexts_meet (P := fun o => ∀ x ∈ o.node :: o.subscripts, p x) _ _
      (fun id hid _ _ prefixes _ => ?_) fun o ho id hid index _ => ?_).1 []
      (List.forall_mem_nil _)).mono fun s hs x hx => ?_
    · exact List.forall_mem_singleton.mpr (hp id hid)
    · exact List.forall_mem_append.mpr ⟨ho, List.forall_mem_singleton.mpr (hp id hid)⟩
    · obtain ⟨o, ho, hx⟩ := List.mem_flatMap.mp hx
      exact hs.operands o ho x hx

theorem required_nodes {ids : List NodeId} (hp : ∀ x ∈ ids, p x) (line : Nat) (after : String) :
    Meets (fun s => ∀ x ∈ s.nodes, p x) (f.required ids line after) :=
  required_meets_of (sequence_nodes hp) line after

theorem groups_nodes {ids : List NodeId} (hp : ∀ x ∈ ids, p x) (line : Nat) :
    Meets (fun values => ∀ x ∈ values.flatMap Sequence.nodes, p x) (f.groups ids line) := by
  refine (groups_meets_of (fun run hrun => sequence_nodes fun x hx => hp x (hrun x hx)) line).mono
    fun values hvalues x hx => ?_
  obtain ⟨s, hs, hx⟩ := List.mem_flatMap.mp hx
  exact hvalues s hs x hx

/-- The branch that is chained to a node is younger. -/
theorem lt_of_chained (hf : f.WellFormed) {id next : NodeId} (h : f.chained id = some next) :
    id < next := by
  obtain ⟨hn, _⟩ := Option.filter_eq_some_iff.mp h
  have hroot : f.parent id ≠ id := by
    intro hp
    rw [siblings, if_pos hp] at hn
    cases hn
  have hid : id < f.size := by
    refine Nat.lt_of_not_le fun hle => hroot ?_
    rw [parent, node_of_size_le hle]
  have hmem : id ∈ f.children (f.parent id) :=
    (hf.mem_children _ id).mpr ⟨hid, hroot.symm, rfl⟩
  obtain ⟨pre, rest, hrow⟩ := List.append_of_mem hmem
  have hsorted := hf.sorted (f.parent id)
  rw [siblings_eq hf hrow] at hn
  rw [hrow, List.pairwise_append] at hsorted
  exact (List.pairwise_cons.mp hsorted.2.1).1 next (List.mem_of_mem_head? hn)

section Node

variable {id : NodeId} (hf : f.WellFormed)
  (hd : ∀ c ∈ f.children id, ∀ x ∈ (f.shape c).nodes, c < x)
include hf

omit hf in
/-- What leads from a child to younger nodes leads from the node to younger ones. -/
theorem nodes_of_child (hf : f.WellFormed)
    (hd : ∀ c ∈ f.children id, ∀ x ∈ (f.shape c).nodes, c < x)
    {c : NodeId} (hc : c ∈ f.children id) {x : NodeId} (hx : x ∈ (f.shape c).nodes) : id < x :=
  Nat.lt_trans (hf.lt_of_mem_children hc) (hd c hc x hx)

omit hf in
theorem blockShape_nodes (ids : List NodeId) :
    Meets (fun s => ∀ x ∈ s.nodes, id < x) (f.blockShape ids) := by
  have heach : ∀ c, Meets (fun _ => True) (f.checkStatement c) := by
    intro c
    unfold checkStatement
    split
    · rfl
    · rfl
    · rfl
    · exact (checkSingle_meets c).mono fun _ _ => trivial
    · trivial
  unfold blockShape
  exact (Meets.forM fun c _ => heach c).map fun _ _ x hx => nomatch hx

theorem groupShape_nodes (line : Nat) :
    Meets (fun s => ∀ x ∈ s.nodes, id < x) (f.groupShape (f.children id) line) := by
  have hchildren : ∀ x ∈ f.children id, id < x := fun x hx => hf.lt_of_mem_children hx
  unfold groupShape
  split
  · split
    next name colon collection hids =>
      split
      · refine (required_nodes (fun c hc => hchildren c ?_) _ _).map fun s hs => hs
        rw [hids]
        exact List.mem_cons_of_mem _ (List.mem_cons_of_mem _ hc)
      · rfl
    · rfl
  · exact (groups_nodes hchildren line).map fun values hs => hs

theorem header_nodes (k : Keyword) (line : Nat) :
    Meets (fun p => (p.1 ∈ f.children id ∧ id < p.1) ∧ id < p.2)
      (f.header k (f.children id) line) :=
  (header_meets k line).mono fun _ hp =>
    ⟨⟨hp.1.1, hf.lt_of_mem_children hp.1.1⟩, hf.lt_of_mem_children hp.2.1⟩

theorem conditional_nodes (k : Keyword) (line : Nat) :
    Meets (fun p => id < p.1 ∧ id < p.2) (f.conditional k (f.children id) line) := by
  unfold conditional
  refine (header_nodes hf k line).bind fun ⟨test, body⟩ ⟨⟨_, htest⟩, hbody⟩ => ?_
  dsimp only
  split
  · exact ⟨htest, hbody⟩
  · rfl

theorem branchShape_nodes (opening : Bool) (k : Keyword) (line : Nat) :
    Meets (fun s => ∀ x ∈ s.nodes, id < x) (f.branchShape opening k id (f.children id) line) := by
  unfold branchShape
  refine (conditional_nodes hf k line).map fun ⟨test, body⟩ ⟨htest, hbody⟩ x hx => ?_
  simp only [Shape.nodes, List.mem_cons, Option.mem_toList] at hx
  rcases hx with rfl | rfl | hx
  · exact htest
  · exact hbody
  · exact lt_of_chained hf hx

theorem body_nodes (k : Keyword) (line : Nat) :
    Meets (fun body => id < body) (f.body k (f.children id) line) := by
  unfold body
  split
  next body hids =>
    split
    · refine hf.lt_of_mem_children ?_
      rw [hids]
      exact List.mem_singleton_self _
    · rfl
  · rfl

theorem functionShape_nodes (line : Nat) :
    Meets (fun s => ∀ x ∈ s.nodes, id < x) (f.functionShape (f.children id) line) := by
  unfold functionShape
  split
  next name params body hids =>
    have hbody : id < body := by
      refine hf.lt_of_mem_children ?_
      rw [hids]
      simp
    split
    · split
      · exact (parameters_meets _ _ _ _).map fun params _ x hx => List.mem_singleton.mp hx ▸ hbody
      · rfl
    · rfl
  · rfl

include hd

theorem declarationShape_nodes (name : String) (line : Nat) :
    Meets (fun s => ∀ x ∈ s.nodes, id < x) (f.declarationShape name (f.children id) line) := by
  unfold declarationShape
  have hsub : Meets (fun subscripts => ∀ s ∈ subscripts, ∀ x ∈ s.nodes, id < x)
      (((f.children id).takeWhile fun c => (f.kind c).isBrackets).mapM f.subscript) := by
    refine Meets.mapM fun c hc => (subscript_meets c).mono fun index hs x hx => ?_
    refine nodes_of_child hf hd ((List.takeWhile_prefix _).subset hc) ?_
    rw [hs]
    exact List.mem_flatMap.mpr ⟨index, List.mem_singleton_self _, hx⟩
  refine hsub.bind fun subscripts hsub => ?_
  split
  · rfl
  next first value hrest =>
    have hvalue : ∀ c ∈ value, id < c := by
      intro c hc
      have hm : c ∈ (f.children id).dropWhile fun c => (f.kind c).isBrackets := by
        rw [hrest]
        exact List.mem_cons_of_mem _ hc
      exact hf.lt_of_mem_children ((List.dropWhile_suffix _).subset hm)
    split
    · split
      · refine (required_nodes hvalue _ _).map fun s hs x hx => ?_
        rcases List.mem_append.mp hx with hx | hx
        · obtain ⟨index, hi, hx⟩ := List.mem_flatMap.mp hx
          exact hsub index hi x hx
        · exact hs x hx
      · rfl
    · rfl

theorem repeatShape_nodes (line : Nat) :
    Meets (fun s => ∀ x ∈ s.nodes, id < x) (f.repeatShape (f.children id) line) := by
  unfold repeatShape
  refine (header_nodes hf .repeat_ line).bind fun ⟨head, body⟩ ⟨⟨hm, hhead⟩, hbody⟩ => ?_
  dsimp only
  split
  next item collection hs =>
    intro x hx
    rcases List.mem_cons.mp hx with rfl | hx
    · exact hbody
    · refine nodes_of_child hf hd hm ?_
      rw [hs]
      exact hx
  next hs =>
    intro x hx
    simp only [Shape.nodes, List.mem_cons, List.not_mem_nil, or_false] at hx
    rcases hx with rfl | rfl
    · exact hhead
    · exact hbody
  · rfl

theorem callShape_nodes (line : Nat) :
    Meets (fun s => ∀ x ∈ s.nodes, id < x) (f.callShape (f.children id) line) := by
  unfold callShape
  split
  next name args hids =>
    split
    next hs =>
      intro x hx
      refine nodes_of_child hf hd (c := args) ?_ ?_
      · rw [hids]
        simp
      · rw [hs]
        exact hx
    · rfl
  · rfl

theorem keywordShape_nodes (k : Keyword) (line : Nat) :
    Meets (fun s => ∀ x ∈ s.nodes, id < x) (f.keywordShape k id (f.children id) line) := by
  have hchildren : ∀ x ∈ f.children id, id < x := fun x hx => hf.lt_of_mem_children hx
  have hs : Meets (fun s => ∀ x ∈ s.nodes, id < x) (f.sequence (f.children id)) :=
    sequence_nodes hchildren
  have hr : Meets (fun s => ∀ x ∈ s.nodes, id < x) (f.required (f.children id) line k.word) :=
    required_nodes hchildren line k.word
  have hbody : Meets (fun body => ∀ x ∈ [body], id < x) (f.body k (f.children id) line) :=
    (body_nodes hf k line).mono fun body hb x hx => List.mem_singleton.mp hx ▸ hb
  cases k with
  | print | input | return_ => exact hs.map fun s h => h
  | insert | convert target => exact hr.map fun s h => h
  | if_ => exact branchShape_nodes hf true .if_ line
  | elif => exact (checkFollows_meets _ line).bind fun _ _ => branchShape_nodes hf false .elif line
  | else_ => exact (checkFollows_meets _ line).bind fun _ _ => hbody.map fun body h => h
  | while_ =>
    refine (conditional_nodes hf .while_ line).map fun ⟨test, body⟩ ⟨htest, hb⟩ x hx => ?_
    simp only [Shape.nodes, List.mem_cons, List.not_mem_nil, or_false] at hx
    rcases hx with rfl | rfl
    · exact htest
    · exact hb
  | repeat_ => exact repeatShape_nodes hf hd line
  | function => exact functionShape_nodes hf line
  | call => exact callShape_nodes hf hd line
  | break_ =>
    unfold keywordShape
    dsimp only
    split
    · exact fun x hx => nomatch hx
    · rfl
  | free =>
    refine (freeNames_meets line (f.children id)).bind fun names _ => ?_
    split
    · rfl
    · exact fun x hx => nomatch hx
    · exact fun x hx => nomatch hx
  | local_ => exact hbody.map fun body h => h
  | extern_ =>
    unfold keywordShape externShape
    dsimp only
    split
    · exact fun x hx => nomatch hx
    · exact fun x hx => nomatch hx
    · rfl

/-- A shape that is found for a node names younger nodes, if those of its children do. -/
theorem shapeOf_nodes : Meets (fun s => ∀ x ∈ s.nodes, id < x) (f.shapeOf id) := by
  have hchildren : ∀ x ∈ f.children id, id < x := fun x hx => hf.lt_of_mem_children hx
  have hnone : ∀ x ∈ Shape.leaf.nodes, id < x := fun x hx => nomatch hx
  unfold shapeOf
  dsimp only
  split
  · exact hnone
  · exact hnone
  · exact hnone
  · exact hnone
  · exact hnone
  · exact blockShape_nodes _
  · exact groupShape_nodes hf _
  · exact (groups_nodes hchildren _).map fun values hs => hs
  · exact declarationShape_nodes hf hd _ _
  · exact keywordShape_nodes hf hd _ _

end Node

theorem descending_empty : Forest.empty.Descending := by
  intro id x hx
  rw [shape_of_size_le (Nat.zero_le id)] at hx
  cases hx

end Forest

theorem Workshop.keeps_descending (source : String) : Keeps Forest.Descending source := by
  intro inserting f r hf hr hd
  have hs := Forest.parse_sprouts hf.wellFormed source
  refine prepare_induct hf hr inserting source (P := fun w => w.forest.Descending) ?_ ?_
  · -- Old nodes are as they were, and new ones have no shape yet.
    intro id x hx
    by_cases hid : id < f.size
    · rw [(Forest.Grown.of_sprouts hs).shape_eq hid] at hx
      exact hd id x hx
    · rw [hs.unloaded id (Nat.le_of_not_lt hid)] at hx
      cases hx
  · intro w w' id shape muted hstep hw y x hx
    obtain ⟨seen, hl⟩ := hstep.before
    by_cases hy : y = id
    · rw [hy, hstep.shape_id] at hx
      rw [hy]
      rcases hstep.shape_eq with ⟨_, rfl, _⟩ | ⟨_, hshape, _⟩
      · cases hx
      · exact (Forest.shapeOf_nodes hl.wellFormed fun c _ => hw c).of_eq_ok hshape x hx
    · rw [hstep.shape_of_ne hy] at hx
      exact hw y x hx

/-! ### Trees without `while` -/

/-- The keyword `while` is not among the tokens of the source. -/
def WhileFree (source : String) : Prop :=
  ∀ t ∈ (Scan.ofText source).tokens, t.kind ≠ .keyword .while_

instance (k : TokenKind) (word : Keyword) : Decidable (k = .keyword word) :=
  match k with
  | .keyword k => decidable_of_iff (k = word) ⟨congrArg _, fun h => by cases h; rfl⟩
  | .name | .operator _ | .mark _ | .str _ | .int _ | .float _ | .bool _ | .endOfText =>
    .isFalse nofun

instance : DecidablePred WhileFree := fun source =>
  inferInstanceAs (Decidable (∀ t ∈ (Scan.ofText source).tokens, ¬ t.kind = .keyword .while_))

/-- No node of the forest is a `while` loop. -/
def Forest.WhileFree (f : Forest) : Prop :=
  ∀ id, f.kind id ≠ .keyword .while_

theorem Forest.whileFree_empty : Forest.empty.WhileFree := by
  intro id
  rw [kind, node_of_size_le (Nat.zero_le id)]
  exact NodeKind.noConfusion

theorem Forest.WhileFree.attach {f : Forest} (h : f.WhileFree) {p : NodeId} (hp : p < f.size)
    {kind : NodeKind} (hk : kind ≠ .keyword .while_) (line : Nat) :
    (f.attach p kind line).WhileFree := by
  intro id
  rw [kind_attach hp]
  split
  · exact hk
  · exact h id

namespace Builder

theorem whileFree_consumeAll {f : Forest} {b : Builder} (hb : Grows f b) (h : b.forest.WhileFree)
    {tokens : List Token} (ht : ∀ t ∈ tokens, t.kind ≠ .keyword .while_) :
    (b.consumeAll tokens).1.forest.WhileFree := by
  induction tokens generalizing b with
  | nil => exact h
  | cons token rest ih =>
    rw [consumeAll]
    split
    · exact h
    · refine ih (hb.consume token) ?_ fun t hm => ht t (List.mem_cons_of_mem _ hm)
      rcases b.forest_consume token with hsame | ⟨kind, hnew, hkey⟩
      · rw [hsame]
        exact h
      · rw [hnew]
        refine h.attach hb.cursor_lt (fun hk => ?_) _
        exact ht token (List.mem_cons_self ..) (hkey .while_ hk)

end Builder

theorem Forest.whileFree_parse {f : Forest} (hf : f.WellFormed) (h : f.WhileFree) {source : String}
    (hs : TagLang.WhileFree source) : (f.parse source).1.WhileFree := by
  have hstart : (Builder.start f).forest.WhileFree := by
    intro id
    show (f.addRoot 1).kind id ≠ _
    rw [kind, node_addRoot]
    split
    · exact NodeKind.noConfusion
    · exact h id
  have hall := Builder.whileFree_consumeAll (.start hf) hstart hs
  unfold Forest.parse
  dsimp only
  split <;> exact hall

theorem Workshop.keeps_whileFree {source : String} (hs : WhileFree source) :
    Keeps Forest.WhileFree source := by
  intro inserting f r hf hr h
  refine prepare_induct hf hr inserting source (P := fun w => w.forest.WhileFree)
    (Forest.whileFree_parse hf.wellFormed h hs) fun w w' id shape muted hstep hw x => ?_
  rw [hstep.forest_eq, Forest.kind_setShape]
  exact hw x

/-- The shape of a node of such a forest is no `while` loop. -/
theorem Forest.WhileFree.shape_ne {f : Forest} (h : f.WhileFree) (hs : f.Sound) {id : NodeId}
    {test body : NodeId} : f.shape id ≠ .while_ test body := by
  intro hshape
  have hfit := hs id
  rw [hshape] at hfit
  exact h id hfit.1

end TagLang
