import TagLang.Proofs.Growth

/-!
# Forests up to the names of their nodes

A node is named by its place, so a forest that holds a few trees more has other names for the same
nodes.  `Forest.Renamed ρ f g` says that every node of `f` stands in `g` under the name that `ρ`
gives it, and asks nothing of the other nodes of `g`.  New nodes get new names in both
(`Forest.Renamed.fresh`), so two forests that grow in the same way stay alike.

A source is read in the same way into both forests (`Forest.Renamed.parse`); in particular, whether
it is refused, and why, does not depend on what has been read before (`Forest.parse_error`).
-/

namespace TagLang

/-! ### Renaming -/

/-- The operand with its nodes renamed. -/
def Operand.rename (ρ : NodeId → NodeId) (o : Operand) : Operand :=
  { o with node := ρ o.node, subscripts := o.subscripts.map ρ }

/-- The expression with its nodes renamed. -/
def Sequence.rename (ρ : NodeId → NodeId) (s : Sequence) : Sequence :=
  { s with operands := s.operands.map (Operand.rename ρ) }

/-- The function with its body renamed. -/
def Function.rename (ρ : NodeId → NodeId) (f : Function) : Function :=
  { f with body := ρ f.body }

/-- The shape with the nodes that it names renamed. -/
def Shape.rename (ρ : NodeId → NodeId) : Shape → Shape
  | groups values => groups (values.map (Sequence.rename ρ))
  | pair item collection => pair item (collection.rename ρ)
  | array values => array (values.map (Sequence.rename ρ))
  | print value => print (value.rename ρ)
  | input prompt => input (prompt.rename ρ)
  | return_ value => return_ (value.rename ρ)
  | convert target value => convert target (value.rename ρ)
  | insert target => insert (target.rename ρ)
  | declaration name subscripts op value =>
    declaration name (subscripts.map (Sequence.rename ρ)) op (value.rename ρ)
  | branch opening condition body chained =>
    branch opening (ρ condition) (ρ body) (chained.map ρ)
  | else_ body => else_ (ρ body)
  | while_ condition body => while_ (ρ condition) (ρ body)
  | repeat_ count body => repeat_ (ρ count) (ρ body)
  | foreach item collection body => foreach item (collection.rename ρ) (ρ body)
  | call name arguments => call name (arguments.map (Sequence.rename ρ))
  | function f => function (f.rename ρ)
  | local_ body => local_ (ρ body)
  | unloaded => unloaded
  | leaf => leaf
  | block => block
  | break_ => break_
  | free names => free names
  | freeAll => freeAll
  | extern_ source nickname => extern_ source nickname

/-- The node with the nodes that it names renamed. -/
def Node.rename (ρ : NodeId → NodeId) (n : Node) : Node :=
  { n with parent := ρ n.parent, children := n.children.map ρ, shape := n.shape.rename ρ }

/-- The operand that stands alone and bare does so under any name. -/
@[simp]
theorem Sequence.single?_rename (ρ : NodeId → NodeId) (s : Sequence) :
    (s.rename ρ).single? = s.single?.map ρ := by
  obtain ⟨operands, operators⟩ := s
  match operands with
  | [] => rfl
  | [⟨node, [], []⟩] => rfl
  | [⟨node, [], _ :: _⟩] => rfl
  | [⟨node, _ :: _, _⟩] => rfl
  | ⟨_, [], []⟩ :: _ :: _ => rfl
  | ⟨_, [], _ :: _⟩ :: _ :: _ => rfl
  | ⟨_, _ :: _, _⟩ :: _ :: _ => rfl

namespace Forest

/-- If names that are not in use go to names that are not in use, one by one, the others go to names
in use. -/
theorem lt_iff_of_fresh {ρ : NodeId → NodeId} (hρ : ∀ a b, ρ a = ρ b → a = b) {m n : Nat}
    (hfresh : ∀ i, ρ (m + i) = n + i) {id : NodeId} : ρ id < n ↔ id < m := by
  constructor
  · intro hlt
    apply Nat.lt_of_not_le
    intro hge
    obtain ⟨i, rfl⟩ := Nat.exists_eq_add_of_le hge
    rw [hfresh] at hlt
    exact Nat.not_lt.mpr (Nat.le_add_right _ i) hlt
  · intro hlt
    apply Nat.lt_of_not_le
    intro hge
    obtain ⟨i, hi⟩ := Nat.exists_eq_add_of_le hge
    rw [← hfresh] at hi
    rw [hρ _ _ hi] at hlt
    exact Nat.not_lt.mpr (Nat.le_add_right _ i) hlt

/-- Every node of `f` stands in `g` under the name that `ρ` gives it, and the names that are not in
use yet are those of `g`, in the same order. -/
structure Renamed (ρ : NodeId → NodeId) (f g : Forest) : Prop where
  injective : ∀ a b, ρ a = ρ b → a = b
  fresh : ∀ i, ρ (f.size + i) = g.size + i
  node : ∀ id, g.node (ρ id) = (f.node id).rename ρ
  source : f.WellFormed
  target : g.WellFormed

namespace Renamed

variable {ρ : NodeId → NodeId} {f g : Forest}

section Reading

variable (h : Renamed ρ f g)
include h

theorem eq_iff {a b : NodeId} : ρ a = ρ b ↔ a = b :=
  ⟨h.injective a b, congrArg ρ⟩

theorem beq_eq (a b : NodeId) : (ρ a == ρ b) = (a == b) := by
  rw [Bool.eq_iff_iff, beq_iff_eq, beq_iff_eq, h.eq_iff]

theorem size_eq : ρ f.size = g.size :=
  h.fresh 0

/-- A name is in use in both forests or in none. -/
theorem lt_iff {id : NodeId} : ρ id < g.size ↔ id < f.size :=
  lt_iff_of_fresh h.injective h.fresh

theorem kind (id : NodeId) : g.kind (ρ id) = f.kind id := by
  rw [Forest.kind, h.node]
  rfl

theorem line (id : NodeId) : g.line (ρ id) = f.line id := by
  rw [Forest.line, h.node]
  rfl

theorem parent (id : NodeId) : g.parent (ρ id) = ρ (f.parent id) := by
  rw [Forest.parent, h.node]
  rfl

theorem shape (id : NodeId) : g.shape (ρ id) = (f.shape id).rename ρ := by
  rw [Forest.shape, h.node]
  rfl

theorem children (id : NodeId) : g.children (ρ id) = (f.children id).map ρ := by
  rw [Forest.children, h.node]
  exact Array.toList_map

/-! ### Walking -/

theorem lineage (id : NodeId) : g.lineage (ρ id) = (f.lineage id).map ρ := by
  induction id using Nat.strongRecOn with
  | _ id ih =>
    rw [lineage_eq h.target, lineage_eq h.source, h.parent, List.map_cons]
    by_cases hp : f.parent id = id
    · rw [if_pos (congrArg ρ hp), if_pos hp, List.map_nil]
    · have hlt : f.parent id < id := Nat.lt_of_le_of_ne (h.source.parent_le id) hp
      rw [if_neg fun hc => hp (h.injective _ _ hc), if_neg hp, ih _ hlt]

theorem nearest? {p q : NodeId → Bool} (hp : ∀ id, q (ρ id) = p id) (id : NodeId) :
    g.nearest? q (ρ id) = (f.nearest? p id).map ρ := by
  have hq : q ∘ ρ = p := funext hp
  rw [nearest?_eq_find?_lineage, nearest?_eq_find?_lineage, h.lineage, List.find?_map, hq]

/-! ### Growing -/

theorem addRoot (line : Nat) : Renamed ρ (f.addRoot line) (g.addRoot line) where
  injective := h.injective
  fresh i := by
    rw [size_addRoot, size_addRoot, Nat.add_assoc, h.fresh, Nat.add_assoc]
  node id := by
    rw [node_addRoot, node_addRoot, ← h.size_eq]
    by_cases hid : id = f.size
    · rw [if_pos (congrArg ρ hid), if_pos hid]
      simp [Node.rename, Shape.rename]
    · rw [if_neg fun hc => hid (h.injective _ _ hc), if_neg hid]
      exact h.node id
  source := h.source.addRoot line
  target := h.target.addRoot line

theorem attach {p : NodeId} (hp : p < f.size) (kind : NodeKind) (line : Nat) :
    Renamed ρ (f.attach p kind line) (g.attach (ρ p) kind line) where
  injective := h.injective
  fresh i := by
    rw [size_attach, size_attach, Nat.add_assoc, h.fresh, Nat.add_assoc]
  node id := by
    rw [node_attach hp, node_attach (h.lt_iff.mpr hp), ← h.size_eq]
    by_cases hid : id = f.size
    · rw [if_pos (congrArg ρ hid), if_pos hid]
      simp [Node.rename, Shape.rename]
    · rw [if_neg fun hc => hid (h.injective _ _ hc), if_neg hid]
      by_cases hq : id = p
      · rw [if_pos (congrArg ρ hq), if_pos hq, h.node]
        simp [Node.rename]
      · rw [if_neg fun hc => hq (h.injective _ _ hc), if_neg hq]
        exact h.node id
  source := h.source.attach hp kind line
  target := h.target.attach (h.lt_iff.mpr hp) kind line

end Reading

end Renamed

/-- The nodes of no forest stand in any other one. -/
theorem renamed_empty (hg : g.WellFormed) : Renamed (g.size + ·) .empty g where
  injective _ _ hab := Nat.add_left_cancel hab
  fresh i := congrArg (g.size + ·) (Nat.zero_add i)
  node id := by
    have hsource : Forest.empty.node id = ⟨.block, id, 0, #[], .unloaded⟩ :=
      node_of_size_le (Nat.zero_le id)
    rw [hsource, node_of_size_le (Nat.le_add_right _ _)]
    simp [Node.rename, Shape.rename]
  source := .empty
  target := hg

end Forest

/-! ### Reading a source -/

namespace Builder

/-- Two builders that are at the same place of the same tree, up to the names of its nodes. -/
structure Renamed (ρ : NodeId → NodeId) (b c : Builder) : Prop where
  forest : Forest.Renamed ρ b.forest c.forest
  root : c.root = ρ b.root
  cursor : c.cursor = ρ b.cursor
  scopes : c.scopes = b.scopes.map ρ

namespace Renamed

variable {ρ : NodeId → NodeId} {f : Forest} {b c : Builder}

theorem start {g : Forest} (h : Forest.Renamed ρ f g) :
    Renamed ρ (Builder.start f) (Builder.start g) where
  forest := h.addRoot 1
  root := h.size_eq.symm
  cursor := h.size_eq.symm
  scopes := rfl

section Token

variable (h : Renamed ρ b c)
include h

/-- The cursor may move to the same node in both trees. -/
theorem move (id : NodeId) : Renamed ρ { b with cursor := id } { c with cursor := ρ id } :=
  { h with cursor := rfl }

theorem boundary : c.boundary = ρ b.boundary := by
  unfold Builder.boundary
  rw [h.scopes, h.root]
  cases b.scopes <;> rfl

theorem attach (hb : Grows f b) (kind : NodeKind) (line : Nat) :
    Renamed ρ (b.attach kind line) (c.attach kind line) where
  forest := by
    show Forest.Renamed ρ (b.forest.attach b.cursor kind line) (c.forest.attach c.cursor kind line)
    rw [h.cursor]
    exact h.forest.attach hb.cursor_lt kind line
  root := h.root
  cursor := h.cursor
  scopes := h.scopes

theorem descend (hb : Grows f b) (kind : NodeKind) (line : Nat) :
    Renamed ρ (b.descend kind line) (c.descend kind line) :=
  { h.attach hb kind line with cursor := h.forest.size_eq.symm }

theorem separate : Renamed ρ b.separate c.separate := by
  unfold Builder.separate
  rw [h.cursor, h.forest.kind, h.forest.parent, h.boundary]
  split
  · exact h.move _
  · exact h.move _

theorem closeGroup : Renamed ρ b.closeGroup c.closeGroup := by
  have hfind := h.forest.nearest?
    (p := fun id => !(b.forest.kind id).isInline || id == b.root)
    (q := fun id => !(c.forest.kind id).isInline || id == c.root)
    (fun id => by rw [h.forest.kind, h.root, h.forest.beq_eq]) b.cursor
  unfold Builder.closeGroup
  dsimp only
  rw [h.cursor, hfind]
  cases b.forest.nearest? (fun id => !(b.forest.kind id).isInline || id == b.root) b.cursor with
  | none => exact h
  | some id =>
    simp only [Option.map_some, h.forest.kind, h.forest.parent]
    split
    · split
      · exact h.move _
      · exact h.move _
    · exact h

theorem closable? : c.closable? = b.closable?.map ρ := by
  have hfind := h.forest.nearest?
    (p := fun id => (b.forest.kind id).isBrackets || id == b.boundary)
    (q := fun id => (c.forest.kind id).isBrackets || id == c.boundary)
    (fun id => by rw [h.forest.kind, h.boundary, h.forest.beq_eq]) b.cursor
  unfold Builder.closable?
  dsimp only
  rw [h.cursor, hfind, Option.filter_map]
  congr 2
  funext id
  rw [Function.comp_apply, h.forest.kind]

theorem closeIndex : Renamed ρ b.closeIndex c.closeIndex := by
  unfold Builder.closeIndex
  rw [h.closable?]
  cases b.closable? with
  | none => exact h
  | some id =>
    simp only [Option.map_some, h.forest.parent]
    exact h.move _

theorem openBlock (hb : Grows f b) (line : Nat) :
    Renamed ρ (b.openBlock line) (c.openBlock line) := by
  have hd := h.descend hb .block line
  refine { hd with scopes := ?_ }
  show (c.descend .block line).cursor :: (c.descend .block line).scopes = _
  rw [hd.cursor, hd.scopes]
  rfl

theorem closeBlock : Renamed ρ b.closeBlock c.closeBlock := by
  have ht : Renamed ρ { b with scopes := b.scopes.tail } { c with scopes := c.scopes.tail } :=
    { h with scopes := by rw [h.scopes, List.map_tail] }
  exact { ht with cursor := ht.boundary }

theorem mark (hb : Grows f b) (line : Nat) (m : Mark) :
    Renamed ρ (b.mark line m) (c.mark line m) := by
  cases m with
  | separator => exact h.separate
  | openGroup => exact h.descend hb _ _
  | closeGroup => exact h.closeGroup
  | openBlock => exact h.openBlock hb _
  | closeBlock => exact h.closeBlock
  | openIndex => exact h.descend hb _ _
  | closeIndex => exact h.closeIndex
  | comma => exact h.attach hb _ _
  | colon => exact h.attach hb _ _

theorem name (hb : Grows f b) (lexeme : String) (line : Nat) :
    Renamed ρ (b.name lexeme line) (c.name lexeme line) := by
  unfold Builder.name
  simp only [h.cursor, h.boundary, h.forest.eq_iff]
  split
  · exact h.descend hb _ _
  · exact h.attach hb _ _

theorem consume (hb : Grows f b) (token : Token) :
    Renamed ρ (b.consume token) (c.consume token) := by
  unfold Builder.consume
  cases token.kind with
  | name => exact h.name hb _ _
  | keyword k => exact h.descend hb _ _
  | mark m => exact h.mark hb _ m
  | endOfText => exact h
  | _ => exact h.attach hb _ _

theorem refusal? (token : Token) : c.refusal? token = b.refusal? token := by
  unfold Builder.refusal?
  rw [h.scopes, h.closable?]
  simp

end Token

/-- The same tokens are read, and the same one is refused. -/
theorem consumeAll (h : Renamed ρ b c) (hb : Grows f b) (tokens : List Token) :
    Renamed ρ (b.consumeAll tokens).1 (c.consumeAll tokens).1 ∧
      (c.consumeAll tokens).2 = (b.consumeAll tokens).2 := by
  induction tokens generalizing b c with
  | nil => exact ⟨h, rfl⟩
  | cons token rest ih =>
    rw [Builder.consumeAll, Builder.consumeAll, h.refusal?]
    cases b.refusal? token with
    | some cause => exact ⟨h, rfl⟩
    | none => exact ih (h.consume hb token) (hb.consume token)

theorem unfinished? (h : Renamed ρ b c) (stop : Option Malformed) (last : Nat) :
    c.unfinished? stop last = b.unfinished? stop last := by
  unfold Builder.unfinished?
  rw [h.scopes]
  cases stop with
  | some m => rfl
  | none =>
    cases b.scopes with
    | nil => rfl
    | cons opened rest => simp only [List.map_cons, h.forest.line]

end Renamed

end Builder

namespace Forest

variable {ρ : NodeId → NodeId} {f g : Forest}

/-- A source is read in the same way into both forests. -/
theorem Renamed.parse (h : Renamed ρ f g) (source : String) :
    Renamed ρ (f.parse source).1 (g.parse source).1 ∧
      (g.parse source).2 = (f.parse source).2.map ρ := by
  obtain ⟨hb, hrefused⟩ := (Builder.Renamed.start h).consumeAll (.start h.source)
    (Scan.ofText source).tokens
  unfold Forest.parse
  dsimp only
  rw [hrefused, hb.unfinished?]
  split
  · exact ⟨hb.forest, rfl⟩
  · exact ⟨hb.forest, congrArg Except.ok hb.root⟩

/-- Whether a source is refused, and why, does not depend on what has been read before. -/
theorem parse_error (hg : g.WellFormed) {source : String} {failure : Failure}
    (h : (Forest.empty.parse source).2 = .error failure) : (g.parse source).2 = .error failure := by
  rw [((renamed_empty hg).parse source).2, h]
  rfl

end Forest

end TagLang
