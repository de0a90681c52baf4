import TagLang.Proofs.Growth
import TagLang.Proofs.Scanning

/-!
# Growing a tree from an expression

The tokens of an expression hang its terms under the cursor (`Builder.plants_terms`): every literal,
operator and comma is a node, and parentheses and brackets are nodes with what stands between them
below.  The cursor ends where it was, and nothing else changes in the forest (`Forest.Extends`).
-/

namespace TagLang

namespace Forest

/-! ### Nodes that hold terms -/

/-- The node has this kind and is not older than `a`. -/
structure Stands (f : Forest) (a id : NodeId) (kind : NodeKind) : Prop where
  le : a ≤ id
  lt_size : id < f.size
  kind_eq : f.kind id = kind

mutual

/-- The node was made from the term, and all nodes below it from what stands in it.  None of them is
older than `a`. -/
def Holds (f : Forest) (a : NodeId) : Term → NodeId → Prop
  | .atom v, id => f.Stands a id (.literal v.value) ∧ f.children id = []
  | .operator op, id => f.Stands a id (.operator op) ∧ f.children id = []
  | .comma, id => f.Stands a id .comma ∧ f.children id = []
  | .group inner, id => f.Stands a id .group ∧ f.HoldsAll a inner (f.children id)
  | .brackets inner, id => f.Stands a id .brackets ∧ f.HoldsAll a inner (f.children id)

/-- The nodes were made from the terms, one from each. -/
def HoldsAll (f : Forest) (a : NodeId) : List Term → List NodeId → Prop
  | [], [] => True
  | t :: terms, id :: ids => f.Holds a t id ∧ f.HoldsAll a terms ids
  | _, _ => False

end

section Holds

variable {f g : Forest} {a b : NodeId}

theorem Holds.lt_size {t : Term} {id : NodeId} (h : f.Holds a t id) : id < f.size := by
  cases t with
  | atom v | operator op | comma | group inner | brackets inner => exact h.1.lt_size

theorem Holds.le {t : Term} {id : NodeId} (h : f.Holds a t id) : a ≤ id := by
  cases t with
  | atom v | operator op | comma | group inner | brackets inner => exact h.1.le

/-- A new node has nothing below it. -/
theorem stands_attach {c : NodeId} (hc : c < f.size) (kind : NodeKind) (line : Nat) :
    (f.attach c kind line).Stands f.size f.size kind ∧
      (f.attach c kind line).children f.size = [] := by
  refine ⟨⟨Nat.le_refl _, ?_, ?_⟩, ?_⟩
  · rw [size_attach]
    exact Nat.lt_succ_self _
  · rw [kind_attach hc, if_pos rfl]
  · rw [children_attach hc, if_neg (Nat.ne_of_gt hc), children, node_of_size_le (Nat.le_refl _)]

theorem HoldsAll.nil_iff {ids : List NodeId} : f.HoldsAll a [] ids ↔ ids = [] := by
  cases ids <;> simp [HoldsAll]

theorem HoldsAll.cons_iff {t : Term} {terms : List Term} {ids : List NodeId} :
    f.HoldsAll a (t :: terms) ids ↔
      ∃ id more, ids = id :: more ∧ f.Holds a t id ∧ f.HoldsAll a terms more := by
  cases ids with
  | nil => simp [HoldsAll]
  | cons id more =>
    constructor
    · exact fun h => ⟨id, more, rfl, h⟩
    · rintro ⟨_, _, ⟨⟩, h⟩
      exact h

theorem HoldsAll.singleton_iff {t : Term} {ids : List NodeId} :
    f.HoldsAll a [t] ids ↔ ∃ id, ids = [id] ∧ f.Holds a t id := by
  constructor
  · intro h
    obtain ⟨id, _, rfl, ht, hnil⟩ := HoldsAll.cons_iff.mp h
    exact ⟨id, by rw [HoldsAll.nil_iff.mp hnil], ht⟩
  · rintro ⟨id, rfl, ht⟩
    exact ⟨ht, trivial⟩

theorem HoldsAll.append_iff {ts us : List Term} {ids : List NodeId} :
    f.HoldsAll a (ts ++ us) ids ↔
      ∃ first second, ids = first ++ second ∧ f.HoldsAll a ts first ∧ f.HoldsAll a us second := by
  induction ts generalizing ids with
  | nil =>
    constructor
    · exact fun h => ⟨[], ids, rfl, trivial, h⟩
    · rintro ⟨first, second, rfl, hnil, h⟩
      rw [HoldsAll.nil_iff.mp hnil]
      exact h
  | cons t ts ih =>
    simp only [List.cons_append, HoldsAll.cons_iff, ih]
    constructor
    · rintro ⟨id, _, rfl, ht, first, second, rfl, hts, hus⟩
      exact ⟨id :: first, second, rfl, ⟨id, first, rfl, ht, hts⟩, hus⟩
    · rintro ⟨_, second, rfl, ⟨id, first, rfl, ht, hts⟩, hus⟩
      exact ⟨id, first ++ second, rfl, ht, first, second, rfl, hts, hus⟩

theorem Stands.mono (hb : b ≤ a) (hsize : f.size ≤ g.size)
    (hnode : ∀ id, a ≤ id → id < f.size → g.node id = f.node id) {id : NodeId} {kind : NodeKind}
    (h : f.Stands a id kind) : g.Stands b id kind ∧ g.children id = f.children id := by
  have hn := hnode id h.le h.lt_size
  refine ⟨⟨Nat.le_trans hb h.le, Nat.lt_of_lt_of_le h.lt_size hsize, ?_⟩, ?_⟩
  · rw [Forest.kind, hn]
    exact h.kind_eq
  · rw [children, hn, children]

mutual

/-- What a node holds does not change when older nodes do. -/
theorem Holds.mono (hb : b ≤ a) (hsize : f.size ≤ g.size)
    (hnode : ∀ id, a ≤ id → id < f.size → g.node id = f.node id) :
    (t : Term) → {id : NodeId} → f.Holds a t id → g.Holds b t id
  | .atom v, _, h | .operator op, _, h | .comma, _, h => by
    obtain ⟨hs, hc⟩ := h.1.mono hb hsize hnode
    exact ⟨hs, hc.trans h.2⟩
  | .group inner, _, h | .brackets inner, _, h => by
    obtain ⟨hs, hc⟩ := h.1.mono hb hsize hnode
    exact ⟨hs, hc ▸ HoldsAll.mono hb hsize hnode inner h.2⟩

theorem HoldsAll.mono (hb : b ≤ a) (hsize : f.size ≤ g.size)
    (hnode : ∀ id, a ≤ id → id < f.size → g.node id = f.node id) :
    (terms : List Term) → {ids : List NodeId} → f.HoldsAll a terms ids → g.HoldsAll b terms ids
  | [], [], _ => trivial
  | t :: terms, _ :: _, h =>
    ⟨Holds.mono hb hsize hnode t h.1, HoldsAll.mono hb hsize hnode terms h.2⟩

end

end Holds

/-! ### Forests with more below a node -/

/-- The second forest has more nodes, which hang under `c` or under each other; the last children of
`c` are `ids`, and all else is as it was. -/
structure Extends (f g : Forest) (c : NodeId) (ids : List NodeId) : Prop where
  size_le : f.size ≤ g.size
  node_eq : ∀ id, id < f.size → id ≠ c → g.node id = f.node id
  kind_eq : g.kind c = f.kind c
  parent_eq : g.parent c = f.parent c
  children_eq : g.children c = f.children c ++ ids

namespace Extends

variable {f g k : Forest} {c : NodeId} {ids more : List NodeId}

theorem refl (f : Forest) (c : NodeId) : f.Extends f c [] :=
  ⟨Nat.le_refl _, fun _ _ _ => rfl, rfl, rfl, (List.append_nil _).symm⟩

theorem trans (h₁ : f.Extends g c ids) (h₂ : g.Extends k c more) : f.Extends k c (ids ++ more) where
  size_le := Nat.le_trans h₁.size_le h₂.size_le
  node_eq id hid hc :=
    (h₂.node_eq id (Nat.lt_of_lt_of_le hid h₁.size_le) hc).trans (h₁.node_eq id hid hc)
  kind_eq := h₂.kind_eq.trans h₁.kind_eq
  parent_eq := h₂.parent_eq.trans h₁.parent_eq
  children_eq := by rw [h₂.children_eq, h₁.children_eq, List.append_assoc]

theorem attach (hc : c < f.size) (kind : NodeKind) (line : Nat) :
    f.Extends (f.attach c kind line) c [f.size] where
  size_le := by rw [size_attach]; exact Nat.le_succ _
  node_eq id hid hne := by rw [node_attach hc, if_neg (Nat.ne_of_lt hid), if_neg hne]
  kind_eq := by rw [kind_attach hc, if_neg (Nat.ne_of_lt hc)]
  parent_eq := by rw [parent_attach hc, if_neg (Nat.ne_of_lt hc)]
  children_eq := by rw [children_attach hc, if_pos rfl]

/-- What grows under a new node grows under its parent. -/
theorem nest (hc : c < f.size) {kind : NodeKind} {line : Nat}
    (h : (f.attach c kind line).Extends g f.size ids) : f.Extends g c [f.size] := by
  have hnew := attach hc kind line
  have hlt : c < (f.attach c kind line).size := Nat.lt_of_lt_of_le hc hnew.size_le
  have hsame : g.node c = (f.attach c kind line).node c := h.node_eq c hlt (Nat.ne_of_lt hc)
  refine ⟨Nat.le_trans hnew.size_le h.size_le, fun id hid hne => ?_, ?_, ?_, ?_⟩
  · rw [h.node_eq id (Nat.lt_of_lt_of_le hid hnew.size_le) (Nat.ne_of_lt hid),
      hnew.node_eq id hid hne]
  · rw [Forest.kind, hsame]
    exact hnew.kind_eq
  · rw [parent, hsame]
    exact hnew.parent_eq
  · rw [children, hsame]
    exact hnew.children_eq

/-- What was made behind `f` is not touched when more is made. -/
theorem holdsAll (h : g.Extends k c ids) (hc : c < f.size)
    {terms : List Term} {made : List NodeId} (hm : g.HoldsAll f.size terms made) :
    k.HoldsAll f.size terms made :=
  HoldsAll.mono (Nat.le_refl _) h.size_le
    (fun id hid hlt => h.node_eq id hlt (Nat.ne_of_gt (Nat.lt_of_lt_of_le hc hid))) terms hm

end Extends

end Forest

/-! ### Reading the tokens of terms -/

namespace Builder

open Forest

/-- The tokens hang the terms under any cursor, and leave it there.  Only under a `call` the end of
a group would do more. -/
def Plants (tokens : List Token) (terms : List Term) : Prop :=
  ∀ (b : Builder) (rest : List Token), b.cursor < b.forest.size →
    (b.forest.kind b.cursor).isKeyword .call = false →
    ∃ f ids, b.consumeAll (tokens ++ rest) = { b with forest := f }.consumeAll rest ∧
      b.forest.Extends f b.cursor ids ∧ f.HoldsAll b.forest.size terms ids

theorem Plants.nil : Plants [] [] :=
  fun b _ _ _ => ⟨b.forest, [], rfl, .refl .., trivial⟩

theorem Plants.append {tokens more : List Token} {ts us : List Term} (h₁ : Plants tokens ts)
    (h₂ : Plants more us) : Plants (tokens ++ more) (ts ++ us) := by
  intro b rest hc hk
  obtain ⟨f, ids, hread, hext, hold⟩ := h₁ b (more ++ rest) hc hk
  have hc' : b.cursor < f.size := Nat.lt_of_lt_of_le hc hext.size_le
  obtain ⟨g, ids', hread', hext', hold'⟩ :=
    h₂ { b with forest := f } rest hc' (by rw [hext.kind_eq]; exact hk)
  refine ⟨g, ids ++ ids', ?_, hext.trans hext', ?_⟩
  · rw [List.append_assoc, hread, hread']
  · refine HoldsAll.append_iff.mpr ⟨ids, ids', rfl, hext'.holdsAll hc hold, ?_⟩
    exact HoldsAll.mono hext.size_le (Nat.le_refl _) (fun _ _ _ => rfl) us hold'

/-- A token that is a node by itself. -/
theorem Plants.bare {token : Token} {t : Term} {kind : NodeKind}
    (hfree : ∀ b : Builder, b.refusal? token = none)
    (hread : ∀ b : Builder, b.consume token = b.attach kind token.position.line)
    (hold : ∀ (f : Forest) a id, f.Stands a id kind ∧ f.children id = [] → f.Holds a t id) :
    Plants [token] [t] := by
  intro b rest hc _
  have hext := Extends.attach hc kind token.position.line
  refine ⟨b.forest.attach b.cursor kind token.position.line, [b.forest.size], ?_, hext, ?_, trivial⟩
  · rw [List.singleton_append, consumeAll, hfree, hread]
    rfl
  · exact hold _ _ _ (stands_attach hc kind token.position.line)

/-- Tokens that open and close a node, with the terms inside it between them. -/
theorem Plants.nest {opening closing : Token} {tokens : List Token} {inner : List Term} {t : Term}
    {kind : NodeKind} (hkind : kind.isKeyword .call = false)
    (hopen : ∀ b : Builder, b.refusal? opening = none ∧
      b.consume opening = b.descend kind opening.position.line)
    (hclose : ∀ b : Builder, b.forest.kind b.cursor = kind →
      (b.forest.kind (b.forest.parent b.cursor)).isKeyword .call = false →
      b.refusal? closing = none ∧ b.consume closing = { b with cursor := b.forest.parent b.cursor })
    (hold : ∀ (f : Forest) a id, f.Stands a id kind ∧ f.HoldsAll a inner (f.children id) →
      f.Holds a t id)
    (h : Plants tokens inner) : Plants (opening :: (tokens ++ [closing])) [t] := by
  intro b rest hc hk
  -- Down to the new node, through what stands inside, and up again to where the cursor was.
  obtain ⟨hstands, hleaf⟩ := stands_attach hc kind opening.position.line
  let down := b.descend kind opening.position.line
  have hdown : (down.forest.kind down.cursor).isKeyword .call = false :=
    (congrArg _ hstands.kind_eq).trans hkind
  obtain ⟨f, ids, hread, hext, hinner⟩ := h down (closing :: rest) hstands.lt_size hdown
  replace hext : (b.forest.attach b.cursor kind opening.position.line).Extends f
      b.forest.size ids := hext
  have hup := hext.nest hc
  have hparent : f.parent b.forest.size = b.cursor := by
    rw [hext.parent_eq, parent_attach hc, if_pos rfl]
  obtain ⟨hfree, hback⟩ := hclose { down with forest := f } (hext.kind_eq.trans hstands.kind_eq)
    (by
      show (f.kind (f.parent b.forest.size)).isKeyword .call = false
      rw [hparent, hup.kind_eq]
      exact hk)
  refine ⟨f, [b.forest.size], ?_, hup, ?_, trivial⟩
  · rw [List.cons_append, consumeAll, (hopen b).1, (hopen b).2, List.append_assoc]
    show down.consumeAll (tokens ++ closing :: rest) = _
    rw [hread, consumeAll, hfree, hback]
    show ({ down with forest := f, cursor := f.parent b.forest.size } : Builder).consumeAll rest = _
    rw [hparent]
    rfl
  · refine hold f _ _ ⟨⟨Nat.le_refl _, ?_, hext.kind_eq.trans hstands.kind_eq⟩, ?_⟩
    · exact Nat.lt_of_lt_of_le hstands.lt_size hext.size_le
    · rw [hext.children_eq, hleaf]
      refine HoldsAll.mono ?_ (Nat.le_refl _) (fun _ _ _ => rfl) inner hinner
      exact (Extends.attach hc kind opening.position.line).size_le

/-- A `)` leaves the group that the cursor is at. -/
theorem closeGroup_eq {b : Builder} (hk : b.forest.kind b.cursor = .group)
    (hp : (b.forest.kind (b.forest.parent b.cursor)).isKeyword .call = false) :
    b.closeGroup = { b with cursor := b.forest.parent b.cursor } := by
  simp [closeGroup, nearest?, nearest?.go, hk, NodeKind.isInline, NodeKind.isGroup, hp]

/-- A `]` closes the brackets that the cursor is at. -/
theorem closable?_eq {b : Builder} (hk : b.forest.kind b.cursor = .brackets) :
    b.closable? = some b.cursor := by
  simp [closable?, nearest?, nearest?.go, hk, NodeKind.isBrackets]

theorem closeIndex_eq {b : Builder} (hk : b.forest.kind b.cursor = .brackets) :
    b.closeIndex = { b with cursor := b.forest.parent b.cursor } := by
  rw [closeIndex, closable?_eq hk]

theorem exists_of_kinds_eq {tokens : List Token} {p q : Piece} {ps : List Piece}
    (h : tokens.map (·.kind) = (p :: (ps ++ [q])).map Piece.kind) :
    ∃ opening between closing, tokens = opening :: (between ++ [closing]) ∧ opening.kind = p.kind ∧
      closing.kind = q.kind ∧ between.map (·.kind) = ps.map Piece.kind := by
  rw [List.map_cons, List.map_append] at h
  obtain ⟨opening, more, rfl, ho, hmore⟩ := List.map_eq_cons_iff.mp h
  obtain ⟨between, last, rfl, hi, hlast⟩ := List.map_eq_append_iff.mp hmore
  obtain ⟨closing, rfl, hc⟩ := List.map_eq_singleton_iff.mp hlast
  exact ⟨opening, between, closing, rfl, ho, hc, hi⟩

mutual

/-- The tokens of a term hang it under the cursor. -/
theorem plants_term : (t : Term) → {tokens : List Token} →
    tokens.map (·.kind) = t.pieces.map Piece.kind → Plants tokens [t]
  | .atom a, tokens, h => by
    obtain ⟨token, rfl, hk⟩ := List.map_eq_singleton_iff.mp h
    cases a <;> exact .bare (fun b => by simp [refusal?, hk, Piece.kind])
      (fun b => by simp [consume, hk, Piece.kind, Atom.value]) fun f a id h => h
  | .operator op, tokens, h => by
    obtain ⟨token, rfl, hk⟩ := List.map_eq_singleton_iff.mp h
    exact .bare (fun b => by simp [refusal?, hk, Piece.kind])
      (fun b => by simp [consume, hk, Piece.kind]) fun f a id h => h
  | .comma, tokens, h => by
    obtain ⟨token, rfl, hk⟩ := List.map_eq_singleton_iff.mp h
    exact .bare (fun b => by simp [refusal?, hk, Piece.kind])
      (fun b => by simp [consume, hk, Piece.kind, mark]) fun f a id h => h
  | .group inner, tokens, h => by
    obtain ⟨opening, between, closing, rfl, ho, hc, hi⟩ := exists_of_kinds_eq h
    refine .nest rfl (fun b => ?_) (fun b hk hp => ?_) (fun f a id h => h) (plants_terms inner hi)
    · simp [refusal?, consume, ho, Piece.kind, mark]
    · simp [refusal?, consume, hc, Piece.kind, mark, closeGroup_eq hk hp]
  | .brackets inner, tokens, h => by
    obtain ⟨opening, between, closing, rfl, ho, hc, hi⟩ := exists_of_kinds_eq h
    refine .nest rfl (fun b => ?_) (fun b hk hp => ?_) (fun f a id h => h) (plants_terms inner hi)
    · simp [refusal?, consume, ho, Piece.kind, mark]
    · simp [refusal?, consume, hc, Piece.kind, mark, closable?_eq hk, closeIndex_eq hk]

theorem plants_terms : (terms : List Term) → {tokens : List Token} →
    tokens.map (·.kind) = (Term.piecesAll terms).map Piece.kind → Plants tokens terms
  | [], tokens, h => by
    cases tokens with
    | nil => exact .nil
    | cons token tokens => cases h
  | t :: terms, tokens, h => by
    rw [Term.piecesAll, List.map_append] at h
    obtain ⟨first, second, rfl, h₁, h₂⟩ := List.map_eq_append_iff.mp h
    exact (plants_term t h₁).append (plants_terms terms h₂)

end

end Builder

/-! ### A whole source -/

/-- The forest has a new tree: a `print` statement whose expression is written with the terms. -/
structure Forest.Prints (f₀ f : Forest) (terms : List Term) : Prop where
  root_kind : f.kind f₀.size = .block
  root_children : f.children f₀.size = [f₀.size + 1]
  print_lt : f₀.size + 1 < f.size
  print_kind : f.kind (f₀.size + 1) = .keyword .print
  holdsAll : f.HoldsAll (f₀.size + 2) terms (f.children (f₀.size + 1))

open Forest in
theorem Builder.prints (f₀ : Forest) {print : Token} {tokens : List Token} {terms : List Term}
    (hprint : print.kind = .keyword .print) (hterms : Plants tokens terms) (rest : List Token) :
    ∃ f, f₀.Prints f terms ∧ (start f₀).consumeAll (print :: (tokens ++ rest)) =
      (⟨f, f₀.size, f₀.size + 1, []⟩ : Builder).consumeAll rest := by
  have hroot : f₀.size < (f₀.addRoot 1).size := by
    rw [size_addRoot]
    exact Nat.lt_succ_self _
  obtain ⟨hstands, hleaf⟩ := stands_attach hroot (.keyword .print) print.position.line
  rw [size_addRoot] at hstands hleaf
  let b : Builder := ⟨(f₀.addRoot 1).attach f₀.size (.keyword .print) print.position.line, f₀.size,
    f₀.size + 1, []⟩
  have hdescend : (start f₀).consume print = b := by
    simp only [consume, hprint, descend, start, size_addRoot, b]
  have hfree : (start f₀).refusal? print = none := by
    simp only [refusal?, hprint]
  obtain ⟨f, ids, hread, hext, hold⟩ :=
    hterms b rest hstands.lt_size (congrArg _ hstands.kind_eq)
  replace hext : ((f₀.addRoot 1).attach f₀.size (.keyword .print) print.position.line).Extends f
      (f₀.size + 1) ids := hext
  have hup : (f₀.addRoot 1).Extends f f₀.size [f₀.size + 1] := by
    have hnest := Extends.nest hroot (g := f) (by rw [size_addRoot]; exact hext)
    rwa [size_addRoot] at hnest
  refine ⟨f, ⟨?_, ?_, ?_, ?_, ?_⟩, ?_⟩
  · rw [hup.kind_eq, kind, node_addRoot, if_pos rfl]
  · rw [hup.children_eq, children, node_addRoot, if_pos rfl]
    rfl
  · exact Nat.lt_of_lt_of_le hstands.lt_size hext.size_le
  · exact hext.kind_eq.trans hstands.kind_eq
  · have hsize : b.forest.size = f₀.size + 2 := by simp [b]
    rw [hext.children_eq, hleaf, ← hsize]
    exact hold
  · rw [consumeAll, hfree, hdescend]
    exact hread

/-- Reading a `print` statement hangs it under a new root. -/
theorem Forest.parse_print (f₀ : Forest) (e : Expr) :
    ∃ f, f₀.Prints f e.terms ∧ f₀.parse ("print " ++ e.text ++ ";") = (f, .ok f₀.size) := by
  have hgives := Scan.gives_print e
  have hstop := hgives.2
  have hkinds : (Scan.ofText ("print " ++ e.text ++ ";")).tokens.map (·.kind) = .keyword .print ::
      ((Term.piecesAll e.terms).map Piece.kind ++ [.mark .separator, .endOfText]) := by
    simp [hgives.kinds, Function.comp_def]
  obtain ⟨print, more, htokens, hprint, hmore⟩ := List.map_eq_cons_iff.mp hkinds
  obtain ⟨tokens, last, rfl, hterms, hlast⟩ := List.map_eq_append_iff.mp hmore
  obtain ⟨separator, more, rfl, hsep, hmore⟩ := List.map_eq_cons_iff.mp hlast
  obtain ⟨final, rfl, hfinal⟩ := List.map_eq_singleton_iff.mp hmore
  obtain ⟨f, hprints, hread⟩ :=
    Builder.prints f₀ hprint (Builder.plants_terms e.terms hterms) [separator, final]
  refine ⟨f, hprints, ?_⟩
  have hend : (⟨f, f₀.size, f₀.size + 1, []⟩ : Builder).consumeAll [separator, final] =
      (⟨f, f₀.size, f₀.size, []⟩, none) := by
    simp [Builder.consumeAll, Builder.refusal?, Builder.consume, hsep, hfinal, Builder.mark,
      Builder.separate, Builder.boundary, hprints.print_kind, NodeKind.isGroup]
  rw [parse, htokens, hread, hend, hstop]
  rfl

end TagLang
