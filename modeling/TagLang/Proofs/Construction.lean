import TagLang.Proofs.Growth

/-!
# Trees under construction

Whatever tokens come, the builder stays inside the blocks that are open.  The blocks around the
cursor are the open ones and the root, in this order (`Builder.Nested`), and this one equation says
that the open blocks lie inside one another, that the cursor lies inside the innermost of them, and
that it is a block only if it is that one.

Every way up keeps the equation for the same reason.  A `)`, `]` or `;` passes over nodes that are
no blocks and stops at the innermost block at the latest (`Forest.blocks_nearest?`), and a `}` goes
on to the next block (`Forest.blocks_tail`).

`Builder.consumeAll_consistent` says what this means for the forest of many sources.
-/

namespace TagLang

namespace Forest

/-! ### Blocks around a node -/

/-- The blocks that a node lies in, innermost first; a block lies in itself. -/
def blocks (f : Forest) (id : NodeId) : List NodeId :=
  (f.lineage id).filter fun a => (f.kind a).isBlock

section Blocks

variable {f : Forest} (h : f.WellFormed)
include h

theorem blocks_of_isBlock {id : NodeId} (hb : (f.kind id).isBlock = true) :
    f.blocks id = id :: if f.parent id = id then [] else f.blocks (f.parent id) := by
  unfold blocks
  rw [lineage_eq h, List.filter_cons, if_pos hb]
  split <;> rfl

/-- A node that is no block lies in the same blocks as its parent. -/
theorem blocks_parent {id : NodeId} (hb : (f.kind id).isBlock = false) (hp : f.parent id ≠ id) :
    f.blocks (f.parent id) = f.blocks id := by
  unfold blocks
  rw [lineage_eq h id, if_neg hp, List.filter_cons_of_neg (by simp [hb])]

/-- The innermost block around a node lies in the same blocks as the node. -/
theorem blocks_head {id x : NodeId} {rest : List NodeId} (hid : f.blocks id = x :: rest) :
    f.blocks x = x :: rest := by
  induction id using Nat.strongRecOn with
  | _ id ih =>
    by_cases hb : (f.kind id).isBlock = true
    · have hx : id = x := by
        rw [blocks_of_isBlock h hb] at hid
        exact (List.cons.inj hid).1
      exact hx ▸ hid
    · by_cases hp : f.parent id = id
      · -- A root that is no block lies in none.
        rw [blocks, lineage_eq h, if_pos hp, List.filter_cons, if_neg hb] at hid
        cases hid
      · refine ih _ (Nat.lt_of_le_of_ne (h.parent_le id) hp) ?_
        rw [blocks_parent h (Bool.eq_false_iff.mpr hb) hp, hid]

/-- The next block around a node lies in all the blocks but the innermost. -/
theorem blocks_tail {id x y : NodeId} {rest : List NodeId} (hid : f.blocks id = x :: y :: rest) :
    f.blocks y = y :: rest := by
  have hx := blocks_head h hid
  have hb : (f.kind x).isBlock = true := by
    have hmem : x ∈ f.blocks x := hx ▸ List.mem_cons_self ..
    exact (List.mem_filter.mp hmem).2
  rw [blocks_of_isBlock h hb] at hx
  split at hx
  · cases hx
  · exact blocks_head h (List.cons.inj hx).2

/-- The way up to a node that is looked for leaves no block, if the innermost one is looked for. -/
theorem blocks_nearest? {p : NodeId → Bool} {id x s : NodeId} {rest : List NodeId}
    (hid : f.blocks id = s :: rest) (hs : p s = true) (hx : f.nearest? p id = some x) :
    f.blocks x = s :: rest := by
  rw [nearest?_eq_find?_lineage] at hx
  induction id using Nat.strongRecOn with
  | _ id ih =>
    rw [lineage_eq h, List.find?_cons] at hx
    split at hx
    · cases hx
      exact hid
    next hnot =>
      split at hx
      · cases hx
      next hp =>
        have hb : (f.kind id).isBlock = false := by
          refine Bool.eq_false_iff.mpr fun hb => ?_
          rw [blocks_of_isBlock h hb] at hid
          rw [(List.cons.inj hid).1, hs] at hnot
          cases hnot
        refine ih _ (Nat.lt_of_le_of_ne (h.parent_le id) hp) ?_ hx
        rw [blocks_parent h hb hp, hid]

/-- Every member of a lineage is older than those before it, and above them. -/
theorem pairwise_lineage (id : NodeId) :
    (f.lineage id).Pairwise fun below above => above < below ∧ above ∈ f.lineage below := by
  induction id using Nat.strongRecOn with
  | _ id ih =>
    rw [lineage_eq h]
    split
    · exact List.pairwise_singleton _ _
    next hp =>
      have hlt : f.parent id < id := Nat.lt_of_le_of_ne (h.parent_le id) hp
      refine List.pairwise_cons.mpr ⟨fun a ha => ⟨?_, ?_⟩, ih _ hlt⟩
      · exact Nat.lt_of_le_of_lt (le_of_mem_lineage h ha) hlt
      · exact (mem_lineage_iff h).mpr (.inr ⟨hp, ha⟩)

theorem lineage_attach {p : NodeId} (hp : p < f.size) (kind : NodeKind) (line : Nat) {id : NodeId}
    (hid : id < f.size) : (f.attach p kind line).lineage id = f.lineage id := by
  induction id using Nat.strongRecOn with
  | _ id ih =>
    rw [lineage_eq h, lineage_eq (h.attach hp kind line), parent_attach hp,
      if_neg (Nat.ne_of_lt hid)]
    split
    · rfl
    next hne => rw [ih _ (Nat.lt_of_le_of_ne (h.parent_le id) hne) (h.parent_lt_size hid)]

/-- A new node changes nothing around the nodes from before. -/
theorem blocks_attach {p : NodeId} (hp : p < f.size) (kind : NodeKind) (line : Nat) {id : NodeId}
    (hid : id < f.size) : (f.attach p kind line).blocks id = f.blocks id := by
  unfold blocks
  rw [lineage_attach h hp kind line hid]
  refine List.filter_congr fun a ha => ?_
  have hlt : a < f.size := Nat.lt_of_le_of_lt (le_of_mem_lineage h ha) hid
  rw [kind_attach hp, if_neg (Nat.ne_of_lt hlt)]

/-- A new node lies in the blocks of its parent, and in itself if it is a block. -/
theorem blocks_attach_self {p : NodeId} (hp : p < f.size) (kind : NodeKind) (line : Nat) :
    (f.attach p kind line).blocks f.size =
      if kind.isBlock then f.size :: f.blocks p else f.blocks p := by
  have hg := h.attach hp kind line
  have hkind : (f.attach p kind line).kind f.size = kind := by rw [kind_attach hp, if_pos rfl]
  have hparent : (f.attach p kind line).parent f.size = p := by rw [parent_attach hp, if_pos rfl]
  have hne : (f.attach p kind line).parent f.size ≠ f.size := by
    rw [hparent]
    exact Nat.ne_of_lt hp
  by_cases hb : kind.isBlock = true
  · rw [if_pos hb, blocks_of_isBlock hg (hkind.symm ▸ hb), if_neg hne, hparent,
      blocks_attach h hp kind line hp]
  · rw [if_neg hb, ← blocks_parent hg (hkind.symm ▸ Bool.eq_false_iff.mpr hb) hne, hparent,
      blocks_attach h hp kind line hp]

end Blocks

end Forest

namespace Builder

open Forest

/-! ### The builder stays inside the open blocks -/

/-- A tree grows behind the nodes of a forest, and the open blocks are those around the cursor. -/
structure Nested (f : Forest) (b : Builder) : Prop extends Grows f b where
  blocks : b.forest.blocks b.cursor = b.scopes ++ [b.root]

namespace Nested

variable {f : Forest} {b : Builder}

theorem start (h : f.WellFormed) : Nested f (Builder.start f) where
  toGrows := .start h
  blocks := by
    have hs := Sprouts.addRoot h 1
    have hb : ((f.addRoot 1).kind f.size).isBlock = true := by rw [hs.kind_root]; rfl
    show (f.addRoot 1).blocks f.size = [f.size]
    rw [blocks_of_isBlock hs.wellFormed hb, if_pos hs.parent_root]

theorem wellFormed (h : Nested f b) : b.forest.WellFormed :=
  h.sprouts.wellFormed

/-- The innermost block around the cursor is the innermost open one. -/
theorem blocks_eq (h : Nested f b) :
    ∃ rest, b.forest.blocks b.cursor = b.boundary :: rest := by
  rw [h.blocks, Builder.boundary]
  cases b.scopes with
  | nil => exact ⟨[], rfl⟩
  | cons s rest => exact ⟨rest ++ [b.root], rfl⟩

theorem isBlock_boundary (h : Nested f b) : (b.forest.kind b.boundary).isBlock = true := by
  obtain ⟨rest, hrest⟩ := h.blocks_eq
  have hmem : b.boundary ∈ b.forest.blocks b.cursor := hrest ▸ List.mem_cons_self ..
  exact (List.mem_filter.mp hmem).2

/-- The cursor may move where the same blocks are around it. -/
theorem move (h : Nested f b) {id : NodeId} (hid : f.size ≤ id) (hlt : id < b.forest.size)
    (hblocks : b.forest.blocks id = b.forest.blocks b.cursor) :
    Nested f { b with cursor := id } where
  toGrows := h.toGrows.move hid hlt
  blocks := hblocks.trans h.blocks

/-- From a node that is no block the cursor may go to the parent. -/
theorem moveParent (h : Nested f b) {id : NodeId} (hid : f.size ≤ id) (hlt : id < b.forest.size)
    (hb : (b.forest.kind id).isBlock = false)
    (hblocks : b.forest.blocks id = b.forest.blocks b.cursor) :
    Nested f { b with cursor := b.forest.parent id } := by
  -- The only node of the new tree that is its own parent is the root, which is a block.
  have hp : b.forest.parent id ≠ id := by
    intro hp
    rcases Nat.eq_or_lt_of_le hid with rfl | hgt
    · rw [h.sprouts.kind_root] at hb
      cases hb
    · exact absurd hp (Nat.ne_of_lt (h.sprouts.parent_lt id hgt hlt))
  refine h.move (h.sprouts.le_parent id hid) (h.wellFormed.parent_lt_size hlt) ?_
  rw [blocks_parent h.wellFormed hb hp, hblocks]

theorem attach (h : Nested f b) (kind : NodeKind) (line : Nat) : Nested f (b.attach kind line) where
  toGrows := h.toGrows.attach kind line
  blocks := (blocks_attach h.wellFormed h.cursor_lt kind line h.cursor_lt).trans h.blocks

theorem descend (h : Nested f b) {kind : NodeKind} (hk : kind.isBlock = false) (line : Nat) :
    Nested f (b.descend kind line) where
  toGrows := h.toGrows.descend kind line
  blocks := by
    show (b.forest.attach b.cursor kind line).blocks b.forest.size = b.scopes ++ [b.root]
    rw [blocks_attach_self h.wellFormed h.cursor_lt, if_neg (by simp [hk]), h.blocks]

theorem openBlock (h : Nested f b) (line : Nat) : Nested f (b.openBlock line) where
  toGrows := h.toGrows.openBlock line
  blocks := by
    show (b.forest.attach b.cursor .block line).blocks b.forest.size =
      b.forest.size :: b.scopes ++ [b.root]
    rw [blocks_attach_self h.wellFormed h.cursor_lt, h.blocks]
    rfl

theorem closeBlock (h : Nested f b) : Nested f b.closeBlock where
  toGrows := h.toGrows.closeBlock
  blocks := by
    have hb := h.blocks
    unfold Builder.closeBlock Builder.boundary
    cases hs : b.scopes with
    | nil =>
      rw [hs] at hb
      exact blocks_head h.wellFormed hb
    | cons s rest =>
      rw [hs] at hb
      cases rest with
      | nil => exact blocks_tail h.wellFormed hb
      | cons t rest => exact blocks_tail h.wellFormed hb

theorem separate (h : Nested f b) : Nested f b.separate := by
  unfold Builder.separate
  split
  next hgroup =>
    refine h.moveParent h.le_cursor h.cursor_lt ?_ rfl
    cases hk : b.forest.kind b.cursor with
    | block => rw [hk] at hgroup; cases hgroup
    | _ => rfl
  next =>
    obtain ⟨rest, hrest⟩ := h.blocks_eq
    have hb := h.toGrows.boundary
    exact h.move hb.1 hb.2 ((blocks_head h.wellFormed hrest).trans hrest.symm)

/-- A node that the cursor finds above it lies in the open blocks, if the innermost of them would be
found. -/
theorem blocks_nearest? (h : Nested f b) {p : NodeId → Bool} (hp : p b.boundary = true)
    {id : NodeId} (hid : b.forest.nearest? p b.cursor = some id) :
    b.forest.blocks id = b.forest.blocks b.cursor := by
  obtain ⟨rest, hrest⟩ := h.blocks_eq
  rw [hrest]
  exact Forest.blocks_nearest? h.wellFormed hrest hp hid

theorem closeGroup (h : Nested f b) : Nested f b.closeGroup := by
  unfold Builder.closeGroup
  dsimp only
  split
  · exact h
  next id hid =>
    obtain ⟨hle, hlt⟩ := h.sprouts.of_nearest? h.le_cursor h.cursor_lt hid
    split
    next hgroup =>
      -- Inline keywords are no blocks, so none is left on the way to the group.
      have hsolid : (!(b.forest.kind b.boundary).isInline || b.boundary == b.root) = true := by
        have hb := h.isBlock_boundary
        cases hk : b.forest.kind b.boundary with
        | block => rfl
        | _ => rw [hk] at hb; cases hb
      have hb : (b.forest.kind id).isBlock = false := by
        cases hk : b.forest.kind id with
        | block => rw [hk] at hgroup; cases hgroup
        | _ => rfl
      have hparent := h.moveParent hle hlt hb (h.blocks_nearest? hsolid hid)
      split
      next hcall =>
        refine hparent.moveParent hparent.le_cursor hparent.cursor_lt ?_ rfl
        show (b.forest.kind (b.forest.parent id)).isBlock = false
        cases hk : b.forest.kind (b.forest.parent id) with
        | block => rw [hk] at hcall; cases hcall
        | _ => rfl
      · exact hparent
    · exact h

theorem closeIndex (h : Nested f b) : Nested f b.closeIndex := by
  unfold Builder.closeIndex
  split
  next id hid =>
    obtain ⟨hn, hbrackets⟩ := Option.filter_eq_some_iff.mp hid
    obtain ⟨hle, hlt⟩ := h.sprouts.of_nearest? h.le_cursor h.cursor_lt hn
    have hend : ((b.forest.kind b.boundary).isBrackets || b.boundary == b.boundary) = true := by
      rw [beq_self_eq_true, Bool.or_true]
    refine h.moveParent hle hlt ?_ (h.blocks_nearest? hend hn)
    cases hk : b.forest.kind id with
    | block => rw [hk] at hbrackets; cases hbrackets
    | _ => rfl
  · exact h

theorem name (h : Nested f b) (lexeme : String) (line : Nat) : Nested f (b.name lexeme line) := by
  unfold Builder.name
  split
  · exact h.descend rfl line
  · exact h.attach _ line

theorem mark (h : Nested f b) (line : Nat) (m : Mark) : Nested f (b.mark line m) := by
  cases m with
  | separator => exact h.separate
  | openGroup => exact h.descend rfl line
  | closeGroup => exact h.closeGroup
  | openBlock => exact h.openBlock line
  | closeBlock => exact h.closeBlock
  | openIndex => exact h.descend rfl line
  | closeIndex => exact h.closeIndex
  | comma | colon => exact h.attach _ line

/-- What one token does keeps the builder inside the open blocks. -/
theorem consume (h : Nested f b) (token : Token) : Nested f (b.consume token) := by
  unfold Builder.consume
  cases token.kind with
  | name => exact h.name _ _
  | keyword k => exact h.descend rfl _
  | mark m => exact h.mark _ m
  | operator op => exact h.attach _ _
  | str s | int s | float s | bool s => exact h.attach _ _
  | endOfText => exact h

/-- So do any tokens, whether the last one is refused or not. -/
theorem consumeAll (h : Nested f b) (tokens : List Token) : Nested f (b.consumeAll tokens).1 := by
  induction tokens generalizing b with
  | nil => exact h
  | cons token rest ih =>
    unfold Builder.consumeAll
    split
    · exact h
    · exact ih (h.consume token)

end Nested

end Builder

/-! ### Many sources -/

namespace Forest

/-- The forest behind some sources that are read one after the other, refused or not. -/
def parseAll (f : Forest) : List String → Forest
  | [] => f
  | source :: rest => (f.parse source).1.parseAll rest

/-- The roots of the sources. -/
def roots (f : Forest) : List String → List NodeId
  | [] => []
  | source :: rest => f.size :: (f.parse source).1.roots rest

theorem parseAll_append (f : Forest) (earlier later : List String) :
    f.parseAll (earlier ++ later) = (f.parseAll earlier).parseAll later := by
  induction earlier generalizing f with
  | nil => rfl
  | cons source rest ih => exact ih _

/-- The nodes that are their own parents are the given ones. -/
structure RootedAt (f : Forest) (roots : List NodeId) : Prop where
  wellFormed : f.WellFormed
  lt_size : ∀ id ∈ roots, id < f.size
  parent_eq_iff : ∀ id, id < f.size → (f.parent id = id ↔ id ∈ roots)

namespace RootedAt

variable {f g : Forest} {ids : List NodeId}

theorem empty : Forest.empty.RootedAt [] where
  wellFormed := .empty
  lt_size id hid := by cases hid
  parent_eq_iff id hid := absurd hid (Nat.not_lt_zero id)

/-- A new tree has one root. -/
theorem sprouts (h : f.RootedAt ids) (hg : f.Sprouts g) : g.RootedAt (ids ++ [f.size]) where
  wellFormed := hg.wellFormed
  lt_size id hid := by
    rcases List.mem_append.mp hid with hid | hid
    · exact Nat.lt_trans (h.lt_size id hid) hg.size_lt
    · exact List.mem_singleton.mp hid ▸ hg.size_lt
  parent_eq_iff id hid := by
    rw [List.mem_append, List.mem_singleton]
    rcases Nat.lt_trichotomy id f.size with hold | rfl | hnew
    · have hparent : g.parent id = f.parent id := by
        rw [Forest.parent, Forest.parent, hg.old id hold]
      rw [hparent, h.parent_eq_iff id hold]
      simp [Nat.ne_of_lt hold]
    · simp [hg.parent_root]
    · have hnot : id ∉ ids := fun hmem => Nat.lt_asymm (h.lt_size id hmem) hnew
      simp [Nat.ne_of_lt (hg.parent_lt id hnew hid), Nat.ne_of_gt hnew, hnot]

theorem parseAll (h : f.RootedAt ids) (sources : List String) :
    (f.parseAll sources).RootedAt (ids ++ f.roots sources) := by
  induction sources generalizing f ids with
  | nil =>
    rw [roots, List.append_nil]
    exact h
  | cons source rest ih =>
    have hnext := ih (h.sprouts (parse_sprouts h.wellFormed source))
    rw [List.append_assoc] at hnext
    exact hnext

/-- A root is nobody's child. -/
theorem not_mem_children (h : f.RootedAt ids) {id : NodeId} (hid : id ∈ ids) (p : NodeId) :
    id ∉ f.children p := by
  intro hmem
  obtain ⟨hlt, hne, hp⟩ := (h.wellFormed.mem_children p id).mp hmem
  exact hne (((h.parent_eq_iff id hlt).mpr hid).symm.trans hp)

/-- Any other node is a child once, of an older node. -/
theorem count_children (h : f.RootedAt ids) {id : NodeId} (hlt : id < f.size) (hid : id ∉ ids) :
    f.parent id < id ∧ ∀ p, (f.children p).count id = if p = f.parent id then 1 else 0 := by
  have hne : f.parent id ≠ id := fun he => hid ((h.parent_eq_iff id hlt).mp he)
  refine ⟨Nat.lt_of_le_of_ne (h.wellFormed.parent_le id) hne, fun p => ?_⟩
  have hmem := h.wellFormed.mem_children p id
  split
  next hp =>
    have hnodup : (f.children p).Nodup := (h.wellFormed.sorted p).imp Nat.ne_of_lt
    rw [hnodup.count, if_pos (hmem.mpr ⟨hlt, hp ▸ hne.symm, hp.symm⟩)]
  next hp =>
    refine List.count_eq_zero_of_not_mem fun hc => hp ?_
    exact (hmem.mp hc).2.2.symm

end RootedAt

/-- Sources that are read later leave the nodes of earlier ones as they are. -/
theorem node_parseAll {f : Forest} (h : f.WellFormed) (sources : List String) {id : NodeId}
    (hid : id < f.size) :
    id < (f.parseAll sources).size ∧ (f.parseAll sources).node id = f.node id := by
  induction sources generalizing f with
  | nil => exact ⟨hid, rfl⟩
  | cons source rest ih =>
    have hs := parse_sprouts h source
    obtain ⟨hlt, hnode⟩ := ih hs.wellFormed (Nat.lt_trans hid hs.size_lt)
    exact ⟨hlt, hnode.trans (hs.old id hid)⟩

end Forest

namespace Builder

/-- What holds of a builder at all times, behind sources with the given roots. -/
structure Consistent (roots : List NodeId) (b : Builder) : Prop where
  /-- A root is its own parent and nobody's child. -/
  root : ∀ id ∈ roots ++ [b.root], id < b.forest.size ∧ b.forest.parent id = id ∧
    ∀ p, id ∉ b.forest.children p
  /-- Any other node has an older parent, and is a child of that one only, once. -/
  inner : ∀ id, id < b.forest.size → id ∉ roots ++ [b.root] → b.forest.parent id < id ∧
    ∀ p, (b.forest.children p).count id = if p = b.forest.parent id then 1 else 0
  sorted : ∀ p, (b.forest.children p).Pairwise (· < ·)
  scopes_isBlock : ∀ s ∈ b.scopes, s < b.forest.size ∧ (b.forest.kind s).isBlock = true
  /-- Every open block lies properly inside those that were opened before it, and inside the
  root. -/
  scopes_chain : (b.scopes ++ [b.root]).Pairwise fun inside outside =>
    inside ≠ outside ∧ outside ∈ b.forest.lineage inside
  /-- The cursor lies inside the innermost open block, and is a block only if it is that one. -/
  cursor_inside : b.cursor < b.forest.size ∧ b.boundary ∈ b.forest.lineage b.cursor
  cursor_isBlock : (b.forest.kind b.cursor).isBlock = true → b.cursor = b.boundary

open Forest in
theorem Nested.consistent {f : Forest} {b : Builder} (h : Nested f b) {roots : List NodeId}
    (hroots : f.RootedAt roots) : b.Consistent roots := by
  have hrooted : b.forest.RootedAt (roots ++ [b.root]) := h.root ▸ hroots.sprouts h.sprouts
  have hmem : ∀ s ∈ b.scopes ++ [b.root], s ∈ b.forest.lineage b.cursor ∧
      (b.forest.kind s).isBlock = true := by
    intro s hs
    rw [← h.blocks] at hs
    exact List.mem_filter.mp hs
  have hboundary : b.boundary ∈ b.forest.blocks b.cursor := by
    obtain ⟨rest, hrest⟩ := h.blocks_eq
    rw [hrest]
    exact List.mem_cons_self ..
  constructor
  case root =>
    intro id hid
    have hlt := hrooted.lt_size id hid
    exact ⟨hlt, (hrooted.parent_eq_iff id hlt).mpr hid, hrooted.not_mem_children hid⟩
  case inner => exact fun id hlt hid => hrooted.count_children hlt hid
  case sorted => exact h.wellFormed.sorted
  case scopes_isBlock =>
    exact fun s hs => ⟨(h.scopes s hs).2, (hmem s (List.mem_append_left _ hs)).2⟩
  case scopes_chain =>
    have hchain := (pairwise_lineage h.wellFormed b.cursor).sublist
      (List.filter_sublist (p := fun a => (b.forest.kind a).isBlock))
    rw [← h.blocks]
    exact hchain.imp fun hlt => ⟨Nat.ne_of_gt hlt.1, hlt.2⟩
  case cursor_inside => exact ⟨h.cursor_lt, (List.mem_filter.mp hboundary).1⟩
  case cursor_isBlock =>
    intro hb
    obtain ⟨rest, hrest⟩ := h.blocks_eq
    rw [blocks_of_isBlock h.wellFormed hb] at hrest
    exact (List.cons.inj hrest).1

/-- After every token of every source, whatever has been refused before, parents and children of all
nodes agree, and the roots are the nodes without a parent above them; the open blocks lie inside one
another and in the tree that is being read, and the cursor in the innermost of them; and the nodes
of the sources read before are as they were left. -/
theorem consumeAll_consistent (sources : List String) (source : String) (count : Nat) :
    let b := ((start (Forest.empty.parseAll sources)).consumeAll
      ((Scan.ofText source).tokens.take count)).1
    b.root = (Forest.empty.parseAll sources).size ∧ b.Consistent (Forest.empty.roots sources) ∧
      ∀ earlier later, sources = earlier ++ later →
        ∀ id, id < (Forest.empty.parseAll earlier).size →
          b.forest.node id = (Forest.empty.parseAll earlier).node id := by
  intro b
  have hrooted := Forest.RootedAt.empty.parseAll sources
  have hnested : Nested (Forest.empty.parseAll sources) b :=
    (Nested.start hrooted.wellFormed).consumeAll _
  refine ⟨hnested.root, hnested.consistent hrooted, ?_⟩
  rintro earlier later rfl id hid
  have hearlier := (Forest.RootedAt.empty.parseAll earlier).wellFormed
  obtain ⟨hlt, hnode⟩ := Forest.node_parseAll hearlier later hid
  rw [← Forest.parseAll_append] at hlt hnode
  rw [hnested.sprouts.old id hlt, hnode]

end Builder

end TagLang
