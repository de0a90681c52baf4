import TagLang.Proofs.Construction
import TagLang.Proofs.Parsing

/-!
# What is open around the cursor

All that the builder looks at is on the way up from the cursor to the root: the nodes there, with
their kinds, are the ladder of the cursor.  A token puts a node at its foot or takes some nodes away
there, and the lemmas say which:

* a `)` takes at most one group, and neither brackets nor blocks
  (`Builder.Nested.leaves_closeGroup`);
* a `]` takes the nodes up to the first brackets, if no block comes before them
  (`Builder.Nested.ladder_closeIndex`);
* every other token but a `[` leaves no more brackets than there were
  (`Builder.Nested.openBrackets_consume`).
-/

namespace TagLang

/-- The node ends the search for the brackets that a `]` closes. -/
def NodeKind.isBound (k : NodeKind) : Bool :=
  k.isBrackets || k.isBlock

theorem NodeKind.isBound_eq_false {k : NodeKind} :
    k.isBound = false ↔ k.isBrackets = false ∧ k.isBlock = false := by
  simp [isBound]

namespace Forest

/-! ### Ladders -/

/-- A node on the way up from another one. -/
structure Rung where
  id : NodeId
  kind : NodeKind

/-- The nodes from a node up to its root, with their kinds. -/
def ladder (f : Forest) (id : NodeId) : List Rung :=
  (f.lineage id).map fun a => ⟨a, f.kind a⟩

section Ladder

variable {f : Forest} (h : f.WellFormed)

theorem map_id_ladder (f : Forest) (id : NodeId) : (f.ladder id).map (·.id) = f.lineage id := by
  rw [ladder, List.map_map]
  exact List.map_id _

theorem kind_eq_of_mem_ladder {id : NodeId} {r : Rung} (hr : r ∈ f.ladder id) :
    r.kind = f.kind r.id ∧ r.id ∈ f.lineage id := by
  obtain ⟨a, ha, rfl⟩ := List.mem_map.mp hr
  exact ⟨rfl, ha⟩

include h

theorem ladder_eq (id : NodeId) :
    f.ladder id = ⟨id, f.kind id⟩ :: if f.parent id = id then [] else f.ladder (f.parent id) := by
  rw [ladder, lineage_eq h, List.map_cons]
  split <;> rfl

theorem ladder_parent {id : NodeId} (hp : f.parent id ≠ id) :
    f.ladder id = ⟨id, f.kind id⟩ :: f.ladder (f.parent id) := by
  rw [ladder_eq h, if_neg hp]

/-- What stands on a ladder from some node on is the ladder of that node. -/
theorem ladder_of_append {id : NodeId} {passed rest : List Rung} {r : Rung}
    (hl : f.ladder id = passed ++ r :: rest) : f.ladder r.id = r :: rest := by
  induction passed generalizing id with
  | nil =>
    have hid : r.id = id := by
      rw [ladder_eq h] at hl
      exact (congrArg Rung.id (List.cons.inj hl).1).symm
    rw [hid]
    exact hl
  | cons s passed ih =>
    rw [ladder_eq h] at hl
    have htail := (List.cons.inj hl).2
    split at htail
    · cases passed <;> cases htail
    · exact ih htail

/-- The ladder of a node higher up is the upper part of a ladder. -/
theorem exists_ladder_append {a id : NodeId} (ha : a ∈ f.lineage id) :
    ∃ passed, f.ladder id = passed ++ f.ladder a := by
  rw [← map_id_ladder] at ha
  obtain ⟨r, hr, rfl⟩ := List.mem_map.mp ha
  obtain ⟨passed, rest, hl⟩ := List.append_of_mem hr
  exact ⟨passed, by rw [ladder_of_append h hl, hl]⟩

/-- The nodes that are passed on the way to the nearest one with a property do not have it. -/
theorem ladder_nearest? {p : NodeId → Bool} {id x : NodeId} (hx : f.nearest? p id = some x) :
    p x = true ∧ ∃ passed, f.ladder id = passed ++ f.ladder x ∧
      ∀ r ∈ passed, p r.id = false ∧ r.kind = f.kind r.id := by
  rw [nearest?_eq_find?_lineage] at hx
  obtain ⟨hp, before, after, hlineage, hbefore⟩ := List.find?_eq_some_iff_append.mp hx
  have hl : f.ladder id = before.map (fun a => ⟨a, f.kind a⟩) ++ ⟨x, f.kind x⟩ ::
      after.map (fun a => ⟨a, f.kind a⟩) := by
    rw [ladder, hlineage, List.map_append, List.map_cons]
  refine ⟨hp, _, hl.trans (congrArg _ (ladder_of_append h hl).symm), fun r hr => ?_⟩
  obtain ⟨a, ha, rfl⟩ := List.mem_map.mp hr
  exact ⟨by simpa using hbefore a ha, rfl⟩

theorem parent_mem_lineage {a id : NodeId} (ha : a ∈ f.lineage id) : f.parent a ∈ f.lineage id := by
  by_cases hp : f.parent a = a
  · rw [hp]
    exact ha
  · exact mem_lineage_trans h ((mem_lineage_iff h).mpr (.inr ⟨hp, mem_lineage_self h _⟩)) ha

theorem ladder_attach {p : NodeId} (hp : p < f.size) (kind : NodeKind) (line : Nat) {id : NodeId}
    (hid : id < f.size) : (f.attach p kind line).ladder id = f.ladder id := by
  unfold ladder
  rw [lineage_attach h hp kind line hid]
  refine List.map_congr_left fun a ha => ?_
  have hlt : a < f.size := Nat.lt_of_le_of_lt (le_of_mem_lineage h ha) hid
  rw [kind_attach hp, if_neg (Nat.ne_of_lt hlt)]

/-- A new node stands at the foot of its parent's ladder. -/
theorem ladder_attach_self {p : NodeId} (hp : p < f.size) (kind : NodeKind) (line : Nat) :
    (f.attach p kind line).ladder f.size = ⟨f.size, kind⟩ :: f.ladder p := by
  have hparent : (f.attach p kind line).parent f.size = p := by rw [parent_attach hp, if_pos rfl]
  have hne : (f.attach p kind line).parent f.size ≠ f.size := by
    rw [hparent]
    exact Nat.ne_of_lt hp
  rw [ladder_parent (h.attach hp kind line) hne, hparent, ladder_attach h hp kind line hp,
    kind_attach hp, if_pos rfl]

/-! ### Ways up -/

/-- On the way up from a node to another one there are no brackets, no blocks and at most `n`
groups, the upper one not counted. -/
def Leaves (f : Forest) (n : Nat) (lower upper : NodeId) : Prop :=
  ∃ left, f.ladder lower = left ++ f.ladder upper ∧ (∀ r ∈ left, r.kind.isBound = false) ∧
    left.countP (·.kind.isGroup) ≤ n

omit h in
theorem Leaves.refl (f : Forest) (n : Nat) (id : NodeId) : f.Leaves n id id :=
  ⟨[], rfl, by simp, by simp⟩

omit h in
theorem Leaves.trans {n m : Nat} {a b c : NodeId} (h₁ : f.Leaves n a b) (h₂ : f.Leaves m b c) :
    f.Leaves (n + m) a c := by
  obtain ⟨left₁, hl₁, hbound₁, hcount₁⟩ := h₁
  obtain ⟨left₂, hl₂, hbound₂, hcount₂⟩ := h₂
  refine ⟨left₁ ++ left₂, by rw [hl₁, hl₂, List.append_assoc], fun r hr => ?_, ?_⟩
  · exact (List.mem_append.mp hr).elim (hbound₁ r) (hbound₂ r)
  · rw [List.countP_append]
    omega

theorem leaves_parent {id : NodeId} (hp : f.parent id ≠ id) (hb : (f.kind id).isBound = false) :
    f.Leaves (if (f.kind id).isGroup then 1 else 0) id (f.parent id) := by
  refine ⟨[⟨id, f.kind id⟩], ladder_parent h hp, fun r hr => ?_, ?_⟩
  · rw [List.mem_singleton.mp hr]
    exact hb
  · exact Nat.le_of_eq List.countP_singleton

/-- Inline keywords are neither groups nor bounds. -/
theorem leaves_inline {p : NodeId → Bool} (hp : ∀ a, p a = false → (f.kind a).isInline = true)
    {id x : NodeId} (hx : f.nearest? p id = some x) : f.Leaves 0 id x := by
  obtain ⟨-, passed, hl, hpassed⟩ := ladder_nearest? h hx
  have hinline : ∀ r ∈ passed, r.kind.isBound = false ∧ r.kind.isGroup = false := by
    intro r hr
    obtain ⟨hnot, hkind⟩ := hpassed r hr
    have hin := hp r.id hnot
    rw [← hkind] at hin
    cases hk : r.kind with
    | block | group | brackets => rw [hk] at hin; cases hin
    | _ => exact ⟨rfl, rfl⟩
  refine ⟨passed, hl, fun r hr => (hinline r hr).1, Nat.le_of_eq ?_⟩
  exact List.countP_eq_zero.mpr fun r hr => by simp [(hinline r hr).2]

end Ladder

/-- In a new tree only the root, which is a block, is its own parent. -/
theorem Sprouts.parent_ne {f g : Forest} (h : f.Sprouts g) {id : NodeId} (hid : f.size ≤ id)
    (hlt : id < g.size) (hb : (g.kind id).isBlock = false) : g.parent id ≠ id := by
  rcases Nat.eq_or_lt_of_le hid with rfl | hgt
  · rw [h.kind_root] at hb
    cases hb
  · exact Nat.ne_of_lt (h.parent_lt id hgt hlt)

end Forest

namespace Builder

open Forest

/-- The nodes around the cursor, from the cursor itself up to the root. -/
def ladder (b : Builder) : List Rung :=
  b.forest.ladder b.cursor

/-- The number of brackets around the cursor. -/
def openBrackets (b : Builder) : Nat :=
  b.ladder.countP (·.kind.isBrackets)

namespace Nested

variable {f : Forest} {b : Builder}

/-- The cursor is at the foot of its ladder. -/
theorem head?_ladder (h : Nested f b) : b.ladder.head?.map (·.id) = some b.cursor := by
  rw [Builder.ladder, ladder_eq h.wellFormed]
  rfl

theorem cursor_eq_of_ladder {b' : Builder} (h : Nested f b) (h' : Nested f b')
    (hl : b'.ladder = b.ladder) : b'.cursor = b.cursor := by
  have hhead := h'.head?_ladder
  rw [hl, h.head?_ladder] at hhead
  exact (Option.some.inj hhead).symm

theorem parent_ne (h : Nested f b) {id : NodeId} (hmem : id ∈ b.forest.lineage b.cursor)
    (hb : (b.forest.kind id).isBlock = false) : b.forest.parent id ≠ id :=
  h.sprouts.parent_ne (h.sprouts.le_of_mem_lineage h.le_cursor hmem)
    (Nat.lt_of_le_of_lt (le_of_mem_lineage h.wellFormed hmem) h.cursor_lt) hb

theorem ladder_attach (h : Nested f b) (kind : NodeKind) (line : Nat) :
    (b.attach kind line).ladder = b.ladder :=
  Forest.ladder_attach h.wellFormed h.cursor_lt kind line h.cursor_lt

theorem ladder_descend (h : Nested f b) (kind : NodeKind) (line : Nat) :
    (b.descend kind line).ladder = ⟨b.forest.size, kind⟩ :: b.ladder :=
  ladder_attach_self h.wellFormed h.cursor_lt kind line

/-! ### Closing groups and brackets -/

/-- A `)` takes the nodes up to a group away, and the call that the group belongs to, or nothing. -/
theorem leaves_closeGroup (h : Nested f b) : b.forest.Leaves 1 b.cursor b.closeGroup.cursor := by
  have hwf := h.wellFormed
  unfold Builder.closeGroup
  dsimp only
  split
  · exact .refl ..
  next id hid =>
    split
    next hgroup =>
      have hmem : id ∈ b.forest.lineage b.cursor := by
        rw [nearest?_eq_find?_lineage] at hid
        exact List.mem_of_find?_eq_some hid
      have hkind : b.forest.kind id = .group := by
        cases hk : b.forest.kind id with
        | group => rfl
        | _ => rw [hk] at hgroup; cases hgroup
      have hinline : b.forest.Leaves 0 b.cursor id := by
        refine leaves_inline hwf (fun a ha => ?_) hid
        simp only [Bool.or_eq_false_iff, Bool.not_eq_false'] at ha
        exact ha.1
      have hout : b.forest.Leaves 1 id (b.forest.parent id) := by
        have hparent :=
          leaves_parent hwf (h.parent_ne hmem (by rw [hkind]; rfl)) (by rw [hkind]; rfl)
        rwa [if_pos hgroup] at hparent
      have hgone := hinline.trans hout
      split
      next hcall =>
        -- The call is no group, so no more than one is left behind.
        have hcallKind : b.forest.kind (b.forest.parent id) = .keyword .call := by
          cases hk : b.forest.kind (b.forest.parent id) with
          | keyword k =>
            rw [hk] at hcall
            rw [eq_of_beq hcall]
          | _ => rw [hk] at hcall; cases hcall
        have hne := h.parent_ne (parent_mem_lineage hwf hmem) (by rw [hcallKind]; rfl)
        have hparent := leaves_parent hwf hne (by rw [hcallKind]; rfl)
        rw [hcallKind] at hparent
        exact hgone.trans hparent
      next => exact hgone
    next => exact .refl ..

/-- The brackets that a `]` closes are the first ones on the ladder, if no block comes before
them. -/
theorem closable?_of_ladder (h : Nested f b) {passed rest : List Rung} {r : Rung}
    (hl : b.ladder = passed ++ r :: rest) (hr : r.kind.isBrackets = true)
    (hpassed : ∀ s ∈ passed, s.kind.isBound = false) : b.closable? = some r.id := by
  have hkind : ∀ s ∈ b.ladder, s.kind = b.forest.kind s.id :=
    fun s hs => (kind_eq_of_mem_ladder hs).1
  have hfound : b.forest.nearest?
      (fun id => (b.forest.kind id).isBrackets || id == b.boundary) b.cursor = some r.id := by
    rw [nearest?_eq_find?_lineage, ← map_id_ladder, List.find?_eq_some_iff_append]
    refine ⟨?_, passed.map (·.id), rest.map (·.id), ?_, ?_⟩
    · rw [← hkind r (by simp [hl]), hr, Bool.true_or]
    · show b.ladder.map (·.id) = _
      rw [hl, List.map_append, List.map_cons]
    · intro a ha
      obtain ⟨s, hs, rfl⟩ := List.mem_map.mp ha
      obtain ⟨hbrackets, hblock⟩ := NodeKind.isBound_eq_false.mp (hpassed s hs)
      rw [hkind s (by simp [hl, hs])] at hbrackets hblock
      -- The boundary is a block, and there are none below the brackets.
      have hne : (s.id == b.boundary) = false := by
        refine beq_eq_false_iff_ne.mpr fun he => ?_
        rw [he, h.isBlock_boundary] at hblock
        cases hblock
      rw [hbrackets, hne]
      rfl
  rw [closable?, hfound, Option.filter_some, if_pos]
  rw [← hkind r (by simp [hl])]
  exact hr

/-- A `]` that closes brackets takes the nodes up to them away. -/
theorem ladder_closable? (h : Nested f b) {id : NodeId} (hid : b.closable? = some id) :
    ∃ passed, b.ladder = passed ++ ⟨id, .brackets⟩ :: b.closeIndex.ladder := by
  have hwf := h.wellFormed
  obtain ⟨hnear, hbrackets⟩ := Option.filter_eq_some_iff.mp hid
  obtain ⟨-, passed, hl, -⟩ := ladder_nearest? hwf hnear
  have hmem : id ∈ b.forest.lineage b.cursor := by
    rw [nearest?_eq_find?_lineage] at hnear
    exact List.mem_of_find?_eq_some hnear
  have hkind : b.forest.kind id = .brackets := by
    cases hk : b.forest.kind id with
    | brackets => rfl
    | _ => rw [hk] at hbrackets; cases hbrackets
  refine ⟨passed, ?_⟩
  rw [Builder.closeIndex, hid]
  show b.forest.ladder b.cursor = passed ++ ⟨id, .brackets⟩ :: b.forest.ladder (b.forest.parent id)
  rw [hl, ladder_parent hwf (h.parent_ne hmem (by rw [hkind]; rfl)), hkind]

/-- A `]` leaves what is around the first brackets on the ladder. -/
theorem ladder_closeIndex (h : Nested f b) {passed rest : List Rung} {r : Rung}
    (hl : b.ladder = passed ++ r :: rest) (hr : r.kind.isBrackets = true)
    (hpassed : ∀ s ∈ passed, s.kind.isBound = false) : b.closeIndex.ladder = rest := by
  obtain ⟨passed', hl'⟩ := h.ladder_closable? (h.closable?_of_ladder hl hr hpassed)
  have hthere : b.forest.ladder r.id = ⟨r.id, .brackets⟩ :: b.closeIndex.ladder :=
    ladder_of_append h.wellFormed hl'
  rw [ladder_of_append h.wellFormed hl] at hthere
  exact (List.cons.inj hthere).2.symm

/-! ### Counting brackets -/

/-- Higher up there are no more brackets around the cursor. -/
theorem openBrackets_move (h : Nested f b) {id : NodeId} (hid : id ∈ b.forest.lineage b.cursor)
    (scopes : List NodeId) :
    openBrackets { b with cursor := id, scopes } ≤ b.openBrackets := by
  obtain ⟨passed, hl⟩ := exists_ladder_append h.wellFormed hid
  show (b.forest.ladder id).countP _ ≤ (b.forest.ladder b.cursor).countP _
  rw [hl, List.countP_append]
  exact Nat.le_add_left ..

theorem openBrackets_attach (h : Nested f b) (kind : NodeKind) (line : Nat) :
    (b.attach kind line).openBrackets = b.openBrackets := by
  rw [openBrackets, h.ladder_attach, openBrackets]

theorem openBrackets_descend (h : Nested f b) (kind : NodeKind) (line : Nat) :
    (b.descend kind line).openBrackets = b.openBrackets + if kind.isBrackets then 1 else 0 := by
  rw [openBrackets, h.ladder_descend, List.countP_cons, openBrackets]

theorem mem_lineage_of_mem_scopes (h : Nested f b) {id : NodeId} (hid : id ∈ b.scopes ++ [b.root]) :
    id ∈ b.forest.lineage b.cursor := by
  rw [← h.blocks] at hid
  exact (List.mem_filter.mp hid).1

theorem openBrackets_separate (h : Nested f b) : b.separate.openBrackets ≤ b.openBrackets := by
  unfold Builder.separate
  split
  · exact h.openBrackets_move (parent_mem_lineage h.wellFormed (mem_lineage_self h.wellFormed _)) _
  · refine h.openBrackets_move (h.mem_lineage_of_mem_scopes ?_) _
    unfold Builder.boundary
    cases b.scopes <;> simp

theorem openBrackets_closeGroup (h : Nested f b) : b.closeGroup.openBrackets ≤ b.openBrackets := by
  obtain ⟨left, hl, -⟩ := h.leaves_closeGroup
  rw [openBrackets, openBrackets, Builder.ladder, Builder.ladder, forest_closeGroup, hl,
    List.countP_append]
  exact Nat.le_add_left ..

theorem openBrackets_closeBlock (h : Nested f b) : b.closeBlock.openBrackets ≤ b.openBrackets := by
  refine h.openBrackets_move (h.mem_lineage_of_mem_scopes ?_) _
  unfold Builder.boundary
  rcases b.scopes with _ | ⟨s, _ | ⟨t, rest⟩⟩ <;> simp

/-- A `]` that closes brackets leaves fewer than there were. -/
theorem openBrackets_closeIndex (h : Nested f b) (hc : b.closable? ≠ none) :
    b.closeIndex.openBrackets < b.openBrackets := by
  obtain ⟨id, hid⟩ := Option.ne_none_iff_exists'.mp hc
  obtain ⟨passed, hl⟩ := h.ladder_closable? hid
  rw [openBrackets, openBrackets, hl, List.countP_append, List.countP_cons_of_pos rfl]
  omega

/-- Only a `[` adds brackets around the cursor. -/
theorem openBrackets_consume (h : Nested f b) {t : Token} (ht : t.kind ≠ .mark .openIndex) :
    (b.consume t).openBrackets ≤ b.openBrackets := by
  unfold Builder.consume
  cases hk : t.kind with
  | name =>
    show (b.name _ _).openBrackets ≤ _
    unfold Builder.name
    split
    · exact Nat.le_of_eq (h.openBrackets_descend ..)
    · exact Nat.le_of_eq (h.openBrackets_attach ..)
  | keyword k => exact Nat.le_of_eq (h.openBrackets_descend ..)
  | mark m =>
    cases m with
    | separator => exact h.openBrackets_separate
    | openGroup => exact Nat.le_of_eq (h.openBrackets_descend ..)
    | closeGroup => exact h.openBrackets_closeGroup
    | openBlock => exact Nat.le_of_eq (h.openBrackets_descend .block t.position.line)
    | closeBlock => exact h.openBrackets_closeBlock
    | openIndex => exact absurd hk ht
    | closeIndex =>
      by_cases hc : b.closable? = none
      · have hsame : b.closeIndex = b := by rw [Builder.closeIndex, hc]
        exact Nat.le_of_eq (congrArg openBrackets hsame)
      · exact Nat.le_of_lt (h.openBrackets_closeIndex hc)
    | comma | colon => exact Nat.le_of_eq (h.openBrackets_attach ..)
  | operator | str | int | float | bool => exact Nat.le_of_eq (h.openBrackets_attach ..)
  | endOfText => exact Nat.le_refl _

end Nested

end Builder

end TagLang
