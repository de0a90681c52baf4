import TagLang.Proofs.Returning

/-!
# How a forest and its switches change in a run

While a machine runs, its forest grows by whole trees and nothing in it is ever touched again
(`Forest.Grown`).  Which nodes are off right behind loading can be told from the forest alone
(`Forest.IsMuted`, `Workshop.mem_muted_prepare`), and later on only further branches of chains are
switched for good (`Forest.Armable`).

`Machine.Evolves` puts this into a relation between two machines of a run.  Everything that a
machine runs moves it along this relation (`Run.Evolves.engine`), whatever else the trees are known
to have, if reading and loading keeps it (`Workshop.Keeps`).
-/

namespace TagLang

open Machine

/-! ### Grown forests -/

/-- The second forest has the nodes of the first one as they were, and new trees behind them. -/
structure Forest.Grown (f g : Forest) : Prop where
  size_le : f.size ≤ g.size
  old : ∀ id, id < f.size → g.node id = f.node id
  le_parent : ∀ id, f.size ≤ id → f.size ≤ g.parent id

namespace Forest.Grown

variable {f g : Forest}

theorem refl (f : Forest) : f.Grown f where
  size_le := Nat.le_refl _
  old _ _ := rfl
  le_parent id hid := by
    rw [Forest.parent, node_of_size_le hid]
    exact hid

theorem of_sprouts (h : f.Sprouts g) : f.Grown g :=
  ⟨Nat.le_of_lt h.size_lt, h.old, h.le_parent⟩

theorem setShape (h : f.Grown g) {id : NodeId} (hid : f.size ≤ id) (s : Shape) :
    f.Grown (g.setShape id s) where
  size_le := Nat.le_trans h.size_le (Nat.le_of_eq (size_setShape g id s).symm)
  old x hx := by
    have hne : ¬ (id = x ∧ id < g.size) := fun hc =>
      Nat.not_le_of_lt hx (hc.1 ▸ hid)
    rw [node_setShape, if_neg hne, h.old x hx]
  le_parent x hx := by
    rw [parent_setShape]
    exact h.le_parent x hx

variable (h : f.Grown g)
include h

theorem kind_eq {id : NodeId} (hid : id < f.size) : g.kind id = f.kind id := by
  rw [kind, kind, h.old id hid]

theorem shape_eq {id : NodeId} (hid : id < f.size) : g.shape id = f.shape id := by
  rw [shape, shape, h.old id hid]

theorem parent_eq {id : NodeId} (hid : id < f.size) : g.parent id = f.parent id := by
  rw [parent, parent, h.old id hid]

theorem children_eq {id : NodeId} (hid : id < f.size) : g.children id = f.children id := by
  rw [children, children, h.old id hid]

theorem le : f.Le g where
  size_le := h.size_le
  kind_eq _ hid := h.kind_eq hid
  line_eq id hid := by rw [line, line, h.old id hid]
  parent_eq _ hid := h.parent_eq hid
  children_eq _ hid := h.children_eq hid
  shape_eq _ hs := h.shape_eq (lt_size_of_shape hs)

theorem trans {k : Forest} (h' : g.Grown k) : f.Grown k where
  size_le := Nat.le_trans h.size_le h'.size_le
  old id hid := (h'.old id (Nat.lt_of_lt_of_le hid h.size_le)).trans (h.old id hid)
  le_parent id hid := by
    by_cases hlt : id < g.size
    · rw [h'.parent_eq hlt]
      exact h.le_parent id hid
    · exact Nat.le_trans h.size_le (h'.le_parent id (Nat.le_of_not_lt hlt))

theorem isPassedOver_iff {id : NodeId} (hid : id < f.size) :
    g.IsPassedOver id ↔ f.IsPassedOver id := by
  rw [IsPassedOver, IsPassedOver, h.kind_eq hid, h.shape_eq hid]

theorem isRoot_iff {id : NodeId} (hid : id < f.size) : g.IsRoot id ↔ f.IsRoot id := by
  have hiff : ∀ k : Forest, k.IsRoot id ↔
      (k.kind id = .block ∧ k.shape id = .block) ∧ k.parent id = id :=
    fun k => ⟨fun hr => ⟨hr.isBody, hr.parent_eq⟩, fun hr => ⟨hr.1, hr.2⟩⟩
  rw [hiff, hiff, h.kind_eq hid, h.shape_eq hid, h.parent_eq hid]

/-- The way up from a new node stays among the new nodes. -/
theorem le_of_mem_lineage (hg : g.WellFormed) {a id : NodeId} (hid : f.size ≤ id)
    (ha : a ∈ g.lineage id) : f.size ≤ a := by
  induction id using Nat.strongRecOn with
  | _ id ih =>
    rcases (mem_lineage_iff hg).mp ha with rfl | ⟨hp, ha⟩
    · exact hid
    · exact ih _ (Nat.lt_of_le_of_ne (hg.parent_le id) hp) (h.le_parent id hid) ha

end Forest.Grown

/-! ### Nodes that are off, and nodes that are switched -/

namespace Forest

variable {f g : Forest}

/-- The node is off once its tree has been loaded: it has been passed over, or it is muted by its
own shape or by its parent's. -/
def IsMuted (f : Forest) (id : NodeId) : Prop :=
  f.IsPassedOver id ∨ id ∈ (f.shape id).muted id ∨
    id ∈ (f.shape (f.parent id)).muted (f.parent id)

/-- The node may be switched by the branch in front of it and by itself: it is a further branch, and
nothing above it has been passed over. -/
def Armable (f : Forest) (id : NodeId) : Prop :=
  (f.kind id).isFurther = true ∧ ∀ a ∈ f.lineage id, a ≠ id → ¬ f.IsPassedOver a

/-- The children of a loaded node have been loaded, unless the node was passed over. -/
def Filled (f : Forest) : Prop :=
  ∀ id, f.shape id ≠ .unloaded → ¬ f.IsPassedOver id → ∀ c ∈ f.children id, f.shape c ≠ .unloaded

theorem not_mem_muted_of_unloaded {id x : NodeId} (h : f.shape id = .unloaded) :
    x ∉ (f.shape id).muted id := by
  rw [h]
  exact List.not_mem_nil

theorem not_isPassedOver_of_unloaded {id : NodeId} (h : f.shape id = .unloaded) :
    ¬ f.IsPassedOver id := by
  intro hp
  rw [hp.2] at h
  cases h

/-- A node without a shape is on, if its parent has none either. -/
theorem not_isMuted_of_unloaded {id : NodeId} (h : f.shape id = .unloaded)
    (hp : f.shape (f.parent id) = .unloaded) : ¬ f.IsMuted id := by
  rintro (hpass | hself | hparent)
  · exact not_isPassedOver_of_unloaded h hpass
  · exact not_mem_muted_of_unloaded h hself
  · exact not_mem_muted_of_unloaded hp hparent

theorem not_isMuted_of_size_le {id : NodeId} (hid : f.size ≤ id) : ¬ f.IsMuted id := by
  have hparent : f.parent id = id := by rw [parent, node_of_size_le hid]
  refine not_isMuted_of_unloaded (shape_of_size_le hid) ?_
  rw [hparent]
  exact shape_of_size_le hid

theorem Armable.lt_size {id : NodeId} (h : f.Armable id) : id < f.size := by
  refine Nat.lt_of_not_le fun hle => ?_
  have hk := h.1
  rw [kind, node_of_size_le hle] at hk
  cases hk

theorem Grown.isMuted_iff (h : f.Grown g) (hf : f.WellFormed) {id : NodeId} (hid : id < f.size) :
    g.IsMuted id ↔ f.IsMuted id := by
  have hp : f.parent id < f.size := hf.parent_lt_size hid
  rw [IsMuted, IsMuted, h.isPassedOver_iff hid, h.shape_eq hid, h.parent_eq hid, h.shape_eq hp]

theorem Grown.armable_iff (h : f.Grown g) (hf : f.WellFormed) (hg : g.WellFormed) {id : NodeId}
    (hid : id < f.size) : g.Armable id ↔ f.Armable id := by
  have hlineage := h.le.lineage hf hg hid
  have hpass : ∀ a ∈ f.lineage id, (g.IsPassedOver a ↔ f.IsPassedOver a) := fun a ha =>
    h.isPassedOver_iff (Nat.lt_of_le_of_lt (Forest.le_of_mem_lineage hf ha) hid)
  rw [Armable, Armable, h.kind_eq hid, hlineage]
  constructor
  · exact fun ⟨hk, ha⟩ => ⟨hk, fun a hm hne => (not_congr (hpass a hm)).mp (ha a hm hne)⟩
  · exact fun ⟨hk, ha⟩ => ⟨hk, fun a hm hne => (not_congr (hpass a hm)).mpr (ha a hm hne)⟩

/-- A further branch that has been loaded may be switched. -/
theorem Good.armable_of_isFurther (h : f.Good) {id : NodeId} (hk : (f.kind id).isFurther = true)
    (hs : f.shape id ≠ .unloaded) : f.Armable id :=
  ⟨hk, h.sheltered id hs⟩

/-- The branch that is chained to a loaded branch may be switched. -/
theorem Good.armable_of_chained (h : f.Good) {id next : NodeId} (hs : f.shape id ≠ .unloaded)
    (hc : f.chained id = some next) : f.Armable next := by
  obtain ⟨hk, hmem⟩ := chained_eq_some hc
  have hroot : f.parent id ≠ id := by
    intro hp
    have hnone : (f.siblings id).2 = none := by rw [siblings, if_pos hp]
    rw [chained, hnone] at hc
    cases hc
  refine ⟨hk, fun a ha hne => ?_⟩
  -- What is above the next branch is above this one, too.
  have hp : a ∈ f.lineage (f.parent id) :=
    (mem_lineage_child h.wellFormed hmem hne).mp ha
  have hle : a ≤ f.parent id := le_of_mem_lineage h.wellFormed hp
  have hlt : f.parent id < id := Nat.lt_of_le_of_ne (h.wellFormed.parent_le id) hroot
  refine h.sheltered id hs a ((mem_lineage_iff h.wellFormed).mpr (.inr ⟨hroot, hp⟩)) ?_
  exact Nat.ne_of_lt (Nat.lt_of_le_of_lt hle hlt)

/-- The branches that a branch switches may be switched: itself, if it is a further one, and the one
chained to it. -/
theorem Good.armable_of_branch (h : f.Good) {id : NodeId} {opening : Bool} {test body : NodeId}
    {chained : Option NodeId} (hs : f.shape id = .branch opening test body chained) :
    (∀ next, (if opening then none else some id) = some next → f.Armable next) ∧
      ∀ next, chained = some next → f.Armable next := by
  have hfit := h.sound id
  have hloaded : f.shape id ≠ .unloaded := by
    rw [hs]
    exact Shape.noConfusion
  rw [hs] at hfit
  obtain ⟨hkind, _, _, rfl, _⟩ := hfit
  refine ⟨fun next hn => ?_, fun next hn => h.armable_of_chained hloaded hn⟩
  cases opening with
  | true => cases hn
  | false =>
    cases hn
    exact h.armable_of_isFurther (by rw [hkind]; rfl) hloaded

theorem Good.armable_of_else (h : f.Good) {id body : NodeId} (hs : f.shape id = .else_ body) :
    f.Armable id := by
  have hfit := h.sound id
  have hloaded : f.shape id ≠ .unloaded := by
    rw [hs]
    exact Shape.noConfusion
  rw [hs] at hfit
  exact h.armable_of_isFurther (by rw [hfit.1]; rfl) hloaded

/-- Below a loaded root everything is loaded that has nothing above it that was passed over. -/
theorem Filled.shape_ne (h : f.Filled) (hf : f.WellFormed) {root id : NodeId}
    (hroot : f.shape root ≠ .unloaded) (hmem : root ∈ f.lineage id)
    (hpass : ∀ a ∈ f.lineage id, a ≠ id → ¬ f.IsPassedOver a) : f.shape id ≠ .unloaded := by
  induction id using Nat.strongRecOn with
  | _ id ih =>
    rcases (mem_lineage_iff hf).mp hmem with rfl | ⟨hp, hmem⟩
    · exact hroot
    · have hlt : f.parent id < id := Nat.lt_of_le_of_ne (hf.parent_le id) hp
      have hsub : ∀ a ∈ f.lineage (f.parent id), a ∈ f.lineage id ∧ a ≠ id := fun a ha =>
        ⟨(mem_lineage_iff hf).mpr (.inr ⟨hp, ha⟩),
          Nat.ne_of_lt (Nat.lt_of_le_of_lt (le_of_mem_lineage hf ha) hlt)⟩
      have hparent := ih _ hlt hmem fun a ha _ => hpass a (hsub a ha).1 (hsub a ha).2
      have hself := hsub _ (mem_lineage_self hf _)
      have hid : id < f.size := by
        refine Nat.lt_of_not_le fun hle => hp ?_
        rw [parent, node_of_size_le hle]
      exact h _ hparent (hpass _ hself.1 hself.2) id
        ((hf.mem_children _ id).mpr ⟨hid, Ne.symm hp, rfl⟩)

end Forest

/-! ### Reading and loading -/

namespace Workshop

section Step

variable {f : Forest} {inserting : Bool} {root : NodeId} {w w' : Workshop} {id : NodeId}
  {shape : Shape} {muted : List NodeId} (h : LoadStep f inserting root w w' id shape muted)
include h

theorem LoadStep.le : w.forest.Le w'.forest := by
  rw [h.forest_eq]
  exact .setShape h.unloaded h.lt_size shape

theorem LoadStep.shape_id : w'.forest.shape id = shape := by
  rw [h.forest_eq, Forest.shape_setShape h.lt_size, if_pos rfl]

theorem LoadStep.shape_of_ne {x : NodeId} (hx : x ≠ id) :
    w'.forest.shape x = w.forest.shape x := by
  rw [h.forest_eq, Forest.shape_setShape h.lt_size, if_neg (Ne.symm hx)]

/-- The nodes that a step switches off. -/
theorem LoadStep.mem_muted_iff {x : NodeId} :
    x ∈ muted ↔ (x = id ∧ w'.forest.IsPassedOver id) ∨ x ∈ shape.muted id := by
  have hkind : w'.forest.kind id = w.forest.kind id := by rw [h.forest_eq, Forest.kind_setShape]
  obtain ⟨seen, hl⟩ := h.before
  have hpassed : w'.forest.IsPassedOver id ↔
      w.forest.kind id = .keyword .local_ ∧ shape = .leaf := by
    rw [Forest.IsPassedOver, hkind, h.shape_id]
  rcases h.shape_eq with ⟨hp, rfl, rfl⟩ | ⟨hp, hs, rfl⟩
  · have hover : w'.forest.IsPassedOver id :=
      hpassed.mpr ⟨(hl.kind_eq id).trans (isPassedOver_iff.mp hp).2, rfl⟩
    simp [hover, Shape.muted]
  · have hover : ¬ w'.forest.IsPassedOver id := by
      rw [hpassed]
      rintro ⟨hk, rfl⟩
      exact Forest.shapeOf_ne_leaf hk hs
    simp [hover]

/-- A step switches off what is muted behind it and was not before. -/
theorem LoadStep.isMuted_iff {x : NodeId} :
    w'.forest.IsMuted x ↔ x ∈ muted ∨ w.forest.IsMuted x := by
  obtain ⟨seen, hl⟩ := h.before
  have hparent : ∀ x, w'.forest.parent x = w.forest.parent x := fun x => by
    rw [h.forest_eq, Forest.parent_setShape]
  have hkind : ∀ x, w'.forest.kind x = w.forest.kind x := fun x => by
    rw [h.forest_eq, Forest.kind_setShape]
  -- The parts of the definition, for the node itself and for any other one.
  have hpass : w'.forest.IsPassedOver x ↔
      (x = id ∧ w'.forest.IsPassedOver id) ∨ w.forest.IsPassedOver x := by
    by_cases hx : x = id
    · have hnot := Forest.not_isPassedOver_of_unloaded h.unloaded
      simp [hx, hnot]
    · rw [Forest.IsPassedOver, hkind, h.shape_of_ne hx]
      simp [hx, Forest.IsPassedOver]
  have hmuted : ∀ p, x ∈ (w'.forest.shape p).muted p ↔
      (p = id ∧ x ∈ shape.muted id) ∨ x ∈ (w.forest.shape p).muted p := by
    intro p
    by_cases hp : p = id
    · have hnot : x ∉ (w.forest.shape id).muted id := Forest.not_mem_muted_of_unloaded h.unloaded
      rw [hp, h.shape_id]
      simp [hnot]
    · rw [h.shape_of_ne hp]
      simp [hp]
  have hnear : x ∈ shape.muted id → x = id ∨ w.forest.parent x = id := by
    intro hx
    refine (h.fits.1.of_mem_muted hx).imp (·.1) fun hc => ?_
    exact ((hl.wellFormed.mem_children id x).mp hc.1).2.2
  rw [Forest.IsMuted, Forest.IsMuted, hpass, hmuted x, hparent, hmuted, h.mem_muted_iff]
  grind

theorem LoadStep.filled (hw : w.forest.Filled) : w'.forest.Filled := by
  intro x hx hp c hc
  have hkeep : ∀ y, w.forest.shape y ≠ .unloaded → w'.forest.shape y ≠ .unloaded := fun y hy => by
    rw [h.le.shape_eq y hy]
    exact hy
  have hc' : c ∈ w.forest.children x := by
    rw [h.forest_eq, Forest.children_setShape] at hc
    exact hc
  by_cases hid : x = id
  · subst hid
    refine hkeep c (h.children ?_ c hc')
    -- If the node were passed over, it would be so behind the step.
    rcases h.shape_eq with ⟨_, _, rfl⟩ | ⟨hnot, _, _⟩
    · rcases h.mem_muted_iff.mp (List.mem_singleton_self x) with ⟨_, hover⟩ | hmem
      · exact absurd hover hp
      · rcases h.shape_eq with ⟨_, rfl, _⟩ | ⟨hnot, _, _⟩
        · exact absurd hmem List.not_mem_nil
        · exact hnot
    · exact hnot
  · rw [h.shape_of_ne hid] at hx
    refine hkeep c (hw x hx (fun hover => hp ?_) c hc')
    exact h.le.isPassedOver hover

end Step

section Prepare

variable {f : Forest} (h : f.Good) {r : Registry} (hr : r.Fits f) (inserting : Bool)
  (source : String)
include h hr

theorem grown_prepare : f.Grown (left (prepare inserting source f r)).forest := by
  refine prepare_induct h hr inserting source (P := fun w => f.Grown w.forest)
    (.of_sprouts (Forest.parse_sprouts h.wellFormed source)) ?_
  intro w w' id shape muted hstep hw
  rw [hstep.forest_eq]
  exact hw.setShape hstep.root_le shape

/-- The nodes of a new tree that are switched off are those that the forest says. -/
theorem mem_muted_prepare {x : NodeId} (hx : f.size ≤ x) :
    x ∈ (left (prepare inserting source f r)).muted ↔
      (left (prepare inserting source f r)).forest.IsMuted x := by
  have hs := Forest.parse_sprouts h.wellFormed source
  refine prepare_induct h hr inserting source (P := fun w => x ∈ w.muted ↔ w.forest.IsMuted x) ?_ ?_
  · have hnot : ¬ (f.parse source).1.IsMuted x :=
      Forest.not_isMuted_of_unloaded (hs.unloaded x hx) (hs.unloaded _ (hs.le_parent x hx))
    simp [hnot]
  · intro w w' id shape muted hstep hw
    rw [hstep.muted_eq, List.mem_append, hw, hstep.isMuted_iff]

theorem filled_prepare (hf : f.Filled) : (left (prepare inserting source f r)).forest.Filled := by
  have hs := Forest.parse_sprouts h.wellFormed source
  have hgrown := Forest.Grown.of_sprouts hs
  refine prepare_induct h hr inserting source (P := fun w => w.forest.Filled) ?_
    fun w w' id shape muted hstep => hstep.filled
  intro id hid hp c hc
  have hlt : id < f.size := Nat.lt_of_not_le fun hle => hid (hs.unloaded id hle)
  have hc' : c ∈ f.children id := hgrown.children_eq hlt ▸ hc
  have hclt : c < f.size := ((h.wellFormed.mem_children id c).mp hc').1
  rw [hgrown.shape_eq hclt]
  refine hf id (hgrown.shape_eq hlt ▸ hid) (fun hover => hp ?_) c hc'
  exact (hgrown.isPassedOver_iff hlt).mpr hover

end Prepare

/-- Reading and loading the source keeps what is known of a forest. -/
def Keeps (Q : Forest → Prop) (source : String) : Prop :=
  ∀ inserting {f : Forest} {r : Registry}, f.Good → r.Fits f → Q f →
    Q (left (prepare inserting source f r)).forest

theorem keeps_filled (source : String) : Keeps Forest.Filled source :=
  fun inserting _ _ hf hr => filled_prepare hf hr inserting source

end Workshop

/-! ### Two machines of a run -/

namespace Machine

/-- What holds of a machine at all times of a session, with `Q` of its forest. -/
structure Sane (Q : Forest → Prop) (m : Machine) : Prop where
  good : m.toSituation.Good
  forest : Q m.forest
  on : ∀ id, m.forest.size ≤ id → m.switches.isOn id = true

theorem Sane.switchOn {Q : Forest → Prop} {m : Machine} (hm : m.Sane Q) (id : NodeId) :
    (m.update (Situation.switch id true)).Sane Q := by
  refine ⟨hm.good.switch id true, hm.forest, fun x hx => ?_⟩
  show (m.switches.set id true).isOn x = true
  rw [Switches.isOn_set, hm.on x hx, ite_self]

/-- The second machine comes later in a run than the first one.  The switches of old nodes are as
they were, and those of new nodes as loading has left them, except at branches that may be
switched. -/
structure Evolves (Q : Forest → Prop) (m m' : Machine) : Prop where
  sane : m'.Sane Q
  grown : m.forest.Grown m'.forest
  kept : ∀ id, id < m.forest.size → ¬ m.forest.Armable id →
    m'.switches.isOn id = m.switches.isOn id
  settled : ∀ id, m.forest.size ≤ id → ¬ m'.forest.Armable id →
    (m'.switches.isOn id = false ↔ m'.forest.IsMuted id)
  loaded : ∀ root, m.forest.size ≤ root → m'.forest.IsRoot root →
    ∃ inserting source m₀ m₁, m₀.Sane Q ∧ prepare inserting source m₀ = .ok root m₁ ∧
      m₁.forest.Grown m'.forest

namespace Evolves

variable {Q : Forest → Prop} {m m₁ m₂ : Machine}

/-- Changes that touch neither the forest nor, in effect, the switches. -/
theorem of_eq (hm : m.Sane Q) (hf : m₁.forest = m.forest)
    (hs : ∀ id, m₁.switches.isOn id = m.switches.isOn id) (hg : m₁.toSituation.Good) :
    Evolves Q m m₁ where
  sane := ⟨hg, hf ▸ hm.forest, fun id hid => (hs id).trans (hm.on id (hf ▸ hid))⟩
  grown := hf ▸ .refl m.forest
  kept id _ _ := hs id
  settled id hid _ := by
    have hon : m₁.switches.isOn id = true := (hs id).trans (hm.on id hid)
    have hnot : ¬ m₁.forest.IsMuted id := Forest.not_isMuted_of_size_le (hf ▸ hid)
    simp [hon, hnot]
  loaded root hroot hr := by
    have hlt : root < m₁.forest.size := Forest.lt_size_of_shape hr.isBody.shape_ne
    exact absurd (hf ▸ hlt) (Nat.not_lt_of_le hroot)

theorem refl (hm : m.Sane Q) : Evolves Q m m :=
  of_eq hm rfl (fun _ => rfl) hm.good

/-- Changes of the registry and of what a forest has nothing to do with. -/
theorem aside (hm : m.Sane Q) (hf : m₁.forest = m.forest) (hs : m₁.switches = m.switches)
    (hi : m₁.inserted = m.inserted) (hr : m₁.registry.Fits m.forest) : Evolves Q m m₁ :=
  of_eq hm hf (fun _ => by rw [hs]) (hm.good.of_eq hf hi hr)

theorem record (hm : m.Sane Q) (event : Event) : Evolves Q m (m.record event) := by
  have hs := toSituation_record m event
  refine of_eq hm (by rw [hs]) (fun _ => by rw [hs]) ?_
  rw [hs]
  exact hm.good

/-- A call may begin. -/
theorem entered (hm : m.Sane Q) (f : Function) (args : List Value) :
    Evolves Q m (m.entered f args) := by
  have hs := toSituation_entered f args m
  refine aside hm (by rw [hs]) (by rw [hs]) (by rw [hs]) ?_
  rw [hs]
  exact Engine.enterCall_fits hm.good.registry f args

theorem trans (hm : m.Sane Q) (h₁ : Evolves Q m m₁) (h₂ : Evolves Q m₁ m₂) : Evolves Q m m₂ := by
  have hwf := hm.good.forest.wellFormed
  have hwf₁ := h₁.sane.good.forest.wellFormed
  have hwf₂ := h₂.sane.good.forest.wellFormed
  refine ⟨h₂.sane, h₁.grown.trans h₂.grown, fun id hid ha => ?_, fun id hid ha => ?_,
    fun root hroot hr => ?_⟩
  · have hid₁ : id < m₁.forest.size := Nat.lt_of_lt_of_le hid h₁.grown.size_le
    have ha₁ : ¬ m₁.forest.Armable id := (not_congr (h₁.grown.armable_iff hwf hwf₁ hid)).mpr ha
    exact (h₂.kept id hid₁ ha₁).trans (h₁.kept id hid ha)
  · by_cases hid₁ : id < m₁.forest.size
    · have ha₁ : ¬ m₁.forest.Armable id := (not_congr (h₂.grown.armable_iff hwf₁ hwf₂ hid₁)).mp ha
      rw [h₂.kept id hid₁ ha₁, h₂.grown.isMuted_iff hwf₁ hid₁]
      exact h₁.settled id hid ha₁
    · exact h₂.settled id (Nat.le_of_not_lt hid₁) ha
  · by_cases hroot₁ : root < m₁.forest.size
    · have hr₁ : m₁.forest.IsRoot root := (h₂.grown.isRoot_iff hroot₁).mp hr
      obtain ⟨inserting, source, k₀, k₁, hk, hp, hg⟩ := h₁.loaded root hroot hr₁
      exact ⟨inserting, source, k₀, k₁, hk, hp, hg.trans h₂.grown⟩
    · exact h₂.loaded root (Nat.le_of_not_lt hroot₁) hr

theorem armable (h : Evolves Q m m₁) (hm : m.Sane Q) {id : NodeId} (ha : m.forest.Armable id) :
    m₁.forest.Armable id :=
  (h.grown.armable_iff hm.good.forest.wellFormed h.sane.good.forest.wellFormed ha.lt_size).mpr ha

/-- A branch may be switched that may be. -/
theorem switch (hm : m.Sane Q) {id : NodeId} (ha : m.forest.Armable id) (on : Bool) :
    Evolves Q m (m.update (Situation.switch id on)) := by
  have hother : ∀ x, x ≠ id →
      (m.update (Situation.switch id on)).switches.isOn x = m.switches.isOn x := fun x hx => by
    show (m.switches.set id on).isOn x = _
    rw [Switches.isOn_set, if_neg (Ne.symm hx)]
  have hon : ∀ x, m.forest.size ≤ x →
      (m.update (Situation.switch id on)).switches.isOn x = true := fun x hx => by
    rw [hother x (Nat.ne_of_gt (Nat.lt_of_lt_of_le ha.lt_size hx))]
    exact hm.on x hx
  refine ⟨⟨hm.good.switch id on, hm.forest, hon⟩, .refl _, fun x _ hx => ?_, fun x hx _ => ?_,
    fun root hroot hr => ?_⟩
  · exact hother x fun he => hx (he ▸ ha)
  · have hnot : ¬ m.forest.IsMuted x := Forest.not_isMuted_of_size_le hx
    rw [hon x hx]
    exact ⟨fun hc => (nomatch hc), fun hc => absurd hc hnot⟩
  · have hlt : root < m.forest.size := Forest.lt_size_of_shape hr.isBody.shape_ne
    exact absurd hlt (Nat.not_lt_of_le hroot)

end Evolves

/-! ### Sources -/

/-- A source that is read and loaded has a root that is loaded. -/
theorem isRoot_of_prepare {inserting : Bool} {source : String} {m m₁ : Machine} {root : NodeId}
    (hm : m.toSituation.Good) (h : prepare inserting source m = .ok root m₁) :
    root = m.forest.size ∧ m₁.forest.IsRoot root := by
  rw [prepare_eq_workshop] at h
  cases hw : Workshop.prepare inserting source m.forest m.registry with
  | error failure w =>
    rw [hw] at h
    cases h
  | ok root' w =>
    rw [hw] at h
    cases h
    obtain ⟨seen, hl⟩ := Workshop.prepare_loads hm.forest hm.registry inserting source
    rw [hw] at hl
    have hl : w.Loads _ inserting m.forest.size seen := hl
    obtain ⟨hroot, hloaded⟩ := Workshop.root_of_prepare hm.forest inserting source hm.registry hw
    have hs := Forest.parse_sprouts hm.forest.wellFormed source
    subst hroot
    refine ⟨rfl, ?_, ?_⟩
    · exact Forest.isBody_of_kind hl.sound hloaded ((hl.kind_eq _).trans hs.kind_root)
    · exact (hl.parent_eq _).trans hs.parent_root

/-- Right behind loading the nodes of the new tree are off that are muted, and no others. -/
theorem isOn_final_prepare {Q : Forest → Prop} {m : Machine} (hm : m.Sane Q) (inserting : Bool)
    (source : String) {id : NodeId} (hid : m.forest.size ≤ id) :
    (Run.final (prepare inserting source) m).switches.isOn id = false ↔
      (Run.final (prepare inserting source) m).forest.IsMuted id := by
  rw [final_prepare]
  show (m.switches.turnOff _).isOn id = false ↔ (Workshop.left _).forest.IsMuted id
  have hon := hm.on id hid
  rw [← Workshop.mem_muted_prepare hm.good.forest hm.good.registry inserting source hid,
    Switches.isOn_turnOff, hon]
  simp

theorem Evolves.prepare {Q : Forest → Prop} {m : Machine} (hm : m.Sane Q) (inserting : Bool)
    {source : String} (hQ : Workshop.Keeps Q source) :
    Evolves Q m (Run.final (prepare inserting source) m) := by
  let w := Workshop.left (Workshop.prepare inserting source m.forest m.registry)
  have hs : (Run.final (Machine.prepare inserting source) m).toSituation = m.settle w :=
    final_prepare inserting source m
  have hforest : (Run.final (Machine.prepare inserting source) m).forest = w.forest := by
    rw [hs]; rfl
  have hswitches : (Run.final (Machine.prepare inserting source) m).switches =
      m.switches.turnOff w.muted := by rw [hs]; rfl
  have hsprouts := Forest.parse_sprouts hm.good.forest.wellFormed source
  have hgrown : m.forest.Grown w.forest :=
    Workshop.grown_prepare hm.good.forest hm.good.registry inserting source
  obtain ⟨seen, hl⟩ := Workshop.prepare_loads hm.good.forest hm.good.registry inserting source
  -- Only nodes of the new tree are muted.
  have hmuted : ∀ id ∈ w.muted, m.forest.size ≤ id ∧ id < w.forest.size := by
    intro id hid
    have hle : m.forest.size ≤ id := (hl.muted id hid).1
    refine ⟨hle, Nat.lt_of_not_le fun hout => ?_⟩
    have := (Workshop.mem_muted_prepare hm.good.forest hm.good.registry inserting source hle).mp hid
    exact Forest.not_isMuted_of_size_le hout this
  have hgood : (Run.final (Machine.prepare inserting source) m).toSituation.Good := by
    rw [hs]
    exact hm.good.settle hsprouts hl
  refine ⟨⟨hgood, ?_, fun id hid => ?_⟩, ?_, fun id hid _ => ?_, fun id hid _ => ?_,
    fun root hroot hr => ?_⟩
  · rw [hforest]
    exact hQ inserting hm.good.forest hm.good.registry hm.forest
  · rw [hforest] at hid
    have hon : m.switches.isOn id = true := hm.on id (Nat.le_trans hgrown.size_le hid)
    have hnot : id ∉ w.muted := fun hc => Nat.not_lt_of_le hid (hmuted id hc).2
    rw [hswitches, Switches.isOn_turnOff, hon]
    simp [hnot]
  · rw [hforest]
    exact hgrown
  · have hnot : id ∉ w.muted := fun hc => Nat.not_le_of_lt hid (hmuted id hc).1
    rw [hswitches, Switches.isOn_turnOff]
    simp [hnot]
  · exact isOn_final_prepare hm inserting source hid
  · -- The only root among the new nodes is the first one; it is loaded, so nothing has failed.
    rw [hforest] at hr
    have hloaded := hr.isBody.shape_ne
    have hlt : root < (m.forest.parse source).1.size :=
      hl.size_eq ▸ Forest.lt_size_of_shape hloaded
    have hfirst : root = m.forest.size := by
      refine Nat.le_antisymm (Nat.le_of_not_lt fun hc => ?_) hroot
      have hparent := (hl.parent_eq root).symm.trans hr.parent_eq
      exact Nat.ne_of_lt (hsprouts.parent_lt root hc hlt) hparent
    subst hfirst
    obtain ⟨w', hw'⟩ := Workshop.prepare_eq_ok hm.good.forest inserting source hloaded
    have hprepare : Machine.prepare inserting source m =
        .ok m.forest.size (m.update (Situation.settle w')) := by
      rw [prepare_eq_workshop, hw']
    refine ⟨inserting, source, m, _, hm, hprepare, ?_⟩
    rw [Run.final_of_ok hprepare]
    exact .refl _

end Machine

/-- A file whose tree is given was known before, or it has been loaded now and is remembered. -/
theorem Engine.inserted_eq_ok {w : World} {path : Path} {line : Nat} {m m' : Machine}
    {root : NodeId} (h : Engine.inserted w path line m = .ok root m') :
    (m.inserted.get? path.components = some root ∧ m' = m) ∨
      ∃ source m₁, prepare true source (m.record (.reads path)) = .ok root m₁ ∧
        m' = m₁.update fun s => { s with inserted := s.inserted.insert path.components root } := by
  cases hknown : m.inserted.get? path.components with
  | some known =>
    rw [Engine.inserted_of_known w line hknown] at h
    cases h
    exact .inl ⟨rfl, rfl⟩
  | none =>
    rw [Engine.inserted, Run.look_bind_of_eq hknown] at h
    cases hload : w.library.load path with
    | error io =>
      rw [hload] at h
      cases h
    | ok source =>
      rw [hload] at h
      change (prepare true source >>= fun root => change (fun s =>
        { s with inserted := s.inserted.insert path.components root }) >>= fun _ => pure root)
          (m.record (.reads path)) = _ at h
      cases hprepare : prepare true source (m.record (.reads path)) with
      | ok made m₁ =>
        rw [Run.bind_of_ok hprepare] at h
        cases h
        exact .inr ⟨source, m₁, hprepare, rfl⟩
      | error s m₁ =>
        rw [Run.bind_of_error hprepare] at h
        cases h

/-- The tree that is given for a file is known by the path of the file. -/
theorem Engine.get?_of_inserted {w : World} {path : Path} {line : Nat} {m m' : Machine}
    {root : NodeId} (h : Engine.inserted w path line m = .ok root m') :
    m'.inserted.get? path.components = some root := by
  rcases Engine.inserted_eq_ok h with ⟨hknown, rfl⟩ | ⟨source, m₁, _, rfl⟩
  · exact hknown
  · exact (Table.get?_insert ..).trans (if_pos rfl)

/-! ### Computations -/

/-- The computation moves a machine along in a run. -/
def Run.Evolves (Q : Forest → Prop) ⦃α : Type⦄ (x : Run α) : Prop :=
  Run.Moves (fun m m' => m.Sane Q → m.Evolves Q m') x

namespace Run.Evolves

variable {Q : Forest → Prop}

/-- A computation and one that follows it, on a machine on which the first one is known. -/
theorem bind_of {α β : Type} {x : Run α} {f : α → Run β} {m : Machine} (hm : m.Sane Q)
    (hx : m.Evolves Q (Run.final x m))
    (hf : ∀ a m', x m = .ok a m' → m.Evolves Q m' → m'.Evolves Q (Run.final (f a) m')) :
    m.Evolves Q (Run.final (x >>= f) m) :=
  Run.final_bind_of hx fun a m' h h' => h'.trans hm (hf a m' h h')

theorem bind {α β : Type} {x : Run α} {f : α → Run β} (hx : Run.Evolves Q x)
    (hf : ∀ a, Run.Evolves Q (f a)) : Run.Evolves Q (x >>= f) :=
  fun m hm => bind_of hm (hx m hm) fun a m' _ h => hf a m' h.sane

theorem refl {α : Type} {x : Run α} (h : ∀ m, Run.final x m = m) : Run.Evolves Q x := by
  intro m hm
  rw [h m]
  exact .refl hm

theorem look {α : Type} (g : Situation → α) : Run.Evolves Q (look g) := refl fun _ => rfl

theorem note (event : Event) : Run.Evolves Q (note event) := fun _ hm => .record hm event

theorem onRegistry {g : Registry → Registry}
    (hg : ∀ {f : Forest} {r : Registry}, r.Fits f → (g r).Fits f) :
    Run.Evolves Q (change (Situation.onRegistry g)) :=
  fun _ hm => .aside hm rfl rfl rfl (hg hm.good.registry)

/-- A change of the registry behind a computation, however it ends. -/
theorem ensuring {α : Type} {x : Run α} (hx : Run.Evolves Q x) {after : Situation → Situation}
    (hforest : ∀ s, (after s).forest = s.forest) (hswitches : ∀ s, (after s).switches = s.switches)
    (hinserted : ∀ s, (after s).inserted = s.inserted)
    (hregistry : ∀ s : Situation, s.Good → (after s).registry.Fits s.forest) :
    Run.Evolves Q (Run.ensuring x after) := by
  intro m hm
  have h := hx m hm
  rw [Run.final_ensuring]
  refine h.trans hm (.aside h.sane (hforest _) (hswitches _) (hinserted _) ?_)
  exact hregistry _ h.sane.good

theorem sequential : Sequential (Run.Evolves Q) where
  pure _ := refl fun _ => rfl
  bind := bind
  failed _ := refl fun _ => rfl
  look := look
  note event _ := note event

/-! #### Names -/

theorem assign (name : String) (v : Value) (line : Nat) :
    Run.Evolves Q (Engine.assign name v line) := by
  intro m hm
  rw [Engine.assign, Run.final_look_bind]
  split
  next r hr =>
    have hs := toSituation_record m (.assigns name)
    have hfits : r.Fits m.forest := hm.good.registry.assign hr
    rw [Run.final_note_bind]
    refine .aside hm ?_ ?_ ?_ hfits
    · show (m.record (.assigns name)).forest = m.forest
      rw [hs]
    · show (m.record (.assigns name)).switches = m.switches
      rw [hs]
    · show (m.record (.assigns name)).inserted = m.inserted
      rw [hs]
  · exact .refl hm
  · exact .refl hm

theorem bindNew (id : NodeId) (name : String) (v : Value) :
    Run.Evolves Q (Engine.bindNew id name v) := by
  refine sequential.make (onRegistry fun {f r} hr => ?_)
  have hv : (Binding.ofVariable v (some id)).Fits f := .ofVariable f v (some id)
  split
  · exact hr.bindLocal name hv
  · exact hr.define name hv

theorem declare (id : NodeId) (name : String) (v : Value) (line : Nat) :
    Run.Evolves Q (Engine.declare id name v line) := by
  unfold Engine.declare
  refine (look _).bind fun r => ?_
  split
  · exact bindNew id name v
  · split
    · split
      · exact bindNew id name v
      · exact assign name v line
    · exact refl fun _ => rfl

theorem answer (function : String) (v : Value) : Run.Evolves Q (Engine.answer function v) :=
  (note _).bind fun _ => onRegistry fun hr => hr.setResult function v

theorem freeNames (line : Nat) (names : List String) :
    Run.Evolves Q (Engine.freeNames line names) := by
  induction names with
  | nil => exact refl fun _ => rfl
  | cons name rest ih =>
    intro m hm
    rw [Engine.freeNames, Run.final_look_bind]
    split
    next r hr =>
      have hfree : m.Evolves Q (m.update fun s => { s with registry := r }) :=
        .aside hm rfl rfl rfl (hm.good.registry.remove? hr)
      rw [Run.final_change_bind]
      exact hfree.trans hm (ih _ hfree.sane)
    · exact .refl hm

/-! #### Calls and loops -/

theorem duringCall (f : Function) (args : List Value) {x : Run Flow} (hx : Run.Evolves Q x) :
    Run.Evolves Q (Engine.duringCall f args x) := by
  intro m hm
  have hstart : m.Evolves Q (m.entered f args) := .entered hm f args
  have hbody := hx _ hstart.sane
  rw [Run.final_duringCall]
  refine (hstart.trans hm hbody).trans hm (.aside hbody.sane rfl rfl rfl ?_)
  exact hbody.sane.good.registry.popFrame

theorem duringLoop (e : Engine) (item : String) (body : NodeId) (values : List Value)
    (hb : Run.Evolves Q (e.force body)) :
    Run.Evolves Q (Engine.duringLoop item (e.runItems item body values)) := by
  refine (sequential.make (onRegistry fun hr => hr.pushItem item)).bind fun _ => ?_
  have hitems : Run.Evolves Q (e.runItems item body values) := sequential.runItems
    (fun v => onRegistry fun {f r} hr => hr.define item (.ofVariable f v none)) hb values
  exact hitems.ensuring (fun _ => rfl) (fun _ => rfl) (fun _ => rfl) fun s hs => hs.registry.popItem

/-! #### Inserted files -/

theorem prepare (inserting : Bool) {source : String} (hQ : Workshop.Keeps Q source) :
    Run.Evolves Q (prepare inserting source) :=
  fun _ hm => .prepare hm inserting hQ

theorem inserted {w : World} (hQ : ∀ path source, w.library.load path = .ok source →
    Workshop.Keeps Q source) (path : Path) (line : Nat) :
    Run.Evolves Q (Engine.inserted w path line) := by
  unfold Engine.inserted
  refine (look _).bind fun root => ?_
  split
  · exact refl fun _ => rfl
  · refine (note _).bind fun _ => ?_
    cases hload : w.library.load path with
    | error io => exact refl fun _ => rfl
    | ok source =>
      intro m hm
      refine bind_of hm (.refl hm) fun _ _ hio _ => ?_
      cases hio
      refine bind_of hm (prepare true (hQ path source hload) m hm) fun root m₁ hroot h₁ => ?_
      -- The file is entered with the root of a tree that has just been loaded.
      have hgood : Situation.Good
          { m₁.toSituation with inserted := m₁.inserted.insert path.components root } := by
        refine { h₁.sane.good with inserted := fun p r hp => ?_ }
        rw [Table.get?_insert] at hp
        split at hp
        · cases hp
          exact (isRoot_of_prepare hm.good hroot).2
        · exact h₁.sane.good.inserted p r hp
      exact .of_eq h₁.sane rfl (fun _ => rfl) hgood

theorem duringFile (path : Path) {x : Run Flow} (hx : Run.Evolves Q x) :
    Run.Evolves Q (Engine.duringFile path x) := by
  have henter : Run.Evolves Q (change fun s =>
      { s with baseDir := path.parent?.getD .empty, inserting := path :: s.inserting }) :=
    fun m hm => .aside hm rfl rfl rfl hm.good.registry
  refine (look _).bind fun base => henter.bind fun _ => ?_
  exact hx.ensuring (fun _ => rfl) (fun _ => rfl) (fun _ => rfl) fun s hs => hs.registry

/-- All steps but those that switch nodes move a machine along in a run. -/
theorem stepwise {w : World} (hQ : ∀ path source, w.library.load path = .ok source →
    Workshop.Keeps Q source) : Stepwise w (Run.Evolves Q) where
  toSequential := sequential
  stop _ := refl fun _ => rfl
  write line text m hm := by
    rw [Run.final_write]
    exact .aside hm rfl rfl rfl hm.good.registry
  flush line := refl fun m => Run.final_flush line m
  readLine line m hm := by
    rw [Run.final_readLine]
    exact .aside hm rfl rfl rfl hm.good.registry
  assign := assign
  declare := declare
  answer := answer
  call _ f args line hx := sequential.callScript (duringCall f args hx) line
  duringLoop := duringLoop
  runFree names line := (note _).bind fun _ => freeNames line names
  runFreeAll := (onRegistry fun hr => hr.clear).bind fun _ => note _
  runExtern source nickname line := (note _).bind fun _ => sequential.bindModule
    (fun _ _ => onRegistry fun hr => hr.define _ (Engine.hostBinding_fits _ _)) source line
  runInsert e target line ht he := (note _).bind fun _ =>
    sequential.runTarget ht fun path => sequential.runInserted (note _) (inserted hQ path line)
      (fun _ => note _) fun root => duringFile path (he root)

/-! #### Switches -/

theorem arm {m : Machine} (hm : m.Sane Q) {chained : Option NodeId}
    (hc : ∀ next, chained = some next → m.forest.Armable next) (on : Bool) :
    m.Evolves Q (Run.final (Engine.arm chained on) m) := by
  cases chained with
  | none => exact .refl hm
  | some next => exact .switch hm (hc next rfl) on

/-- A node that has no shape only fails. -/
theorem final_exec_of_unloaded {w : World} (n : Nat) {id : NodeId} {m : Machine}
    (hs : m.forest.shape id = .unloaded) :
    (Run.final (exec w n id) m).toSituation = m.toSituation := by
  cases n with
  | zero => rfl
  | succ n =>
    have hrecord := toSituation_record m (.runs id)
    have hshape : (m.record (.runs id)).forest.shape id = .unloaded := by rw [hrecord, hs]
    rw [exec, Engine.runNode_eq, Run.final_note_bind, Run.final_look_bind, Run.final_look_bind,
      hshape]
    exact hrecord

/-- A node may be run whether it is on or off. -/
theorem switchingOn {w : World} (n : Nat) (id : NodeId) (hx : Run.Evolves Q (exec w n id)) :
    Run.Evolves Q (switchingOn (exec w n) id) := by
  intro m hm
  rw [Machine.switchingOn, Run.final_look_bind, Run.final_change_bind, Run.final_ensuring]
  let was := m.switches.isOn id
  let m₁ := m.update (Situation.switch id true)
  have hm₁ : m₁.Sane Q := hm.switchOn id
  have h := hx m₁ hm₁
  have hset : ∀ x, ((Run.final (exec w n id) m₁).update (Situation.switch id was)).switches.isOn x =
      if id = x then was else (Run.final (exec w n id) m₁).switches.isOn x :=
    fun x => Switches.isOn_set ..
  by_cases hid : id < m.forest.size
  · have hne : ∀ x, m.forest.size ≤ x → id ≠ x :=
      fun x hx => Nat.ne_of_lt (Nat.lt_of_lt_of_le hid hx)
    refine ⟨⟨h.sane.good.switch id was, h.sane.forest, fun x hx => ?_⟩, h.grown, fun x hx ha => ?_,
      fun x hx ha => ?_, h.loaded⟩
    · rw [hset, if_neg (hne x (Nat.le_trans h.grown.size_le hx))]
      exact h.sane.on x hx
    · rw [hset]
      split
      next he => rw [← he]
      next hx' =>
        rw [h.kept x hx ha]
        exact (Switches.isOn_set ..).trans (if_neg hx')
    · rw [hset, if_neg (hne x hx)]
      exact h.settled x hx ha
  · -- Beyond the forest there is nothing to run, and all switches are on.
    have hle : m.forest.size ≤ id := Nat.le_of_not_lt hid
    have hstay : (Run.final (exec w n id) m₁).toSituation = m₁.toSituation :=
      final_exec_of_unloaded n (Forest.shape_of_size_le hle)
    refine .of_eq hm ?_ (fun x => ?_) ?_
    · show (Run.final (exec w n id) m₁).forest = m.forest
      rw [hstay]
      rfl
    · rw [hset]
      split
      next he => rw [← he]
      next hx' =>
        rw [hstay]
        exact (Switches.isOn_set ..).trans (if_neg hx')
    · show ((Run.final (exec w n id) m₁).switch id was).Good
      rw [hstay]
      exact hm₁.good.switch id was

section

variable {w : World} (hQ : ∀ path source, w.library.load path = .ok source →
  Workshop.Keeps Q source) {e : Engine} (he : e.Within (Run.Evolves Q))
include hQ he

theorem runBranch {m : Machine} (hm : m.Sane Q) {id : NodeId} {opening : Bool}
    {test body : NodeId} {chained : Option NodeId} (line : Nat)
    (hs : m.forest.shape id = .branch opening test body chained) :
    m.Evolves Q (Run.final (e.runBranch id opening test body chained line) m) := by
  obtain ⟨hself, hnext⟩ := hm.good.forest.armable_of_branch hs
  unfold Engine.runBranch
  refine bind_of hm (arm hm hself false) fun _ m₁ _ h₁ => ?_
  refine bind_of h₁.sane ((stepwise hQ).condition ((stepwise hQ).values he) test line m₁ h₁.sane)
    fun holds m₂ _ h₂ => ?_
  have h₁₂ := h₁.trans hm h₂
  refine bind_of h₂.sane (arm h₂.sane (fun next hn => h₁₂.armable hm (hnext next hn)) !holds)
    fun _ m₃ _ h₃ => ?_
  split
  · exact he.force body m₃ h₃.sane
  · exact .refl h₃.sane

omit hQ in
theorem runElse {m : Machine} (hm : m.Sane Q) {id body : NodeId}
    (hs : m.forest.shape id = .else_ body) : m.Evolves Q (Run.final (e.runElse id body) m) := by
  have harm := hm.good.forest.armable_of_else hs
  unfold Engine.runElse
  exact bind_of hm (.switch hm harm false) fun _ m₁ _ h₁ => he.force body m₁ h₁.sane

theorem runNode (passes : Nat) (id : NodeId) : Run.Evolves Q (e.runNode w passes id) := by
  intro m hm
  rw [Engine.runNode_eq]
  refine bind_of hm (.record hm _) fun _ m₁ _ h₁ => ?_
  rw [Run.final_look_bind, Run.final_look_bind]
  cases hs : m₁.forest.shape id with
  | branch opening test body chained => exact runBranch hQ he h₁.sane _ hs
  | else_ body => exact runElse he h₁.sane hs
  | _ => exact (stepwise hQ).runShape he passes id _ rfl m₁ h₁.sane

end

/-- Everything that a machine runs moves it along in a run. -/
theorem engine {w : World} (hQ : ∀ path source, w.library.load path = .ok source →
    Workshop.Keeps Q source) (n : Nat) : (Machine.engine w n).Within (Run.Evolves Q) :=
  (stepwise hQ).engine_of_runNode (fun _ passes id he => runNode hQ he passes id) switchingOn n

end Run.Evolves

end TagLang
