import TagLang.Proofs.Shapes

/-!
# Loading keeps a forest sound

The tree of a source is loaded node by node.  After every node, also after the last one before a
failure, all shapes fit (`Forest.Sound`), no loaded node is below one that was passed over
(`Forest.Sheltered`), and the functions that have been declared have loaded bodies
(`Registry.Fits`).  `Workshop.load_loads` says so of a whole tree.

A tree whose nodes all get a shape once their children have theirs is loaded to its end
(`Workshop.load_completes`).
-/

namespace TagLang

/-! ### Functions and their bodies -/

/-- A function that the binding stands for has a loaded body. -/
def Binding.Fits (f : Forest) (b : Binding) : Prop :=
  ∀ g, b.kind = .function (.script g) → f.IsBody g.body

theorem Binding.Fits.ofVariable (f : Forest) (v : Value) (origin : Option NodeId) :
    (Binding.ofVariable v origin).Fits f :=
  fun _ hc => nomatch hc

/-- Every function that is bound, or will be bound again, has a loaded body. -/
structure Registry.Fits (f : Forest) (r : Registry) : Prop where
  bound : ∀ k b, r.get? k = some b → b.Fits f
  hidden : ∀ s ∈ r.pending, ∀ b, s.hidden = some b → b.Fits f

namespace Registry.Fits

variable {f g : Forest} {r : Registry}

theorem mono (h : r.Fits f) (hle : f.Le g) : r.Fits g where
  bound k b hb c hc := hle.isBody (h.bound k b hb c hc)
  hidden s hs b hb c hc := hle.isBody (h.hidden s hs b hb c hc)

theorem define (h : r.Fits f) (key : String) {b : Binding} (hb : b.Fits f) :
    (r.define key b).Fits f where
  bound k b' hb' := by
    rw [Registry.get?, Registry.define, Table.get?_insert] at hb'
    split at hb'
    · cases hb'
      exact hb
    · exact h.bound k b' hb'
  hidden := h.hidden

/-- Giving a bound name a value does not change what it stands for. -/
theorem defineValue (h : r.Fits f) {key : String} {b : Binding} (hb : r.get? key = some b)
    (v : Value) : (r.define key { b with value := v }).Fits f :=
  h.define key fun c hc => h.bound key b hb c hc

theorem setResult (h : r.Fits f) (function : String) (v : Value) :
    (r.setResult function v).Fits f := by
  unfold Registry.setResult
  split
  next b hb =>
    split
    · exact h.defineValue hb v
    · exact h
  · exact h

theorem assign (h : r.Fits f) {key : String} {v : Value} {r' : Registry}
    (hr : r.assign key v = .ok r') : r'.Fits f := by
  unfold Registry.assign at hr
  split at hr
  · cases hr
  next b hb =>
    split at hr
    · cases hr
    · cases hr
      exact h.defineValue hb v

/-- Names may go away, and shadows may hide less. -/
theorem of_subset (h : r.Fits f) {r' : Registry}
    (hb : ∀ k b, r'.get? k = some b → r.get? k = some b)
    (hp : ∀ s ∈ r'.pending, ∀ b, s.hidden = some b → ∃ t ∈ r.pending, t.hidden = some b) :
    r'.Fits f where
  bound k b hk := h.bound k b (hb k b hk)
  hidden s hs b hsb := by
    obtain ⟨t, ht, htb⟩ := hp s hs b hsb
    exact h.hidden t ht b htb

theorem erase (h : r.Fits f) (key : String) :
    Registry.Fits f { r with bindings := r.bindings.erase key } := by
  refine h.of_subset (fun k b hk => ?_) fun s hs b hb => ⟨s, hs, hb⟩
  rw [Registry.get?, Table.get?_erase] at hk
  split at hk
  · cases hk
  · exact hk

theorem remove? (h : r.Fits f) {key : String} {r' : Registry} (hr : r.remove? key = some r') :
    r'.Fits f := by
  unfold Registry.remove? at hr
  split at hr
  · cases hr
  · cases hr
    exact h.erase key

theorem clear (h : r.Fits f) : r.clear.Fits f := by
  refine h.of_subset (fun k b hk => nomatch hk) fun s hs b hb => ?_
  exfalso
  unfold Registry.pending Registry.clear at hs
  simp only [List.flatMap_map, List.mem_append, List.mem_flatMap, List.mem_map] at hs
  rcases hs with ⟨_, _, t, _, rfl⟩ | ⟨t, _, rfl⟩ <;> cases hb

theorem unshadow (h : r.Fits f) {s : Shadow} (hs : ∀ b, s.hidden = some b → b.Fits f) :
    (r.unshadow s).Fits f := by
  unfold Registry.unshadow
  split
  next b hb => exact h.define s.key (hs b hb)
  · exact h.erase s.key

/-- A name may be bound anew, if what it hides is kept. -/
theorem shadow (h : r.Fits f) (key : String) {b : Binding} (hb : b.Fits f) {r' : Registry}
    (hbind : r'.bindings = (r.define key b).bindings)
    (hp : ∀ s ∈ r'.pending, s = ⟨key, r.get? key⟩ ∨ s ∈ r.pending) : r'.Fits f where
  bound k b' hk := (h.define key hb).bound k b' (by rw [Registry.get?, hbind] at hk; exact hk)
  hidden s hs b' hb' := by
    rcases hp s hs with rfl | hs
    · exact h.bound key b' hb'
    · exact h.hidden s hs b' hb'

theorem pushItem (h : r.Fits f) (key : String) : (r.pushItem key).Fits f := by
  refine h.shadow key (.ofVariable f .none none) rfl fun s hs => ?_
  simp only [Registry.pending, Registry.pushItem, Registry.define, List.mem_append,
    List.mem_cons] at hs ⊢
  rcases hs with hs | hs | hs
  · exact .inr (.inl hs)
  · exact .inl hs
  · exact .inr (.inr hs)

theorem popItem (h : r.Fits f) : r.popItem.Fits f := by
  unfold Registry.popItem
  split
  · exact h
  next s items hi =>
    have hmem : ∀ t ∈ s :: items, t ∈ r.pending := by
      intro t ht
      rw [Registry.pending, hi]
      exact List.mem_append_right _ ht
    refine unshadow ?_ fun b hb => h.hidden s (hmem s (List.mem_cons_self ..)) b hb
    refine h.of_subset (fun k b hk => hk) fun t ht b hb => ⟨t, ?_, hb⟩
    rcases List.mem_append.mp ht with ht | ht
    · exact List.mem_append_left _ ht
    · exact hmem t (List.mem_cons_of_mem _ ht)

theorem bindLocal (h : r.Fits f) (key : String) {b : Binding} (hb : b.Fits f) :
    (r.bindLocal key b).Fits f := by
  unfold Registry.bindLocal
  dsimp only
  split
  next hf => exact h.define key hb
  next frame frames hf =>
    refine h.shadow key hb rfl fun s hs => ?_
    have hf' : r.frames = frame :: frames := hf
    simp only [Registry.pending, Registry.define, List.flatMap_cons, List.mem_append,
      List.cons_append, List.mem_cons, hf'] at hs ⊢
    exact hs

theorem popFrame (h : r.Fits f) : r.popFrame.Fits f := by
  unfold Registry.popFrame
  split
  · exact h
  next frame frames hf =>
    have hlocals : ∀ s ∈ frame.locals, ∀ b, s.hidden = some b → b.Fits f := by
      intro s hs
      refine h.hidden s ?_
      rw [Registry.pending, hf]
      exact List.mem_append_left _ (List.mem_append_left _ hs)
    have hrest : Registry.Fits f { r with frames } := by
      refine h.of_subset (fun k b hk => hk) fun t ht b hb => ⟨t, ?_, hb⟩
      rw [Registry.pending, hf]
      rcases List.mem_append.mp ht with ht | ht
      · exact List.mem_append_left _ (List.mem_append_right _ ht)
      · exact List.mem_append_right _ ht
    generalize frame.locals = locals at hlocals
    generalize ({ r with frames } : Registry) = r' at hrest
    induction locals generalizing r' with
    | nil => exact hrest
    | cons s rest ih =>
      exact ih (fun t ht => hlocals t (List.mem_cons_of_mem _ ht)) _
        (hrest.unshadow (hlocals s (List.mem_cons_self ..)))

theorem pushFrame (h : r.Fits f) (function : String) : (r.pushFrame function).Fits f :=
  h.of_subset (fun _ _ hk => hk) fun s hs _ hb => ⟨s, hs, hb⟩

end Registry.Fits

/-! ### Nodes that are passed over -/

namespace Forest

/-- No loaded node is below a node that was passed over. -/
def Sheltered (f : Forest) : Prop :=
  ∀ id, f.shape id ≠ .unloaded → ∀ a ∈ f.lineage id, a ≠ id → ¬ f.IsPassedOver a

/-- What holds of a forest at all times. -/
structure Good (f : Forest) : Prop where
  wellFormed : f.WellFormed
  sound : f.Sound
  sheltered : f.Sheltered

theorem Le.lineage {f g : Forest} (h : f.Le g) (hf : f.WellFormed) (hg : g.WellFormed)
    {id : NodeId} (hid : id < f.size) : g.lineage id = f.lineage id := by
  induction id using Nat.strongRecOn with
  | _ id ih =>
    rw [lineage_eq hf, lineage_eq hg, h.parent_eq id hid]
    split
    · rfl
    next hp =>
      rw [ih _ (Nat.lt_of_le_of_ne (hf.parent_le id) hp) (hf.parent_lt_size hid)]

theorem Le.setShape {f : Forest} {id : NodeId} (h : f.shape id = .unloaded) (hid : id < f.size)
    (s : Shape) : f.Le (f.setShape id s) where
  size_le := Nat.le_of_eq (size_setShape f id s).symm
  kind_eq _ _ := kind_setShape f id s _
  line_eq _ _ := line_setShape f id s _
  parent_eq _ _ := parent_setShape f id s _
  children_eq _ _ := children_setShape f id s _
  shape_eq id' hs := by
    rw [shape_setShape hid]
    split
    next he => exact absurd (he ▸ h) hs
    next => rfl

/-- Giving a node a shape that fits keeps all shapes fitting. -/
theorem Sound.setShape {f : Forest} (hf : f.Sound) (hw : f.WellFormed) {id : NodeId}
    (h : f.shape id = .unloaded) (hid : id < f.size) {s : Shape} (hs : s.Fits f id) :
    (f.setShape id s).Sound := by
  intro id'
  have hle := Le.setShape h hid s
  rw [shape_setShape hid]
  by_cases he : id = id'
  · rw [if_pos he, ← he]
    exact hle.fits hw hid hs
  · rw [if_neg he]
    by_cases hlt : id' < f.size
    · exact hle.fits hw hlt (hf id')
    · rw [shape_of_size_le (Nat.le_of_not_lt hlt)]
      trivial

theorem Sound.of_sprouts {f g : Forest} (hf : f.Sound) (hw : f.WellFormed) (h : f.Sprouts g) :
    g.Sound := by
  intro id
  by_cases hid : id < f.size
  · have hs : g.shape id = f.shape id := by rw [shape, shape, h.old id hid]
    rw [hs]
    exact (Le.of_sprouts h).fits hw hid (hf id)
  · rw [h.unloaded id (Nat.le_of_not_lt hid)]
    trivial

end Forest

/-! ### Loading a tree -/

namespace Workshop

/-- What holds while the new tree of the forest `f` is loaded, once the nodes `seen` are. -/
structure Loads (f : Forest) (inserting : Bool) (root : NodeId) (seen : List NodeId)
    (w : Workshop) : Prop where
  le : f.Le w.forest
  size_eq : w.forest.size = f.size
  wellFormed : w.forest.WellFormed
  sound : w.forest.Sound
  registry : w.registry.Fits w.forest
  old : ∀ id, id < root → w.forest.shape id = f.shape id
  loaded : ∀ id, root ≤ id → (w.forest.shape id ≠ .unloaded ↔ id ∈ seen)
  reached : ∀ id ∈ seen, root ≤ id ∧ id < f.size ∧ f.Reached (isPassedOver f inserting) id
  /-- Only in inserted files anything is passed over. -/
  passedOver : ∀ id, root ≤ id → w.forest.IsPassedOver id → inserting = true ∧ id ∈ w.muted
  /-- Further branches are switched off. -/
  further : ∀ id ∈ seen, (f.kind id).isFurther = true → id ∈ w.muted
  /-- What is switched off is a further branch, or passed over, or the body of a statement. -/
  muted : ∀ id ∈ w.muted, root ≤ id ∧ ((f.kind id).isFurther = true ∨
    w.forest.IsPassedOver id ∨ ∃ k, f.kind (f.parent id) = .keyword k)

/-- How a computation that loads ends: `P` behind a success and `Q` behind a failure, for which a
source is to blame. -/
def Ends (P Q : Workshop → Prop) : EStateM.Result Failure Workshop Unit → Prop
  | .ok _ w => P w
  | .error e w => Q w ∧ e.cause.isOfSource = true

theorem isPassedOver_iff {f : Forest} {inserting : Bool} {id : NodeId} :
    isPassedOver f inserting id = true ↔ inserting = true ∧ f.kind id = .keyword .local_ := by
  rw [isPassedOver, Bool.and_eq_true, NodeKind.isKeyword_iff]

namespace Loads

variable {f : Forest} {inserting : Bool} {root : NodeId} {seen : List NodeId} {w : Workshop}

theorem kind_eq (h : Loads f inserting root seen w) (id : NodeId) :
    w.forest.kind id = f.kind id := by
  by_cases hid : id < f.size
  · exact h.le.kind_eq id hid
  · have hle := Nat.le_of_not_lt hid
    rw [Forest.kind, Forest.kind, Forest.node_of_size_le hle,
      Forest.node_of_size_le (h.size_eq ▸ hle)]

theorem parent_eq (h : Loads f inserting root seen w) (id : NodeId) :
    w.forest.parent id = f.parent id := by
  by_cases hid : id < f.size
  · exact h.le.parent_eq id hid
  · have hle := Nat.le_of_not_lt hid
    rw [Forest.parent, Forest.parent, Forest.node_of_size_le hle,
      Forest.node_of_size_le (h.size_eq ▸ hle)]

theorem unloaded (h : Loads f inserting root seen w) {id : NodeId} (hnew : id ∉ seen)
    (hroot : root ≤ id) : w.forest.shape id = .unloaded :=
  Classical.byContradiction fun hs => hnew ((h.loaded id hroot).mp hs)

/-- The step that gives a node its shape and enters what it mutes. -/
theorem settle (h : Loads f inserting root seen w) {id : NodeId} (hnew : id ∉ seen)
    (hroot : root ≤ id) (hlt : id < f.size) (hreach : f.Reached (isPassedOver f inserting) id)
    {shape : Shape} {registry : Registry} (muted : List NodeId)
    (hfit : shape.Fits w.forest id) (hne : shape ≠ .unloaded)
    (hreg : registry.Fits (w.forest.setShape id shape))
    (hpass : (w.forest.setShape id shape).IsPassedOver id → inserting = true ∧ id ∈ muted)
    (hfurther : (f.kind id).isFurther = true → id ∈ muted)
    (hmuted : ∀ x ∈ muted, root ≤ x ∧ ((f.kind x).isFurther = true ∨
      (w.forest.setShape id shape).IsPassedOver x ∨ ∃ k, f.kind (f.parent x) = .keyword k)) :
    Loads f inserting root (id :: seen)
      ⟨w.forest.setShape id shape, registry, muted ++ w.muted⟩ := by
  have hlt' : id < w.forest.size := h.size_eq ▸ hlt
  have hun := h.unloaded hnew hroot
  have hle := Forest.Le.setShape hun hlt' shape
  -- Only this node changes, so what was known of the others stays.
  have hother : ∀ x, x ≠ id → (w.forest.setShape id shape).shape x = w.forest.shape x := by
    intro x hx
    rw [Forest.shape_setShape hlt', if_neg (Ne.symm hx)]
  constructor
  case le => exact h.le.trans hle
  case size_eq => exact (Forest.size_setShape _ _ _).trans h.size_eq
  case wellFormed => exact h.wellFormed.setShape id shape
  case sound => exact h.sound.setShape h.wellFormed hun hlt' hfit
  case registry => exact hreg
  case old =>
    intro x hx
    exact (hother x (Nat.ne_of_lt (Nat.lt_of_lt_of_le hx hroot))).trans (h.old x hx)
  case loaded =>
    intro x hx
    rw [List.mem_cons]
    by_cases he : x = id
    · subst he
      simp [Forest.shape_setShape hlt', hne]
    · simp only [hother x he, he, false_or]
      exact h.loaded x hx
  case reached =>
    intro x hx
    rcases List.mem_cons.mp hx with rfl | hx
    · exact ⟨hroot, hlt, hreach⟩
    · exact h.reached x hx
  case passedOver =>
    intro x hx hp
    by_cases he : x = id
    · subst he
      exact ⟨(hpass hp).1, List.mem_append_left _ (hpass hp).2⟩
    · have hp' : w.forest.IsPassedOver x := by
        rw [Forest.IsPassedOver, hother x he, Forest.kind_setShape] at hp
        exact hp
      obtain ⟨hi, hm⟩ := h.passedOver x hx hp'
      exact ⟨hi, List.mem_append_right _ hm⟩
  case further =>
    intro x hx hk
    rcases List.mem_cons.mp hx with rfl | hx
    · exact List.mem_append_left _ (hfurther hk)
    · exact List.mem_append_right _ (h.further x hx hk)
  case muted =>
    intro x hx
    rcases List.mem_append.mp hx with hx | hx
    · exact hmuted x hx
    · obtain ⟨hr, hm⟩ := h.muted x hx
      exact ⟨hr, hm.imp_right fun hm => hm.imp_left hle.isPassedOver⟩

theorem register (h : Loads f inserting root seen w) {id : NodeId} (line : Nat) {shape : Shape}
    (hfit : shape.Fits w.forest id) :
    Meets (fun r => r.Fits w.forest) (Workshop.register id line shape w.registry) := by
  unfold Workshop.register
  split
  next g =>
    unfold Registry.declare?
    split
    next r hr =>
      split at hr
      · cases hr
      · cases hr
        refine h.registry.define _ fun g' hg => ?_
        cases hg
        exact hfit.2.2
    · rfl
  · exact h.registry

/-- A `local` statement of an inserted file becomes a leaf that is switched off. -/
theorem passOver (h : Loads f inserting root seen w) {id : NodeId} (hnew : id ∉ seen)
    (hroot : root ≤ id) (hlt : id < f.size) (hreach : f.Reached (isPassedOver f inserting) id)
    (hp : isPassedOver f inserting id = true) : Loads f inserting root (id :: seen)
      { w with forest := w.forest.setShape id .leaf, muted := id :: w.muted } := by
  obtain ⟨hi, hk⟩ := isPassedOver_iff.mp hp
  have hk' : w.forest.kind id = .keyword .local_ := (h.kind_eq id).trans hk
  have hlt' : id < w.forest.size := h.size_eq ▸ hlt
  have hun := h.unloaded hnew hroot
  have hpassed : (w.forest.setShape id .leaf).IsPassedOver id := by
    rw [Forest.IsPassedOver, Forest.kind_setShape, Forest.shape_setShape hlt', if_pos rfl]
    exact ⟨hk', rfl⟩
  refine h.settle hnew hroot hlt hreach [id] (.inr hk') Shape.noConfusion
    (h.registry.mono (.setShape hun hlt' _)) (fun _ => ⟨hi, List.mem_singleton_self _⟩) ?_ ?_
  · intro hf
    rw [hk] at hf
    cases hf
  · intro x hx
    rw [List.mem_singleton.mp hx]
    exact ⟨hroot, .inr (.inl hpassed)⟩

/-- Loading a node behind its children. -/
theorem loadNode (h : Loads f inserting root seen w) {id : NodeId} (hnew : id ∉ seen)
    (hroot : root ≤ id) (hlt : id < f.size) (hreach : f.Reached (isPassedOver f inserting) id)
    (hchildren : isPassedOver f inserting id = false → ∀ c ∈ f.children id, c ∈ seen) :
    Ends (Loads f inserting root (id :: seen)) (Loads f inserting root seen)
      (loadNode inserting id w) := by
  have hkind := h.kind_eq id
  have hlt' : id < w.forest.size := h.size_eq ▸ hlt
  have hpo : isPassedOver w.forest inserting id = isPassedOver f inserting id := by
    rw [isPassedOver, isPassedOver, hkind]
  unfold Workshop.loadNode
  rw [hpo]
  cases hp : isPassedOver f inserting id with
  | true => exact h.passOver hnew hroot hlt hreach hp
  | false =>
    have hloaded : ∀ c ∈ w.forest.children id, w.forest.shape c ≠ .unloaded := by
      intro c hc
      have hc' : c ∈ f.children id := h.le.children_eq id hlt ▸ hc
      have hle : root ≤ c := Nat.le_trans hroot (Nat.le_of_lt (h.wellFormed.lt_of_mem_children hc))
      exact (h.loaded c hle).mpr (hchildren hp c hc')
    have hmeets := Forest.shapeOf_meets h.sound hloaded
    rw [if_neg Bool.false_ne_true]
    cases hshape : w.forest.shapeOf id with
    | error e => exact ⟨h, hmeets.of_eq_error hshape⟩
    | ok shape =>
      obtain ⟨hfit, hne⟩ := hmeets.of_eq_ok hshape
      have hregister := h.register (w.forest.line id) hfit
      dsimp only
      cases hreg : Workshop.register id (w.forest.line id) shape w.registry with
      | error e => exact ⟨h, hregister.of_eq_error hreg⟩
      | ok registry =>
        have hle := Forest.Le.setShape (h.unloaded hnew hroot) hlt' shape
        refine h.settle hnew hroot hlt hreach _ hfit hne ((hregister.of_eq_ok hreg).mono hle)
          ?_ ?_ ?_
        · -- A leaf of this kind could only have been passed over.
          rintro ⟨hk, hs⟩
          rw [Forest.kind_setShape] at hk
          rw [Forest.shape_setShape hlt', if_pos rfl] at hs
          exact absurd (hs ▸ hshape) (Forest.shapeOf_ne_leaf hk)
        · intro hf
          exact hfit.mem_muted hne (hkind ▸ hf)
        · intro x hx
          rcases hfit.of_mem_muted hx with ⟨rfl, hf⟩ | ⟨hc, k, hk⟩
          · exact ⟨hroot, .inl (hkind ▸ hf)⟩
          · obtain ⟨hx, _, hpx⟩ := (h.wellFormed.mem_children id x).mp hc
            rw [h.le.parent_eq x (h.size_eq ▸ hx)] at hpx
            have hle : root ≤ x :=
              Nat.le_trans hroot (Nat.le_of_lt (h.wellFormed.lt_of_mem_children hc))
            exact ⟨hle, .inr (.inr ⟨k, by rw [hpx, ← hkind, hk]⟩)⟩

/-- Nodes to come are new also once the next one has been seen. -/
theorem not_mem_of_nodup {id : NodeId} {rest : List NodeId} (hnodup : (id :: rest).Nodup)
    (hnew : ∀ x ∈ id :: rest, x ∉ seen) : ∀ x ∈ rest, x ∉ id :: seen := by
  intro x hx hm
  rcases List.mem_cons.mp hm with rfl | hm
  · exact (List.nodup_cons.mp hnodup).1 hx
  · exact hnew x (List.mem_cons_of_mem _ hx) hm

/-- Loading nodes in an order in which children come first. -/
theorem loadAll {rest : List NodeId} (h : Loads f inserting root seen w)
    (hnew : ∀ id ∈ rest, id ∉ seen) (hnodup : rest.Nodup)
    (hrest : ∀ id ∈ rest, root ≤ id ∧ id < f.size ∧ f.Reached (isPassedOver f inserting) id)
    (horder : f.ChildrenFirst (isPassedOver f inserting) seen rest) :
    Ends (fun w' => ∃ seen', Loads f inserting root seen' w' ∧ seen ⊆ seen' ∧ rest ⊆ seen')
      (fun w' => ∃ seen', Loads f inserting root seen' w') (loadAll inserting rest w) := by
  induction rest generalizing seen w with
  | nil => exact ⟨seen, h, List.Subset.refl _, List.nil_subset _⟩
  | cons id rest ih =>
    obtain ⟨hroot, hlt, hreach⟩ := hrest id (List.mem_cons_self ..)
    have hnode := h.loadNode (hnew id (List.mem_cons_self ..)) hroot hlt hreach horder.1
    show Ends _ _ (EStateM.bind (Workshop.loadNode inserting id)
      (fun _ => Workshop.loadAll inserting rest) w)
    unfold EStateM.bind
    cases hw : Workshop.loadNode inserting id w with
    | error e w' =>
      rw [hw] at hnode
      exact ⟨⟨seen, hnode.1⟩, hnode.2⟩
    | ok _ w' =>
      -- The node has joined those seen, where the rest may find it as a child.
      rw [hw] at hnode
      have htail := ih hnode (not_mem_of_nodup hnodup hnew) hnodup.of_cons
        (fun x hx => hrest x (List.mem_cons_of_mem _ hx)) horder.2
      dsimp only
      cases hr : Workshop.loadAll inserting rest w' with
      | error e w'' =>
        rw [hr] at htail
        exact htail
      | ok _ w'' =>
        rw [hr] at htail
        obtain ⟨seen', hl, hs, ht⟩ := htail
        refine ⟨seen', hl, fun x hx => hs (List.mem_cons_of_mem _ hx), ?_⟩
        exact List.cons_subset.mpr ⟨hs (List.mem_cons_self ..), ht⟩

/-- The forest stays good: what is loaded has nothing above it that was passed over. -/
theorem good {f₀ : Forest} (h : Loads f inserting f₀.size seen w) (h₀ : f₀.Good)
    (hs : f₀.Sprouts f) : w.forest.Good where
  wellFormed := h.wellFormed
  sound := h.sound
  sheltered id hl a ha hne hp := by
    have hlt : id < f.size := h.size_eq ▸ Forest.lt_size_of_shape hl
    have hle := Forest.Le.of_sprouts hs
    rw [h.le.lineage hs.wellFormed h.wellFormed hlt] at ha
    by_cases hid : id < f₀.size
    · -- An old node: nothing about it or its lineage has changed.
      rw [hle.lineage h₀.wellFormed hs.wellFormed hid] at ha
      have hsame : ∀ x, x < f₀.size → w.forest.shape x = f₀.shape x := by
        intro x hx
        rw [h.old x hx, Forest.shape, hs.old x hx, Forest.shape]
      have ha₀ : a < f₀.size := Nat.lt_of_le_of_lt (Forest.le_of_mem_lineage h₀.wellFormed ha) hid
      refine h₀.sheltered id (hsame id hid ▸ hl) a ha hne ⟨?_, hsame a ha₀ ▸ hp.2⟩
      rw [← hle.kind_eq a ha₀, ← h.le.kind_eq a (Nat.lt_trans ha₀ hs.size_lt)]
      exact hp.1
    · -- A new node: the order of loading has reached it.
      have hroot : f₀.size ≤ id := Nat.le_of_not_lt hid
      obtain ⟨_, _, hreach⟩ := h.reached id ((h.loaded id hroot).mp hl)
      have ha₀ : f₀.size ≤ a := hs.le_of_mem_lineage hroot ha
      have halt : a < f.size := Nat.lt_of_le_of_lt (Forest.le_of_mem_lineage hs.wellFormed ha) hlt
      have hk : f.kind a = .keyword .local_ := (h.kind_eq a).symm.trans hp.1
      have hpass := isPassedOver_iff.mpr ⟨(h.passedOver a ha₀ hp).1, hk⟩
      rw [hreach a ha hne] at hpass
      cases hpass

theorem start (inserting : Bool) {f₀ : Forest} (h₀ : f₀.Good) (hs : f₀.Sprouts f)
    {r : Registry} (hr : r.Fits f₀) : Loads f inserting f₀.size [] ⟨f, r, []⟩ where
  le := .refl f
  size_eq := rfl
  wellFormed := hs.wellFormed
  sound := h₀.sound.of_sprouts h₀.wellFormed hs
  registry := hr.mono (.of_sprouts hs)
  old _ _ := rfl
  loaded id hid := by simp [hs.unloaded id hid]
  reached id hid := by cases hid
  passedOver id hid hp := by
    rw [Forest.IsPassedOver, hs.unloaded id hid] at hp
    exact Shape.noConfusion hp.2
  further id hid := by cases hid
  muted id hid := by cases hid

end Loads

/-- Loading the tree that a source has grown, to its end or to the first failure. -/
theorem load_loads {f₀ f : Forest} (h₀ : f₀.Good) (hs : f₀.Sprouts f) {r : Registry}
    (hr : r.Fits f₀) (inserting : Bool) :
    Ends (fun w => ∃ seen, Loads f inserting f₀.size seen w ∧ f₀.size ∈ seen)
      (fun w => ∃ seen, Loads f inserting f₀.size seen w)
      (load inserting f₀.size ⟨f, r, []⟩) := by
  obtain ⟨horder, hnodup, hmem, hlist⟩ :=
    Forest.postorder_spec hs.wellFormed (isPassedOver f inserting) hs.size_lt hs.parent_root
  have hall := (Loads.start inserting h₀ hs hr).loadAll (fun _ _ => nofun) hnodup hlist horder
  show Ends _ _ (loadAll inserting (f.postorder (isPassedOver f inserting) f₀.size) ⟨f, r, []⟩)
  cases hw : loadAll inserting (f.postorder (isPassedOver f inserting) f₀.size) ⟨f, r, []⟩ with
  | error e w =>
    rw [hw] at hall
    exact hall
  | ok _ w =>
    rw [hw] at hall
    obtain ⟨seen, hl, _, hsub⟩ := hall
    exact ⟨seen, hl, hsub hmem⟩

/-! ### Following a load node by node -/

/-- The workshop that loading leaves behind, however it ends. -/
def left {α : Type} : EStateM.Result Failure Workshop α → Workshop
  | .ok _ w => w
  | .error _ w => w

/-- The step from one workshop to the next while a new tree is loaded: a node whose children have
been loaded is given its shape, or is passed over. -/
structure LoadStep (f : Forest) (inserting : Bool) (root : NodeId) (w w' : Workshop) (id : NodeId)
    (shape : Shape) (muted : List NodeId) : Prop where
  before : ∃ seen, Loads f inserting root seen w
  behind : ∃ seen, Loads f inserting root seen w'
  root_le : root ≤ id
  lt_size : id < w.forest.size
  unloaded : w.forest.shape id = .unloaded
  children : isPassedOver f inserting id = false →
    ∀ c ∈ w.forest.children id, w.forest.shape c ≠ .unloaded
  forest_eq : w'.forest = w.forest.setShape id shape
  muted_eq : w'.muted = muted ++ w.muted
  registry_eq : (w'.registry = w.registry ∧ ∀ fn, shape ≠ .function fn) ∨
    ∃ fn, shape = .function fn ∧ w.registry.get? fn.name = none ∧
      w'.registry = w.registry.define fn.name (.ofFunction (.script fn) (some id))
  shape_eq : (isPassedOver f inserting id = true ∧ shape = .leaf ∧ muted = [id]) ∨
    (isPassedOver f inserting id = false ∧ w.forest.shapeOf id = .ok shape ∧ muted = shape.muted id)

theorem LoadStep.fits {f : Forest} {inserting : Bool} {root : NodeId} {w w' : Workshop}
    {id : NodeId}
    {shape : Shape} {muted : List NodeId} (h : LoadStep f inserting root w w' id shape muted) :
    shape.Fits w.forest id ∧ shape ≠ .unloaded := by
  obtain ⟨seen, hl⟩ := h.before
  rcases h.shape_eq with ⟨hp, rfl, _⟩ | ⟨hp, hs, _⟩
  · exact ⟨.inr ((hl.kind_eq id).trans (isPassedOver_iff.mp hp).2), Shape.noConfusion⟩
  · exact (Forest.shapeOf_meets hl.sound (h.children hp)).of_eq_ok hs

/-- What is declared with a node. -/
theorem register_eq_ok {id : NodeId} {line : Nat} {shape : Shape} {r r' : Registry}
    (h : register id line shape r = .ok r') :
    (∃ fn, shape = .function fn ∧ r.get? fn.name = none ∧
      r' = r.define fn.name (.ofFunction (.script fn) (some id))) ∨
    (r' = r ∧ ∀ fn, shape ≠ .function fn) := by
  unfold register at h
  split at h
  next fn =>
    unfold Registry.declare? at h
    split at h
    next r₁ hr =>
      split at hr
      · cases hr
      next hfree =>
        cases hr
        cases h
        exact .inl ⟨fn, rfl, hfree, rfl⟩
    · cases h
  next hne =>
    cases h
    exact .inr ⟨rfl, hne⟩

/-- A loaded node has been given a shape, or was passed over. -/
theorem loadNode_eq_ok {inserting : Bool} {id : NodeId} {w w' : Workshop} {u : Unit}
    (h : loadNode inserting id w = .ok u w') :
    ∃ shape muted, w'.forest = w.forest.setShape id shape ∧ w'.muted = muted ++ w.muted ∧
      ((w'.registry = w.registry ∧ ∀ fn, shape ≠ .function fn) ∨
        ∃ fn, shape = .function fn ∧ w.registry.get? fn.name = none ∧
          w'.registry = w.registry.define fn.name (.ofFunction (.script fn) (some id))) ∧
      ((isPassedOver w.forest inserting id = true ∧ shape = .leaf ∧ muted = [id]) ∨
        (isPassedOver w.forest inserting id = false ∧ w.forest.shapeOf id = .ok shape ∧
          muted = shape.muted id)) := by
  unfold loadNode at h
  split at h
  next hp =>
    cases h
    exact ⟨.leaf, [id], rfl, rfl, .inl ⟨rfl, fun _ => Shape.noConfusion⟩, .inl ⟨hp, rfl, rfl⟩⟩
  next hp =>
    split at h
    · cases h
    next shape hs =>
      split at h
      · cases h
      next registry hr =>
        cases h
        refine ⟨shape, shape.muted id, rfl, rfl, ?_, .inr ⟨Bool.eq_false_iff.mpr hp, hs, rfl⟩⟩
        exact (register_eq_ok hr).symm

/-- A node that does not load leaves the workshop as it was. -/
theorem loadNode_eq_error {inserting : Bool} {id : NodeId} {w w' : Workshop} {e : Failure}
    (h : loadNode inserting id w = .error e w') : w' = w := by
  unfold loadNode at h
  split at h
  · cases h
  · split at h
    · cases h
      rfl
    · split at h
      · cases h
        rfl
      · cases h

/-- What every step keeps holds behind a load, however it ends. -/
theorem load_induct {f₀ f : Forest} (h₀ : f₀.Good) (hs : f₀.Sprouts f) {r : Registry}
    (hr : r.Fits f₀) (inserting : Bool) {P : Workshop → Prop} (hstart : P ⟨f, r, []⟩)
    (hstep : ∀ w w' id shape muted, LoadStep f inserting f₀.size w w' id shape muted → P w → P w') :
    P (left (load inserting f₀.size ⟨f, r, []⟩)) := by
  obtain ⟨horder, hnodup, _, hlist⟩ :=
    Forest.postorder_spec hs.wellFormed (isPassedOver f inserting) hs.size_lt hs.parent_root
  -- The nodes to come are not among those seen.
  have hall : ∀ rest seen w, Loads f inserting f₀.size seen w → (∀ id ∈ rest, id ∉ seen) →
      rest.Nodup → (∀ id ∈ rest, f₀.size ≤ id ∧ id < f.size ∧
        f.Reached (isPassedOver f inserting) id) →
      f.ChildrenFirst (isPassedOver f inserting) seen rest → P w →
      P (left (loadAll inserting rest w)) := by
    intro rest
    induction rest with
    | nil => exact fun _ _ _ _ _ _ _ hp => hp
    | cons id rest ih =>
      intro seen w h hnew hnodup hmem horder hp
      have hid := hnew id (List.mem_cons_self ..)
      obtain ⟨hroot, hlt, hreach⟩ := hmem id (List.mem_cons_self ..)
      have hnode := h.loadNode hid hroot hlt hreach horder.1
      show P (left (EStateM.bind (loadNode inserting id) (fun _ => loadAll inserting rest) w))
      unfold EStateM.bind
      cases hw : loadNode inserting id w with
      | error e w' =>
        rw [loadNode_eq_error hw]
        exact hp
      | ok u w' =>
        rw [hw] at hnode
        have hpo : isPassedOver w.forest inserting id = isPassedOver f inserting id := by
          rw [isPassedOver, isPassedOver, h.kind_eq]
        obtain ⟨shape, muted, hforest, hmuted, hregistry, hcases⟩ := loadNode_eq_ok hw
        rw [hpo] at hcases
        refine ih (id :: seen) w' hnode (Loads.not_mem_of_nodup hnodup hnew) hnodup.of_cons
          (fun x hx => hmem x (List.mem_cons_of_mem _ hx)) horder.2 ?_
        refine hstep w w' id shape muted ⟨⟨seen, h⟩, ⟨_, hnode⟩, hroot, h.size_eq ▸ hlt,
          h.unloaded hid hroot, fun hpass c hc => ?_, hforest, hmuted, hregistry, hcases⟩ hp
        rw [h.le.children_eq id hlt] at hc
        have hlt' : id < c := hs.wellFormed.lt_of_mem_children hc
        exact (h.loaded c (Nat.le_trans hroot (Nat.le_of_lt hlt'))).mpr (horder.1 hpass c hc)
  exact hall _ [] _ (Loads.start inserting h₀ hs hr) (fun _ _ => nofun) hnodup hlist
    horder hstart

/-- A load that fails has not come to the node that is last. -/
theorem shape_of_loadAll_error {inserting : Bool} {first : List NodeId} {last : NodeId}
    {w w' : Workshop} {e : Failure} (hlast : last ∉ first)
    (h : loadAll inserting (first ++ [last]) w = .error e w') :
    w'.forest.shape last = w.forest.shape last := by
  induction first generalizing w with
  | nil =>
    change EStateM.bind (loadNode inserting last) (fun _ => pure ()) w = _ at h
    unfold EStateM.bind at h
    cases hw : loadNode inserting last w with
    | ok u w₁ =>
      rw [hw] at h
      cases h
    | error e' w₁ =>
      rw [hw] at h
      cases h
      rw [loadNode_eq_error hw]
  | cons id rest ih =>
    have hne : last ≠ id := fun hc => hlast (hc ▸ List.mem_cons_self ..)
    change EStateM.bind (loadNode inserting id)
      (fun _ => loadAll inserting (rest ++ [last])) w = _ at h
    unfold EStateM.bind at h
    cases hw : loadNode inserting id w with
    | ok u w₁ =>
      rw [hw] at h
      obtain ⟨shape, muted, hforest, _⟩ := loadNode_eq_ok hw
      rw [ih (fun hc => hlast (List.mem_cons_of_mem _ hc)) h, hforest, Forest.shape,
        Forest.node_setShape, if_neg fun hc => hne hc.1.symm]
      rfl
    | error e' w₁ =>
      rw [hw] at h
      cases h
      rw [loadNode_eq_error hw]

/-- Where loading fails, the root of the tree is left without a shape. -/
theorem shape_of_load_error {f : Forest} (hf : f.WellFormed) {r : Registry} {inserting : Bool}
    {root : NodeId} (hroot : root < f.size) (hparent : f.parent root = root) {w : Workshop}
    {e : Failure} (h : load inserting root ⟨f, r, []⟩ = .error e w) :
    w.forest.shape root = f.shape root := by
  obtain ⟨_, hnodup, _, _⟩ :=
    Forest.postorder_spec hf (isPassedOver f inserting) hroot hparent
  obtain ⟨n, hn⟩ := Nat.exists_eq_add_one_of_ne_zero (Nat.ne_of_gt (Nat.zero_lt_of_lt hroot))
  obtain ⟨first, hfirst⟩ : ∃ first, f.postorder (isPassedOver f inserting) root =
      first ++ [root] := by
    rw [Forest.postorder, hn]
    cases hp : isPassedOver f inserting root with
    | true => exact ⟨[], Forest.postorder_go_of_leave n hp⟩
    | false => exact ⟨_, Forest.postorder_go_succ n hp⟩
  have hlast : root ∉ first := by
    rw [hfirst] at hnodup
    exact fun hm => (List.nodup_append.mp hnodup).2.2 root hm root (List.mem_singleton_self _) rfl
  change loadAll inserting (f.postorder (isPassedOver f inserting) root) ⟨f, r, []⟩ = _ at h
  rw [hfirst] at h
  exact shape_of_loadAll_error hlast h

/-! ### Reading and loading -/

/-- Reads a source into a forest and loads its tree. -/
def prepare (inserting : Bool) (source : String) (f : Forest) (r : Registry) :
    EStateM.Result Failure Workshop NodeId :=
  match (f.parse source).2 with
  | .error failure => .error failure ⟨(f.parse source).1, r, []⟩
  | .ok root =>
    match load inserting root ⟨(f.parse source).1, r, []⟩ with
    | .ok _ w => .ok root w
    | .error failure w => .error failure w

section Prepare

variable {f : Forest} (h : f.Good) {r : Registry} (hr : r.Fits f) (inserting : Bool)
  (source : String)
include h

section
include hr

/-- What the new tree has before it is loaded, and every step keeps, holds behind reading and
loading, however it ends. -/
theorem prepare_induct {P : Workshop → Prop} (hstart : P ⟨(f.parse source).1, r, []⟩)
    (hstep : ∀ w w' id shape muted,
      LoadStep (f.parse source).1 inserting f.size w w' id shape muted → P w → P w') :
    P (left (prepare inserting source f r)) := by
  have hload := load_induct h (f.parse_sprouts h.wellFormed source) hr inserting hstart hstep
  unfold prepare
  cases hp : (f.parse source).2 with
  | error failure => exact hstart
  | ok root =>
    dsimp only
    rw [← Forest.parse_root h.wellFormed hp] at hload
    cases hw : load inserting root ⟨(f.parse source).1, r, []⟩ with
    | ok _ w => rw [hw] at hload; exact hload
    | error failure w => rw [hw] at hload; exact hload

theorem prepare_loads : ∃ seen, Loads (f.parse source).1 inserting f.size seen
    (left (prepare inserting source f r)) :=
  prepare_induct h hr inserting source
    ⟨[], .start inserting h (Forest.parse_sprouts h.wellFormed source) hr⟩
    fun _ _ _ _ _ hstep _ => hstep.behind

end

/-- If nothing fails, the root of the new tree is loaded. -/
theorem root_of_prepare (hr : r.Fits f) {root : NodeId} {w : Workshop}
    (hw : prepare inserting source f r = .ok root w) :
    root = f.size ∧ w.forest.shape root ≠ .unloaded := by
  have hs := Forest.parse_sprouts h.wellFormed source
  have hl := load_loads h hs hr inserting
  unfold prepare at hw
  cases hp : (f.parse source).2 with
  | error failure =>
    rw [hp] at hw
    cases hw
  | ok root' =>
    rw [hp] at hw
    dsimp only at hw
    rw [Forest.parse_root h.wellFormed hp] at hw
    cases hload : load inserting f.size ⟨(f.parse source).1, r, []⟩ with
    | ok _ w' =>
      rw [hload] at hw hl
      cases hw
      obtain ⟨seen, hloads, hseen⟩ := hl
      exact ⟨rfl, (hloads.loaded _ (Nat.le_refl _)).mpr hseen⟩
    | error failure w' =>
      rw [hload] at hw
      cases hw

/-- If the root of the new tree has been loaded, nothing has failed. -/
theorem prepare_eq_ok
    (hl : (left (prepare inserting source f r)).forest.shape f.size ≠ .unloaded) :
    ∃ w, prepare inserting source f r = .ok f.size w := by
  have hs := Forest.parse_sprouts h.wellFormed source
  have hun := hs.unloaded f.size (Nat.le_refl _)
  unfold prepare at hl ⊢
  cases hp : (f.parse source).2 with
  | error failure =>
    rw [hp] at hl
    exact absurd hun hl
  | ok root =>
    rw [hp] at hl
    dsimp only at hl ⊢
    rw [Forest.parse_root h.wellFormed hp] at hl ⊢
    cases hw : load inserting f.size ⟨(f.parse source).1, r, []⟩ with
    | ok _ w => exact ⟨w, rfl⟩
    | error failure w =>
      rw [hw] at hl
      exact absurd ((shape_of_load_error hs.wellFormed hs.size_lt hs.parent_root hw).trans hun) hl

end Prepare

/-! ### Loading without failure -/

section Finishes

variable {f₀ f : Forest} {Is : NodeId → Prop} {Gets : Forest → NodeId → Prop}
  {Goes : List NodeId → Registry → List NodeId → Prop}

/-- A node that is something can be loaded, if its children have got what they should and it goes
with the nodes still to come, the registry and what is muted so far.  It then gets what it should,
and keeps it while more nodes are loaded. -/
structure Finishes (f : Forest) (Is : NodeId → Prop) (Gets : Forest → NodeId → Prop)
    (Goes : List NodeId → Registry → List NodeId → Prop) : Prop where
  child : ∀ id, Is id → ∀ c ∈ f.children id, Is c
  mono : ∀ g g' id, g.Le g' → Gets g id → Gets g' id
  node : ∀ g id rest r muted, f.Le g → f.Reshaped g → id < f.size → Is id →
    (∀ c ∈ f.children id, Gets g c) → Goes (id :: rest) r muted →
    ∃ shape r', g.shapeOf id = .ok shape ∧ register id (g.line id) shape r = .ok r' ∧
      Goes rest r' (shape.muted id ++ muted) ∧ ∀ g', g.Le g' → g'.shape id = shape → Gets g' id

/-- Loading nodes in an order in which children come first. -/
theorem Finishes.loadAll (h : Finishes f Is Gets Goes) {rest seen : List NodeId} {w : Workshop}
    (hle : f.Le w.forest) (hreshaped : f.Reshaped w.forest) (hseen : ∀ id ∈ seen, Gets w.forest id)
    (hrest : ∀ id ∈ rest, id < f.size ∧ Is id ∧ w.forest.shape id = .unloaded) (hnodup : rest.Nodup)
    (horder : f.ChildrenFirst (isPassedOver f false) seen rest)
    (hgoes : Goes rest w.registry w.muted) :
    ∃ w', Workshop.loadAll false rest w = .ok () w' ∧ w.forest.Le w'.forest ∧
      Goes [] w'.registry w'.muted ∧ ∀ id ∈ rest, Gets w'.forest id := by
  induction rest generalizing seen w with
  | nil => exact ⟨w, rfl, .refl _, hgoes, nofun⟩
  | cons id rest ih =>
    obtain ⟨hlt, his, hun⟩ := hrest id (List.mem_cons_self ..)
    have hlt' : id < w.forest.size := Nat.lt_of_lt_of_le hlt hle.size_le
    obtain ⟨shape, r, hshape, hregister, hnext, hgets⟩ :=
      h.node w.forest id rest w.registry w.muted hle hreshaped hlt his
        (fun c hc => hseen c (horder.1 rfl c hc)) hgoes
    have hset := Forest.Le.setShape hun hlt' shape
    have hnew : Gets (w.forest.setShape id shape) id :=
      hgets _ hset (by rw [Forest.shape_setShape hlt', if_pos rfl])
    -- The node has joined those seen; the others are as they were.
    have hseen' : ∀ x ∈ id :: seen, Gets (w.forest.setShape id shape) x := by
      intro x hx
      rcases List.mem_cons.mp hx with rfl | hx
      · exact hnew
      · exact h.mono _ _ x hset (hseen x hx)
    have hrest' : ∀ x ∈ rest,
        x < f.size ∧ Is x ∧ (w.forest.setShape id shape).shape x = .unloaded := by
      intro x hx
      obtain ⟨hx₁, hx₂, hx₃⟩ := hrest x (List.mem_cons_of_mem _ hx)
      have hne : id ≠ x := fun he => (List.nodup_cons.mp hnodup).1 (he ▸ hx)
      exact ⟨hx₁, hx₂, by rw [Forest.shape_setShape hlt', if_neg hne, hx₃]⟩
    let w₁ : Workshop := ⟨w.forest.setShape id shape, r, shape.muted id ++ w.muted⟩
    have hload : Workshop.loadNode false id w = .ok () w₁ := by
      rw [Workshop.loadNode, isPassedOver, hshape]
      dsimp only
      rw [hregister]
      rfl
    have hle₁ : f.Le w₁.forest := hle.trans hset
    obtain ⟨w', hrun, hle', hgoes', hall⟩ :=
      ih hle₁ (hreshaped.trans (.setShape _ _ _)) hseen' hrest' hnodup.of_cons horder.2 hnext
    refine ⟨w', ?_, hset.trans hle', hgoes', fun x hx => ?_⟩
    · show EStateM.bind (Workshop.loadNode false id) (fun _ => Workshop.loadAll false rest) w = _
      rw [EStateM.bind, hload]
      exact hrun
    · rcases List.mem_cons.mp hx with rfl | hx
      · exact h.mono _ _ x hle' hnew
      · exact hall x hx

/-- A tree whose nodes can all be loaded is loaded to its end. -/
theorem Finishes.load (h : Finishes f Is Gets Goes) (hs : f₀.Sprouts f) {r : Registry}
    (hroot : Is f₀.size) (hgoes : Goes (f.postorder (isPassedOver f false) f₀.size) r []) :
    ∃ w, Workshop.load false f₀.size ⟨f, r, []⟩ = .ok () w ∧ f.Le w.forest ∧
      Goes [] w.registry w.muted ∧
      ∀ id ∈ f.postorder (isPassedOver f false) f₀.size, Gets w.forest id := by
  obtain ⟨horder, hnodup, _, hlist⟩ :=
    Forest.postorder_spec hs.wellFormed (isPassedOver f false) hs.size_lt hs.parent_root
  have hnone : ∀ id ∈ ([] : List NodeId), Gets f id := nofun
  have hrest : ∀ id ∈ f.postorder (isPassedOver f false) f₀.size,
      id < f.size ∧ Is id ∧ f.shape id = .unloaded := by
    intro id hid
    obtain ⟨hle, hlt, _⟩ := hlist id hid
    have his : Is id := Forest.of_mem_postorder_go (fun id hid _ => h.child id hid) hroot hid
    exact ⟨hlt, his, hs.unloaded id hle⟩
  exact h.loadAll (w := ⟨f, r, []⟩) (.refl f) (.refl f) hnone hrest hnodup horder hgoes

/-- A node that is something can be given a shape that mutes nothing, if its children have got what
they should; it then gets what it should, and keeps it while more nodes are loaded. -/
structure Completes (f : Forest) (Is : NodeId → Prop) (Gets : Forest → NodeId → Prop) : Prop where
  child : ∀ id, Is id → ∀ c ∈ f.children id, Is c
  mono : ∀ g g' id, g.Le g' → Gets g id → Gets g' id
  shape : ∀ g id, f.Le g → id < f.size → Is id → (∀ c ∈ f.children id, Gets g c) →
    ∃ shape, g.shapeOf id = .ok shape ∧ shape.muted id = [] ∧
      ∀ g', g.Le g' → g'.shape id = shape → Gets g' id

/-- A shape that mutes nothing declares nothing. -/
theorem Completes.finishes (h : Completes f Is Gets) (r : Registry) :
    Finishes f Is Gets fun _ r' muted => r' = r ∧ muted = [] where
  child := h.child
  mono := h.mono
  node g id rest r' muted hle _ hlt his hchildren hgoes := by
    obtain ⟨rfl, rfl⟩ := hgoes
    obtain ⟨shape, hshape, hmuted, hgets⟩ := h.shape g id hle hlt his hchildren
    have hregister : register id (g.line id) shape r' = .ok r' := by
      cases shape with
      | function g => cases hmuted
      | _ => rfl
    exact ⟨shape, r', hshape, hregister, ⟨rfl, by rw [hmuted, List.append_nil]⟩, hgets⟩

/-- A tree of nodes that complete is loaded to its end, and its root gets what it should. -/
theorem load_completes (hs : f₀.Sprouts f) (r : Registry) (hc : Completes f Is Gets)
    (hroot : Is f₀.size) :
    ∃ g, load false f₀.size ⟨f, r, []⟩ = .ok () ⟨g, r, []⟩ ∧ f.Le g ∧ Gets g f₀.size := by
  obtain ⟨⟨g, r', muted⟩, hload, hle, ⟨hr, hmuted⟩, hgets⟩ :=
    (hc.finishes r).load hs hroot ⟨rfl, rfl⟩
  dsimp only at hr hmuted
  rw [hr, hmuted] at hload
  obtain ⟨_, _, hmem, _⟩ :=
    Forest.postorder_spec hs.wellFormed (isPassedOver f false) hs.size_lt hs.parent_root
  exact ⟨g, hload, hle, hgets _ hmem⟩

end Finishes

end Workshop

end TagLang
