import TagLang.Proofs.Declarations
import TagLang.Proofs.Reloading

/-!
# What a load leaves

A tree is loaded in the order of its nodes, but what is left does not tell the order.  Every node
has the shape that is found for it from the shapes of its children, the functions of the tree are
bound besides what was bound before, and the nodes that the shapes mute are muted (`Workshop.Made`).
-/

namespace TagLang

/-! ### Bound functions -/

/-- A node of the tree at `root` declares what the name is bound to. -/
def Forest.Binds (f : Forest) (root : NodeId) (key : String) (b : Binding) : Prop :=
  ∃ id fn, root ≤ id ∧ f.shape id = .function fn ∧ fn.name = key ∧
    b = .ofFunction (.script fn) (some id)

theorem Forest.Sprouts.not_binds {f₀ f : Forest} (h : f₀.Sprouts f) (key : String) (b : Binding) :
    ¬ f.Binds f₀.size key b := by
  rintro ⟨id, fn, hle, hshape, _⟩
  rw [h.unloaded id hle] at hshape
  cases hshape

/-- A node that gets its shape declares something if the shape is a function. -/
theorem Forest.binds_setShape_iff {f : Forest} {root id : NodeId} (hle : root ≤ id)
    (hlt : id < f.size)
    (hunloaded : f.shape id = .unloaded) (shape : Shape) (key : String) (b : Binding) :
    (f.setShape id shape).Binds root key b ↔ f.Binds root key b ∨
      ∃ fn, shape = .function fn ∧ fn.name = key ∧ b = .ofFunction (.script fn) (some id) := by
  constructor
  · rintro ⟨x, fn, hx, hshape, hkey, hb⟩
    rw [shape_setShape hlt] at hshape
    split at hshape
    next he =>
      subst he
      exact .inr ⟨fn, hshape, hkey, hb⟩
    next => exact .inl ⟨x, fn, hx, hshape, hkey, hb⟩
  · rintro (⟨x, fn, hx, hshape, hkey, hb⟩ | ⟨fn, hshape, hkey, hb⟩)
    · refine ⟨x, fn, hx, ?_, hkey, hb⟩
      rw [shape_setShape hlt, if_neg, hshape]
      rintro rfl
      rw [hunloaded] at hshape
      cases hshape
    · refine ⟨id, fn, hle, ?_, hkey, hb⟩
      rw [shape_setShape hlt, if_pos rfl, hshape]

/-- The registry `r'` has what `r` has and besides the functions of the tree at `root`. -/
structure Registry.Collects (f : Forest) (root : NodeId) (r r' : Registry) : Prop where
  bound : ∀ key b, r'.get? key = some b ↔ r.get? key = some b ∨ f.Binds root key b
  free : ∀ key b, f.Binds root key b → r.get? key = none
  frames : r'.frames = r.frames
  items : r'.items = r.items
  nodup : r.bindings.keys.Nodup → r'.bindings.keys.Nodup

namespace Registry.Collects

variable {f : Forest} {root id : NodeId} {r r' : Registry}

/-- No two nodes declare the same name. -/
theorem eq_of_name_eq (h : Collects f root r r') {a b : NodeId} (ha : root ≤ a) (hb : root ≤ b)
    {fn fn' : Function} (hfn : f.shape a = .function fn) (hfn' : f.shape b = .function fn')
    (hname : fn.name = fn'.name) : a = b := by
  have hbound := (h.bound fn'.name _).mpr (.inr ⟨a, fn, ha, hfn, hname, rfl⟩)
  have hbound' := (h.bound fn'.name _).mpr (.inr ⟨b, fn', hb, hfn', rfl, rfl⟩)
  cases hbound.symm.trans hbound'
  rfl

variable (h : Collects f root r r') (hle : root ≤ id) (hlt : id < f.size)
  (hunloaded : f.shape id = .unloaded)
include h hle hlt hunloaded

theorem pass {shape : Shape} (hshape : ∀ fn, shape ≠ .function fn) :
    Collects (f.setShape id shape) root r r' := by
  have hbinds : ∀ key b, (f.setShape id shape).Binds root key b ↔ f.Binds root key b := by
    intro key b
    rw [Forest.binds_setShape_iff hle hlt hunloaded, or_iff_left]
    rintro ⟨fn, hfn, _⟩
    exact hshape fn hfn
  exact { h with
    bound := fun key b => by rw [hbinds, h.bound]
    free := fun key b hb => h.free key b ((hbinds key b).mp hb) }

theorem declare {fn : Function} (hfree : r'.get? fn.name = none) :
    Collects (f.setShape id (.function fn)) root r
      (r'.define fn.name (.ofFunction (.script fn) (some id))) where
  bound key b := by
    rw [Forest.binds_setShape_iff hle hlt hunloaded, ← or_assoc, ← h.bound, Registry.get?_define]
    split
    next hkey =>
      subst hkey
      simp [hfree, eq_comm]
    next hkey =>
      rw [or_iff_left]
      rintro ⟨fn', hfn, hname, _⟩
      cases hfn
      exact hkey hname
  free key b hb := by
    rcases (Forest.binds_setShape_iff hle hlt hunloaded _ key b).mp hb with hb | ⟨fn', hfn, rfl, _⟩
    · exact h.free key b hb
    · cases hfn
      -- What was bound before the load is bound still.
      rw [Option.eq_none_iff_forall_ne_some] at hfree ⊢
      exact fun b' hb' => hfree b' ((h.bound _ b').mpr (.inl hb'))
  frames := h.frames
  items := h.items
  nodup hr := Table.nodup_keys_insert (h.nodup hr) _ _

end Registry.Collects

/-! ### What a load has made -/

namespace Workshop

/-- What has been loaded of the tree at `root`.  Every shape was found while the children had the
shapes they have, and what the shapes mute is muted. -/
structure Made (f : Forest) (root : NodeId) (r : Registry) (w : Workshop) : Prop
    extends Registry.Collects w.forest root r w.registry where
  reshaped : f.Reshaped w.forest
  old : ∀ id, id < root → w.forest.shape id = f.shape id
  found : ∀ id, root ≤ id → w.forest.shape id ≠ .unloaded →
    ∃ v, f.Reshaped v ∧ v.shapeOf id = .ok (w.forest.shape id) ∧
      ∀ c ∈ f.children id, w.forest.shape c ≠ .unloaded ∧ v.shape c = w.forest.shape c
  muted : ∀ x, x ∈ w.muted ↔ ∃ id, root ≤ id ∧ x ∈ (w.forest.shape id).muted id

namespace Made

variable {f₀ f : Forest} {r : Registry} {w w' : Workshop}

theorem start (hs : f₀.Sprouts f) (r : Registry) : Made f f₀.size r ⟨f, r, []⟩ where
  bound key b := (or_iff_left (hs.not_binds key b)).symm
  free key b h := absurd h (hs.not_binds key b)
  frames := rfl
  items := rfl
  nodup h := h
  reshaped := .refl f
  old _ _ := rfl
  found id hle hloaded := absurd (hs.unloaded id hle) hloaded
  muted x := by
    constructor
    · exact fun h => absurd h List.not_mem_nil
    · rintro ⟨id, hle, hx⟩
      rw [hs.unloaded id hle] at hx
      cases hx

theorem step {root id : NodeId} {shape : Shape} {muted : List NodeId} (h : Made f root r w)
    (hstep : LoadStep f false root w w' id shape muted) : Made f root r w' := by
  have hother : ∀ x, w.forest.shape x ≠ .unloaded → w'.forest.shape x = w.forest.shape x := by
    intro x hx
    refine hstep.shape_of_ne ?_
    rintro rfl
    exact hx hstep.unloaded
  obtain ⟨hfound, rfl⟩ : w.forest.shapeOf id = .ok shape ∧ muted = shape.muted id := by
    rcases hstep.shape_eq with ⟨hpass, _⟩ | ⟨_, hfound, hmuted⟩
    · cases hpass
    · exact ⟨hfound, hmuted⟩
  constructor
  case toCollects =>
    rw [hstep.forest_eq]
    rcases hstep.registry_eq with ⟨hsame, hno⟩ | ⟨fn, rfl, hfree, hdefine⟩
    · rw [hsame]
      exact h.pass hstep.root_le hstep.lt_size hstep.unloaded hno
    · rw [hdefine]
      exact h.declare hstep.root_le hstep.lt_size hstep.unloaded hfree
  case reshaped =>
    rw [hstep.forest_eq]
    exact h.reshaped.trans (.setShape _ _ _)
  case old =>
    intro x hx
    rw [hstep.shape_of_ne (Nat.ne_of_lt (Nat.lt_of_lt_of_le hx hstep.root_le)), h.old x hx]
  case found =>
    intro x hle hx
    by_cases hxid : x = id
    · subst hxid
      refine ⟨w.forest, h.reshaped, ?_, fun c hc => ?_⟩
      · rw [hstep.shape_id, hfound]
      · have hloaded := hstep.children rfl c (by rw [h.reshaped.children]; exact hc)
        rw [hother c hloaded]
        exact ⟨hloaded, rfl⟩
    · -- The children of a loaded node have been loaded, so none of them is the new one.
      rw [hstep.shape_of_ne hxid] at hx ⊢
      obtain ⟨v, hv, hv', hc⟩ := h.found x hle hx
      refine ⟨v, hv, hv', fun c hmem => ?_⟩
      obtain ⟨hloaded, heq⟩ := hc c hmem
      rw [hother c hloaded]
      exact ⟨hloaded, heq⟩
  case muted =>
    intro x
    rw [hstep.muted_eq, List.mem_append, h.muted]
    constructor
    · rintro (hx | ⟨y, hle, hx⟩)
      · exact ⟨id, hstep.root_le, hstep.shape_id.symm ▸ hx⟩
      · -- A node that mutes another one has been loaded.
        have hloaded : w.forest.shape y ≠ .unloaded := by
          intro hy
          rw [hy] at hx
          cases hx
        exact ⟨y, hle, (hother y hloaded).symm ▸ hx⟩
    · rintro ⟨y, hle, hx⟩
      by_cases hy : y = id
      · subst hy
        exact .inl (hstep.shape_id ▸ hx)
      · exact .inr ⟨y, hle, hstep.shape_of_ne hy ▸ hx⟩

theorem load (h₀ : f₀.Good) (hs : f₀.Sprouts f) (hr : r.Fits f₀) :
    Made f f₀.size r (left (load false f₀.size ⟨f, r, []⟩)) :=
  load_induct h₀ hs hr false (start hs r) fun _ _ _ _ _ hstep h => h.step hstep

/-- If the root has its shape, all nodes of the tree have theirs. -/
theorem loaded (h : Made f f₀.size r w) (hs : f₀.Sprouts f)
    (hroot : w.forest.shape f₀.size ≠ .unloaded) {id : NodeId} (hle : f₀.size ≤ id)
    (hlt : id < f.size) : w.forest.shape id ≠ .unloaded := by
  induction id using Nat.strongRecOn with
  | _ id ih =>
    rcases Nat.eq_or_lt_of_le hle with rfl | hgt
    · exact hroot
    · have hparent := hs.parent_lt id hgt hlt
      have hle' := hs.le_parent id hle
      have hloaded := ih _ hparent hle' (Nat.lt_trans hparent hlt)
      obtain ⟨_, _, _, hchildren⟩ := h.found _ hle' hloaded
      have hmem : id ∈ f.children (f.parent id) :=
        (hs.wellFormed.mem_children _ _).mpr ⟨hlt, Nat.ne_of_gt hparent, rfl⟩
      exact (hchildren id hmem).1

end Made

end Workshop

end TagLang
