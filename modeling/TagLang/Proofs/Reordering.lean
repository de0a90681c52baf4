import TagLang.Proofs.Absence
import TagLang.Proofs.LoadResult
import TagLang.Proofs.Pairing

/-!
# The order of declarations

Functions are declared while their source is loaded, and do nothing when they are run.  So a
function may stand anywhere among the statements of a source, before what calls it or behind it
(`Session.runSource_move_function`).  The one place where it matters is inside a chain of branches,
which it would tear apart.

Two sources that differ in the place of one function have trees whose nodes correspond
(`Forest.exists_moved`).  Statements next to the function have other neighbours, but they look for
branches only (`Forest.Moved.neighbours`); the root looks at each statement alone.  So all nodes get
corresponding shapes, though in another order, and no name is declared twice in the second tree
since none is in the first (`Forest.Moved.load_alike`).  From there the runs go in lockstep, where
blocks pass over functions.
-/

namespace TagLang

open Script

/-! ### Neighbours of a statement that has moved -/

namespace Forest

theorem chained_eq {f : Forest} (hf : f.WellFormed) {block id : NodeId} {pre rest : List NodeId}
    (hrow : f.children block = pre ++ id :: rest) :
    f.chained id = rest.head?.filter fun next => (f.kind next).isFurther := by
  rw [chained, siblings_eq hf hrow]
  rfl

/-- A statement that is no branch, and does not stand right before a further one, can be left out:
the others have the same branches for neighbours. -/
theorem neighbours_without {f : Forest} (hf : f.WellFormed) {root c x : NodeId}
    {a b pre post : List NodeId} (hrow : f.children root = a ++ c :: b)
    (hc : (f.kind c).isFurther = false) (hnext : f.chained c = none)
    (hcut : a ++ b = pre ++ x :: post) :
    f.chained x = post.head?.filter (fun next => (f.kind next).isFurther) ∧
      ((f.kind x).isFurther = true → (f.siblings x).1 = pre.getLast?) := by
  rw [chained_eq hf hrow] at hnext
  have hbehind : (∃ d, pre = a ++ d ∧ b = d ++ x :: post) ∨
      ∃ d, a = pre ++ x :: d ∧ post = d ++ b := by
    rcases List.append_eq_append_iff.mp hcut with ⟨d, hpre, hb⟩ | ⟨d, ha, hd⟩
    · exact .inl ⟨d, hpre, hb⟩
    · cases d with
      | nil => exact .inl ⟨[], by simp [ha], hd.symm⟩
      | cons y d =>
        cases hd
        exact .inr ⟨d, ha, rfl⟩
  rcases hbehind with ⟨d, rfl, rfl⟩ | ⟨d, rfl, rfl⟩
  · have hrow' : f.children root = (a ++ c :: d) ++ x :: post := by
      rw [hrow, List.append_assoc, List.cons_append]
    refine ⟨chained_eq hf hrow', fun hx => ?_⟩
    rw [siblings_eq hf hrow']
    cases d with
    | nil =>
      -- It would be the further branch right behind.
      rw [List.nil_append, List.head?_cons, Option.filter_some, if_pos hx] at hnext
      cases hnext
    | cons y d => rw [List.getLast?_append, List.getLast?_append, List.getLast?_cons_cons]
  · have hrow' : f.children root = pre ++ x :: (d ++ c :: b) := by
      rw [hrow, List.append_assoc, List.cons_append]
    refine ⟨?_, fun _ => by rw [siblings_eq hf hrow']⟩
    rw [chained_eq hf hrow']
    cases d with
    | nil =>
      have hnone : (some c).filter (fun next => (f.kind next).isFurther) = none := by
        rw [Option.filter_some, hc, if_neg Bool.false_ne_true]
      exact hnone.trans hnext.symm
    | cons y d => rfl

/-- Statements around one that may move have the same branches for neighbours, if the one that moves
is no branch and stands right before no further branch in either row. -/
theorem Skeleton.neighbours_of_rows {κ : Correspondence} {f g : Forest} (h : Skeleton κ f g)
    {root root' c id : NodeId} {a b a' b' : List NodeId} (hrow : f.children root = a ++ c :: b)
    (hrow' : g.children root' = (a' ++ c :: b').map κ.node) (hcut : a ++ b = a' ++ b')
    (hc : (f.kind c).isFurther = false) (hnext : f.chained c = none)
    (hnext' : g.chained (κ.node c) = none) (hid : id ∈ a ++ b) : Neighbours κ f g id := by
  rw [List.map_append, List.map_cons] at hrow'
  obtain ⟨pre, post, hsplit⟩ := List.append_of_mem hid
  have hsplit' : a'.map κ.node ++ b'.map κ.node =
      pre.map κ.node ++ κ.node id :: post.map κ.node := by
    rw [← List.map_append, ← hcut, hsplit, List.map_append, List.map_cons]
  have hc' : (g.kind (κ.node c)).isFurther = false := by
    rw [h.kind]
    exact hc
  -- Both rows are compared with the row without the statement that moves.
  obtain ⟨hchained, hbefore⟩ := neighbours_without h.source hrow hc hnext hsplit
  obtain ⟨hchained', hbefore'⟩ := neighbours_without h.target hrow' hc' hnext' hsplit'
  constructor
  case chained =>
    rw [hchained, hchained', List.head?_map, Option.filter_map]
    congr 2
    funext x
    rw [Function.comp_apply, h.kind]
  case follows =>
    intro hfurther k line line' hl
    apply h.checkFollows_of_siblings _ k hl
    rw [hbefore hfurther, hbefore' (by rw [h.kind]; exact hfurther), List.getLast?_map]

theorem Moved.neighbours {κ : Correspondence} {f₀ f g : Forest} {c : NodeId} (h : Moved κ f₀ f g c)
    (hc : (f.kind c).isFurther = false) (hnext : f.chained c = none)
    (hnext' : g.chained (κ.node c) = none) {id : NodeId} (hid : id ≠ f₀.size) (hlt : id < f.size) :
    Neighbours κ f g id := by
  by_cases hp : f.parent id = f₀.size
  · have hmem : id ∈ f.children f₀.size := (h.source.mem_children _ _).mpr ⟨hlt, hid, hp⟩
    have hrows := h.row f₀.size
    rw [h.root] at hrows
    generalize hr : f.children f₀.size = r at hrows hmem
    generalize hr' : g.children f₀.size = r' at hrows
    cases hrows with
    | same =>
      apply h.neighbours_of_siblings (h.siblings_of_row _)
      rw [hp, h.root, hr, hr']
    | @moved a b a' b' c' hloose hcut =>
      obtain rfl := (h.loose_iff c').mp hloose
      by_cases he : id = c'
      · subst he
        constructor
        case chained => rw [hnext, hnext', Option.map_none]
        case follows => exact fun hfurther => absurd (hc.symm.trans hfurther) Bool.false_ne_true
      · apply h.neighbours_of_rows hr hr' hcut hc hnext hnext'
        simp only [List.mem_append, List.mem_cons, he, false_or] at hmem ⊢
        exact hmem
  · -- Below the statements, rows are the same.
    exact h.neighbours_of_siblings (h.siblings_of_row (h.children_eq _ hp))

end Forest

/-! ### Loading with the function elsewhere -/

namespace Forest

/-- A further branch that gets a shape stands behind a branch. -/
theorem follows_of_shapeOf {f : Forest} {id : NodeId} {s : Shape}
    (hk : (f.kind id).isFurther = true) (h : f.shapeOf id = .ok s) : f.Follows id := by
  have hfollows : ∀ k line, f.checkFollows k id line = .ok () → f.Follows id :=
    fun k line hcheck => (checkFollows_meets k line).of_eq_ok hcheck
  simp only [NodeKind.isFurther, Bool.or_eq_true, NodeKind.isKeyword_iff] at hk
  rcases hk with hk | hk
  · simp only [shapeOf, hk, keywordShape] at h
    obtain ⟨_, hcheck, _⟩ := Except.bind_eq_ok_iff.mp h
    exact hfollows _ _ hcheck
  · simp only [shapeOf, hk, keywordShape] at h
    obtain ⟨_, hcheck, _⟩ := Except.bind_eq_ok_iff.mp h
    exact hfollows _ _ hcheck

theorem eq_function_of_shapeOf {f : Forest} {id : NodeId} {s : Shape}
    (hk : f.kind id = .keyword .function) (h : f.shapeOf id = .ok s) : ∃ fn, s = .function fn := by
  simp only [shapeOf, hk, keywordShape, functionShape] at h
  split at h
  · split at h
    · split at h
      · obtain ⟨_, _, hs⟩ := Except.map_eq_ok_iff.mp h
        exact ⟨_, hs.symm⟩
      · cases h
    · cases h
  · cases h

namespace Moved

variable {κ : Correspondence} {f₀ f g : Forest} {c : NodeId} (h : Moved κ f₀ f g c)
include h

/-- What gets a shape in the first forest gets a corresponding one in the second. -/
theorem exists_shape (hn : ∀ id, id ≠ f₀.size → id < f.size → Neighbours κ f g id) {v v' : Forest}
    (hv : f.Reshaped v) (hv' : g.Reshaped v') {id : NodeId} (hlt : id < f.size)
    (hs : Shaped κ v v' (f.children id)) {s : Shape} (hfound : v.shapeOf id = .ok s) :
    ∃ t, v'.shapeOf (κ.node id) = .ok t ∧ Shape.Alike κ s t := by
  have hskeleton := h.reshape hv hv'
  by_cases hid : id = f₀.size
  · -- The root asks of its statements only that each is one.
    subst hid
    have hkind : v.kind f₀.size = .block := (hv.kind _).trans h.left.kind_root
    have hkind' : v'.kind f₀.size = .block := (hv'.kind _).trans h.right.kind_root
    simp only [shapeOf, hkind, hv.children] at hfound
    obtain ⟨rfl, hall⟩ := blockShape_eq_ok_iff.mp hfound
    refine ⟨.block, ?_, .block⟩
    rw [h.root]
    simp only [shapeOf, hkind', hv'.children]
    refine blockShape_eq_ok_iff.mpr ⟨rfl, fun y hy => ?_⟩
    have hrow := h.row f₀.size
    rw [h.root] at hrow
    obtain ⟨x, hx, rfl⟩ := hrow.exists_of_mem hy
    have hcheck := hskeleton.checkStatement (hs x hx)
    rw [hall x hx] at hcheck
    obtain ⟨_, hok, _⟩ := hcheck.exists_ok
    exact hok
  · have hrow : v'.children (κ.node id) = (v.children id).map κ.node := by
      rw [hv'.children, hv.children, h.children_eq id hid]
    have hshape := hskeleton.shapeOf hrow (by rw [hv.children]; exact hs)
      ((hn id hid hlt).reshape hv hv')
    rw [hfound] at hshape
    exact hshape.exists_ok

end Moved

end Forest

/-- Corresponding shapes declare the same function. -/
theorem Shape.Alike.declares_eq {κ : Correspondence} {s t : Shape} (h : Shape.Alike κ s t) :
    t.declares = s.declares := by
  cases h <;> rfl

theorem Shape.eq_function_of_mem_declares {s : Shape} {d : String × List String}
    (h : d ∈ s.declares) : ∃ fn, s = .function fn ∧ fn.name = d.1 := by
  cases s with
  | function fn =>
    rw [List.mem_singleton.mp h]
    exact ⟨fn, rfl, rfl⟩
  | _ => cases h

/-- The functions of the nodes still to come are not bound yet. -/
structure Registry.Awaits (κ : Correspondence) (root : NodeId) (f : Forest) (rest : List NodeId)
    (q : Registry) : Prop where
  nodup : rest.Nodup
  free : ∀ id fn, root ≤ id → κ.node id ∈ rest → f.shape id = .function fn → q.get? fn.name = none

theorem Registry.Awaits.register {κ : Correspondence} {f : Forest} {root id : NodeId}
    {r q : Registry}
    {w : Workshop} {rest : List NodeId} (h : q.Awaits κ root w.forest (κ.node id :: rest))
    (hw : Workshop.Made f root r w) (hid : root ≤ id) {t : Shape}
    (ht : Shape.Alike κ (w.forest.shape id) t) (line : Nat) :
    ∃ q', Workshop.register (κ.node id) line t q = .ok q' ∧ q'.Awaits κ root w.forest rest := by
  obtain ⟨hnew, hnodup⟩ := List.nodup_cons.mp h.nodup
  have hfree : ∀ d ∈ t.declares, q.get? d.1 = none := by
    intro d hd
    rw [ht.declares_eq] at hd
    obtain ⟨fn, hfn, hname⟩ := Shape.eq_function_of_mem_declares hd
    rw [← hname]
    exact h.free id fn hid (List.mem_cons_self ..) hfn
  obtain ⟨q', hregister, _, hother⟩ := Workshop.register_of_unbound hfree (κ.node id) line
  refine ⟨q', hregister, hnodup, fun x fn' hx hmem hfn' => ?_⟩
  rw [hother]
  · exact h.free x fn' hx (List.mem_cons_of_mem _ hmem) hfn'
  · intro hdeclared
    obtain ⟨d, hd, hname'⟩ := List.mem_map.mp hdeclared
    rw [ht.declares_eq] at hd
    obtain ⟨fn, hfn, hname⟩ := Shape.eq_function_of_mem_declares hd
    obtain rfl := hw.eq_of_name_eq hid hx hfn hfn' (hname.trans hname')
    exact hnew hmem

theorem Shape.Alike.ne_unloaded {κ : Correspondence} {s t : Shape} (h : Shape.Alike κ s t)
    (hs : s ≠ .unloaded) : t ≠ .unloaded := by
  rintro rfl
  cases h
  exact hs rfl

namespace Forest.Moved

variable {κ : Correspondence} {f₀ f g : Forest} {c : NodeId} (h : Moved κ f₀ f g c) {r : Registry}
  {w w' : Workshop}

section Loading

variable (hw : Workshop.Made f f₀.size r w) (hroot : w.forest.shape f₀.size ≠ .unloaded)
include h hw hroot

/-- Since the first tree has been loaded, no further branch follows the function there. -/
theorem chained_eq_none (hk : f.kind c = .keyword .function) : f.chained c = none := by
  obtain ⟨a, b, hrow⟩ := List.append_of_mem h.statement
  rw [chained_eq h.source hrow, Option.filter_eq_none_iff]
  intro d hd hfurther
  obtain ⟨b, rfl⟩ := List.head?_eq_some_iff.mp hd
  have hrow' : f.children f₀.size = (a ++ [c]) ++ d :: b := by
    rw [hrow, List.append_assoc, List.singleton_append]
  have hmem : d ∈ f.children f₀.size := by
    rw [hrow']
    exact List.mem_append_right _ (List.mem_cons_self ..)
  have hle := Nat.le_of_lt (h.source.lt_of_mem_children hmem)
  obtain ⟨v, hv, hfound, _⟩ :=
    hw.found d hle (hw.loaded h.left hroot hle ((h.source.mem_children _ _).mp hmem).1)
  obtain ⟨before, hbefore, hkind⟩ := follows_of_shapeOf (by rw [hv.kind]; exact hfurther) hfound
  rw [hv.siblings, siblings_eq h.source hrow', List.getLast?_concat] at hbefore
  cases hbefore
  rw [hv.kind, hk] at hkind
  cases hkind

/-- The second tree can be loaded node by node, in its own order. -/
theorem finishes (hn : ∀ id, id ≠ f₀.size → id < f.size → Neighbours κ f g id) :
    Workshop.Finishes g (fun y => f₀.size ≤ y)
    (fun g' y => ∃ x, κ.node x = y ∧ w.forest.shape x ≠ .unloaded ∧
      Shape.Alike κ (w.forest.shape x) (g'.shape y))
    (fun rest q _ => q.Awaits κ f₀.size w.forest rest) where
  child y hy d hd := Nat.le_trans hy (Nat.le_of_lt (h.target.lt_of_mem_children hd))
  mono g' g'' y hle := by
    rintro ⟨x, hxy, hloaded, halike⟩
    refine ⟨x, hxy, hloaded, ?_⟩
    rw [hle.shape_eq y (halike.ne_unloaded hloaded)]
    exact halike
  node g' y rest q muted _ hg' hlt hy hchildren hgoes := by
    obtain ⟨x, rfl⟩ := h.onto y
    have hx : f₀.size ≤ x := (h.le_iff x).mp hy
    have hxlt : x < f.size := h.lt_iff.mp hlt
    have hloaded := hw.loaded h.left hroot hx hxlt
    obtain ⟨v, hv, hfound, hbelow⟩ := hw.found x hx hloaded
    have hshaped : Shaped κ v g' (f.children x) := by
      intro d hd
      obtain ⟨d', hd', _, halike⟩ := hchildren (κ.node d) (h.mem_children_iff.mpr hd)
      obtain rfl := κ.injective _ _ hd'
      rw [(hbelow d' hd).2]
      exact halike
    obtain ⟨t, ht, halike⟩ := h.exists_shape hn hv hg' hxlt hshaped hfound
    obtain ⟨q', hregister, hnext⟩ := hgoes.register hw hx halike (g'.line (κ.node x))
    refine ⟨t, q', ht, hregister, hnext, fun g'' _ hshape => ⟨x, rfl, hloaded, ?_⟩⟩
    rw [hshape]
    exact halike

theorem exists_load (hn : ∀ id, id ≠ f₀.size → id < f.size → Neighbours κ f g id) :
    ∃ w', Workshop.load false f₀.size ⟨g, r, []⟩ = .ok () w' ∧
      ∀ id, f₀.size ≤ id → id < f.size →
        Shape.Alike κ (w.forest.shape id) (w'.forest.shape (κ.node id)) := by
  have hstart : r.Awaits κ f₀.size w.forest
      (g.postorder (Workshop.isPassedOver g false) f₀.size) := by
    obtain ⟨_, hnodup, _, _⟩ := postorder_spec h.target (Workshop.isPassedOver g false)
      h.right.size_lt h.right.parent_root
    exact ⟨hnodup, fun id fn hid _ hfn => hw.free _ _ ⟨id, fn, hid, hfn, rfl, rfl⟩⟩
  obtain ⟨w', hload, _, _, hgets⟩ :=
    (h.finishes hw hroot hn).load h.right (Nat.le_refl _) hstart
  refine ⟨w', hload, fun id hid hlt => ?_⟩
  have hmem : κ.node id ∈ g.postorder (fun _ => false) f₀.size :=
    (h.right.mem_postorder_iff _).mpr ⟨(h.le_iff id).mpr hid, h.lt_iff.mpr hlt⟩
  obtain ⟨x, hx, _, halike⟩ := hgets _ hmem
  obtain rfl := κ.injective _ _ hx
  exact halike

/-- Behind both loads, the forests are alike. -/
theorem forest_alike (hold : ∀ id, ∀ x ∈ (f₀.shape id).nodes, x < f₀.size)
    (hk : f.kind c = .keyword .function) (hw' : Workshop.Made g f₀.size r w')
    (hshapes : ∀ id, f₀.size ≤ id → id < f.size →
      Shape.Alike κ (w.forest.shape id) (w'.forest.shape (κ.node id))) :
    Forest.Alike κ w.forest w'.forest where
  toSkeleton := h.reshape hw.reshaped hw'.reshaped
  shape id := by
    rcases Nat.lt_or_ge id f₀.size with hid | hid
    · -- Old nodes name old nodes only.
      have hself : (f₀.shape id).rename κ.node = f₀.shape id :=
        Shape.rename_eq_self fun x hx => h.old x (hold id x hx)
      have halike := Shape.Alike.of_rename κ (f₀.shape id)
      rw [hself] at halike
      rw [h.old id hid, hw.old id hid, hw'.old id hid, Forest.shape, Forest.shape,
        h.left.old id hid, h.right.old id hid]
      exact halike
    · rcases Nat.lt_or_ge id f.size with hlt | hge
      · exact hshapes id hid hlt
      · have hge' : g.size ≤ κ.node id :=
          Nat.not_lt.mp fun hlt => Nat.not_lt.mpr hge (h.lt_iff.mp hlt)
        rw [Forest.shape, Forest.shape, node_of_size_le (hw.reshaped.size_eq ▸ hge),
          node_of_size_le (hw'.reshaped.size_eq ▸ hge')]
        exact .unloaded
  loose d hd := by
    rw [(h.loose_iff d).mp hd]
    obtain ⟨hlt, _, _⟩ := (h.source.mem_children _ _).mp h.statement
    have hle := Nat.le_of_lt (h.source.lt_of_mem_children h.statement)
    obtain ⟨v, hv, hfound, _⟩ := hw.found c hle (hw.loaded h.left hroot hle hlt)
    exact eq_function_of_shapeOf ((hv.kind c).trans hk) hfound

end Loading

/-- What is declared in one forest is declared in the other. -/
theorem binds_alike (h : Moved κ f₀ f g c) {f₁ g₁ : Forest} (hforest : Forest.Alike κ f₁ g₁)
    (key : String) :
    (∀ b, f₁.Binds f₀.size key b → g₁.Binds f₀.size key (b.rename κ.node)) ∧
      ∀ b', g₁.Binds f₀.size key b' → ∃ b, f₁.Binds f₀.size key b := by
  constructor
  · rintro b ⟨id, fn, hid, hshape, hname, rfl⟩
    have halike := hforest.shape id
    rw [hshape] at halike
    generalize ht : g₁.shape (κ.node id) = t at halike
    cases halike
    exact ⟨κ.node id, fn.rename κ.node, (h.le_iff id).mpr hid, ht, hname, rfl⟩
  · rintro b' ⟨y, fn', hy, hshape, hname, rfl⟩
    obtain ⟨id, rfl⟩ := h.onto y
    have halike := hforest.shape id
    rw [hshape] at halike
    generalize hs : f₁.shape id = s at halike
    cases halike with
    | function fn => exact ⟨_, id, fn, (h.le_iff id).mp hy, hs, hname, rfl⟩

section Loaded

variable (hw : Workshop.Made f f₀.size r w) (hw' : Workshop.Made g f₀.size r w')
  (hforest : Forest.Alike κ w.forest w'.forest)
include h hw hw' hforest

/-- Behind both loads, the same names are bound, and to the same things. -/
theorem registry_alike
    (hself : Registry.Alike (Binding.Renamed κ.node w.forest.size) r r) :
    Registry.Alike (Binding.Renamed κ.node w.forest.size) w.registry w'.registry where
  nodup := ⟨hw.nodup hself.nodup.1, hw'.nodup hself.nodup.1⟩
  get? key := by
    obtain ⟨hthere, hback⟩ := h.binds_alike hforest key
    cases hb : w.registry.get? key with
    | none =>
      have hnone : ∀ b, w.registry.get? key ≠ some b := Option.eq_none_iff_forall_ne_some.mp hb
      have hnone' : w'.registry.get? key = none := by
        rw [Option.eq_none_iff_forall_ne_some]
        intro b' hb'
        rcases (hw'.bound key b').mp hb' with hold | hnew
        · exact hnone b' ((hw.bound key b').mpr (.inl hold))
        · obtain ⟨b, hbinds⟩ := hback b' hnew
          exact hnone b ((hw.bound key b).mpr (.inr hbinds))
      rw [hnone']
      exact .none
    | some b =>
      rcases (hw.bound key b).mp hb with hold | hnew
      · have hrel := hself.get? key
        rw [hold] at hrel
        rw [(hw'.bound key b).mpr (.inl hold)]
        exact hrel
      · rw [(hw'.bound key _).mpr (.inr (hthere b hnew))]
        obtain ⟨id, fn, _, hshape, _, rfl⟩ := hnew
        have hlt : id < w.forest.size := by
          apply lt_size_of_shape
          rw [hshape]
          exact Shape.noConfusion
        refine .some ⟨rfl, fun x hx => ?_⟩
        cases hx
        exact hlt
  frames := by
    rw [hw.frames, hw'.frames]
    exact hself.frames
  items := by
    rw [hw.items, hw'.items]
    exact hself.items

theorem muted_alike (id : NodeId) : κ.node id ∈ w'.muted ↔ id ∈ w.muted := by
  have hsame : ∀ x, κ.node id ∈ (w'.forest.shape (κ.node x)).muted (κ.node x) ↔
      id ∈ (w.forest.shape x).muted x := by
    intro x
    rw [(hforest.shape x).muted]
    exact List.mem_map_of_injective fun a b => κ.injective a b
  rw [hw.muted, hw'.muted]
  constructor
  · rintro ⟨y, hy, hmem⟩
    obtain ⟨x, rfl⟩ := h.onto y
    exact ⟨x, (h.le_iff x).mp hy, (hsame x).mp hmem⟩
  · rintro ⟨x, hx, hmem⟩
    exact ⟨κ.node x, (h.le_iff x).mpr hx, (hsame x).mpr hmem⟩

end Loaded

end Forest.Moved

/-- A tree with a function at another place is loaded as well, if no further branch follows the
function there, and what is left is the same. -/
theorem Forest.Moved.load_alike {κ : Correspondence} {f₀ f g : Forest} {c : NodeId}
    (h : Moved κ f₀ f g c) (h₀ : f₀.Good) {r : Registry} (hr : r.Fits f₀)
    (hself : Registry.Alike (Binding.Renamed κ.node f.size) r r)
    (hk : f.kind c = .keyword .function) (hnext : g.chained (κ.node c) = none) {w : Workshop}
    (hload : Workshop.load false f₀.size ⟨f, r, []⟩ = .ok () w) :
    ∃ w', Workshop.load false f₀.size ⟨g, r, []⟩ = .ok () w' ∧ Workshop.Alike κ 0 w w' := by
  have hroot : w.forest.shape f₀.size ≠ .unloaded := by
    have hloads := Workshop.load_loads h₀ h.left hr false
    rw [hload] at hloads
    obtain ⟨_, hw, hmem⟩ := hloads
    exact (hw.loaded _ (Nat.le_refl _)).mpr hmem
  have hw : Workshop.Made f f₀.size r w := by
    have hmade := Workshop.Made.load h₀ h.left hr
    rw [hload] at hmade
    exact hmade
  have hn : ∀ id, id ≠ f₀.size → id < f.size → Neighbours κ f g id := by
    intro id
    apply h.neighbours
    · rw [hk]
      rfl
    · exact h.chained_eq_none hw hroot hk
    · exact hnext
  obtain ⟨w', hload', hshapes⟩ := h.exists_load hw hroot hn
  have hw' : Workshop.Made g f₀.size r w' := by
    have hmade := Workshop.Made.load h₀ h.right hr
    rw [hload'] at hmade
    exact hmade
  have hold : ∀ id, ∀ x ∈ (f₀.shape id).nodes, x < f₀.size :=
    fun id => Sound.nodes_shape h₀.wellFormed (h₀.sound id)
  have hforest := h.forest_alike hw hroot hold hk hw' hshapes
  refine ⟨w', hload', ?_⟩
  constructor
  case forest => exact hforest
  case floor => exact Nat.zero_le _
  case muted => exact h.muted_alike hw hw' hforest
  case registry =>
    rw [← hw.reshaped.size_eq] at hself
    exact h.registry_alike hw hw' hforest hself

/-! ### Sources -/

/-- The source is read as these statements, lines aside. -/
def Forest.Reads (f : Forest) (text : String) (statements : List Tree) : Prop :=
  (f.parse text).2 = .ok f.size ∧ (f.parse text).1.Bears f.size (.node .block statements) f.size

/-- Every source that can be read is read as some statements. -/
theorem Forest.exists_reads {f : Forest} (hf : f.WellFormed) {text : String} {root : NodeId}
    (h : (f.parse text).2 = .ok root) : ∃ statements, f.Reads text statements := by
  have hs := parse_sprouts hf text
  obtain ⟨t, ht⟩ := exists_bears hs.wellFormed (Nat.le_refl f.size) hs.size_lt
  have hkind : t.kind = .block := ht.stands.kind_eq.symm.trans hs.kind_root
  cases t with
  | node kind statements =>
    cases hkind
    exact ⟨statements, by rw [h, parse_root hf h], ht⟩

/-- A script in writing is read as its statements. -/
theorem Forest.reads_text (f : Forest) (script : List Statement) :
    f.Reads (text script) (Statement.passageAll script).trees := by
  obtain ⟨g, hparse, hbears⟩ := f.parse_text script
  rw [Reads, hparse]
  exact ⟨rfl, hbears⟩

/-- The stop, wherever it has happened. -/
def Stop.unplaced : Stop → Stop
  | .failed failure => .failed { failure with line := 0 }
  | .outOfFuel => .outOfFuel

theorem Stop.Alike.unplaced_eq {κ : Correspondence} {s s' : Stop} (h : Stop.Alike κ s s') :
    s'.unplaced = s.unplaced := by
  cases h with
  | failed h => simp only [unplaced, h.cause]
  | outOfFuel => rfl

theorem Workshop.load_of_prepare {f : Forest} {r : Registry} {text : String} {root : NodeId}
    {w : Workshop} (h : prepare false text f r = .ok root w) :
    load false root ⟨(f.parse text).1, r, []⟩ = .ok () w := by
  unfold prepare at h
  cases hp : (f.parse text).2 with
  | error failure =>
    rw [hp] at h
    cases h
  | ok root' =>
    rw [hp] at h
    dsimp only at h
    cases hl : load false root' ⟨(f.parse text).1, r, []⟩ with
    | error failure w' =>
      rw [hl] at h
      cases h
    | ok _ w' =>
      rw [hl] at h
      cases h
      exact hl

namespace Session

open Machine

/-- How a run has ended, as far as can be told from outside: what has stopped it, lines aside, what
is left of the input and what has been written, how many names are bound, and to what. -/
structure Ending where
  stop : Option Stop
  console : Console
  bound : Nat
  visible : String → Option Binding

def ending (result : EStateM.Result Stop Machine Unit) : Ending :=
  let leave (stop : Option Stop) (m : Machine) : Ending :=
    ⟨stop, m.console, m.registry.size, fun name => (m.registry.get? name).map Binding.anonymous⟩
  match result with
  | .ok _ m => leave none m
  | .error stop m => leave (some stop.unplaced) m

theorem ending_eq {κ : Correspondence} {n : Nat} {x y : EStateM.Result Stop Machine Unit}
    (h : EndAlike (Stop.Alike κ) (Machine.Alike κ n) Eq x y) : ending y = ending x := by
  cases h with
  | ok _ hs => simp only [ending, hs.console, hs.registry.size_eq, hs.registry.visible_eq]
  | error he hs =>
    simp only [ending, he.unplaced_eq, hs.console, hs.registry.size_eq, hs.registry.visible_eq]

variable {w : World} {m : Machine}

/-- Settling down with corresponding trees, the machine corresponds to itself. -/
theorem Reachable.settle_alike (hm : Reachable w m) {κ : Correspondence} {f g : Forest} {c : NodeId}
    (h : Forest.Moved κ m.forest f g c) {v v' : Workshop} (hv : Workshop.Alike κ 0 v v') :
    Machine.Alike κ 0 (m.update (Situation.settle v)) (m.update (Situation.settle v')) where
  forest := hv.forest
  floor := Nat.zero_le _
  registry := hv.registry
  switches id := by
    obtain ⟨_, _, hevolves⟩ := hm.evolves
    have hon : m.switches.isOn (κ.node id) = m.switches.isOn id := by
      rcases Nat.lt_or_ge id m.forest.size with hid | hid
      · rw [h.old id hid]
      · -- No new node has been switched off yet.
        rw [hevolves.sane.on id hid, hevolves.sane.on _ ((h.le_iff id).mpr hid)]
    show (m.switches.turnOff v'.muted).isOn (κ.node id) = (m.switches.turnOff v.muted).isOn id
    simp only [Switches.isOn_turnOff, hon, hv.muted]
  console := rfl
  baseDir := rfl
  inserting := rfl
  inserted path := by
    show m.inserted.get? path = (m.inserted.get? path).map κ.node
    cases hroot : m.inserted.get? path with
    | none => rfl
    | some root =>
      exact congrArg some (h.old root (hm.ready.good.inForest.inserted path root hroot)).symm
  depth := rfl

/-- Where one of two sources that differ in the place of a function can be loaded, the other can be
loaded too, and the machines that are ready to run them correspond. -/
theorem Reachable.prepare_alike (hm : Reachable w m) {text text' : String} {t : Tree}
    {before behind before' behind' : List Tree} (ht : t.kind = .keyword .function)
    (hrest : before ++ behind = before' ++ behind')
    (hread : m.forest.Reads text (before ++ t :: behind))
    (hread' : m.forest.Reads text' (before' ++ t :: behind'))
    (hbehind : ∀ u ∈ behind'.head?, u.kind.isFurther = false) {root : NodeId} {m₁ : Machine}
    (hload : prepare false text m = .ok root m₁) :
    ∃ (κ : Correspondence) (m₁' : Machine), prepare false text' m = .ok root m₁' ∧
      κ.node root = root ∧ Machine.Alike κ 0 m₁ m₁' := by
  have hgood := hm.ready.good
  have hs := Forest.parse_sprouts hgood.forest.wellFormed text
  have hs' := Forest.parse_sprouts hgood.forest.wellFormed text'
  obtain ⟨κ, c, hmoved, hkind, hchained⟩ := Forest.exists_moved hs hs' hrest hread.2 hread'.2
  rw [prepare_eq_workshop] at hload
  cases hw : Workshop.prepare false text m.forest m.registry with
  | error failure v =>
    rw [hw] at hload
    cases hload
  | ok root' v =>
    rw [hw] at hload
    cases hload
    obtain ⟨rfl, _⟩ := Workshop.root_of_prepare hgood.forest false text hgood.registry hw
    have hself := hm.registry_alike_self hmoved.old (Nat.le_of_lt hs.size_lt)
    obtain ⟨v', hload', halike⟩ := hmoved.load_alike hgood.forest hgood.registry hself
      (hkind.trans ht) (hchained hbehind) (Workshop.load_of_prepare hw)
    refine ⟨κ, m.update (Situation.settle v'), ?_, hmoved.root, hm.settle_alike hmoved halike⟩
    rw [prepare_eq_workshop, Workshop.prepare, hread'.1]
    dsimp only
    rw [hload']

/-- A function may be declared anywhere among the statements of a source, but not right before a
further branch.  Wherever it stands, the source can be loaded, and running it ends in the same way:
it writes and reads the same, it stops for the same reason or not at all, and it leaves the same
names bound to the same things. -/
theorem runSource_move_function (w : World) {m : Machine} (hm : Reachable w m) (fuel : Nat)
    {text text' : String} {t : Tree} {before behind before' behind' : List Tree}
    (ht : t.kind = .keyword .function) (hrest : before ++ behind = before' ++ behind')
    (hread : m.forest.Reads text (before ++ t :: behind))
    (hread' : m.forest.Reads text' (before' ++ t :: behind'))
    (hload : ∃ root m₁, prepare false text m = .ok root m₁)
    (hbehind : ∀ u ∈ behind'.head?, u.kind.isFurther = false) :
    (∃ root m₁, prepare false text' m = .ok root m₁) ∧
      ending (runSource w fuel text' m) = ending (runSource w fuel text m) := by
  obtain ⟨root, m₁, hload⟩ := hload
  obtain ⟨κ, m₁', hload', hroot, halike⟩ :=
    hm.prepare_alike ht hrest hread hread' hbehind hload
  refine ⟨⟨root, m₁', hload'⟩, ?_⟩
  have hexecute := (engine_alike (κ := κ) w fuel).execute 0 root
  rw [hroot] at hexecute
  have hrun : Run.Alike κ 0 Eq (do let _ ← (engine w fuel).execute root; pure () : Run Unit)
      (do let _ ← (engine w fuel).execute root; pure ()) :=
    hexecute.bind_eq fun _ => .pure rfl
  have hsource : runSource w fuel text m =
      (do let _ ← (engine w fuel).execute root; pure () : Run Unit) m₁ := Run.bind_of_ok hload _
  have hsource' : runSource w fuel text' m =
      (do let _ ← (engine w fuel).execute root; pure () : Run Unit) m₁' := Run.bind_of_ok hload' _
  rw [hsource, hsource']
  exact ending_eq (hrun m₁ m₁' halike)

theorem isName_f : isName "f" = true := by decide +kernel

theorem isName_n : isName "n" = true := by decide +kernel

/-- A function that returns its argument. -/
def identity : Statement :=
  .function ⟨"f", isName_f⟩ [⟨"n", isName_n⟩]
    [.return_ (some (.operand (.mk [] (.name ⟨"n", isName_n⟩) [])))]

/-- Two branches, the first of which calls the function. -/
def branches : Statement :=
  .if_ (.operand (.mk [] (.literal (.bool true)) []))
    [.print (some (.operand (.mk [] (.call ⟨"f", isName_f⟩
      [.operand (.mk [] (.literal (.int 1)) [])]) [])))] (.else_ [])

/-- The function may stand behind the branches as well as before them. -/
theorem runSource_move_function_last :
    let w : World := ⟨.empty, .constant ""⟩
    let m := Machine.fresh { input := [] } .empty
    let first := "fun f ( n ) { return n ; } "
    let second := "if ( true ) { print call f ( 1 ) ; } else { }"
    text [identity, branches] = first ++ second ∧
      (ending (runSource w 40 (text [identity, branches]) m)).console.output.toList =
        "1\n".toUTF8.toList ∧
      ending (runSource w 40 (text [branches, identity]) m) =
        ending (runSource w 40 (text [identity, branches]) m) := by
  intro w m first second
  have hm : Reachable w m := .fresh _ _
  have hstop : (ending (runSource w 40 (text [identity, branches]) m)).stop.isNone = true := by
    decide +kernel
  -- A source that cannot be loaded stops.
  have hload : ∃ root m₁, prepare false (text [identity, branches]) m = .ok root m₁ := by
    cases hp : prepare false (text [identity, branches]) m with
    | ok root m₁ => exact ⟨root, m₁, rfl⟩
    | error stop m₁ =>
      rw [runSource, Run.bind_of_error hp] at hstop
      cases hstop
  obtain ⟨t, ht, hkind⟩ : ∃ t, identity.passage.trees = [t] ∧ t.kind = .keyword .function :=
    ⟨_, rfl, rfl⟩
  have hread : m.forest.Reads (text [identity, branches]) ([] ++ t :: branches.passage.trees) := by
    show m.forest.Reads _ ([t] ++ branches.passage.trees)
    rw [← ht]
    exact m.forest.reads_text [identity, branches]
  have hread' : m.forest.Reads (text [branches, identity]) (branches.passage.trees ++ t :: []) := by
    rw [← ht]
    exact m.forest.reads_text [branches, identity]
  have hmoved : [] ++ branches.passage.trees = branches.passage.trees ++ [] :=
    (List.append_nil _).symm
  have hend : ∀ u ∈ ([] : List Tree).head?, u.kind.isFurther = false := by simp
  refine ⟨by decide +kernel, by decide +kernel, ?_⟩
  exact (runSource_move_function w hm 40 hkind hmoved hread hread' hload hend).2

end Session

end TagLang
