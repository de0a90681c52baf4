import TagLang.Proofs.Grammar
import TagLang.Proofs.Resting

/-!
# What loading declares

`Session.runSource_loads_first`: a source runs only when all of its nodes have been loaded, children
before their parent.  Until then the machine is as it was but for the new tree and the functions
that the nodes loaded so far declare, also when loading stops at a node.

The function that a node declares can be read off its children (`Forest.function?`): the names in
the parameter list are the parameters, because each of them stands alone between commas
(`Forest.parameters_eq_ok`).  Loading is followed over the nodes of a prefix of the order
(`Workshop.Declares.loadAll`), on which `Workshop.Declares` is kept.
-/

namespace TagLang

open Machine Forest

namespace Forest

variable {f : Forest}

/-! ### Names between commas -/

/-- The expressions were read from the rows, one from each: where one is a single bare operand, its
node is the row. -/
def ReadFrom : List (List NodeId) → List Sequence → Prop
  | [], [] => True
  | row :: rows, q :: qs => (∀ id, q.single? = some id → row = [id]) ∧ ReadFrom rows qs
  | _, _ => False

theorem readFrom_of_groups {ids : List NodeId} {line : Nat} {qs : List Sequence}
    (h : f.groups ids line = .ok qs) : ReadFrom (f.rows ids) qs := by
  suffices hall : ∀ {rows qs}, List.Forall₂ (fun row q => f.sequence row = .ok q) rows qs →
      ReadFrom rows qs from hall (forall₂_of_groups h)
  intro rows qs hall
  induction hall with
  | nil => trivial
  | cons hq _ ih => exact ⟨fun id => (single?_eq_some_iff hq).mp, ih⟩

theorem name?_of_isComma {id : NodeId} (h : (f.kind id).isComma = true) : f.name? id = none := by
  rw [name?, NodeKind.isComma_iff.mp h]

/-- The names in the runs between commas are the names among the nodes: a comma is none. -/
theorem flatMap_runs (ids : List NodeId) :
    (runs (fun id => (f.kind id).isComma) ids).flatMap (·.filterMap f.name?) =
      ids.filterMap f.name? := by
  induction ids with
  | nil => rfl
  | cons id rest ih =>
    rw [runs]
    split
    next hcomma =>
      rw [List.filterMap_cons, name?_of_isComma hcomma, List.flatMap_cons, ih]
      rfl
    · -- The node is put in front of the first run, which there always is.
      obtain ⟨run, more, hrun⟩ := List.exists_cons_of_ne_nil (runs_ne_nil _ rest)
      rw [hrun] at ih ⊢
      rw [List.flatMap_cons] at ih
      dsimp only
      rw [List.flatMap_cons, List.filterMap_cons, List.filterMap_cons, ← ih]
      cases f.name? id with
      | none => rfl
      | some name => rfl

theorem flatMap_rows (ids : List NodeId) :
    (f.rows ids).flatMap (·.filterMap f.name?) = ids.filterMap f.name? := by
  unfold rows
  cases ids with
  | nil => rfl
  | cons id rest => exact flatMap_runs (id :: rest)

/-- The parameters that are found are the names in the rows, behind those found before, and no name
comes twice. -/
theorem parameters_eq_ok {function : String} {line : Nat} {rows : List (List NodeId)}
    {qs : List Sequence} (hread : ReadFrom rows qs) {names params : List String} (hn : names.Nodup)
    (h : f.parameters function line names qs = .ok params) :
    params = names ++ rows.flatMap (·.filterMap f.name?) ∧ params.Nodup := by
  induction qs generalizing rows names with
  | nil =>
    cases rows with
    | cons row rows => exact hread.elim
    | nil =>
      cases h
      exact ⟨(List.append_nil _).symm, hn⟩
  | cons q qs ih =>
    cases rows with
    | nil => exact hread.elim
    | cons row rows =>
      unfold parameters at h
      split at h
      next param hkind =>
        split at h
        · cases h
        next hfree =>
          obtain ⟨id, hsingle, hkind⟩ := Option.map_eq_some_iff.mp hkind
          have hparam : f.name? id = some param := by rw [name?, hkind]
          have hn' : (names ++ [param]).Nodup := by
            refine List.nodup_append.mpr ⟨hn, List.nodup_cons.mpr ⟨List.not_mem_nil, .nil⟩, ?_⟩
            intro a ha b hb hab
            rw [List.mem_singleton.mp hb] at hab
            exact hfree (List.contains_iff_mem.mpr (hab ▸ ha))
          obtain ⟨hparams, hnodup⟩ := ih hread.2 hn' h
          refine ⟨?_, hnodup⟩
          rw [hparams, hread.1 id hsingle, List.flatMap_cons, List.filterMap_cons, hparam,
            List.filterMap_nil, List.append_assoc]
      · cases h

/-! ### Functions that nodes declare -/

theorem Reshaped.function?_eq {g : Forest} (h : f.Reshaped g) (id : NodeId) :
    g.function? id = f.function? id := by
  have hname : g.name? = f.name? := funext fun x => by rw [name?, name?, h.kind]
  simp only [function?, h.kind, h.children, hname]

/-- A declaration whose parameter list was read between commas is given the function that its
children spell, and no parameter twice. -/
theorem function?_of_shapeOf {id : NodeId} {shape : Shape} (h : f.shapeOf id = .ok shape)
    (hk : f.kind id = .keyword .function)
    (hrows : ∀ c ∈ f.children id, ∀ qs,
      f.shape c = .groups qs → ReadFrom (f.rows (f.children c)) qs) :
    ∃ fn, shape = .function fn ∧ f.function? id = some fn ∧ fn.params.Nodup := by
  simp only [shapeOf, hk, keywordShape] at h
  unfold functionShape at h
  split at h
  next name params body hrow =>
    split at h
    next n hname hgroup hblock =>
      split at h
      next qs hqs =>
        obtain ⟨ps, hps, rfl⟩ := Except.map_eq_ok_iff.mp h
        have hread := hrows params (by rw [hrow]; simp) qs hqs
        obtain ⟨hnames, hnodup⟩ := parameters_eq_ok hread .nil hps
        rw [List.nil_append, flatMap_rows] at hnames
        have hn : f.name? name = some n := by rw [name?, hname]
        refine ⟨_, rfl, ?_, hnodup⟩
        rw [function?, hk, hrow]
        dsimp only
        rw [hn, hnames]
        rfl
      · cases h
    · cases h
  · cases h

theorem readFrom_of_shapeOf {id : NodeId} {qs : List Sequence} (h : f.shapeOf id = .ok (.groups qs))
    (hk : f.kind id = .group) : ReadFrom (f.rows (f.children id)) qs := by
  simp only [shapeOf, hk] at h
  unfold groupShape at h
  split at h
  · split at h
    · split at h
      · obtain ⟨_, _, hpair⟩ := Except.map_eq_ok_iff.mp h
        cases hpair
      · cases h
    · cases h
  · obtain ⟨qs', hqs, hsame⟩ := Except.map_eq_ok_iff.mp h
    cases hsame
    exact readFrom_of_groups hqs

/-- The node and all nodes below it have been loaded. -/
def Complete (f : Forest) (id : NodeId) : Prop :=
  ∀ x, id ∈ f.lineage x → f.shape x ≠ .unloaded

theorem lineage_congr {g : Forest} (h : ∀ id, g.parent id = f.parent id) (id : NodeId) :
    g.lineage id = f.lineage id := by
  have hgo : ∀ n id, lineage.go g n id = lineage.go f n id := by
    intro n
    induction n with
    | zero => exact fun _ => rfl
    | succ n ih =>
      intro id
      rw [lineage.go, lineage.go, h, ih]
  exact hgo (id + 1) id

theorem Complete.mono {g : Forest} {id : NodeId} (h : f.Complete id) (hr : f.Reshaped g)
    (hs : ∀ x, f.shape x ≠ .unloaded → g.shape x ≠ .unloaded) : g.Complete id :=
  fun x hx => hs x (h x (lineage_congr hr.parent x ▸ hx))

/-- A set of nodes with all their children has all that is below its members. -/
theorem mem_of_mem_lineage (hf : f.WellFormed) {seen : List NodeId}
    (hclosed : ∀ id ∈ seen, ∀ c ∈ f.children id, c ∈ seen) {id x : NodeId} (hid : id ∈ seen)
    (hx : id ∈ f.lineage x) : x ∈ seen := by
  induction x using Nat.strongRecOn with
  | _ x ih =>
    rcases (mem_lineage_iff hf).mp hx with rfl | ⟨hp, hmem⟩
    · exact hid
    · have hlt : f.parent x < x := Nat.lt_of_le_of_ne (hf.parent_le x) hp
      have hsize : x < f.size := by
        refine Nat.lt_of_not_le fun hle => hp ?_
        rw [parent, node_of_size_le hle]
      exact hclosed _ (ih _ hlt hmem) x ((hf.mem_children _ x).mpr ⟨hsize, Ne.symm hp, rfl⟩)

end Forest

/-- The registry `r'` has what `r` has and besides the functions that the nodes `ids` of the forest
declare, with loaded bodies. -/
structure Registry.Gains (f : Forest) (ids : List NodeId) (r r' : Registry) : Prop where
  kept : ∀ key b, r.get? key = some b → r'.get? key = some b
  frames : r'.frames = r.frames
  items : r'.items = r.items
  gained : ∀ id ∈ ids, f.kind id = .keyword .function →
    ∃ fn, f.function? id = some fn ∧ fn.params.Nodup ∧ f.Complete fn.body ∧
      r.get? fn.name = none ∧ r'.get? fn.name = some (.ofFunction (.script fn) (some id))
  only : ∀ key b, r'.get? key = some b →
    r.get? key = some b ∨ ∃ id ∈ ids, ∃ fn, f.function? id = some fn ∧ fn.name = key

namespace Registry.Gains

variable {f : Forest} {ids : List NodeId} {r r' : Registry}

theorem refl (f : Forest) (r : Registry) : Gains f [] r r where
  kept _ _ h := h
  frames := rfl
  items := rfl
  gained _ hid := nomatch hid
  only _ _ h := .inl h

/-- Loading more of the same nodes takes nothing away. -/
theorem mono (h : Gains f ids r r') {g : Forest} (hr : f.Reshaped g)
    (hs : ∀ x, f.shape x ≠ .unloaded → g.shape x ≠ .unloaded) : Gains g ids r r' where
  kept := h.kept
  frames := h.frames
  items := h.items
  gained id hid hkind := by
    obtain ⟨fn, hfn, hnodup, hbody, hnew, hbound⟩ := h.gained id hid (hr.kind id ▸ hkind)
    exact ⟨fn, (hr.function?_eq id).trans hfn, hnodup, hbody.mono hr hs, hnew, hbound⟩
  only key b hb := by
    rcases h.only key b hb with hold | ⟨id, hid, fn, hfn, hname⟩
    · exact .inl hold
    · exact .inr ⟨id, hid, fn, (hr.function?_eq id).trans hfn, hname⟩

theorem of_mem_iff (h : Gains f ids r r') {ids' : List NodeId} (hids : ∀ id, id ∈ ids' ↔ id ∈ ids) :
    Gains f ids' r r' where
  kept := h.kept
  frames := h.frames
  items := h.items
  gained id hid := h.gained id ((hids id).mp hid)
  only key b hb := (h.only key b hb).imp_right fun ⟨id, hid, hfn⟩ => ⟨id, (hids id).mpr hid, hfn⟩

/-- A node that is no declaration of a function declares none. -/
theorem pass (h : Gains f ids r r') {id : NodeId} (hk : f.kind id ≠ .keyword .function) :
    Gains f (id :: ids) r r' where
  kept := h.kept
  frames := h.frames
  items := h.items
  gained x hx hkind := by
    rcases List.mem_cons.mp hx with rfl | hx
    · exact absurd hkind hk
    · exact h.gained x hx hkind
  only key b hb :=
    (h.only key b hb).imp_right fun ⟨x, hx, hfn⟩ => ⟨x, List.mem_cons_of_mem _ hx, hfn⟩

/-- A node declares a function under a new name. -/
theorem declare (h : Gains f ids r r') {id : NodeId} {fn : Function}
    (hfn : f.function? id = some fn)
    (hnodup : fn.params.Nodup) (hbody : f.Complete fn.body) (hfree : r'.get? fn.name = none) :
    Gains f (id :: ids) r (r'.define fn.name (.ofFunction (.script fn) (some id))) := by
  have hget : ∀ key, (r'.define fn.name (.ofFunction (.script fn) (some id))).get? key =
      if fn.name = key then some (.ofFunction (.script fn) (some id)) else r'.get? key :=
    fun key => Table.get?_insert r'.bindings fn.name key _
  -- Names that are bound already are not the new one.
  have hbound : ∀ key b, r'.get? key = some b →
      (r'.define fn.name (.ofFunction (.script fn) (some id))).get? key = some b := by
    intro key b hb
    have hne : fn.name ≠ key := by
      rintro rfl
      rw [hfree] at hb
      cases hb
    rw [hget, if_neg hne, hb]
  refine ⟨fun key b hb => hbound key b (h.kept key b hb), h.frames, h.items, ?_, ?_⟩
  · intro x hx hkind
    rcases List.mem_cons.mp hx with rfl | hx
    · refine ⟨fn, hfn, hnodup, hbody, ?_, by rw [hget, if_pos rfl]⟩
      refine Option.eq_none_iff_forall_ne_some.mpr fun b hb => ?_
      rw [h.kept _ b hb] at hfree
      cases hfree
    · obtain ⟨fn', hfn', hnodup', hbody', hnew, hb⟩ := h.gained x hx hkind
      exact ⟨fn', hfn', hnodup', hbody', hnew, hbound _ _ hb⟩
  · intro key b hb
    rw [hget] at hb
    split at hb
    next hname => exact .inr ⟨id, List.mem_cons_self .., fn, hfn, hname⟩
    · exact (h.only key b hb).imp_right fun ⟨x, hx, hfn⟩ => ⟨x, List.mem_cons_of_mem _ hx, hfn⟩

end Registry.Gains

/-! ### Loading node by node -/

namespace Workshop

/-- Loading comes to its end, or stops at a node that leaves the workshop as it was. -/
theorem loadAll_split (inserting : Bool) (order : List NodeId) (w : Workshop) :
    ∃ loaded rest w', order = loaded ++ rest ∧ loadAll inserting loaded w = .ok () w' ∧
      match rest with
      | [] => loadAll inserting order w = .ok () w'
      | id :: _ => ∃ failure, loadNode inserting id w' = .error failure w' ∧
          loadAll inserting order w = .error failure w' := by
  induction order generalizing w with
  | nil => exact ⟨[], [], w, rfl, rfl, rfl⟩
  | cons id order ih =>
    have hcons : ∀ ids, loadAll inserting (id :: ids) w =
        EStateM.bind (loadNode inserting id) (fun _ => loadAll inserting ids) w := fun _ => rfl
    cases hw : loadNode inserting id w with
    | error failure w₁ =>
      have hsame := loadNode_eq_error hw
      subst hsame
      refine ⟨[], id :: order, w₁, rfl, rfl, failure, hw, ?_⟩
      rw [hcons, EStateM.bind, hw]
    | ok u w₁ =>
      obtain ⟨loaded, rest, w', rfl, hloaded, hrest⟩ := ih w₁
      refine ⟨id :: loaded, rest, w', rfl, ?_, ?_⟩
      · rw [hcons, EStateM.bind, hw]
        exact hloaded
      · rw [hcons, EStateM.bind, hw]
        exact hrest

/-- A node is not loaded if it has no shape, or if it declares a function whose name is taken. -/
theorem cause_of_loadNode {id : NodeId} {w w' : Workshop} {failure : Failure}
    (h : loadNode false id w = .error failure w') :
    w.forest.shapeOf id = .error failure ∨
      ∃ fn, w.forest.shapeOf id = .ok (.function fn) ∧ w.registry.get? fn.name ≠ none ∧
        failure = ⟨w.forest.line id, .alreadyDeclared fn.name⟩ := by
  rw [loadNode, if_neg (by rw [isPassedOver]; exact Bool.false_ne_true)] at h
  split at h
  next hs =>
    cases h
    exact .inl hs
  next shape hs =>
    split at h
    next hr =>
      cases h
      unfold register at hr
      split at hr
      next fn =>
        unfold Registry.declare? at hr
        split at hr
        · cases hr
        next hnone =>
          split at hnone
          next b hb =>
            cases hr
            exact .inr ⟨fn, hs, by rw [hb]; exact Option.some_ne_none b, rfl⟩
          · cases hnone
      · cases hr
    · cases h

/-- What holds once the nodes `seen` have been loaded over the registry `r`. -/
structure Declares (r : Registry) (seen : List NodeId) (w : Workshop) : Prop where
  closed : ∀ id ∈ seen, ∀ c ∈ w.forest.children id, c ∈ seen
  rows : ∀ id ∈ seen, ∀ qs, w.forest.shape id = .groups qs →
    ReadFrom (w.forest.rows (w.forest.children id)) qs
  gains : r.Gains w.forest seen w.registry

namespace Declares

variable {f : Forest} {root : NodeId} {r : Registry} {seen : List NodeId} {w w' : Workshop}
  {id : NodeId}

/-- A node behind its children that is given a function spells it, and the body has been loaded. -/
theorem function?_eq (hd : Declares r seen w) (h : Loads f false root seen w)
    (hbelow : ∀ c ∈ w.forest.children id, c ∈ seen) {fn : Function}
    (hshape : w.forest.shapeOf id = .ok (.function fn))
    (hfit : (Shape.function fn).Fits w.forest id) :
    w.forest.function? id = some fn ∧ fn.params.Nodup ∧ w.forest.Complete fn.body := by
  obtain ⟨fn', hfn, hspelled, hnodup⟩ :=
    function?_of_shapeOf hshape hfit.1 fun c hc => hd.rows c (hbelow c hc)
  cases hfn
  refine ⟨hspelled, hnodup, fun x hx => ?_⟩
  have hseen : x ∈ seen := mem_of_mem_lineage h.wellFormed hd.closed (hbelow _ hfit.2.1) hx
  exact (h.loaded x (h.reached x hseen).1).mpr hseen

/-- Loading a node behind its children declares its function, if it has one. -/
theorem loadNode (hd : Declares r seen w) (h : Loads f false root seen w) (hnew : id ∉ seen)
    (hlt : id < f.size) (hchildren : ∀ c ∈ f.children id, c ∈ seen)
    (hload : Workshop.loadNode false id w = .ok () w') :
    Declares r (id :: seen) w' := by
  obtain ⟨shape, muted, hforest, _, hregistry, hcases⟩ := loadNode_eq_ok hload
  obtain ⟨_, hshape, _⟩ := hcases.resolve_left fun hpass => (by cases hpass.1)
  have hreshaped : w.forest.Reshaped w'.forest := hforest ▸ .setShape _ _ _
  have hlt' : id < w.forest.size := h.size_eq ▸ hlt
  have hbelow : ∀ c ∈ w.forest.children id, c ∈ seen := by
    rw [h.le.children_eq id hlt]
    exact hchildren
  obtain ⟨hfit, hne⟩ := (shapeOf_meets h.sound fun c hc =>
    (h.loaded c (h.reached c (hbelow c hc)).1).mpr (hbelow c hc)).of_eq_ok hshape
  have hmono : ∀ x, w.forest.shape x ≠ .unloaded → w'.forest.shape x ≠ .unloaded := by
    intro x hx
    rw [hforest, shape_setShape hlt']
    split
    · exact hne
    · exact hx
  have hgains : r.Gains w'.forest seen w.registry := hd.gains.mono hreshaped hmono
  constructor
  case closed =>
    intro x hx c hc
    rw [hreshaped.children] at hc
    rcases List.mem_cons.mp hx with rfl | hx
    · exact List.mem_cons_of_mem _ (hbelow c hc)
    · exact List.mem_cons_of_mem _ (hd.closed x hx c hc)
  case rows =>
    have hrows : w'.forest.rows = w.forest.rows := by
      funext ids
      simp only [Forest.rows, hreshaped.kind]
    intro x hx qs hqs
    rw [hrows, hreshaped.children]
    rw [hforest, shape_setShape hlt'] at hqs
    rcases List.mem_cons.mp hx with rfl | hx
    · rw [if_pos rfl] at hqs
      subst hqs
      exact readFrom_of_shapeOf hshape hfit.1
    · have hother : id ≠ x := fun he => hnew (he ▸ hx)
      exact hd.rows x hx qs ((if_neg hother).symm.trans hqs)
  case gains =>
    rcases hregistry with ⟨hr, hplain⟩ | ⟨fn, rfl, hfree, hr⟩
    · rw [hr]
      refine hgains.pass fun hk => ?_
      rw [hreshaped.kind] at hk
      obtain ⟨fn, hfn, _⟩ := function?_of_shapeOf hshape hk fun c hc => hd.rows c (hbelow c hc)
      exact hplain fn hfn
    · obtain ⟨hspelled, hnodup, hbody⟩ := hd.function?_eq h hbelow hshape hfit
      rw [hr]
      exact hgains.declare ((hreshaped.function?_eq id).trans hspelled) hnodup
        (hbody.mono hreshaped hmono) hfree

/-- Loading nodes in an order in which children come first. -/
theorem loadAll {rest : List NodeId} (hd : Declares r seen w) (h : Loads f false root seen w)
    (hnew : ∀ id ∈ rest, id ∉ seen) (hnodup : rest.Nodup)
    (hrest : ∀ id ∈ rest, root ≤ id ∧ id < f.size ∧ f.Reached (isPassedOver f false) id)
    (horder : f.ChildrenFirst (isPassedOver f false) seen rest)
    (hload : Workshop.loadAll false rest w = .ok () w') :
    Declares r (rest.reverse ++ seen) w' ∧ Loads f false root (rest.reverse ++ seen) w' := by
  induction rest generalizing seen w with
  | nil =>
    cases hload
    exact ⟨hd, h⟩
  | cons id rest ih =>
    obtain ⟨hroot, hlt, hreach⟩ := hrest id (List.mem_cons_self ..)
    have hid := hnew id (List.mem_cons_self ..)
    have hnode := h.loadNode hid hroot hlt hreach horder.1
    change EStateM.bind (Workshop.loadNode false id)
      (fun _ => Workshop.loadAll false rest) w = _ at hload
    unfold EStateM.bind at hload
    cases hw : Workshop.loadNode false id w with
    | error e w₁ =>
      rw [hw] at hload
      cases hload
    | ok u w₁ =>
      rw [hw] at hload hnode
      rw [List.reverse_cons, List.append_assoc, List.singleton_append]
      exact ih (hd.loadNode h hid hlt (horder.1 rfl) hw) hnode
        (Loads.not_mem_of_nodup hnodup hnew) hnodup.of_cons
        (fun x hx => hrest x (List.mem_cons_of_mem _ hx)) horder.2 hload

theorem start (f : Forest) (r : Registry) : Declares r [] ⟨f, r, []⟩ where
  closed _ hid := nomatch hid
  rows _ hid := nomatch hid
  gains := .refl f r

end Declares

end Workshop

/-! ### The nodes of a source -/

namespace Forest

/-- Where children come first, the children of the nodes listed are listed. -/
theorem ChildrenFirst.mem {f : Forest} {leave : NodeId → Bool} {seen order : List NodeId}
    (h : f.ChildrenFirst leave seen order) {id c : NodeId} (hid : id ∈ order)
    (hleave : leave id = false) (hc : c ∈ f.children id) : c ∈ seen ∨ c ∈ order := by
  induction order generalizing seen with
  | nil => cases hid
  | cons first rest ih =>
    rcases List.mem_cons.mp hid with rfl | hid
    · exact .inl (h.1 hleave c hc)
    · rcases ih h.2 hid with hm | hm
      · rcases List.mem_cons.mp hm with rfl | hm
        · exact .inr (List.mem_cons_self ..)
        · exact .inl hm
      · exact .inr (List.mem_cons_of_mem _ hm)

theorem ChildrenFirst.of_append {f : Forest} {leave : NodeId → Bool}
    {seen first second : List NodeId}
    (h : f.ChildrenFirst leave seen (first ++ second)) : f.ChildrenFirst leave seen first := by
  induction first generalizing seen with
  | nil => trivial
  | cons id first ih => exact ⟨h.1, ih h.2⟩

/-- The order of a new tree lists all new nodes. -/
theorem Sprouts.mem_postorder_iff {f g : Forest} (h : f.Sprouts g) (id : NodeId) :
    id ∈ g.postorder (fun _ => false) f.size ↔ f.size ≤ id ∧ id < g.size := by
  obtain ⟨horder, _, hroot, hlist⟩ :=
    postorder_spec h.wellFormed (fun _ => false) h.size_lt h.parent_root
  refine ⟨fun hid => ⟨(hlist id hid).1, (hlist id hid).2.1⟩, fun hid => ?_⟩
  induction id using Nat.strongRecOn with
  | _ id ih =>
    obtain ⟨hle, hlt⟩ := hid
    rcases Nat.eq_or_lt_of_le hle with rfl | hgt
    · exact hroot
    · have hparent := h.parent_lt id hgt hlt
      have hmem := ih _ hparent ⟨h.le_parent id hle, Nat.lt_trans hparent hlt⟩
      have hchild : id ∈ g.children (g.parent id) :=
        (h.wellFormed.mem_children _ id).mpr ⟨hlt, Ne.symm (Nat.ne_of_lt hparent), rfl⟩
      exact (horder.mem hmem rfl hchild).resolve_left nofun

end Forest

/-- What reading and loading leave as it was: all but new nodes, their switches and new bindings. -/
structure Situation.Untouched (s s' : Situation) : Prop where
  console : s'.console = s.console
  baseDir : s'.baseDir = s.baseDir
  inserting : s'.inserting = s.inserting
  inserted : s'.inserted = s.inserted
  depth : s'.depth = s.depth
  node : ∀ id, id < s.forest.size → s'.forest.node id = s.forest.node id
  isOn : ∀ id, id < s.forest.size → s'.switches.isOn id = s.switches.isOn id

theorem Situation.untouched_settle {s : Situation} (hs : s.Good) (inserting : Bool)
    (text : String) : s.Untouched
      (s.settle (Workshop.left (Workshop.prepare inserting text s.forest s.registry))) where
  console := rfl
  baseDir := rfl
  inserting := rfl
  inserted := rfl
  depth := rfl
  node := (Workshop.grown_prepare hs.forest hs.registry inserting text).old
  isOn id hid := by
    obtain ⟨seen, hl⟩ := Workshop.prepare_loads hs.forest hs.registry inserting text
    have hold : id ∉ (Workshop.left (Workshop.prepare inserting text s.forest s.registry)).muted :=
      fun hm => Nat.not_le_of_lt hid (hl.muted id hm).1
    rw [Situation.settle, Switches.isOn_turnOff]
    simp [hold]

namespace Workshop

/-- Loading the tree of a source declares the functions of the nodes that it comes past: of all of
them, or of those in front of a node that has no shape or declares a name that is taken. -/
theorem load_declares {f₀ f : Forest} (h₀ : f₀.Good) (hs : f₀.Sprouts f) {r : Registry}
    (hr : r.Fits f₀) :
    ∃ loaded rest w', f.postorder (fun _ => false) f₀.size = loaded ++ rest ∧
      r.Gains w'.forest loaded w'.registry ∧
      match rest with
      | [] => load false f₀.size ⟨f, r, []⟩ = .ok () w'
      | id :: _ => ∃ failure, load false f₀.size ⟨f, r, []⟩ = .error failure w' ∧
          loadNode false id w' = .error failure w' := by
  obtain ⟨horder, hnodup, _, hlist⟩ :=
    postorder_spec hs.wellFormed (isPassedOver f false) hs.size_lt hs.parent_root
  obtain ⟨loaded, rest, w', hsplit, hloaded, hrest⟩ :=
    loadAll_split false (f.postorder (isPassedOver f false) f₀.size) ⟨f, r, []⟩
  rw [hsplit] at horder hnodup hlist
  obtain ⟨hd, _⟩ := (Declares.start f r).loadAll (Loads.start false h₀ hs hr) (fun _ _ => nofun)
    (List.nodup_append.mp hnodup).1 (fun id hid => hlist id (List.mem_append_left _ hid))
    horder.of_append hloaded
  refine ⟨loaded, rest, w', hsplit, hd.gains.of_mem_iff fun id => by simp, ?_⟩
  cases rest with
  | nil => exact hrest
  | cons id rest =>
    obtain ⟨failure, hnode, hall⟩ := hrest
    exact ⟨failure, hall, hnode⟩

end Workshop

namespace Session

/-- A source that cannot be read leaves the registry as it was.  A source that can be read is loaded
node by node, children before their parent, and the machine has gained the functions of the nodes
loaded so far when loading stops at a node and the source fails, or has come to its end and the
source starts to run.  Until then the machine has read and written nothing, and has the nodes, the
switches, the inserted files and the base directory that it had. -/
theorem runSource_loads_first (w : World) {m : Machine} (hm : Reachable w m) (n : Nat)
    (text : String) :
    match (m.forest.parse text).2 with
    | .error failure =>
      ∃ m', runSource w n text m = .error (.failed failure) m' ∧ m.Untouched m'.toSituation ∧
        m'.registry = m.registry
    | .ok root =>
      (∀ id, id ∈ (m.forest.parse text).1.postorder (fun _ => false) root ↔
        m.forest.size ≤ id ∧ id < (m.forest.parse text).1.size) ∧
      ∃ loaded rest m', (m.forest.parse text).1.postorder (fun _ => false) root = loaded ++ rest ∧
        m.Untouched m'.toSituation ∧ m.registry.Gains m'.forest loaded m'.registry ∧
        match rest with
        | [] => runSource w n text m = (do let _ ← (engine w n).execute root; pure () : Run Unit) m'
        | id :: _ => ∃ failure, runSource w n text m = .error (.failed failure) m' ∧
            (m'.forest.shapeOf id = .error failure ∨
              ∃ fn, m'.forest.shapeOf id = .ok (.function fn) ∧ m'.registry.get? fn.name ≠ none ∧
                failure = ⟨m'.forest.line id, .alreadyDeclared fn.name⟩) := by
  have hgood := hm.ready.good
  have huntouched := Situation.untouched_settle hgood false text
  have hprepare := prepare_eq_workshop false text m
  have hrun : ∀ (failure : Failure) (k : Machine), prepare false text m = refuse false failure k →
      runSource w n text m = .error (.failed failure) (k.record (.refuses false failure)) :=
    fun failure k h => Run.bind_of_error h _
  cases hparse : (m.forest.parse text).2 with
  | error failure =>
    have hworkshop : Workshop.prepare false text m.forest m.registry =
        .error failure ⟨(m.forest.parse text).1, m.registry, []⟩ := by
      rw [Workshop.prepare, hparse]
    rw [hworkshop] at huntouched
    obtain ⟨m', hrefused, hm'⟩ := runSource_refused w n hparse
    refine ⟨m', hrefused, ?_, ?_⟩
    · rw [hm']
      exact huntouched
    · rw [hm']
  | ok root =>
    have hroot : root = m.forest.size := parse_root hgood.forest.wellFormed hparse
    have hsprouts := parse_sprouts hgood.forest.wellFormed text
    subst hroot
    obtain ⟨loaded, rest, w', hsplit, hgains, hrest⟩ :=
      Workshop.load_declares hgood.forest hsprouts hgood.registry
    refine ⟨hsprouts.mem_postorder_iff, loaded, rest, ?_⟩
    cases rest with
    | nil =>
      have hworkshop : Workshop.prepare false text m.forest m.registry = .ok m.forest.size w' := by
        rw [Workshop.prepare, hparse]
        dsimp only at hrest ⊢
        rw [hrest]
      rw [hworkshop] at huntouched hprepare
      exact ⟨m.update (Situation.settle w'), hsplit, huntouched, hgains, Run.bind_of_ok hprepare _⟩
    | cons id rest =>
      obtain ⟨failure, hload, hnode⟩ := hrest
      have hworkshop : Workshop.prepare false text m.forest m.registry = .error failure w' := by
        rw [Workshop.prepare, hparse]
        dsimp only
        rw [hload]
      rw [hworkshop] at huntouched hprepare
      refine ⟨_, hsplit, ?_, ?_, failure, hrun failure _ hprepare, ?_⟩
      · rw [toSituation_record]
        exact huntouched
      · rw [toSituation_record]
        exact hgains
      · rw [toSituation_record]
        exact Workshop.cause_of_loadNode hnode

/-- A function in a function, and behind them a statement that lacks an operand. -/
def unfinishedScript : String :=
  "fun f(a, b) { fun g(c) { print c; } } print 1 +;"

/-- Both functions stay bound although nothing runs. -/
theorem runSource_loads_first_nested :
    let w : World := ⟨.empty, .constant ""⟩
    let m := Machine.fresh { input := [] } .empty
    Reachable w m ∧ (m.forest.parse unfinishedScript).2.toOption = some 0 ∧
    (Run.final (runSource w 20 unfinishedScript) m).registry.bindings.keys = ["π", "g", "f"] ∧
    ∃ loaded rest, ∃ m' : Machine,
      (m.forest.parse unfinishedScript).1.postorder (fun _ => false) 0 = loaded ++ rest ∧
      m.Untouched m'.toSituation ∧ m.registry.Gains m'.forest loaded m'.registry := by
  intro w m
  have hm : Reachable w m := .fresh _ _
  have hparse : (m.forest.parse unfinishedScript).2.toOption = some 0 := by decide +kernel
  have hloads := runSource_loads_first w hm 20 unfinishedScript
  refine ⟨hm, hparse, by decide +kernel, ?_⟩
  cases hresult : (m.forest.parse unfinishedScript).2 with
  | error failure =>
    rw [hresult] at hparse
    cases hparse
  | ok root =>
    rw [hresult] at hparse hloads
    cases hparse
    obtain ⟨_, loaded, rest, m', hsplit, huntouched, hgains, _⟩ := hloads
    exact ⟨loaded, rest, m', hsplit, huntouched, hgains⟩

end Session

end TagLang
