import TagLang.Tree.Builder

/-!
# How a forest grows

Parents and children of a forest agree with each other, and a parent is older than its children
(`Forest.WellFormed`).  Reading a source keeps this, and touches nothing but the new tree
(`Forest.Sprouts`): the nodes from before stay as they are, and the new ones hang under the new root
and have no shape yet.

Along the parents a node has a lineage, and the order in which a tree is loaded lists every node
once, its children before it, and only nodes below which nothing is passed over.
-/

namespace TagLang

namespace Forest

/-! ### Nodes behind a change -/

theorem node_addRoot (f : Forest) (line : Nat) (id : NodeId) :
    (f.addRoot line).node id =
      if id = f.size then { kind := .block, parent := f.size, line } else f.node id := by
  unfold node addRoot size
  simp only [Array.getD_eq_getD_getElem?, Array.getElem?_push]
  split <;> rfl

theorem node_attach {f : Forest} {p : NodeId} (hp : p < f.size) (kind : NodeKind) (line : Nat)
    (id : NodeId) : (f.attach p kind line).node id =
      if id = f.size then { kind, parent := p, line }
      else if id = p then { f.node id with children := (f.node id).children.push f.size }
      else f.node id := by
  unfold node attach size
  simp only [Array.getD_eq_getD_getElem?, Array.getElem?_push, Array.getElem?_modify,
    Array.size_modify]
  by_cases h : id = f.nodes.size
  · simp [h]
  · by_cases hid : p = id
    · subst hid
      have hs : p < f.nodes.size := hp
      simp [h, Array.getElem?_eq_getElem hs]
    · simp [h, hid, Ne.symm hid]

theorem node_setShape (f : Forest) (id : NodeId) (shape : Shape) (id' : NodeId) :
    (f.setShape id shape).node id' =
      if id = id' ∧ id < f.size then { f.node id' with shape } else f.node id' := by
  unfold node setShape size
  simp only [Array.getD_eq_getD_getElem?, Array.getElem?_modify]
  by_cases h : id = id'
  · subst h
    by_cases hs : id < f.nodes.size
    · simp [hs]
    · simp [hs]
  · simp [h]

/-- A name that is not in use belongs to a block without statements. -/
theorem node_of_size_le {f : Forest} {id : NodeId} (h : f.size ≤ id) :
    f.node id = ⟨.block, id, 0, #[], .unloaded⟩ := by
  unfold node
  rw [Array.getD_eq_getD_getElem?, Array.getElem?_eq_none h]
  rfl

@[simp]
theorem size_addRoot (f : Forest) (line : Nat) : (f.addRoot line).size = f.size + 1 :=
  Array.size_push ..

@[simp]
theorem size_attach (f : Forest) (p : NodeId) (kind : NodeKind) (line : Nat) :
    (f.attach p kind line).size = f.size + 1 := by
  simp [attach, size]

@[simp]
theorem size_setShape (f : Forest) (id : NodeId) (shape : Shape) :
    (f.setShape id shape).size = f.size := by
  simp [setShape, size]

section SetShape

variable (f : Forest) (id : NodeId) (s : Shape) (id' : NodeId)

@[simp]
theorem kind_setShape : (f.setShape id s).kind id' = f.kind id' := by
  unfold Forest.kind
  rw [node_setShape]
  split <;> rfl

@[simp]
theorem line_setShape : (f.setShape id s).line id' = f.line id' := by
  unfold Forest.line
  rw [node_setShape]
  split <;> rfl

@[simp]
theorem parent_setShape : (f.setShape id s).parent id' = f.parent id' := by
  unfold Forest.parent
  rw [node_setShape]
  split <;> rfl

@[simp]
theorem children_setShape : (f.setShape id s).children id' = f.children id' := by
  unfold Forest.children
  rw [node_setShape]
  split <;> rfl

theorem shape_setShape {f : Forest} {id : NodeId} (h : id < f.size) (s : Shape) (id' : NodeId) :
    (f.setShape id s).shape id' = if id = id' then s else f.shape id' := by
  unfold Forest.shape
  rw [node_setShape]
  by_cases hid : id = id'
  · rw [if_pos ⟨hid, h⟩, if_pos hid]
  · rw [if_neg fun hc => hid hc.1, if_neg hid]

end SetShape

section Attach

variable {f : Forest} {p : NodeId} (hp : p < f.size) (kind : NodeKind) (line : Nat) (id : NodeId)
include hp

theorem kind_attach : (f.attach p kind line).kind id = if id = f.size then kind else f.kind id := by
  unfold Forest.kind
  rw [node_attach hp]
  split
  · rfl
  · split <;> rfl

theorem line_attach : (f.attach p kind line).line id = if id = f.size then line else f.line id := by
  unfold Forest.line
  rw [node_attach hp]
  split
  · rfl
  · split <;> rfl

theorem parent_attach :
    (f.attach p kind line).parent id = if id = f.size then p else f.parent id := by
  unfold Forest.parent
  rw [node_attach hp]
  split
  · rfl
  · split <;> rfl

theorem shape_attach : (f.attach p kind line).shape id = f.shape id := by
  unfold Forest.shape
  rw [node_attach hp]
  split
  next h => rw [h, node_of_size_le (Nat.le_refl _)]
  · split <;> rfl

theorem children_attach : (f.attach p kind line).children id =
    if id = p then f.children id ++ [f.size] else f.children id := by
  unfold Forest.children
  rw [node_attach hp]
  by_cases h : id = f.size
  · have hne : ¬ f.size = p := Nat.ne_of_gt hp
    subst h
    rw [if_pos rfl, if_neg hne, node_of_size_le (Nat.le_refl _)]
  · rw [if_neg h]
    split
    · exact Array.toList_push
    · rfl

end Attach

/-! ### Well-formed forests -/

/-- Parents are older than their children, and the children of a node are the nodes that have it for
a parent, in the order of their age. -/
structure WellFormed (f : Forest) : Prop where
  parent_le : ∀ id, f.parent id ≤ id
  mem_children : ∀ p c, c ∈ f.children p ↔ c < f.size ∧ c ≠ p ∧ f.parent c = p
  sorted : ∀ p, (f.children p).Pairwise (· < ·)

namespace WellFormed

variable {f : Forest}

theorem parent_lt_size (h : f.WellFormed) {id : NodeId} (hid : id < f.size) :
    f.parent id < f.size :=
  Nat.lt_of_le_of_lt (h.parent_le id) hid

theorem lt_of_mem_children (h : f.WellFormed) {p c : NodeId} (hc : c ∈ f.children p) : p < c := by
  obtain ⟨_, hne, rfl⟩ := (h.mem_children p c).mp hc
  exact Nat.lt_of_le_of_ne (h.parent_le c) (Ne.symm hne)

theorem empty : Forest.empty.WellFormed where
  parent_le id := Nat.le_of_eq (by rw [Forest.parent, node_of_size_le (Nat.zero_le id)])
  mem_children p c := by
    rw [Forest.children, node_of_size_le (Nat.zero_le p)]
    constructor
    · intro hc
      cases hc
    · rintro ⟨hc, _⟩
      exact absurd hc (Nat.not_lt_zero c)
  sorted p := by
    rw [Forest.children, node_of_size_le (Nat.zero_le p)]
    exact .nil

theorem addRoot (h : f.WellFormed) (line : Nat) : (f.addRoot line).WellFormed := by
  have hparent : ∀ id, (f.addRoot line).parent id = f.parent id := by
    intro id
    rw [Forest.parent, node_addRoot, Forest.parent]
    split
    next hid => rw [hid, node_of_size_le (Nat.le_refl _)]
    next => rfl
  have hchildren : ∀ id, (f.addRoot line).children id = f.children id := by
    intro id
    rw [Forest.children, node_addRoot, Forest.children]
    split
    next hid => rw [hid, node_of_size_le (Nat.le_refl _)]
    next => rfl
  refine ⟨fun id => hparent id ▸ h.parent_le id, fun p c => ?_, fun p => hchildren p ▸ h.sorted p⟩
  rw [hchildren, hparent, h.mem_children, size_addRoot]
  constructor
  · rintro ⟨hc, hne, hp⟩
    exact ⟨Nat.lt_succ_of_lt hc, hne, hp⟩
  · rintro ⟨hc, hne, hp⟩
    refine ⟨Nat.lt_of_le_of_ne (Nat.le_of_lt_succ hc) fun hcs => ?_, hne, hp⟩
    rw [Forest.parent, node_of_size_le (Nat.le_of_eq hcs.symm)] at hp
    exact hne hp

theorem attach (h : f.WellFormed) {p : NodeId} (hp : p < f.size) (kind : NodeKind) (line : Nat) :
    (f.attach p kind line).WellFormed := by
  have hnew : f.parent f.size = f.size := by
    rw [Forest.parent, node_of_size_le (Nat.le_refl _)]
  refine ⟨fun id => ?_, fun q c => ?_, fun q => ?_⟩
  · rw [parent_attach hp]
    split
    next hid => exact hid ▸ Nat.le_of_lt hp
    next => exact h.parent_le id
  · rw [children_attach hp, parent_attach hp, size_attach]
    have hold := h.mem_children q c
    have hpn : p ≠ f.size := Nat.ne_of_lt hp
    by_cases hc : c = f.size
    · subst hc
      have hnot : f.size ∉ f.children q := fun hm => Nat.lt_irrefl _ (hold.mp hm).1
      by_cases hq : q = p
      · subst hq
        simp [Ne.symm hpn]
      · simp [hq, hnot, Ne.symm hq]
    · by_cases hq : q = p
      · subst hq
        simp only [if_true, List.mem_append, List.mem_singleton, hc, or_false, if_false, hold]
        grind
      · simp only [hq, if_false, hold, hc]
        grind
  · rw [children_attach hp]
    split
    next hq =>
      rw [List.pairwise_append]
      refine ⟨h.sorted q, List.pairwise_singleton _ _, fun a ha b hb => ?_⟩
      rw [List.mem_singleton.mp hb]
      exact ((h.mem_children q a).mp ha).1
    next => exact h.sorted q

theorem setShape (h : f.WellFormed) (id : NodeId) (s : Shape) : (f.setShape id s).WellFormed := by
  refine ⟨fun id' => ?_, fun p c => ?_, fun p => ?_⟩
  · rw [parent_setShape]
    exact h.parent_le id'
  · rw [children_setShape, parent_setShape, size_setShape]
    exact h.mem_children p c
  · rw [children_setShape]
    exact h.sorted p

end WellFormed

/-- The siblings of a node, in the row of its parent. -/
theorem siblings_eq {f : Forest} (hf : f.WellFormed) {block id : NodeId} {pre rest : List NodeId}
    (hc : f.children block = pre ++ id :: rest) : f.siblings id = (pre.getLast?, rest.head?) := by
  have hmem : id ∈ f.children block := hc ▸ List.mem_append_right _ (List.mem_cons_self ..)
  obtain ⟨_, hne, hparent⟩ := (hf.mem_children block id).mp hmem
  have hnew : id ∉ pre := by
    intro hin
    have hs := hf.sorted block
    rw [hc, List.pairwise_append] at hs
    exact Nat.lt_irrefl _ (hs.2.2 id hin id (List.mem_cons_self ..))
  have hrow : (f.node block).children = (pre ++ id :: rest).toArray := by
    rw [← hc]
    rfl
  have hbefore : pre.findIdx? (· == id) = none := by
    refine List.findIdx?_eq_none_iff.mpr fun x hx => beq_eq_false_iff_ne.mpr ?_
    rintro rfl
    exact hnew hx
  have hfind : (pre ++ id :: rest).findIdx? (· == id) = some pre.length := by
    rw [List.findIdx?_append, hbefore, List.findIdx?_cons, beq_self_eq_true]
    simp
  have hnext : (pre ++ id :: rest)[pre.length + 1]? = rest.head? := by
    rw [List.getElem?_append_right (Nat.le_add_right _ 1), Nat.add_sub_cancel_left,
      List.getElem?_cons_succ, List.head?_eq_getElem?]
  have hprevious : (if pre.length = 0 then none else (pre ++ id :: rest)[pre.length - 1]?) =
      pre.getLast? := by
    split
    next h => rw [List.length_eq_zero_iff.mp h, List.getLast?_nil]
    next h =>
      have hlt : pre.length - 1 < pre.length := Nat.sub_one_lt h
      rw [List.getElem?_append_left hlt, List.getLast?_eq_getElem?]
  unfold siblings
  rw [hparent, if_neg hne.symm, hrow]
  dsimp only
  rw [List.findIdx?_toArray, hfind]
  dsimp only
  rw [List.getElem?_toArray, List.getElem?_toArray, hnext, hprevious]

/-! ### Shapes aside -/

/-- Two forests that differ in shapes only. -/
structure Reshaped (f g : Forest) : Prop where
  size_eq : g.size = f.size
  kind : ∀ id, g.kind id = f.kind id
  line : ∀ id, g.line id = f.line id
  parent : ∀ id, g.parent id = f.parent id
  children : ∀ id, g.children id = f.children id

namespace Reshaped

variable {f g k : Forest}

theorem refl (f : Forest) : f.Reshaped f :=
  ⟨rfl, fun _ => rfl, fun _ => rfl, fun _ => rfl, fun _ => rfl⟩

theorem trans (h : f.Reshaped g) (h' : g.Reshaped k) : f.Reshaped k where
  size_eq := h'.size_eq.trans h.size_eq
  kind id := (h'.kind id).trans (h.kind id)
  line id := (h'.line id).trans (h.line id)
  parent id := (h'.parent id).trans (h.parent id)
  children id := (h'.children id).trans (h.children id)

theorem setShape (f : Forest) (id : NodeId) (s : Shape) : f.Reshaped (f.setShape id s) where
  size_eq := size_setShape f id s
  kind := kind_setShape f id s
  line := line_setShape f id s
  parent := parent_setShape f id s
  children := children_setShape f id s

theorem wellFormed (h : f.Reshaped g) (hf : f.WellFormed) : g.WellFormed where
  parent_le id := by
    rw [h.parent]
    exact hf.parent_le id
  mem_children p c := by
    rw [h.children, h.size_eq, h.parent]
    exact hf.mem_children p c
  sorted p := by
    rw [h.children]
    exact hf.sorted p

theorem siblings (h : f.Reshaped g) (id : NodeId) : g.siblings id = f.siblings id := by
  have hrow : ∀ p, (g.node p).children = (f.node p).children :=
    fun p => Array.toList_inj.mp (h.children p)
  unfold Forest.siblings
  rw [h.parent, hrow]

end Reshaped

/-! ### Lineages -/

section Lineage

variable {f : Forest} (h : f.WellFormed)
include h

/-- A lineage only leads to older nodes. -/
theorem le_of_mem_lineage_go {n : Nat} {a id : NodeId} (ha : a ∈ lineage.go f n id) : a ≤ id := by
  induction n generalizing id with
  | zero => cases ha
  | succ n ih =>
    rw [lineage.go] at ha
    rcases List.mem_cons.mp ha with rfl | ha
    · exact Nat.le_refl _
    · split at ha
      · cases ha
      · exact Nat.le_trans (ih ha) (h.parent_le id)

theorem le_of_mem_lineage {a id : NodeId} (ha : a ∈ f.lineage id) : a ≤ id :=
  le_of_mem_lineage_go h ha

/-- More steps than a node is old add nothing to its lineage. -/
theorem lineage_go_eq {n m id : Nat} (hn : id < n) (hm : id < m) :
    lineage.go f n id = lineage.go f m id := by
  induction n generalizing m id with
  | zero => exact absurd hn (Nat.not_lt_zero _)
  | succ n ih =>
    cases m with
    | zero => exact absurd hm (Nat.not_lt_zero _)
    | succ m =>
      rw [lineage.go, lineage.go]
      by_cases hp : f.parent id = id
      · rw [if_pos hp, if_pos hp]
      · have hlt : f.parent id < id := Nat.lt_of_le_of_ne (h.parent_le id) hp
        rw [if_neg hp, if_neg hp, ih (Nat.lt_of_lt_of_le hlt (Nat.le_of_lt_succ hn))
          (Nat.lt_of_lt_of_le hlt (Nat.le_of_lt_succ hm))]

theorem lineage_eq (id : NodeId) :
    f.lineage id = id :: if f.parent id = id then [] else f.lineage (f.parent id) := by
  rw [lineage, lineage.go]
  split
  · rfl
  next hp =>
    have hlt : f.parent id < id := Nat.lt_of_le_of_ne (h.parent_le id) hp
    rw [lineage, lineage_go_eq h hlt (Nat.lt_succ_self _)]

theorem mem_lineage_iff {a id : NodeId} :
    a ∈ f.lineage id ↔ a = id ∨ f.parent id ≠ id ∧ a ∈ f.lineage (f.parent id) := by
  rw [lineage_eq h, List.mem_cons]
  split
  next hp => simp [hp]
  next hp => simp [hp]

/-- The strict ancestors of a child are its parent and the strict ancestors of that. -/
theorem mem_lineage_child {p c a : NodeId} (hc : c ∈ f.children p) (hac : a ≠ c) :
    a ∈ f.lineage c ↔ a ∈ f.lineage p := by
  obtain ⟨_, hne, rfl⟩ := (h.mem_children p c).mp hc
  rw [mem_lineage_iff h]
  simp [hac, Ne.symm hne]

/-- Of two members of a lineage, the older one is in the lineage of the other. -/
theorem mem_lineage_of_le {a b id : NodeId} (ha : a ∈ f.lineage id) (hb : b ∈ f.lineage id)
    (hab : a ≤ b) : a ∈ f.lineage b := by
  induction id using Nat.strongRecOn with
  | _ id ih =>
    rcases (mem_lineage_iff h).mp hb with rfl | ⟨hp, hb'⟩
    · exact ha
    · rcases (mem_lineage_iff h).mp ha with rfl | ⟨_, ha'⟩
      · -- `b` would be both above `a` and not older than it.
        have hlt : f.parent a < a := Nat.lt_of_le_of_ne (h.parent_le a) hp
        have hle : b ≤ f.parent a := le_of_mem_lineage h hb'
        exact absurd (Nat.le_trans hab hle) (Nat.not_le_of_lt hlt)
      · exact ih (f.parent id) (Nat.lt_of_le_of_ne (h.parent_le id) hp) ha' hb'

theorem mem_lineage_trans {a b id : NodeId} (ha : a ∈ f.lineage b) (hb : b ∈ f.lineage id) :
    a ∈ f.lineage id := by
  induction id using Nat.strongRecOn with
  | _ id ih =>
    rcases (mem_lineage_iff h).mp hb with rfl | ⟨hp, hb⟩
    · exact ha
    · have hlt : f.parent id < id := Nat.lt_of_le_of_ne (h.parent_le id) hp
      exact (mem_lineage_iff h).mpr (.inr ⟨hp, ih _ hlt hb⟩)

/-- Different children of a node have no descendant in common. -/
theorem eq_of_mem_lineage {p c d id : NodeId} (hc : c ∈ f.children p) (hd : d ∈ f.children p)
    (hci : c ∈ f.lineage id) (hdi : d ∈ f.lineage id) : c = d := by
  have hle : ∀ {x y : NodeId}, x ∈ f.children p → y ∈ f.children p → x ∈ f.lineage id →
      y ∈ f.lineage id → x ≤ y → x = y := by
    intro x y hx hy hxi hyi hxy
    refine Decidable.byContradiction fun hne => ?_
    have hxp : x ∈ f.lineage p :=
      (mem_lineage_child h hy hne).mp (mem_lineage_of_le h hxi hyi hxy)
    exact Nat.lt_irrefl _ (Nat.lt_of_lt_of_le (h.lt_of_mem_children hx) (le_of_mem_lineage h hxp))
  rcases Nat.le_total c d with hcd | hdc
  · exact hle hc hd hci hdi hcd
  · exact (hle hd hc hdi hci hdc).symm

end Lineage

/-! ### The order in which a tree is loaded -/

/-- Every node of the list stands behind its children, or these are among the nodes `seen` before,
unless nothing below it is listed. -/
def ChildrenFirst (f : Forest) (leave : NodeId → Bool) : List NodeId → List NodeId → Prop
  | _, [] => True
  | seen, id :: rest =>
    (leave id = false → ∀ c ∈ f.children id, c ∈ seen) ∧ ChildrenFirst f leave (id :: seen) rest

section Postorder

variable {f : Forest} {leave : NodeId → Bool}

theorem ChildrenFirst.append {seen first second : List NodeId}
    (h₁ : f.ChildrenFirst leave seen first)
    (h₂ : ∀ seen', first ⊆ seen' → seen ⊆ seen' → f.ChildrenFirst leave seen' second) :
    f.ChildrenFirst leave seen (first ++ second) := by
  induction first generalizing seen with
  | nil => exact h₂ seen (List.nil_subset _) (List.Subset.refl _)
  | cons id rest ih =>
    refine ⟨h₁.1, ih h₁.2 fun seen' hrest hseen => h₂ seen' ?_ ?_⟩
    · exact List.cons_subset.mpr ⟨hseen (List.mem_cons_self ..), hrest⟩
    · exact fun x hx => hseen (List.mem_cons_of_mem _ hx)

theorem postorder_go_append (n : Nat) (id : NodeId) (rest : List NodeId) :
    postorder.go f leave n id rest = postorder.go f leave n id [] ++ rest := by
  induction n generalizing id rest with
  | zero => rfl
  | succ n ih =>
    have hrow : ∀ (row last : List NodeId), row.foldr (postorder.go f leave n) (last ++ rest) =
        row.foldr (postorder.go f leave n) last ++ rest := by
      intro row last
      induction row with
      | nil => rfl
      | cons c row ihr =>
        rw [List.foldr_cons, List.foldr_cons, ihr, ih, ih c (row.foldr _ last), List.append_assoc]
    rw [postorder.go, postorder.go]
    split
    · rfl
    · exact hrow (f.children id) [id]

/-- A tree is listed as the trees of its children and its root behind them. -/
theorem postorder_go_succ (n : Nat) {id : NodeId} (h : leave id = false) :
    postorder.go f leave (n + 1) id [] =
      (f.children id).flatMap (fun c => postorder.go f leave n c []) ++ [id] := by
  have hrow : ∀ row : List NodeId, row.foldr (postorder.go f leave n) [id] =
      row.flatMap (fun c => postorder.go f leave n c []) ++ [id] := by
    intro row
    induction row with
    | nil => rfl
    | cons c row ihr =>
      rw [List.foldr_cons, ihr, postorder_go_append, List.flatMap_cons, List.append_assoc]
  rw [postorder.go, if_neg (by rw [h]; exact Bool.false_ne_true), hrow]

theorem postorder_go_of_leave (n : Nat) {id : NodeId} (h : leave id = true) :
    postorder.go f leave (n + 1) id [] = [id] := by
  rw [postorder.go, if_pos h]

theorem mem_postorder_go_self (n : Nat) (id : NodeId) :
    id ∈ postorder.go f leave (n + 1) id [] := by
  cases h : leave id with
  | true => rw [postorder_go_of_leave n h]; exact List.mem_singleton_self id
  | false =>
    rw [postorder_go_succ n h]
    exact List.mem_append_right _ (List.mem_singleton_self id)

/-- What holds of a node, and is handed down to children where these are listed, holds of everything
that is listed. -/
theorem of_mem_postorder_go {p : NodeId → Prop}
    (hdown : ∀ id, p id → leave id = false → ∀ c ∈ f.children id, p c) {n : Nat} {id x : NodeId}
    (hid : p id) (hx : x ∈ postorder.go f leave n id []) : p x := by
  induction n generalizing id with
  | zero => cases hx
  | succ n ih =>
    cases hl : leave id with
    | true =>
      rw [postorder_go_of_leave n hl, List.mem_singleton] at hx
      exact hx ▸ hid
    | false =>
      rw [postorder_go_succ n hl, List.mem_append, List.mem_flatMap, List.mem_singleton] at hx
      rcases hx with ⟨c, hc, hx⟩ | rfl
      · exact ih (hdown id hid hl c hc) hx
      · exact hid

variable (hf : f.WellFormed)
include hf

/-- Nothing is left out above the node. -/
def Reached (f : Forest) (leave : NodeId → Bool) (id : NodeId) : Prop :=
  ∀ a ∈ f.lineage id, a ≠ id → leave a = false

theorem Reached.child {id c : NodeId} (h : f.Reached leave id) (hl : leave id = false)
    (hc : c ∈ f.children id) : f.Reached leave c := by
  intro a ha hac
  by_cases hia : a = id
  · rw [hia, hl]
  · exact h a ((mem_lineage_child hf hc hac).mp ha) hia

theorem mem_lineage_self (id : NodeId) : id ∈ f.lineage id :=
  (mem_lineage_iff hf).mpr (.inl rfl)

/-- What is listed is below the node, and nothing is left out above it. -/
theorem mem_lineage_of_mem_postorder_go {n : Nat} {id x : NodeId} (hid : f.Reached leave id)
    (hx : x ∈ postorder.go f leave n id []) : id ∈ f.lineage x ∧ f.Reached leave x := by
  refine of_mem_postorder_go (p := fun x => id ∈ f.lineage x ∧ f.Reached leave x) ?_
    ⟨mem_lineage_self hf id, hid⟩ hx
  rintro x ⟨hx, hreached⟩ hl c hc
  have hxc : x ∈ f.lineage c :=
    (mem_lineage_child hf hc (Nat.ne_of_lt (hf.lt_of_mem_children hc))).mpr (mem_lineage_self hf x)
  exact ⟨mem_lineage_trans hf hx hxc, hreached.child hf hl hc⟩

theorem lt_size_of_mem_postorder_go {n : Nat} {id x : NodeId} (hid : id < f.size)
    (hx : x ∈ postorder.go f leave n id []) : x < f.size :=
  of_mem_postorder_go (p := (· < f.size))
    (fun id _ _ c hc => ((hf.mem_children id c).mp hc).1) hid hx

/-- No node is listed twice. -/
theorem nodup_postorder_go {n : Nat} {id : NodeId} (hid : f.Reached leave id) :
    (postorder.go f leave n id []).Nodup := by
  induction n generalizing id with
  | zero => exact .nil
  | succ n ih =>
    cases hl : leave id with
    | true =>
      rw [postorder_go_of_leave n hl]
      exact List.pairwise_singleton _ _
    | false =>
      rw [postorder_go_succ n hl, List.nodup_append]
      refine ⟨?_, List.pairwise_singleton _ _, ?_⟩
      · rw [List.Nodup, List.pairwise_flatMap]
        refine ⟨fun c hc => ih (hid.child hf hl hc), ?_⟩
        have hlt : (f.children id).Pairwise (· < ·) := hf.sorted id
        refine hlt.imp_of_mem fun {c d} hc hd hcd x hx y hy hxy => ?_
        -- A node in two trees would be below two children.
        subst hxy
        have hcx := (mem_lineage_of_mem_postorder_go hf (hid.child hf hl hc) hx).1
        have hdx := (mem_lineage_of_mem_postorder_go hf (hid.child hf hl hd) hy).1
        exact Nat.ne_of_lt hcd (eq_of_mem_lineage hf hc hd hcx hdx)
      · intro x hx y hy hxy
        rw [List.mem_singleton] at hy
        obtain ⟨c, hc, hx⟩ := List.mem_flatMap.mp hx
        have hcx := (mem_lineage_of_mem_postorder_go hf (hid.child hf hl hc) hx).1
        have hle : c ≤ x := le_of_mem_lineage hf hcx
        rw [hxy, hy] at hle
        exact Nat.not_le_of_lt (hf.lt_of_mem_children hc) hle

/-- Every node is listed behind its children. -/
theorem childrenFirst_postorder_go {n id : Nat} (hn : f.size ≤ id + n) (seen : List NodeId) :
    f.ChildrenFirst leave seen (postorder.go f leave n id []) := by
  induction n generalizing id seen with
  | zero => trivial
  | succ n ih =>
    cases hl : leave id with
    | true =>
      rw [postorder_go_of_leave n hl]
      refine ⟨fun h => ?_, trivial⟩
      rw [hl] at h
      cases h
    | false =>
      rw [postorder_go_succ n hl]
      have hchild : ∀ c ∈ f.children id, f.size ≤ c + n := by
        intro c hc
        have hlt : id < c := hf.lt_of_mem_children hc
        exact Nat.le_trans hn (by lia)
      have hrow : ∀ row : List NodeId, (∀ c ∈ row, f.size ≤ c + n) → ∀ seen,
          f.ChildrenFirst leave seen (row.flatMap fun c => postorder.go f leave n c []) := by
        intro row hr
        induction row with
        | nil => exact fun _ => trivial
        | cons c row ihr =>
          intro seen
          rw [List.flatMap_cons]
          exact (ih (hr c (List.mem_cons_self ..)) seen).append fun seen' _ _ =>
            ihr (fun d hd => hr d (List.mem_cons_of_mem _ hd)) seen'
      refine (hrow _ hchild seen).append fun seen' hseen _ => ⟨fun _ c hc => hseen ?_, trivial⟩
      refine List.mem_flatMap.mpr ⟨c, hc, ?_⟩
      -- A child is younger than its parent, so there are steps left to list it.
      have hc₀ : c < c + n := Nat.lt_of_lt_of_le ((hf.mem_children id c).mp hc).1 (hchild c hc)
      cases n with
      | zero => exact absurd hc₀ (Nat.lt_irrefl _)
      | succ n => exact mem_postorder_go_self n c

/-- A whole tree is listed with its root last; every node stands behind its children, once. -/
theorem postorder_spec (leave : NodeId → Bool) {root : NodeId} (hr : root < f.size)
    (hp : f.parent root = root) :
    f.ChildrenFirst leave [] (f.postorder leave root) ∧ (f.postorder leave root).Nodup ∧
      root ∈ f.postorder leave root ∧
      ∀ x ∈ f.postorder leave root, root ≤ x ∧ x < f.size ∧ f.Reached leave x := by
  have hroot : f.Reached leave root := by
    intro a ha hne
    rcases (mem_lineage_iff hf).mp ha with rfl | ⟨hp', _⟩
    · exact absurd rfl hne
    · exact absurd hp hp'
  refine ⟨childrenFirst_postorder_go hf (Nat.le_add_left _ _) [], nodup_postorder_go hf hroot, ?_,
    fun x hx => ?_⟩
  · unfold postorder
    cases hs : f.size with
    | zero => rw [hs] at hr; exact absurd hr (Nat.not_lt_zero _)
    | succ n => exact mem_postorder_go_self n root
  · obtain ⟨hmem, hreach⟩ := mem_lineage_of_mem_postorder_go hf hroot hx
    exact ⟨le_of_mem_lineage hf hmem, lt_size_of_mem_postorder_go hf hr hx, hreach⟩

end Postorder

/-! ### New trees -/

/-- A tree has grown behind the nodes of a forest: these are as they were, and the new ones hang
under the new root and have no shape yet. -/
structure Sprouts (f g : Forest) : Prop where
  wellFormed : g.WellFormed
  size_lt : f.size < g.size
  old : ∀ id, id < f.size → g.node id = f.node id
  le_parent : ∀ id, f.size ≤ id → f.size ≤ g.parent id
  /-- The new root is the only one. -/
  parent_lt : ∀ id, f.size < id → id < g.size → g.parent id < id
  unloaded : ∀ id, f.size ≤ id → g.shape id = .unloaded
  kind_root : g.kind f.size = .block

namespace Sprouts

variable {f g : Forest}

theorem parent_root (h : f.Sprouts g) : g.parent f.size = f.size :=
  Nat.le_antisymm (h.wellFormed.parent_le _) (h.le_parent _ (Nat.le_refl _))

theorem addRoot (h : f.WellFormed) (line : Nat) : f.Sprouts (f.addRoot line) where
  wellFormed := h.addRoot line
  size_lt := by rw [size_addRoot]; exact Nat.lt_succ_self _
  old id hid := by rw [node_addRoot, if_neg (Nat.ne_of_lt hid)]
  le_parent id hid := by
    rw [Forest.parent, node_addRoot]
    split
    · exact Nat.le_refl _
    · rw [node_of_size_le hid]
      exact hid
  parent_lt id hid hlt := by
    rw [size_addRoot] at hlt
    omega
  unloaded id hid := by
    rw [Forest.shape, node_addRoot]
    split
    · rfl
    · rw [node_of_size_le hid]
  kind_root := by rw [Forest.kind, node_addRoot, if_pos rfl]

theorem attach (h : f.Sprouts g) {p : NodeId} (hfp : f.size ≤ p) (hp : p < g.size)
    (kind : NodeKind) (line : Nat) : f.Sprouts (g.attach p kind line) where
  wellFormed := h.wellFormed.attach hp kind line
  size_lt := by rw [size_attach]; exact Nat.lt_succ_of_lt h.size_lt
  old id hid := by
    have hgs : id ≠ g.size := Nat.ne_of_lt (Nat.lt_trans hid h.size_lt)
    have hidp : id ≠ p := Nat.ne_of_lt (Nat.lt_of_lt_of_le hid hfp)
    rw [node_attach hp, if_neg hgs, if_neg hidp, h.old id hid]
  le_parent id hid := by
    rw [parent_attach hp]
    split
    · exact hfp
    · exact h.le_parent id hid
  parent_lt id hid hlt := by
    rw [size_attach] at hlt
    rw [parent_attach hp]
    split
    next he => exact he ▸ hp
    next hne => exact h.parent_lt id hid (Nat.lt_of_le_of_ne (Nat.le_of_lt_succ hlt) hne)
  unloaded id hid := by rw [shape_attach hp, h.unloaded id hid]
  kind_root := by rw [kind_attach hp, if_neg (Nat.ne_of_lt h.size_lt), h.kind_root]

/-- The way up from a new node stays among the new nodes. -/
theorem le_of_mem_lineage (h : f.Sprouts g) {a id : NodeId} (hid : f.size ≤ id)
    (ha : a ∈ g.lineage id) : f.size ≤ a := by
  induction id using Nat.strongRecOn with
  | _ id ih =>
    rcases (mem_lineage_iff h.wellFormed).mp ha with rfl | ⟨hp, ha⟩
    · exact hid
    · exact ih _ (Nat.lt_of_le_of_ne (h.wellFormed.parent_le id) hp) (h.le_parent id hid) ha

theorem of_nearest? (h : f.Sprouts g) {p : NodeId → Bool} {id x : NodeId} (hid : f.size ≤ id)
    (hlt : id < g.size) (hx : g.nearest? p id = some x) : f.size ≤ x ∧ x < g.size := by
  rw [nearest?_eq_find?_lineage] at hx
  have hmem : x ∈ g.lineage id := List.mem_of_find?_eq_some hx
  exact ⟨h.le_of_mem_lineage hid hmem,
    Nat.lt_of_le_of_lt (Forest.le_of_mem_lineage h.wellFormed hmem) hlt⟩

end Sprouts

end Forest

/-! ### Reading a source -/

namespace Builder

open Forest

/-- A tree grows behind the nodes of a forest, and the builder stays in the new tree. -/
structure Grows (f : Forest) (b : Builder) : Prop where
  sprouts : f.Sprouts b.forest
  root : b.root = f.size
  le_cursor : f.size ≤ b.cursor
  cursor_lt : b.cursor < b.forest.size
  scopes : ∀ s ∈ b.scopes, f.size ≤ s ∧ s < b.forest.size

namespace Grows

variable {f : Forest} {b : Builder}

theorem start (h : f.WellFormed) : Grows f (Builder.start f) where
  sprouts := .addRoot h 1
  root := rfl
  le_cursor := Nat.le_refl _
  cursor_lt := (Sprouts.addRoot h 1).size_lt
  scopes s hs := by cases hs

/-- The cursor may move to any node of the new tree. -/
theorem move (h : Grows f b) {id : NodeId} (hid : f.size ≤ id) (hlt : id < b.forest.size) :
    Grows f { b with cursor := id } :=
  { h with le_cursor := hid, cursor_lt := hlt }

theorem move_parent (h : Grows f b) {id : NodeId} (hid : f.size ≤ id) (hlt : id < b.forest.size) :
    Grows f { b with cursor := b.forest.parent id } :=
  h.move (h.sprouts.le_parent id hid) (h.sprouts.wellFormed.parent_lt_size hlt)

theorem boundary (h : Grows f b) : f.size ≤ b.boundary ∧ b.boundary < b.forest.size := by
  unfold Builder.boundary
  cases hs : b.scopes with
  | nil =>
    show f.size ≤ b.root ∧ b.root < b.forest.size
    rw [h.root]
    exact ⟨Nat.le_refl _, h.sprouts.size_lt⟩
  | cons s rest => exact h.scopes s (hs ▸ List.mem_cons_self ..)

theorem attach (h : Grows f b) (kind : NodeKind) (line : Nat) : Grows f (b.attach kind line) where
  sprouts := h.sprouts.attach h.le_cursor h.cursor_lt kind line
  root := h.root
  le_cursor := h.le_cursor
  cursor_lt := by
    show b.cursor < (b.forest.attach b.cursor kind line).size
    rw [size_attach]
    exact Nat.lt_succ_of_lt h.cursor_lt
  scopes s hs := by
    show f.size ≤ s ∧ s < (b.forest.attach b.cursor kind line).size
    rw [size_attach]
    exact ⟨(h.scopes s hs).1, Nat.lt_succ_of_lt (h.scopes s hs).2⟩

theorem descend (h : Grows f b) (kind : NodeKind) (line : Nat) : Grows f (b.descend kind line) := by
  refine (h.attach kind line).move (Nat.le_of_lt h.sprouts.size_lt) ?_
  show b.forest.size < (b.forest.attach b.cursor kind line).size
  rw [size_attach]
  exact Nat.lt_succ_self _

theorem separate (h : Grows f b) : Grows f b.separate := by
  unfold Builder.separate
  split
  · exact h.move_parent h.le_cursor h.cursor_lt
  · exact h.move h.boundary.1 h.boundary.2

theorem closeGroup (h : Grows f b) : Grows f b.closeGroup := by
  unfold Builder.closeGroup
  dsimp only
  split
  · exact h
  next id hid =>
    obtain ⟨hle, hlt⟩ := h.sprouts.of_nearest? h.le_cursor h.cursor_lt hid
    split
    · have hp := h.move_parent hle hlt
      split
      · exact hp.move_parent hp.le_cursor hp.cursor_lt
      · exact hp
    · exact h

theorem closeIndex (h : Grows f b) : Grows f b.closeIndex := by
  unfold Builder.closeIndex
  split
  next id hid =>
    have hn := (Option.filter_eq_some_iff.mp hid).1
    obtain ⟨hle, hlt⟩ := h.sprouts.of_nearest? h.le_cursor h.cursor_lt hn
    exact h.move_parent hle hlt
  · exact h

theorem openBlock (h : Grows f b) (line : Nat) : Grows f (b.openBlock line) := by
  have hd := h.descend .block line
  refine { hd with scopes := fun s hs => ?_ }
  rcases List.mem_cons.mp hs with rfl | hs
  · exact ⟨hd.le_cursor, hd.cursor_lt⟩
  · exact hd.scopes s hs

theorem closeBlock (h : Grows f b) : Grows f b.closeBlock := by
  have ht : Grows f { b with scopes := b.scopes.tail } :=
    { h with scopes := fun s hs => h.scopes s (List.mem_of_mem_tail hs) }
  exact ht.move ht.boundary.1 ht.boundary.2

theorem consume (h : Grows f b) (token : Token) : Grows f (b.consume token) := by
  unfold Builder.consume
  dsimp only
  split
  · unfold Builder.name
    split
    · exact h.descend _ _
    · exact h.attach _ _
  · exact h.descend _ _
  · exact h.attach _ _
  · unfold Builder.mark
    split
    · exact h.separate
    · exact h.descend _ _
    · exact h.closeGroup
    · exact h.openBlock _
    · exact h.closeBlock
    · exact h.descend _ _
    · exact h.closeIndex
    · exact h.attach _ _
    · exact h.attach _ _
  iterate 4 exact h.attach _ _
  exact h

/-- Reading tokens only grows the new tree. -/
theorem consumeAll (h : Grows f b) (tokens : List Token) : Grows f (b.consumeAll tokens).1 := by
  induction tokens generalizing b with
  | nil => exact h
  | cons token rest ih =>
    unfold Builder.consumeAll
    split
    · exact h
    · exact ih (h.consume token)

end Grows

theorem forest_separate (b : Builder) : b.separate.forest = b.forest := by
  unfold separate
  split <;> rfl

theorem forest_closeGroup (b : Builder) : b.closeGroup.forest = b.forest := by
  unfold closeGroup
  dsimp only
  split
  · rfl
  · split
    · split <;> rfl
    · rfl

theorem forest_closeIndex (b : Builder) : b.closeIndex.forest = b.forest := by
  unfold closeIndex
  split <;> rfl

/-- A token hangs at most one node into the tree, which is a keyword only if the token is one. -/
theorem forest_consume (b : Builder) (token : Token) :
    (b.consume token).forest = b.forest ∨
      ∃ kind, (b.consume token).forest = b.forest.attach b.cursor kind token.position.line ∧
        ∀ k, kind = .keyword k → token.kind = .keyword k := by
  have hname : ∃ kind, (b.name token.lexeme token.position.line).forest =
      b.forest.attach b.cursor kind token.position.line ∧ ∀ k, kind ≠ .keyword k := by
    unfold name
    split <;> exact ⟨_, rfl, fun k hk => nomatch hk⟩
  unfold consume
  cases token.kind with
  | name =>
    obtain ⟨kind, hf, hk⟩ := hname
    exact .inr ⟨kind, hf, fun k h => absurd h (hk k)⟩
  | keyword k => exact .inr ⟨.keyword k, rfl, fun k' hk => by cases hk; rfl⟩
  | mark m =>
    cases m with
    | separator => exact .inl b.forest_separate
    | closeGroup => exact .inl b.forest_closeGroup
    | closeIndex => exact .inl b.forest_closeIndex
    | closeBlock => exact .inl rfl
    | openGroup | openBlock | openIndex | comma | colon =>
      exact .inr ⟨_, rfl, fun k hk => nomatch hk⟩
  | endOfText => exact .inl rfl
  | operator op => exact .inr ⟨.operator op, rfl, fun k hk => nomatch hk⟩
  | str s => exact .inr ⟨.literal (.str s), rfl, fun k hk => nomatch hk⟩
  | int n => exact .inr ⟨.literal (.int n), rfl, fun k hk => nomatch hk⟩
  | float x => exact .inr ⟨.literal (.float x), rfl, fun k hk => nomatch hk⟩
  | bool v => exact .inr ⟨.literal (.bool v), rfl, fun k hk => nomatch hk⟩

end Builder

namespace Forest

/-- Reading a source grows a new tree, whether the source is refused or not. -/
theorem parse_sprouts {f : Forest} (h : f.WellFormed) (source : String) :
    f.Sprouts (f.parse source).1 := by
  have hg := (Builder.Grows.start h).consumeAll (Scan.ofText source).tokens
  unfold Forest.parse
  dsimp only
  split <;> exact hg.sprouts

/-- The root of a source that is not refused is the first new node. -/
theorem parse_root {f : Forest} (h : f.WellFormed) {source : String} {root : NodeId}
    (hr : (f.parse source).2 = .ok root) : root = f.size := by
  have hg := (Builder.Grows.start h).consumeAll (Scan.ofText source).tokens
  unfold Forest.parse at hr
  dsimp only at hr
  split at hr
  · cases hr
  · cases hr
    exact hg.root

end Forest

end TagLang
