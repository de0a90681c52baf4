import Mathlib.Data.Finset.Card
import Mathlib.Order.Interval.Finset.Nat
import TagLang.Proofs.Correspondence
import TagLang.Proofs.Rows

/-!
# One tree in two forests

Two trees have grown behind the nodes of one forest.  They are the same tree, lines aside, but for
the order in which the statements of the root stand.  `Forest.Paired` relates the nodes that stand
at the same place, once the statements have been put in the same order.

Nodes are paired one to one (`Forest.Listed.unique`, `Forest.Twins.total`), so the two forests have
the same size.  The name that a node has in the other forest is its `Forest.counterpart`; old nodes
have the name they had.  Where one statement has moved, this gives a correspondence
(`Forest.exists_moved`).
-/

namespace TagLang

open Script

namespace Forest

/-! ### Trees at nodes -/

theorem BearsAll.length_eq {f : Forest} {a : NodeId} {trees : List Tree} {ids : List NodeId}
    (h : f.BearsAll a trees ids) : ids.length = trees.length := by
  induction trees generalizing ids with
  | nil => rw [BearsAll.nil_iff.mp h, List.length_nil, List.length_nil]
  | cons t trees ih =>
    obtain ⟨id, more, rfl, _, hmore⟩ := BearsAll.cons_iff.mp h
    rw [List.length_cons, List.length_cons, ih hmore]

theorem BearsAll.exists_getElem? {f : Forest} {a : NodeId} {trees : List Tree} {ids : List NodeId}
    (h : f.BearsAll a trees ids) {i : Nat} {c : NodeId} (hc : ids[i]? = some c) :
    ∃ t, trees[i]? = some t ∧ f.Bears a t c := by
  induction trees generalizing ids i with
  | nil =>
    rw [BearsAll.nil_iff.mp h] at hc
    cases hc
  | cons t trees ih =>
    obtain ⟨id, more, rfl, ht, hmore⟩ := BearsAll.cons_iff.mp h
    cases i with
    | zero =>
      cases hc
      exact ⟨t, rfl, ht⟩
    | succ i => exact ih hmore hc

/-- Some tree stands at every node. -/
theorem exists_bears {f : Forest} (hf : f.WellFormed) {a id : NodeId} (ha : a ≤ id)
    (hid : id < f.size) : ∃ t, f.Bears a t id := by
  -- Children are younger, so there are fewer nodes behind a child than behind its parent.
  induction hn : f.size - id using Nat.strongRecOn generalizing id with
  | _ n ih =>
    have hrow : ∀ ids, (∀ c ∈ ids, c ∈ f.children id) → ∃ trees, f.BearsAll a trees ids := by
      intro ids hids
      induction ids with
      | nil => exact ⟨[], trivial⟩
      | cons c rest ihr =>
        have hc := hids c (List.mem_cons_self ..)
        have hlt := hf.lt_of_mem_children hc
        have hsize := ((hf.mem_children id c).mp hc).1
        obtain ⟨t, ht⟩ := ih (f.size - c) (hn ▸ Nat.sub_lt_sub_left hid hlt)
          (Nat.le_trans ha (Nat.le_of_lt hlt)) hsize rfl
        obtain ⟨trees, htrees⟩ := ihr fun d hd => hids d (List.mem_cons_of_mem _ hd)
        exact ⟨t :: trees, ht, htrees⟩
    obtain ⟨trees, htrees⟩ := hrow (f.children id) fun _ hc => hc
    exact ⟨.node (f.kind id) trees, ⟨ha, hid, rfl⟩, htrees⟩

/-! ### Nodes at the same place -/

/-- The two nodes stand at the same place, if the children of each node stand in the order of its
row. -/
inductive Paired (root : NodeId) (row row' : NodeId → List NodeId) : NodeId → NodeId → Prop where
  | root : Paired root row row' root root
  | child {p q c c' : NodeId} {i : Nat} (h : Paired root row row' p q) (hc : (row p)[i]? = some c)
    (hc' : (row' q)[i]? = some c') : Paired root row row' c c'

theorem Paired.swap {root : NodeId} {row row' : NodeId → List NodeId} {x y : NodeId}
    (h : Paired root row row' x y) : Paired root row' row y x := by
  induction h with
  | root => exact .root
  | child _ hc hc' ih => exact .child ih hc' hc

/-- A tree has grown behind a forest, and each row has the children of a node, in some order. -/
structure Listed (f₀ f : Forest) (row : NodeId → List NodeId) : Prop where
  sprouts : f₀.Sprouts f
  perm : ∀ p, (row p).Perm (f.children p)

namespace Listed

variable {f₀ f : Forest} {row row' : NodeId → List NodeId} (h : Listed f₀ f row)
include h

theorem mem_iff {p c : NodeId} : c ∈ row p ↔ c < f.size ∧ c ≠ p ∧ f.parent c = p :=
  (h.perm p).mem_iff.trans (h.sprouts.wellFormed.mem_children p c)

theorem lt {p c : NodeId} (hc : c ∈ row p) : p < c :=
  h.sprouts.wellFormed.lt_of_mem_children ((h.perm p).mem_iff.mp hc)

theorem ne_root {p c : NodeId} (hc : c ∈ row p) : c ≠ f₀.size := by
  rintro rfl
  obtain ⟨_, hne, hp⟩ := h.mem_iff.mp hc
  exact hne (h.sprouts.parent_root.symm.trans hp)

theorem nodup (p : NodeId) : (row p).Nodup :=
  (h.perm p).nodup_iff.mpr ((h.sprouts.wellFormed.sorted p).imp Nat.ne_of_lt)

/-- Only nodes of the new tree are paired. -/
theorem range {x y : NodeId} (hp : Paired f₀.size row row' x y) : f₀.size ≤ x ∧ x < f.size := by
  induction hp with
  | root => exact ⟨Nat.le_refl _, h.sprouts.size_lt⟩
  | child _ hc _ ih =>
    have hmem := List.mem_of_getElem? hc
    exact ⟨Nat.le_trans ih.1 (Nat.le_of_lt (h.lt hmem)), (h.mem_iff.mp hmem).1⟩

/-- A node is paired with one node only: its place is given by its parent and its index there. -/
theorem unique {x y y' : NodeId} (hp : Paired f₀.size row row' x y)
    (hp' : Paired f₀.size row row' x y') : y = y' := by
  induction hp generalizing y' with
  | root =>
    cases hp' with
    | root => rfl
    | child _ hc _ => exact absurd rfl (h.ne_root (List.mem_of_getElem? hc))
  | @child p q c c' i hpq hc hc' ih =>
    have hmem := List.mem_of_getElem? hc
    cases hp' with
    | root => exact absurd rfl (h.ne_root hmem)
    | @child p₂ q₂ _ _ j hpq₂ hd hd' =>
      have hparent : p = p₂ :=
        (h.mem_iff.mp hmem).2.2.symm.trans (h.mem_iff.mp (List.mem_of_getElem? hd)).2.2
      subst hparent
      have hindex : i = j := by
        have hlt : i < (row p).length := (List.getElem?_eq_some_iff.mp hc).1
        exact (List.getElem?_inj hlt (h.nodup p)).mp (hc.trans hd.symm)
      subst hindex
      rw [← ih hpq₂] at hd'
      exact Option.some_inj.mp (hc'.symm.trans hd')

end Listed

/-- Two trees have grown behind a forest, and they are the same if their nodes are listed in the
order of the rows. -/
structure Twins (f₀ f g : Forest) (row row' : NodeId → List NodeId) : Prop where
  left : Listed f₀ f row
  right : Listed f₀ g row'
  kind : ∀ {x y}, Paired f₀.size row row' x y → g.kind y = f.kind x
  length : ∀ {x y}, Paired f₀.size row row' x y → (row' y).length = (row x).length

open Classical in
/-- The node that is related to a node; if there is none, the node itself. -/
noncomputable def counterpart (r : NodeId → NodeId → Prop) (id : NodeId) : NodeId :=
  if h : ∃ y, r id y then h.choose else id

namespace Twins

variable {f₀ f g : Forest} {row row' : NodeId → List NodeId}

theorem swap (h : Twins f₀ f g row row') : Twins f₀ g f row' row where
  left := h.right
  right := h.left
  kind hp := (h.kind hp.swap).symm
  length hp := (h.length hp.swap).symm

variable (h : Twins f₀ f g row row')
include h

theorem exists_child {p q c : NodeId} (hp : Paired f₀.size row row' p q) {i : Nat}
    (hc : (row p)[i]? = some c) : ∃ c', (row' q)[i]? = some c' ∧ Paired f₀.size row row' c c' := by
  have hlt : i < (row' q).length := by
    rw [h.length hp]
    exact (List.getElem?_eq_some_iff.mp hc).1
  exact ⟨_, List.getElem?_eq_getElem hlt, hp.child hc (List.getElem?_eq_getElem hlt)⟩

/-- Every node of the new tree is paired. -/
theorem total {x : NodeId} (hle : f₀.size ≤ x) (hlt : x < f.size) :
    ∃ y, Paired f₀.size row row' x y := by
  induction x using Nat.strongRecOn with
  | _ x ih =>
    rcases Nat.eq_or_lt_of_le hle with rfl | hgt
    · exact ⟨_, .root⟩
    · have hparent := h.left.sprouts.parent_lt x hgt hlt
      obtain ⟨q, hq⟩ := ih _ hparent (h.left.sprouts.le_parent x hle) (Nat.lt_trans hparent hlt)
      obtain ⟨i, hi⟩ := List.mem_iff_getElem?.mp
        (h.left.mem_iff.mpr ⟨hlt, Nat.ne_of_gt hparent, rfl⟩)
      obtain ⟨y, _, hy⟩ := h.exists_child hq hi
      exact ⟨y, hy⟩

theorem counterpart_eq {x y : NodeId} (hp : Paired f₀.size row row' x y) :
    counterpart (Paired f₀.size row row') x = y := by
  have hex : ∃ y, Paired f₀.size row row' x y := ⟨y, hp⟩
  rw [counterpart, dif_pos hex]
  exact h.left.unique hex.choose_spec hp

theorem paired {x : NodeId} (hle : f₀.size ≤ x) (hlt : x < f.size) :
    Paired f₀.size row row' x (counterpart (Paired f₀.size row row') x) := by
  obtain ⟨y, hy⟩ := h.total hle hlt
  rw [h.counterpart_eq hy]
  exact hy

theorem counterpart_self {x : NodeId} (hx : ¬(f₀.size ≤ x ∧ x < f.size)) :
    counterpart (Paired f₀.size row row') x = x := by
  rw [counterpart, dif_neg]
  rintro ⟨y, hy⟩
  exact hx (h.left.range hy)

/-- The new tree of the first forest has at most as many nodes as that of the second. -/
theorem size_le : f.size ≤ g.size := by
  have hmaps : ∀ x ∈ Finset.Ico f₀.size f.size,
      counterpart (Paired f₀.size row row') x ∈ Finset.Ico f₀.size g.size := by
    intro x hx
    rw [Finset.mem_Ico] at hx ⊢
    exact h.right.range (h.paired hx.1 hx.2).swap
  have hinj : Set.InjOn (counterpart (Paired f₀.size row row')) (Finset.Ico f₀.size f.size) := by
    intro x hx y hy hxy
    rw [Finset.coe_Ico, Set.mem_Ico] at hx hy
    have hp := (h.paired hx.1 hx.2).swap
    rw [hxy] at hp
    exact h.right.unique hp (h.paired hy.1 hy.2).swap
  have hcard := Finset.card_le_card_of_injOn _ hmaps hinj
  rw [Nat.card_Ico, Nat.card_Ico] at hcard
  have := h.left.sprouts.size_lt
  have := h.right.sprouts.size_lt
  omega

theorem size_eq : g.size = f.size :=
  Nat.le_antisymm h.swap.size_le h.size_le

/-- Going to the other forest and back leads to the same node. -/
theorem counterpart_counterpart (x : NodeId) :
    counterpart (Paired f₀.size row' row) (counterpart (Paired f₀.size row row') x) = x := by
  by_cases hx : f₀.size ≤ x ∧ x < f.size
  · exact h.swap.counterpart_eq (h.paired hx.1 hx.2).swap
  · rw [h.counterpart_self hx, h.swap.counterpart_self (h.size_eq ▸ hx)]

theorem counterpart_injective (x y : NodeId)
    (hxy : counterpart (Paired f₀.size row row') x = counterpart (Paired f₀.size row row') y) :
    x = y := by
  rw [← h.counterpart_counterpart x, hxy, h.counterpart_counterpart]

/-- The row of a node has the counterparts of the other row. -/
theorem row_eq {p q : NodeId} (hp : Paired f₀.size row row' p q) :
    row' q = (row p).map (counterpart (Paired f₀.size row row')) := by
  apply List.ext_getElem?
  intro i
  rw [List.getElem?_map]
  cases hc : (row p)[i]? with
  | none =>
    rw [List.getElem?_eq_none_iff] at hc
    exact List.getElem?_eq_none (h.length hp ▸ hc)
  | some c =>
    obtain ⟨c', hc', hpaired⟩ := h.exists_child hp hc
    rw [hc', Option.map_some, h.counterpart_eq hpaired]

/-- Outside the new trees the forests are the same. -/
theorem node_eq {x : NodeId} (hx : ¬(f₀.size ≤ x ∧ x < f.size)) : g.node x = f.node x := by
  rcases Nat.lt_or_ge x f₀.size with hlt | hge
  · rw [h.left.sprouts.old x hlt, h.right.sprouts.old x hlt]
  · have hsize : f.size ≤ x := Nat.not_lt.mp fun hlt => hx ⟨hge, hlt⟩
    rw [node_of_size_le hsize, node_of_size_le (h.size_eq ▸ hsize)]

/-- A node outside the new tree has its parent outside. -/
theorem parent_outside {x : NodeId} (hx : ¬(f₀.size ≤ x ∧ x < f.size)) :
    ¬(f₀.size ≤ f.parent x ∧ f.parent x < f.size) := by
  rcases Nat.lt_or_ge x f₀.size with hlt | hge
  · have hparent := h.left.sprouts.wellFormed.parent_le x
    exact fun hp => Nat.lt_irrefl _ (Nat.lt_of_le_of_lt (Nat.le_trans hp.1 hparent) hlt)
  · have hsize : f.size ≤ x := Nat.not_lt.mp fun hlt => hx ⟨hge, hlt⟩
    rw [Forest.parent, node_of_size_le hsize]
    exact hx

theorem kind_eq (x : NodeId) : g.kind (counterpart (Paired f₀.size row row') x) = f.kind x := by
  by_cases hx : f₀.size ≤ x ∧ x < f.size
  · exact h.kind (h.paired hx.1 hx.2)
  · rw [h.counterpart_self hx, Forest.kind, h.node_eq hx]
    rfl

theorem parent_eq (x : NodeId) : g.parent (counterpart (Paired f₀.size row row') x) =
    counterpart (Paired f₀.size row row') (f.parent x) := by
  by_cases hx : f₀.size ≤ x ∧ x < f.size
  · have hp := h.paired hx.1 hx.2
    generalize counterpart (Paired f₀.size row row') x = y at hp
    cases hp with
    | root =>
      rw [h.left.sprouts.parent_root, h.right.sprouts.parent_root, h.counterpart_eq .root]
    | child hpq hc hc' =>
      rw [(h.left.mem_iff.mp (List.mem_of_getElem? hc)).2.2,
        (h.right.mem_iff.mp (List.mem_of_getElem? hc')).2.2, h.counterpart_eq hpq]
  · rw [h.counterpart_self hx, h.counterpart_self (h.parent_outside hx), Forest.parent,
      h.node_eq hx]
    rfl

/-- Where the rows are those of the forests, children correspond one by one. -/
theorem children_eq {x : NodeId} (hrow : row x = f.children x)
    (hrow' : ∀ y, Paired f₀.size row row' x y → row' y = g.children y) :
    g.children (counterpart (Paired f₀.size row row') x) =
      (f.children x).map (counterpart (Paired f₀.size row row')) := by
  by_cases hx : f₀.size ≤ x ∧ x < f.size
  · have hp := h.paired hx.1 hx.2
    rw [← hrow' _ hp, h.row_eq hp, hrow]
  · have hself : ∀ c ∈ f.children x, counterpart (Paired f₀.size row row') c = c := by
      intro c hc
      apply h.counterpart_self
      intro hrange
      have hparent := ((h.left.sprouts.wellFormed.mem_children x c).mp hc).2.2
      have hle := h.left.sprouts.le_parent c hrange.1
      rw [hparent] at hle
      exact hx ⟨hle, Nat.lt_trans (h.left.sprouts.wellFormed.lt_of_mem_children hc) hrange.2⟩
    rw [h.counterpart_self hx, Forest.children, h.node_eq hx]
    exact ((List.map_congr_left hself).trans (List.map_id _)).symm

end Twins

/-! ### A statement that has moved -/

/-- The children of a node, with those of the root in another order. -/
def rowWith (f : Forest) (root : NodeId) (top : List NodeId) (id : NodeId) : List NodeId :=
  if id = root then top else f.children id

theorem Listed.rowWith {f₀ f : Forest} (hs : f₀.Sprouts f) {top : List NodeId}
    (htop : top.Perm (f.children f₀.size)) : Listed f₀ f (f.rowWith f₀.size top) where
  sprouts := hs
  perm p := by
    unfold Forest.rowWith
    split
    next h => exact h ▸ htop
    next => exact .refl _

/-- Trees are the same if the statements of their roots are, in some order. -/
theorem Twins.of_bears {f₀ f g : Forest} (hf : f₀.Sprouts f) (hg : f₀.Sprouts g)
    {top top' : List NodeId} (htop : top.Perm (f.children f₀.size))
    (htop' : top'.Perm (g.children f₀.size)) {ts : List Tree} (hts : f.BearsAll f₀.size ts top)
    (hts' : g.BearsAll f₀.size ts top') :
    Twins f₀ f g (f.rowWith f₀.size top) (g.rowWith f₀.size top') := by
  have left := Listed.rowWith hf htop
  have right := Listed.rowWith hg htop'
  have hsame : ∀ {x y}, Paired f₀.size (f.rowWith f₀.size top) (g.rowWith f₀.size top') x y →
      g.kind y = f.kind x ∧ ∃ us, f.BearsAll f₀.size us (f.rowWith f₀.size top x) ∧
        g.BearsAll f₀.size us (g.rowWith f₀.size top' y) := by
    intro x y hp
    induction hp with
    | root =>
      refine ⟨hg.kind_root.trans hf.kind_root.symm, ts, ?_⟩
      simp only [Forest.rowWith]
      exact ⟨hts, hts'⟩
    | child _ hc hc' ih =>
      obtain ⟨_, us, hus, hus'⟩ := ih
      obtain ⟨t, ht, hbears⟩ := hus.exists_getElem? hc
      obtain ⟨t', ht', hbears'⟩ := hus'.exists_getElem? hc'
      cases ht.symm.trans ht'
      refine ⟨hbears'.stands.kind_eq.trans hbears.stands.kind_eq.symm, ?_⟩
      -- Below a statement, the children stand in the order of the forest.
      simp only [Forest.rowWith, if_neg (left.ne_root (List.mem_of_getElem? hc)),
        if_neg (right.ne_root (List.mem_of_getElem? hc'))]
      cases t with
      | node kind us => exact ⟨us, hbears.2, hbears'.2⟩
  constructor
  case left => exact left
  case right => exact right
  case kind => exact fun hp => (hsame hp).1
  case length =>
    intro x y hp
    obtain ⟨_, us, hus, hus'⟩ := hsame hp
    rw [hus'.length_eq, hus.length_eq]

/-- Two trees have grown behind a forest.  Their nodes correspond, whatever the lines, but the
statement `c` of the first root may stand elsewhere below the second one. -/
structure Moved (κ : Correspondence) (f₀ f g : Forest) (c : NodeId) :
    Prop extends Skeleton κ f g where
  left : f₀.Sprouts f
  right : f₀.Sprouts g
  statement : c ∈ f.children f₀.size
  loose_iff : ∀ id, κ.loose id ↔ id = c
  old : ∀ id, id < f₀.size → κ.node id = id
  root : κ.node f₀.size = f₀.size
  le_iff : ∀ id, f₀.size ≤ κ.node id ↔ f₀.size ≤ id
  onto : ∀ id, ∃ id₀, κ.node id₀ = id
  children_eq : ∀ id, id ≠ f₀.size → g.children (κ.node id) = (f.children id).map κ.node

namespace Twins

/-- Nodes have the names of their counterparts, lines do not matter, and one statement is loose. -/
noncomputable def correspondence {f₀ f g : Forest} {row row' : NodeId → List NodeId}
    (h : Twins f₀ f g row row') (c : NodeId) (hc : c < f.size) : Correspondence where
  node := counterpart (Paired f₀.size row row')
  line _ _ := True
  loose id := id = c
  bound := f.size
  injective := h.counterpart_injective
  line_self _ := trivial
  loose_lt _ he := he ▸ hc

variable {f₀ f g : Forest} {a b a' b' : List NodeId} {c c' : NodeId}
  (h : Twins f₀ f g (f.rowWith f₀.size (c :: (a ++ b))) (g.rowWith f₀.size (c' :: (a' ++ b'))))
  (hc : c < f.size)
include h

theorem statements_eq : (h.correspondence c hc).node c = c' ∧
    (a ++ b).map (h.correspondence c hc).node = a' ++ b' := by
  have hrow := h.row_eq .root
  simp only [Forest.rowWith, if_true, List.map_cons, List.cons.injEq] at hrow
  exact ⟨hrow.1.symm, hrow.2.symm⟩

theorem correspondence_children {id : NodeId} (hid : id ≠ f₀.size) :
    g.children ((h.correspondence c hc).node id) =
      (f.children id).map (h.correspondence c hc).node := by
  apply h.children_eq
  · exact if_neg hid
  · intro y hy
    have hne : y ≠ f₀.size := by
      rintro rfl
      exact hid (h.right.unique hy.swap .root)
    exact if_neg hne

theorem skeleton (hrow : f.children f₀.size = a ++ c :: b)
    (hrow' : g.children f₀.size = a' ++ c' :: b') : Skeleton (h.correspondence c hc) f g where
  fresh i := by
    rw [h.size_eq]
    exact h.counterpart_self fun hi => Nat.not_lt.mpr (Nat.le_add_right _ i) hi.2
  kind := h.kind_eq
  line _ := trivial
  parent := h.parent_eq
  row id := by
    by_cases hid : id = f₀.size
    · subst hid
      have hroot : (h.correspondence c hc).node f₀.size = f₀.size := h.counterpart_eq .root
      obtain ⟨hmoved, hothers⟩ := h.statements_eq hc
      -- The other statements keep their order, wherever the moved one stands.
      obtain ⟨a₂, b₂, hcut, ha, hb⟩ := List.map_eq_append_iff.mp hothers
      have hnew : (a₂ ++ c :: b₂).map (h.correspondence c hc).node = a' ++ c' :: b' := by
        rw [List.map_append, List.map_cons, ha, hb, hmoved]
      rw [hroot, hrow, hrow', ← hnew]
      exact .moved rfl hcut
    · rw [h.correspondence_children hc hid]
      exact .same _
  bound_le := Nat.le_refl _
  le_parent id hid := by
    rw [Forest.parent, node_of_size_le hid]
    exact hid
  source := h.left.sprouts.wellFormed
  target := h.right.sprouts.wellFormed

theorem moved (hrow : f.children f₀.size = a ++ c :: b)
    (hrow' : g.children f₀.size = a' ++ c' :: b') : Moved (h.correspondence c hc) f₀ f g c where
  toSkeleton := h.skeleton hc hrow hrow'
  left := h.left.sprouts
  right := h.right.sprouts
  statement := by
    rw [hrow]
    exact List.mem_append_right _ (List.mem_cons_self ..)
  loose_iff _ := Iff.rfl
  old id hid := h.counterpart_self fun hr => Nat.not_lt.mpr hr.1 hid
  root := h.counterpart_eq .root
  le_iff id := by
    by_cases hid : f₀.size ≤ id ∧ id < f.size
    · exact iff_of_true (h.right.range (h.paired hid.1 hid.2).swap).1 hid.1
    · exact iff_of_eq (congrArg (f₀.size ≤ ·) (h.counterpart_self hid))
  onto id := ⟨_, h.swap.counterpart_counterpart id⟩
  children_eq _ hid := h.correspondence_children hc hid

end Twins

/-- Two trees that differ only in the place of one statement of the root correspond. -/
theorem exists_moved {f₀ f g : Forest} (hf : f₀.Sprouts f) (hg : f₀.Sprouts g) {t : Tree}
    {before behind before' behind' : List Tree} (hrest : before ++ behind = before' ++ behind')
    (hb : f.Bears f₀.size (.node .block (before ++ t :: behind)) f₀.size)
    (hb' : g.Bears f₀.size (.node .block (before' ++ t :: behind')) f₀.size) :
    ∃ κ c, Moved κ f₀ f g c ∧ f.kind c = t.kind ∧
      ((∀ u ∈ behind'.head?, u.kind.isFurther = false) → g.chained (κ.node c) = none) := by
  obtain ⟨a, ids, hrow, ha, hids⟩ := BearsAll.append_iff.mp hb.2
  obtain ⟨c, b, rfl, hc, hbs⟩ := BearsAll.cons_iff.mp hids
  obtain ⟨a', ids', hrow', ha', hids'⟩ := BearsAll.append_iff.mp hb'.2
  obtain ⟨c', b', rfl, hc', hbs'⟩ := BearsAll.cons_iff.mp hids'
  -- The moved statement goes first, and the others are in the same order in both forests.
  have htwins : Twins f₀ f g (f.rowWith f₀.size (c :: (a ++ b)))
      (g.rowWith f₀.size (c' :: (a' ++ b'))) := by
    apply Twins.of_bears hf hg
    · rw [hrow]
      exact List.perm_middle.symm
    · rw [hrow']
      exact List.perm_middle.symm
    · exact BearsAll.cons_iff.mpr ⟨c, _, rfl, hc, BearsAll.append_iff.mpr ⟨a, b, rfl, ha, hbs⟩⟩
    · rw [hrest]
      exact BearsAll.cons_iff.mpr
        ⟨c', _, rfl, hc', BearsAll.append_iff.mpr ⟨a', b', rfl, ha', hbs'⟩⟩
  have hlt : c < f.size := hc.stands.lt_size
  refine ⟨_, c, htwins.moved hlt hrow hrow', hc.stands.kind_eq, fun hfurther => ?_⟩
  rw [(htwins.statements_eq hlt).1]
  rw [chained, siblings_eq hg.wellFormed hrow', Option.filter_eq_none_iff]
  intro d hd hkind
  -- What follows the moved statement is the first of the trees behind it.
  cases behind' with
  | nil =>
    rw [BearsAll.nil_iff.mp hbs'] at hd
    cases hd
  | cons u us =>
    obtain ⟨d', more, rfl, hu, _⟩ := BearsAll.cons_iff.mp hbs'
    cases hd
    rw [hu.stands.kind_eq] at hkind
    exact Bool.false_ne_true ((hfurther u rfl).symm.trans hkind)

end Forest

end TagLang
