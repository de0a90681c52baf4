import Mathlib.Data.List.Forall2
import TagLang.Proofs.Renaming
import TagLang.Tree.Shaping

/-!
# Forests that correspond

Two forests may hold the same trees though the nodes have other names and stand on other lines, and
though some statement stands at another place among its siblings.  A `Correspondence` says what may
differ, and `Forest.Alike κ f g` that nothing else does.

What does not depend on shapes comes first (`Forest.Skeleton`), since a forest gets its shapes node
by node.  From a certain node on, no tree has a statement that may move, so new trees correspond
node by node, in the order in which they are loaded (`Forest.Skeleton.postorder`) and next to the
same neighbours (`Forest.Skeleton.siblings`).  A source is read alike into both forests
(`Forest.Alike.parse`).
-/

namespace TagLang

/-! ### What may differ -/

/-- How the nodes of two forests correspond to each other. -/
structure Correspondence where
  /-- The name that a node has in the second forest. -/
  node : NodeId → NodeId
  /-- The lines on which the same thing may stand. -/
  line : Nat → Nat → Prop
  /-- The statements that may stand at another place among their siblings. -/
  loose : NodeId → Prop
  /-- All loose statements are older than this node. -/
  bound : NodeId
  injective : ∀ a b, node a = node b → a = b
  line_self : ∀ l, line l l
  loose_lt : ∀ c, loose c → c < bound

namespace Correspondence

/-- Nodes may have other names, and that is all. -/
def ofNames (ρ : NodeId → NodeId) (hρ : ∀ a b, ρ a = ρ b → a = b) : Correspondence where
  node := ρ
  line := Eq
  loose _ := False
  bound := 0
  injective := hρ
  line_self _ := rfl
  loose_lt _ h := h.elim

variable (κ : Correspondence)

theorem eq_iff {a b : NodeId} : κ.node a = κ.node b ↔ a = b :=
  ⟨κ.injective a b, congrArg κ.node⟩

/-- Two rows of siblings: the second one is the first one under the names of the second forest, but
a loose statement may stand elsewhere. -/
inductive Row : List NodeId → List NodeId → Prop where
  | same (row : List NodeId) : Row row (row.map κ.node)
  | moved {a b a' b' : List NodeId} {c : NodeId} (hc : κ.loose c) (h : a ++ b = a' ++ b') :
    Row (a ++ c :: b) ((a' ++ c :: b').map κ.node)

theorem Row.eq_map {κ : Correspondence} {row row' : List NodeId} (h : κ.Row row row')
    (hrow : ∀ c ∈ row, ¬ κ.loose c) : row' = row.map κ.node := by
  cases h with
  | same row => rfl
  | moved hc _ => exact absurd hc (hrow _ (by simp))

theorem Row.exists_of_mem {κ : Correspondence} {row row' : List NodeId} (h : κ.Row row row')
    {y : NodeId} (hy : y ∈ row') : ∃ x ∈ row, κ.node x = y := by
  cases h with
  | same row => exact List.mem_map.mp hy
  | @moved a b a' b' c _ h =>
    obtain ⟨x, hx, hxy⟩ := List.mem_map.mp hy
    have hmem : x = c ∨ x ∈ a ++ b := by
      rw [h]
      simp only [List.mem_append, List.mem_cons] at hx ⊢
      exact or_left_comm.mp hx
    refine ⟨x, ?_, hxy⟩
    simp only [List.mem_append, List.mem_cons] at hmem ⊢
    exact or_left_comm.mp hmem

/-- The same operator, on lines that correspond. -/
structure Operators (p q : Operator × Nat) : Prop where
  operator : q.1 = p.1
  line : κ.line p.2 q.2

end Correspondence

/-- Two failures with the same cause, on lines that correspond. -/
structure Failure.Alike (κ : Correspondence) (e e' : Failure) : Prop where
  line : κ.line e.line e'.line
  cause : e'.cause = e.cause

/-- Two expressions whose operands and operators correspond. -/
structure Sequence.Alike (κ : Correspondence) (s t : Sequence) : Prop where
  operands : t.operands = s.operands.map (Operand.rename κ.node)
  operators : List.Forall₂ κ.Operators s.operators t.operators

namespace Sequence.Alike

variable {κ : Correspondence} {s t : Sequence}

theorem isEmpty (h : Alike κ s t) : t.isEmpty = s.isEmpty := by
  rw [Sequence.isEmpty, h.operands, List.isEmpty_map]
  rfl

theorem single? (h : Alike κ s t) : t.single? = s.single?.map κ.node := by
  obtain ⟨_, operators⟩ := t
  obtain ⟨rfl, _⟩ := h
  exact single?_rename κ.node s

theorem of_rename (κ : Correspondence) (s : Sequence) : Alike κ s (s.rename κ.node) where
  operands := rfl
  operators := List.forall₂_same.mpr fun p _ => ⟨rfl, κ.line_self p.2⟩

theorem map_rename (κ : Correspondence) (values : List Sequence) :
    List.Forall₂ (Alike κ) values (values.map (Sequence.rename κ.node)) := by
  rw [List.forall₂_map_right_iff]
  exact List.forall₂_same.mpr fun s _ => of_rename κ s

end Sequence.Alike

/-- Two shapes that are made in the same way of what corresponds. -/
inductive Shape.Alike (κ : Correspondence) : Shape → Shape → Prop where
  | unloaded : Alike κ unloaded unloaded
  | leaf : Alike κ leaf leaf
  | block : Alike κ block block
  | groups {values values' : List Sequence} (h : List.Forall₂ (Sequence.Alike κ) values values') :
    Alike κ (groups values) (groups values')
  | pair (item : String) {s s' : Sequence} (h : Sequence.Alike κ s s') :
    Alike κ (pair item s) (pair item s')
  | array {values values' : List Sequence} (h : List.Forall₂ (Sequence.Alike κ) values values') :
    Alike κ (array values) (array values')
  | print {s s' : Sequence} (h : Sequence.Alike κ s s') : Alike κ (print s) (print s')
  | input {s s' : Sequence} (h : Sequence.Alike κ s s') : Alike κ (input s) (input s')
  | return_ {s s' : Sequence} (h : Sequence.Alike κ s s') : Alike κ (return_ s) (return_ s')
  | convert (target : Conversion) {s s' : Sequence} (h : Sequence.Alike κ s s') :
    Alike κ (convert target s) (convert target s')
  | insert {s s' : Sequence} (h : Sequence.Alike κ s s') : Alike κ (insert s) (insert s')
  | declaration (name : String) {subscripts subscripts' : List Sequence} (op : Operator)
    {s s' : Sequence} (h : List.Forall₂ (Sequence.Alike κ) subscripts subscripts')
    (hs : Sequence.Alike κ s s') :
    Alike κ (declaration name subscripts op s) (declaration name subscripts' op s')
  | branch (opening : Bool) (condition body : NodeId) (chained : Option NodeId) :
    Alike κ (branch opening condition body chained)
      (branch opening (κ.node condition) (κ.node body) (chained.map κ.node))
  | else_ (body : NodeId) : Alike κ (else_ body) (else_ (κ.node body))
  | while_ (condition body : NodeId) :
    Alike κ (while_ condition body) (while_ (κ.node condition) (κ.node body))
  | repeat_ (count body : NodeId) :
    Alike κ (repeat_ count body) (repeat_ (κ.node count) (κ.node body))
  | foreach (item : String) {s s' : Sequence} (body : NodeId) (h : Sequence.Alike κ s s') :
    Alike κ (foreach item s body) (foreach item s' (κ.node body))
  | call (name : String) {args args' : List Sequence}
    (h : List.Forall₂ (Sequence.Alike κ) args args') : Alike κ (call name args) (call name args')
  | function (fn : Function) : Alike κ (function fn) (function (fn.rename κ.node))
  | break_ : Alike κ break_ break_
  | free (names : List String) : Alike κ (free names) (free names)
  | freeAll : Alike κ freeAll freeAll
  | local_ (body : NodeId) : Alike κ (local_ body) (local_ (κ.node body))
  | extern_ (source nickname : String) : Alike κ (extern_ source nickname) (extern_ source nickname)

namespace Shape.Alike

variable {κ : Correspondence} {s t : Shape}

theorem of_rename (κ : Correspondence) (s : Shape) : Alike κ s (s.rename κ.node) := by
  cases s with
  | groups values => exact .groups (Sequence.Alike.map_rename κ values)
  | pair item s => exact .pair item (.of_rename κ s)
  | array values => exact .array (Sequence.Alike.map_rename κ values)
  | print s => exact .print (.of_rename κ s)
  | input s => exact .input (.of_rename κ s)
  | return_ s => exact .return_ (.of_rename κ s)
  | convert target s => exact .convert target (.of_rename κ s)
  | insert s => exact .insert (.of_rename κ s)
  | declaration name subscripts op s =>
    exact .declaration name op (Sequence.Alike.map_rename κ subscripts) (.of_rename κ s)
  | foreach item s body => exact .foreach item body (.of_rename κ s)
  | call name args => exact .call name (Sequence.Alike.map_rename κ args)
  | _ => constructor

/-- The nodes that run only on demand are the same. -/
theorem muted (h : Alike κ s t) (id : NodeId) : t.muted (κ.node id) = (s.muted id).map κ.node := by
  cases h with
  | branch opening condition body chained => cases opening <;> rfl
  | _ => rfl

end Shape.Alike

/-! ### Forests -/

namespace Forest

/-- Every node is an old one, or a new one with a number of its own. -/
theorem forall_old_or_new {n : Nat} {P : NodeId → Prop} (hold : ∀ id, id < n → P id)
    (hnew : ∀ i, P (n + i)) (id : NodeId) : P id := by
  rcases Nat.lt_or_ge id n with hid | hid
  · exact hold id hid
  · obtain ⟨i, rfl⟩ := Nat.exists_eq_add_of_le hid
    exact hnew i

/-- The trees of the two forests correspond, whatever shapes the nodes have.  No tree reaches over
the bound behind which nothing is loose. -/
structure Skeleton (κ : Correspondence) (f g : Forest) : Prop where
  fresh : ∀ i, κ.node (f.size + i) = g.size + i
  kind : ∀ id, g.kind (κ.node id) = f.kind id
  line : ∀ id, κ.line (f.line id) (g.line (κ.node id))
  parent : ∀ id, g.parent (κ.node id) = κ.node (f.parent id)
  row : ∀ id, κ.Row (f.children id) (g.children (κ.node id))
  bound_le : κ.bound ≤ f.size
  le_parent : ∀ id, κ.bound ≤ id → κ.bound ≤ f.parent id
  source : f.WellFormed
  target : g.WellFormed

namespace Skeleton

variable {κ : Correspondence} {f g : Forest} (h : Skeleton κ f g)
include h

theorem lt_iff {id : NodeId} : κ.node id < g.size ↔ id < f.size :=
  lt_iff_of_fresh κ.injective h.fresh

theorem mem_children_iff {p c : NodeId} :
    κ.node c ∈ g.children (κ.node p) ↔ c ∈ f.children p := by
  rw [h.target.mem_children, h.source.mem_children, h.lt_iff, h.parent, Ne, κ.eq_iff, κ.eq_iff]

theorem reshape {f' g' : Forest} (hf : f.Reshaped f') (hg : g.Reshaped g') : Skeleton κ f' g' where
  fresh i := by
    rw [hf.size_eq, hg.size_eq]
    exact h.fresh i
  kind id := by
    rw [hf.kind, hg.kind]
    exact h.kind id
  line id := by
    rw [hf.line, hg.line]
    exact h.line id
  parent id := by
    rw [hf.parent, hg.parent]
    exact h.parent id
  row id := by
    rw [hf.children, hg.children]
    exact h.row id
  bound_le := by
    rw [hf.size_eq]
    exact h.bound_le
  le_parent id := by
    rw [hf.parent]
    exact h.le_parent id
  source := hf.wellFormed h.source
  target := hg.wellFormed h.target

/-- Behind the bound, children correspond one by one. -/
theorem children {id : NodeId} (hid : κ.bound ≤ id) :
    g.children (κ.node id) = (f.children id).map κ.node := by
  refine (h.row id).eq_map fun c hc hloose => ?_
  have hlt := h.source.lt_of_mem_children hc
  exact Nat.lt_irrefl _ (Nat.lt_of_le_of_lt hid (Nat.lt_trans hlt (κ.loose_lt c hloose)))

/-- The neighbours of a node correspond if the row in which it stands does. -/
theorem siblings_of_row {id : NodeId}
    (hrow : g.children (κ.node (f.parent id)) = (f.children (f.parent id)).map κ.node) :
    g.siblings (κ.node id) = ((f.siblings id).1.map κ.node, (f.siblings id).2.map κ.node) := by
  unfold Forest.siblings
  rw [h.parent]
  by_cases hp : f.parent id = id
  · rw [if_pos (congrArg κ.node hp), if_pos hp]
    rfl
  · have hnode : (g.node (κ.node (f.parent id))).children =
        (f.node (f.parent id)).children.map κ.node :=
      Array.toList_inj.mp (hrow.trans Array.toList_map.symm)
    have hfind : ((f.node (f.parent id)).children.map κ.node).findIdx? (· == κ.node id) =
        (f.node (f.parent id)).children.findIdx? (· == id) := by
      rw [Array.findIdx?_map]
      congr 1
      funext x
      rw [Function.comp_apply, Bool.eq_iff_iff, beq_iff_eq, beq_iff_eq, κ.eq_iff]
    rw [if_neg fun hc => hp (κ.injective _ _ hc), if_neg hp, hnode]
    simp only [hfind]
    cases (f.node (f.parent id)).children.findIdx? (· == id) with
    | none => rfl
    | some i => cases i <;> simp

theorem siblings {id : NodeId} (hid : κ.bound ≤ id) :
    g.siblings (κ.node id) = ((f.siblings id).1.map κ.node, (f.siblings id).2.map κ.node) :=
  h.siblings_of_row (h.children (h.le_parent id hid))

/-- The walk below a node goes through the same nodes, as long as the depth that is allowed for
covers both forests. -/
theorem postorder_go {leave leave' : NodeId → Bool} (hl : ∀ id, leave' (κ.node id) = leave id)
    {n n' id : Nat} (hbound : κ.bound ≤ id) (hid : id < f.size) (hn : f.size ≤ id + n)
    (hn' : g.size ≤ κ.node id + n') (rest : List NodeId) :
    postorder.go g leave' n' (κ.node id) (rest.map κ.node) =
      (postorder.go f leave n id rest).map κ.node := by
  have hlevel : ∀ {a b size k : Nat}, size ≤ a + (k + 1) → a < b → size ≤ b + k := by
    omega
  induction n generalizing n' id rest with
  | zero => exact absurd hid (Nat.not_lt.mpr hn)
  | succ n ih =>
    cases n' with
    | zero => exact absurd (h.lt_iff.mpr hid) (Nat.not_lt.mpr hn')
    | succ n' =>
      rw [postorder.go, postorder.go, hl]
      cases hleave : leave id with
      | true => rfl
      | false =>
        have hrow : ∀ row : List NodeId, (∀ c ∈ row, c ∈ f.children id) →
            (row.map κ.node).foldr (postorder.go g leave' n') ((id :: rest).map κ.node) =
              (row.foldr (postorder.go f leave n) (id :: rest)).map κ.node := by
          intro row hrow
          induction row with
          | nil => rfl
          | cons c row ihr =>
            have hc := hrow c (List.mem_cons_self ..)
            -- A child is younger than its parent in both forests, so one level less is enough.
            have hdown := h.source.lt_of_mem_children hc
            have hdown' : κ.node id < κ.node c :=
              h.target.lt_of_mem_children (h.children hbound ▸ List.mem_map_of_mem hc)
            have hrest := ihr fun d hd => hrow d (List.mem_cons_of_mem _ hd)
            show postorder.go g leave' n' (κ.node c) ((row.map κ.node).foldr _ _) = _
            rw [hrest]
            exact ih (Nat.le_trans hbound (Nat.le_of_lt hdown))
              ((h.source.mem_children id c).mp hc).1
              (hlevel hn hdown) (hlevel hn' hdown') _
        simp only [Bool.false_eq_true, if_false, h.children hbound]
        exact hrow _ fun c hc => hc

/-- A tree behind the bound is listed in the same order. -/
theorem postorder {leave leave' : NodeId → Bool} (hl : ∀ id, leave' (κ.node id) = leave id)
    {id : NodeId} (hbound : κ.bound ≤ id) (hid : id < f.size) :
    g.postorder leave' (κ.node id) = (f.postorder leave id).map κ.node :=
  h.postorder_go hl hbound hid (Nat.le_add_left _ _) (Nat.le_add_left _ _) []

/-- The trees still correspond when the same tree grows in both forests. -/
theorem sprout {e f' g' : Forest} (hf : f.Sprouts f') (hg : g.Sprouts g')
    (he : Renamed (f.size + ·) e f') (he' : Renamed (g.size + ·) e g') : Skeleton κ f' g' := by
  have hold : ∀ id, id < f.size →
      f'.node id = f.node id ∧ g'.node (κ.node id) = g.node (κ.node id) :=
    fun id hid => ⟨hf.old id hid, hg.old _ (h.lt_iff.mpr hid)⟩
  -- Old nodes correspond as before; a new one corresponds through the same node of the tree `e`.
  constructor
  case fresh =>
    intro i
    have hsize : f.size + e.size = f'.size := he.size_eq
    have hsize' : g.size + e.size = g'.size := he'.size_eq
    rw [← hsize, ← hsize', Nat.add_assoc, h.fresh, Nat.add_assoc]
  case kind =>
    apply forall_old_or_new
    · intro id hid
      rw [Forest.kind, Forest.kind, (hold id hid).1, (hold id hid).2]
      exact h.kind id
    · intro i
      rw [h.fresh]
      exact (he'.kind i).trans (he.kind i).symm
  case line =>
    apply forall_old_or_new
    · intro id hid
      rw [Forest.line, Forest.line, (hold id hid).1, (hold id hid).2]
      exact h.line id
    · intro i
      have hline : g'.line (g.size + i) = f'.line (f.size + i) :=
        (he'.line i).trans (he.line i).symm
      rw [h.fresh, hline]
      exact κ.line_self _
  case parent =>
    apply forall_old_or_new
    · intro id hid
      rw [Forest.parent, Forest.parent, (hold id hid).1, (hold id hid).2]
      exact h.parent id
    · intro i
      have hparent : f'.parent (f.size + i) = f.size + e.parent i := he.parent i
      rw [h.fresh, hparent, h.fresh]
      exact he'.parent i
  case row =>
    apply forall_old_or_new
    · intro id hid
      rw [Forest.children, Forest.children, (hold id hid).1, (hold id hid).2]
      exact h.row id
    · intro i
      have hrow : f'.children (f.size + i) = (e.children i).map (f.size + ·) := he.children i
      have hrow' : g'.children (g.size + i) = ((e.children i).map (f.size + ·)).map κ.node := by
        rw [he'.children, List.map_map]
        exact List.map_congr_left fun x _ => (h.fresh x).symm
      rw [h.fresh, hrow, hrow']
      exact .same _
  case bound_le => exact Nat.le_trans h.bound_le (Nat.le_of_lt hf.size_lt)
  case le_parent =>
    intro id hid
    rcases Nat.lt_or_ge id f.size with hlt | hge
    · rw [Forest.parent, (hold id hlt).1]
      exact h.le_parent id hid
    · exact Nat.le_trans h.bound_le (hf.le_parent id hge)
  case source => exact hf.wellFormed
  case target => exact hg.wellFormed

end Skeleton

/-- Two forests whose nodes correspond.  What may move does nothing when it runs: it is the
declaration of a function. -/
structure Alike (κ : Correspondence) (f g : Forest) : Prop extends Skeleton κ f g where
  shape : ∀ id, Shape.Alike κ (f.shape id) (g.shape (κ.node id))
  loose : ∀ c, κ.loose c → ∃ fn, f.shape c = .function fn

theorem Renamed.alike {ρ : NodeId → NodeId} {f g : Forest} (h : Renamed ρ f g) :
    Alike (.ofNames ρ h.injective) f g where
  fresh := h.fresh
  kind := h.kind
  line id := (h.line id).symm
  parent := h.parent
  row id := by
    show (Correspondence.ofNames ρ h.injective).Row (f.children id) (g.children (ρ id))
    rw [h.children]
    exact .same _
  bound_le := Nat.zero_le _
  le_parent _ _ := Nat.zero_le _
  source := h.source
  target := h.target
  shape id := by
    show Shape.Alike _ (f.shape id) (g.shape (ρ id))
    rw [h.shape]
    exact .of_rename (.ofNames ρ h.injective) _
  loose _ hc := hc.elim

namespace Alike

variable {κ : Correspondence} {f g : Forest} (h : Alike κ f g)
include h

theorem setShape {id : NodeId} (hid : κ.bound ≤ id) {s t : Shape} (hst : Shape.Alike κ s t) :
    Alike κ (f.setShape id s) (g.setShape (κ.node id) t) where
  toSkeleton := h.reshape (.setShape f id s) (.setShape g (κ.node id) t)
  shape id' := by
    simp only [Forest.shape, node_setShape, κ.eq_iff, h.lt_iff]
    split
    · exact hst
    · exact h.shape id'
  loose c hc := by
    have hne : id ≠ c := Nat.ne_of_gt (Nat.lt_of_lt_of_le (κ.loose_lt c hc) hid)
    simp only [Forest.shape, node_setShape, hne, false_and, if_false]
    exact h.loose c hc

/-- Forests stay alike when the same tree grows in both. -/
theorem sprout {e f' g' : Forest} (hf : f.Sprouts f') (hg : g.Sprouts g')
    (he : Renamed (f.size + ·) e f') (he' : Renamed (g.size + ·) e g') : Alike κ f' g' where
  toSkeleton := h.toSkeleton.sprout hf hg he he'
  shape := by
    apply forall_old_or_new
    · intro id hid
      rw [Forest.shape, Forest.shape, hf.old id hid, hg.old _ (h.lt_iff.mpr hid)]
      exact h.shape id
    · intro i
      rw [hf.unloaded _ (Nat.le_add_right _ i), h.fresh, hg.unloaded _ (Nat.le_add_right _ i)]
      exact .unloaded
  loose c hc := by
    have hlt : c < f.size := Nat.lt_of_lt_of_le (κ.loose_lt c hc) h.bound_le
    rw [Forest.shape, hf.old c hlt]
    exact h.loose c hc

/-- A source is read in the same way into both forests. -/
theorem parse (source : String) :
    Alike κ (f.parse source).1 (g.parse source).1 ∧
      (g.parse source).2 = (f.parse source).2.map κ.node := by
  -- Both trees are the one that the source gives in a forest of its own.
  obtain ⟨he, hread⟩ := (renamed_empty h.source).parse source
  obtain ⟨he', hread'⟩ := (renamed_empty h.target).parse source
  refine ⟨h.sprout (parse_sprouts h.source source) (parse_sprouts h.target source) he he', ?_⟩
  rw [hread, hread']
  cases (Forest.empty.parse source).2 with
  | error failure => rfl
  | ok root => exact congrArg Except.ok (h.fresh root).symm

end Alike

end Forest

end TagLang
