import TagLang.Tree.Node

/-!
# Forests

All sources of a session share one forest.  Every source has a root, which is its own parent; every
other node hangs under an older one.  Nodes are never removed, so a node keeps its name, and the
body of a function stays where it is when its source has ended.
-/

namespace TagLang

/-- The nodes of all sources read so far. -/
structure Forest where
  nodes : Array Node
  deriving Inhabited

namespace Forest

/-- The forest without nodes. -/
def empty : Forest := ⟨#[]⟩

/-- The number of nodes. -/
def size (f : Forest) : Nat :=
  f.nodes.size

/-- The node of a given name; a name that is not in use gives a block without statements. -/
def node (f : Forest) (id : NodeId) : Node :=
  f.nodes.getD id ⟨.block, id, 0, #[], .unloaded⟩

/-- The kind of a node. -/
def kind (f : Forest) (id : NodeId) : NodeKind :=
  (f.node id).kind

/-- The line of a node. -/
def line (f : Forest) (id : NodeId) : Nat :=
  (f.node id).line

/-- The parent of a node. -/
def parent (f : Forest) (id : NodeId) : NodeId :=
  (f.node id).parent

/-- The children of a node in order. -/
def children (f : Forest) (id : NodeId) : List NodeId :=
  (f.node id).children.toList

/-- The shape of a node. -/
def shape (f : Forest) (id : NodeId) : Shape :=
  (f.node id).shape

/-! ### Growing -/

/-- The forest with a new root; its name is the size of the forest before. -/
def addRoot (f : Forest) (line : Nat) : Forest :=
  ⟨f.nodes.push { kind := .block, parent := f.size, line }⟩

/-- The forest with a new last child of `parent`; its name is the size of the forest before. -/
def attach (f : Forest) (parent : NodeId) (kind : NodeKind) (line : Nat) : Forest :=
  let id := f.size
  ⟨(f.nodes.modify parent fun n => { n with children := n.children.push id }).push
    { kind, parent, line }⟩

/-! ### Marking -/

/-- The forest with the shape of a node recorded. -/
def setShape (f : Forest) (id : NodeId) (shape : Shape) : Forest :=
  ⟨f.nodes.modify id fun n => { n with shape }⟩

/-! ### Looking around -/

/-- The siblings right before and right behind a node; a root has none. -/
def siblings (f : Forest) (id : NodeId) : Option NodeId × Option NodeId :=
  if f.parent id = id then (none, none)
  else
    let row := (f.node (f.parent id)).children
    match row.findIdx? (· == id) with
    | none => (none, none)
    | some i => (if i = 0 then none else row[i - 1]?, row[i + 1]?)

/-- The nodes from `id` up to its root, `id` first.

Parents are older than their children, so a lineage has at most `id + 1` members. -/
def lineage (f : Forest) (id : NodeId) : List NodeId :=
  go (id + 1) id
where
  /-- At most `n` members of the lineage. -/
  go : Nat → NodeId → List NodeId
    | 0, _ => []
    | n + 1, id => id :: if f.parent id = id then [] else go n (f.parent id)

/-- The first node with `p` on the way from `id` up to its root. -/
def nearest? (f : Forest) (p : NodeId → Bool) (id : NodeId) : Option NodeId :=
  go (id + 1) id
where
  /-- The first one among at most `n` nodes. -/
  go : Nat → NodeId → Option NodeId
    | 0, _ => none
    | n + 1, id =>
      if p id then some id else if f.parent id = id then none else go n (f.parent id)

/-- The way up visits the lineage in order. -/
theorem nearest?_go_eq_find? (f : Forest) (p : NodeId → Bool) (n : Nat) (id : NodeId) :
    nearest?.go f p n id = (lineage.go f n id).find? p := by
  induction n generalizing id with
  | zero => rfl
  | succ n ih =>
    rw [nearest?.go, lineage.go, List.find?_cons]
    by_cases hp : p id
    · simp [hp]
    · by_cases hr : f.parent id = id
      · simp [hp, hr]
      · simp [hp, hr, ih]

/-- The nearest node is the first member of the lineage that is looked for. -/
theorem nearest?_eq_find?_lineage (f : Forest) (p : NodeId → Bool) (id : NodeId) :
    f.nearest? p id = (f.lineage id).find? p :=
  nearest?_go_eq_find? f p (id + 1) id

/-- The tree under a node, children before their parent; below a node with `leave` nothing is
listed.

No path in a forest is longer than its size. -/
def postorder (f : Forest) (leave : NodeId → Bool) (id : NodeId) : List NodeId :=
  go f.size id []
where
  /-- The tree down to depth `n`, in front of what follows it. -/
  go : Nat → NodeId → List NodeId → List NodeId
    | 0, _, rest => rest
    | n + 1, id, rest =>
      if leave id then id :: rest else (f.children id).foldr (go n) (id :: rest)

/-- The tree under a node, each node before its children, with the depth of each. -/
def preorder (f : Forest) (id : NodeId) : List (Nat × NodeId) :=
  go f.size 0 id []
where
  /-- The tree down to a depth of `n` below the depth reached, in front of what follows it. -/
  go : Nat → Nat → NodeId → List (Nat × NodeId) → List (Nat × NodeId)
    | 0, _, _, rest => rest
    | n + 1, depth, id, rest => (depth, id) :: (f.children id).foldr (go n (depth + 1)) rest

end Forest

end TagLang
