import TagLang.Registry
import TagLang.Tree.Shaping

/-!
# Loading a tree

Loading gives every node of a tree its shape, children before their parent, and declares the
functions on the way.  It stops at the first node that has no shape; the functions declared until
then stay.

In an inserted file `local` statements are passed over: they are switched off and nothing below them
is loaded.
-/

namespace TagLang

/-- What loading works on. -/
structure Workshop where
  forest : Forest
  registry : Registry
  /-- The nodes to be switched off, the latest first. -/
  muted : List NodeId := []

/-- A computation that loads: a failure leaves what was loaded before it. -/
abbrev Loading := EStateM Failure Workshop

namespace Workshop

/-- The node is a `local` statement that is passed over. -/
def isPassedOver (f : Forest) (inserting : Bool) (id : NodeId) : Bool :=
  inserting && (f.kind id).isKeyword .local_

/-- Declares the function, if the shape of the node `id` is one. -/
def register (id : NodeId) (line : Nat) (shape : Shape) (r : Registry) : Except Failure Registry :=
  match shape with
  | .function f =>
    match r.declare? f.name (.ofFunction (.script f) (some id)) with
    | some r => .ok r
    | none => .error ⟨line, .alreadyDeclared f.name⟩
  | _ => .ok r

/-- Loads a node whose children are loaded. -/
def loadNode (inserting : Bool) (id : NodeId) : Loading Unit := fun w =>
  if isPassedOver w.forest inserting id then
    .ok () { w with forest := w.forest.setShape id .leaf, muted := id :: w.muted }
  else
    match w.forest.shapeOf id with
    | .error failure => .error failure w
    | .ok shape =>
      match register id (w.forest.line id) shape w.registry with
      | .error failure => .error failure w
      | .ok registry =>
        .ok () ⟨w.forest.setShape id shape, registry, shape.muted id ++ w.muted⟩

/-- Loads nodes in the given order. -/
def loadAll (inserting : Bool) : List NodeId → Loading Unit
  | [] => pure ()
  | id :: rest => do
    loadNode inserting id
    loadAll inserting rest

/-- Loads the tree under a root. -/
def load (inserting : Bool) (root : NodeId) : Loading Unit := do
  let w ← get
  loadAll inserting (w.forest.postorder (isPassedOver w.forest inserting) root)

end Workshop

end TagLang
