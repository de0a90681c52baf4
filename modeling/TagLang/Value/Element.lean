import TagLang.Value.Fault

/-!
# Elements of lists

Reading and replacing an element of a list, or of a list inside a list.  A path is the list of the
indices that lead to the element, the outermost first.
-/

namespace TagLang.Value

/-- The position that an index value denotes in a list of the given length. -/
def position (length : Nat) : Value → Except Fault (Fin length)
  | int i =>
    if h : 0 ≤ i.toInt ∧ i.toInt.toNat < length then .ok ⟨i.toInt.toNat, h.2⟩
    else .error (.indexRange i length)
  | index => .error (.indexKind index.kind)

/-- The element at an index. -/
def index : Value → Value → Except Fault Value
  | array items, i => (position items.length i).map items.get
  | v, _ => .error (.noElements v.kind)

/-- The element at the end of a path; the empty path leads to the value itself. -/
def follow : Value → List Value → Except Fault Value
  | v, [] => .ok v
  | v, i :: path => (v.index i).bind fun element => element.follow path

/-- The value with the element at the end of a path replaced. -/
def setIndex : Value → List Value → Value → Except Fault Value
  | _, [], x => .ok x
  | array items, i :: path, x =>
    (position items.length i).bind fun k =>
      ((items.get k).setIndex path x).map fun element => array (items.set k element)
  | v, _ :: _, _ => .error (.noElements v.kind)

end TagLang.Value
