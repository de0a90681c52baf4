import TagLang.Host.Basic
import TagLang.Tree.Node

/-!
# The registry

One flat table binds the names of a script.  A call and a loop over a list hide bindings for a
while:  each hidden binding waits, with its name, in the frame of the call or on the stack of loop
items, and comes back when the call or the loop is over.  Freeing everything also drops what is
waiting.
-/

namespace TagLang

/-- What a script can call. -/
inductive Callable where
  | script (f : Function)
  | host (f : HostFunction)

/-- The name of something that can be called. -/
def Callable.name : Callable → String
  | script f => f.name
  | host f => f.name

/-- What a name stands for. -/
inductive BindingKind where
  | variable
  | constant
  | function (c : Callable)

/-- A bound name's entry; a function's value is what it gave last. -/
structure Binding where
  value : Value
  kind : BindingKind
  /-- The statement that made the binding; none for those made by a call, a loop or the host. -/
  origin : Option NodeId

namespace Binding

/-- A variable. -/
def ofVariable (v : Value) (origin : Option NodeId) : Binding :=
  ⟨v, .variable, origin⟩

/-- A constant. -/
def ofConstant (v : Value) : Binding :=
  ⟨v, .constant, none⟩

/-- A function that has not been called. -/
def ofFunction (c : Callable) (origin : Option NodeId) : Binding :=
  ⟨.none, .function c, origin⟩

/-- The binding cannot be assigned to. -/
def isConstant (b : Binding) : Bool :=
  match b.kind with
  | .constant => true
  | _ => false

/-- The binding is a function. -/
def isFunction (b : Binding) : Bool :=
  match b.kind with
  | .function _ => true
  | _ => false

end Binding

/-- A name that a call or a loop has bound, and the binding that it hid. -/
structure Shadow where
  key : String
  hidden : Option Binding

/-- A name that hides nothing any more. -/
def Shadow.forget (s : Shadow) : Shadow :=
  { s with hidden := none }

/-- A call under way: the function's name and the names bound in it, the latest first. -/
structure Frame where
  function : String
  locals : List Shadow

/-- The names that are bound, and what calls and loops have hidden, the innermost first. -/
structure Registry where
  bindings : Table String Binding
  frames : List Frame
  items : List Shadow

/-- Why a name cannot be given a value. -/
inductive Refusal where
  | undefined
  | constant
  deriving DecidableEq, Repr

namespace Registry

/-- The registry without names. -/
def empty : Registry := ⟨.empty, [], []⟩

/-- The binding of a name. -/
def get? (r : Registry) (key : String) : Option Binding :=
  r.bindings.get? key

/-- The value of a name. -/
def value? (r : Registry) (key : String) : Option Value :=
  (r.get? key).map (·.value)

/-- The number of bound names. -/
def size (r : Registry) : Nat :=
  r.bindings.size

/-- The registry with a name bound, whatever it was bound to. -/
def define (r : Registry) (key : String) (b : Binding) : Registry :=
  { r with bindings := r.bindings.insert key b }

/-- The registry with a new name bound; none if the name is taken. -/
def declare? (r : Registry) (key : String) (b : Binding) : Option Registry :=
  match r.get? key with
  | some _ => none
  | none => some (r.define key b)

/-- The registry with a new value for a bound name. -/
def assign (r : Registry) (key : String) (v : Value) : Except Refusal Registry :=
  match r.get? key with
  | none => .error .undefined
  | some b => if b.isConstant then .error .constant else .ok (r.define key { b with value := v })

/-- The registry without a binding for a bound name; none if it has none. -/
def remove? (r : Registry) (key : String) : Option Registry :=
  match r.get? key with
  | none => none
  | some _ => some { r with bindings := r.bindings.erase key }

/-- The registry without bindings, and nothing left to come back. -/
def clear (r : Registry) : Registry where
  bindings := .empty
  frames := r.frames.map fun f => { f with locals := f.locals.map Shadow.forget }
  items := r.items.map Shadow.forget

/-- The shadows that wait in frames and loops. -/
def pending (r : Registry) : List Shadow :=
  r.frames.flatMap (·.locals) ++ r.items

/-- The registry with a hidden binding back in place, or the name free again if there was none. -/
def unshadow (r : Registry) (s : Shadow) : Registry :=
  match s.hidden with
  | some b => r.define s.key b
  | none => { r with bindings := r.bindings.erase s.key }

/-! ### Loop items -/

/-- The registry at the start of a loop over a list. -/
def pushItem (r : Registry) (key : String) : Registry :=
  { r.define key (.ofVariable .none none) with items := ⟨key, r.get? key⟩ :: r.items }

/-- The registry at the end of the innermost loop over a list. -/
def popItem (r : Registry) : Registry :=
  match r.items with
  | [] => r
  | s :: items => { r with items }.unshadow s

/-! ### Calls -/

/-- The registry at the start of a call. -/
def pushFrame (r : Registry) (function : String) : Registry :=
  { r with frames := ⟨function, []⟩ :: r.frames }

/-- The registry at the end of the innermost call: what its names hid comes back, the latest
first. -/
def popFrame (r : Registry) : Registry :=
  match r.frames with
  | [] => r
  | f :: frames => f.locals.foldl unshadow { r with frames }

/-- A call is under way. -/
def inCall (r : Registry) : Bool :=
  !r.frames.isEmpty

/-- The name of the function whose call is innermost. -/
def currentFunction? (r : Registry) : Option String :=
  r.frames.head?.map (·.function)

/-- The innermost call has bound the name. -/
def isLocal (r : Registry) (key : String) : Bool :=
  match r.frames with
  | [] => false
  | f :: _ => f.locals.any fun s => s.key == key

/-- The registry with a name bound until the innermost call is over. -/
def bindLocal (r : Registry) (key : String) (b : Binding) : Registry :=
  let shadow : Shadow := ⟨key, r.get? key⟩
  let r := r.define key b
  match r.frames with
  | [] => r
  | f :: frames => { r with frames := { f with locals := shadow :: f.locals } :: frames }

/-- The registry with names bound one after the other until the innermost call is over. -/
def bindLocals (r : Registry) (made : List (String × Binding)) : Registry :=
  made.foldl (fun r (key, b) => r.bindLocal key b) r

/-- The registry with the value that a function gave, if the name still stands for a function. -/
def setResult (r : Registry) (function : String) (v : Value) : Registry :=
  match r.get? function with
  | some b => if b.isFunction then r.define function { b with value := v } else r
  | none => r

end Registry

end TagLang
