import TagLang.Proofs.Loading
import TagLang.Proofs.Reshaping

/-!
# Loading alike

A registry names nodes: the bodies of functions, and the statements that have bound the names.
`Registry.Alike R` relates two registries name by name, with whatever relation `R` is asked for
between what the names stand for; every change of a registry keeps it.

Nodes that correspond get corresponding shapes, so two workshops that start alike load a tree alike
(`Workshop.Alike.load`): they declare the same functions, switch off the same nodes, and stop at the
same node if they do.
-/

namespace TagLang

/-! ### Registries -/

/-- Two shadows of one name whose hidden bindings are related. -/
structure Shadow.Alike (R : Binding → Binding → Prop) (s t : Shadow) : Prop where
  key : t.key = s.key
  hidden : Option.Rel R s.hidden t.hidden

/-- Two calls of one function with related shadows. -/
structure Frame.Alike (R : Binding → Binding → Prop) (x y : Frame) : Prop where
  function : y.function = x.function
  locals : List.Forall₂ (Shadow.Alike R) x.locals y.locals

/-- Two registries that bind and hide the same names, none of them twice, and relate what these
stand for. -/
structure Registry.Alike (R : Binding → Binding → Prop) (r q : Registry) : Prop where
  nodup : r.bindings.keys.Nodup ∧ q.bindings.keys.Nodup
  get? : ∀ key, Option.Rel R (r.get? key) (q.get? key)
  frames : List.Forall₂ (Frame.Alike R) r.frames q.frames
  items : List.Forall₂ (Shadow.Alike R) r.items q.items

namespace Registry.Alike

variable {R S : Binding → Binding → Prop} {r q : Registry}

theorem mono (h : Alike R r q) (hRS : ∀ b c, R b c → S b c) : Alike S r q := by
  have hrel : ∀ {a b : Option Binding}, Option.Rel R a b → Option.Rel S a b := by
    intro a b hab
    cases hab with
    | none => exact .none
    | some hb => exact .some (hRS _ _ hb)
  have hshadow : ∀ s t, Shadow.Alike R s t → Shadow.Alike S s t :=
    fun s t hst => ⟨hst.key, hrel hst.hidden⟩
  exact {
    nodup := h.nodup
    get? := fun key => hrel (h.get? key)
    frames := h.frames.imp fun x y hxy => ⟨hxy.function, hxy.locals.imp hshadow⟩
    items := h.items.imp hshadow }

section Changes

variable (h : Alike R r q)
include h

/-- A name is bound in both registries or in none. -/
theorem get?_cases (key : String) : r.get? key = none ∧ q.get? key = none ∨
    ∃ b c, r.get? key = some b ∧ q.get? key = some c ∧ R b c := by
  have hrel := h.get? key
  generalize r.get? key = x at hrel
  generalize q.get? key = y at hrel
  cases hrel with
  | none => exact .inl ⟨rfl, rfl⟩
  | some hb => exact .inr ⟨_, _, rfl, rfl, hb⟩

/-- As many names are bound in both registries. -/
theorem size_eq : q.size = r.size := by
  have hmem : ∀ key, key ∈ q.bindings.keys ↔ key ∈ r.bindings.keys := by
    intro key
    rw [Table.mem_keys_iff, Table.mem_keys_iff]
    show q.get? key ≠ none ↔ r.get? key ≠ none
    rcases h.get?_cases key with ⟨hr, hq⟩ | ⟨_, _, hr, hq, _⟩
    · rw [hr, hq]
    · simp [hr, hq]
  have hlength := ((List.perm_ext_iff_of_nodup h.nodup.2 h.nodup.1).mpr hmem).length_eq
  rw [Table.keys, Table.keys, List.length_map, List.length_map] at hlength
  exact hlength

/-- A call is under way in both registries or in none. -/
theorem frames_cases : r.frames = [] ∧ q.frames = [] ∨
    ∃ x y xs ys, r.frames = x :: xs ∧ q.frames = y :: ys ∧ Frame.Alike R x y ∧
      List.Forall₂ (Frame.Alike R) xs ys := by
  have hall := h.frames
  generalize r.frames = xs at hall
  generalize q.frames = ys at hall
  cases hall with
  | nil => exact .inl ⟨rfl, rfl⟩
  | cons hxy hrest => exact .inr ⟨_, _, _, _, rfl, rfl, hxy, hrest⟩

theorem inCall : q.inCall = r.inCall := by
  unfold Registry.inCall
  rcases h.frames_cases with ⟨hr, hq⟩ | ⟨_, _, _, _, hr, hq, _⟩
  · rw [hr, hq]
  · rw [hr, hq]
    rfl

theorem currentFunction? : q.currentFunction? = r.currentFunction? := by
  unfold Registry.currentFunction?
  rcases h.frames_cases with ⟨hr, hq⟩ | ⟨_, _, _, _, hr, hq, hxy, _⟩
  · rw [hr, hq]
  · rw [hr, hq]
    exact congrArg some hxy.function

theorem isLocal (key : String) : q.isLocal key = r.isLocal key := by
  have hany : ∀ {ss ts : List Shadow}, List.Forall₂ (Shadow.Alike R) ss ts →
      (ts.any fun s => s.key == key) = ss.any fun s => s.key == key := by
    intro ss ts hst
    induction hst with
    | nil => rfl
    | cons hs _ ih => rw [List.any_cons, List.any_cons, hs.key, ih]
  unfold Registry.isLocal
  rcases h.frames_cases with ⟨hr, hq⟩ | ⟨_, _, _, _, hr, hq, hxy, _⟩
  · rw [hr, hq]
  · rw [hr, hq]
    exact hany hxy.locals

theorem define (key : String) {b c : Binding} (hb : R b c) :
    Alike R (r.define key b) (q.define key c) where
  nodup := ⟨Table.nodup_keys_insert h.nodup.1 key b, Table.nodup_keys_insert h.nodup.2 key c⟩
  get? key' := by
    show Option.Rel R ((r.bindings.insert key b).get? key') ((q.bindings.insert key c).get? key')
    rw [Table.get?_insert, Table.get?_insert]
    split
    · exact .some hb
    · exact h.get? key'
  frames := h.frames
  items := h.items

theorem erase (key : String) : Alike R { r with bindings := r.bindings.erase key }
    { q with bindings := q.bindings.erase key } where
  nodup := ⟨Table.nodup_keys_erase h.nodup.1 key, Table.nodup_keys_erase h.nodup.2 key⟩
  get? key' := by
    show Option.Rel R ((r.bindings.erase key).get? key') ((q.bindings.erase key).get? key')
    rw [Table.get?_erase, Table.get?_erase]
    split
    · exact .none
    · exact h.get? key'
  frames := h.frames
  items := h.items

theorem unshadow {s t : Shadow} (hst : Shadow.Alike R s t) :
    Alike R (r.unshadow s) (q.unshadow t) := by
  obtain ⟨key, hidden⟩ := s
  obtain ⟨key', hidden'⟩ := t
  obtain ⟨hkey, hrel⟩ := hst
  subst hkey
  cases hrel with
  | none => exact h.erase key'
  | some hb => exact h.define key' hb

theorem declare? (key : String) {b c : Binding} (hb : R b c) :
    r.declare? key b = none ∧ q.declare? key c = none ∨
      ∃ r' q', r.declare? key b = some r' ∧ q.declare? key c = some q' ∧ Alike R r' q' := by
  unfold Registry.declare?
  rcases h.get?_cases key with ⟨hr, hq⟩ | ⟨_, _, hr, hq, _⟩
  · rw [hr, hq]
    exact .inr ⟨_, _, rfl, rfl, h.define key hb⟩
  · rw [hr, hq]
    exact .inl ⟨rfl, rfl⟩

theorem remove? (key : String) : r.remove? key = none ∧ q.remove? key = none ∨
    ∃ r' q', r.remove? key = some r' ∧ q.remove? key = some q' ∧ Alike R r' q' := by
  unfold Registry.remove?
  rcases h.get?_cases key with ⟨hr, hq⟩ | ⟨_, _, hr, hq, _⟩
  · rw [hr, hq]
    exact .inl ⟨rfl, rfl⟩
  · rw [hr, hq]
    exact .inr ⟨_, _, rfl, rfl, h.erase key⟩

/-- Nothing is bound and nothing waits after everything is freed, so it does not matter how bindings
were related before. -/
theorem clear : Alike S r.clear q.clear := by
  have hforget : ∀ {ss ts : List Shadow}, List.Forall₂ (Shadow.Alike R) ss ts →
      List.Forall₂ (Shadow.Alike S) (ss.map Shadow.forget) (ts.map Shadow.forget) := by
    intro ss ts hst
    rw [List.forall₂_map_left_iff, List.forall₂_map_right_iff]
    exact hst.imp fun s t hs => ⟨hs.key, .none⟩
  have hframes : List.Forall₂ (Frame.Alike S) r.clear.frames q.clear.frames := by
    unfold Registry.clear
    rw [List.forall₂_map_left_iff, List.forall₂_map_right_iff]
    exact h.frames.imp fun x y hxy => ⟨hxy.function, hforget hxy.locals⟩
  exact ⟨⟨.nil, .nil⟩, fun _ => .none, hframes, hforget h.items⟩

theorem pushItem {key : String} (hb : R (.ofVariable .none none) (.ofVariable .none none)) :
    Alike R (r.pushItem key) (q.pushItem key) :=
  { h.define key hb with items := .cons ⟨rfl, h.get? key⟩ h.items }

theorem popItem : Alike R r.popItem q.popItem := by
  obtain ⟨bindings, frames, items⟩ := r
  obtain ⟨bindings', frames', items'⟩ := q
  cases h.items with
  | nil => exact h
  | @cons s t ss ts hst hrest =>
    have htail : Alike R ⟨bindings, frames, ss⟩ ⟨bindings', frames', ts⟩ :=
      { h with items := hrest }
    exact htail.unshadow hst

theorem pushFrame (function : String) : Alike R (r.pushFrame function) (q.pushFrame function) :=
  { h with frames := .cons ⟨rfl, .nil⟩ h.frames }

/-- The bindings that a call has hidden come back one after the other. -/
theorem popFrame : Alike R r.popFrame q.popFrame := by
  have hback : ∀ {ss ts : List Shadow}, List.Forall₂ (Shadow.Alike R) ss ts → ∀ {r q : Registry},
      Alike R r q → Alike R (ss.foldl Registry.unshadow r) (ts.foldl Registry.unshadow q) := by
    intro ss ts hst
    induction hst with
    | nil => exact fun hrq => hrq
    | cons hs _ ih => exact fun hrq => ih (hrq.unshadow hs)
  unfold Registry.popFrame
  rcases h.frames_cases with ⟨hr, hq⟩ | ⟨x, y, xs, ys, hr, hq, hxy, hrest⟩
  · rw [hr, hq]
    exact h
  · rw [hr, hq]
    have htail : Alike R { r with frames := xs } { q with frames := ys } :=
      { h with frames := hrest }
    exact hback hxy.locals htail

theorem bindLocal (key : String) {b c : Binding} (hb : R b c) :
    Alike R (r.bindLocal key b) (q.bindLocal key c) := by
  have hdefine := h.define key hb
  obtain ⟨bindings, frames, items⟩ := r
  obtain ⟨bindings', frames', items'⟩ := q
  cases h.frames with
  | nil => exact hdefine
  | cons hxy hrest =>
    exact { hdefine with
      frames := .cons ⟨hxy.function, .cons ⟨rfl, h.get? key⟩ hxy.locals⟩ hrest }

end Changes

end Registry.Alike

/-- Related bindings are constants or functions together, and stay related when they get the same
value. -/
structure Binding.Lasting (R : Binding → Binding → Prop) : Prop where
  isConstant : ∀ {b c}, R b c → c.isConstant = b.isConstant
  isFunction : ∀ {b c}, R b c → c.isFunction = b.isFunction
  setValue : ∀ {b c}, R b c → ∀ v, R { b with value := v } { c with value := v }

namespace Registry.Alike

variable {R : Binding → Binding → Prop} {r q : Registry} (h : Alike R r q) (hR : Binding.Lasting R)
include h hR

theorem assign (key : String) (v : Value) :
    (∃ e, r.assign key v = .error e ∧ q.assign key v = .error e) ∨
      ∃ r' q', r.assign key v = .ok r' ∧ q.assign key v = .ok q' ∧ Alike R r' q' := by
  unfold Registry.assign
  rcases h.get?_cases key with ⟨hr, hq⟩ | ⟨b, c, hr, hq, hb⟩
  · rw [hr, hq]
    exact .inl ⟨_, rfl, rfl⟩
  · simp only [hr, hq, hR.isConstant hb]
    split
    · exact .inl ⟨_, rfl, rfl⟩
    · exact .inr ⟨_, _, rfl, rfl, h.define key (hR.setValue hb v)⟩

theorem setResult (function : String) (v : Value) :
    Alike R (r.setResult function v) (q.setResult function v) := by
  unfold Registry.setResult
  rcases h.get?_cases function with ⟨hr, hq⟩ | ⟨b, c, hr, hq, hb⟩
  · rw [hr, hq]
    exact h
  · simp only [hr, hq, hR.isFunction hb]
    split
    · exact h.define function (hR.setValue hb v)
    · exact h

end Registry.Alike

/-! ### Bindings under a renaming -/

/-- What is called, with its body renamed. -/
def Callable.rename (ρ : NodeId → NodeId) : Callable → Callable
  | script f => script (f.rename ρ)
  | host f => host f

/-- What a name stands for, with the nodes in it renamed. -/
def BindingKind.rename (ρ : NodeId → NodeId) : BindingKind → BindingKind
  | .variable => .variable
  | .constant => .constant
  | .function c => .function (c.rename ρ)

/-- The binding with its nodes renamed. -/
def Binding.rename (ρ : NodeId → NodeId) (b : Binding) : Binding :=
  { b with kind := b.kind.rename ρ, origin := b.origin.map ρ }

/-- The second binding is the first one with its nodes renamed, and the statement that made the
first one is among the `n` oldest nodes. -/
structure Binding.Renamed (ρ : NodeId → NodeId) (n : Nat) (b c : Binding) : Prop where
  eq : c = b.rename ρ
  origin_lt : ∀ id, b.origin = some id → id < n

namespace Binding.Renamed

variable {ρ : NodeId → NodeId} {n : Nat} {b c : Binding}

theorem mono (h : Renamed ρ n b c) {n' : Nat} (hle : n ≤ n') : Renamed ρ n' b c where
  eq := h.eq
  origin_lt id hid := Nat.lt_of_lt_of_le (h.origin_lt id hid) hle

theorem value (h : Renamed ρ n b c) : c.value = b.value := by
  rw [h.eq]
  rfl

theorem lasting (ρ : NodeId → NodeId) (n : Nat) : Binding.Lasting (Renamed ρ n) where
  isConstant {b c} h := by
    rw [h.eq]
    obtain ⟨value, kind, origin⟩ := b
    cases kind <;> rfl
  isFunction {b c} h := by
    rw [h.eq]
    obtain ⟨value, kind, origin⟩ := b
    cases kind <;> rfl
  setValue h v :=
    { eq := by
        rw [h.eq]
        rfl
      origin_lt := h.origin_lt }

/-- A binding that no statement has made, and that is no function of a script, names no node. -/
theorem of_self (hkind : b.kind.rename ρ = b.kind) (horigin : b.origin = none) :
    Renamed ρ n b b where
  eq := by
    obtain ⟨value, kind, origin⟩ := b
    subst horigin
    exact congrArg (Binding.mk value · none) hkind.symm
  origin_lt id hid := by
    rw [horigin] at hid
    cases hid

theorem ofVariable (v : Value) {id : NodeId} (hid : id < n) :
    Renamed ρ n (.ofVariable v (some id)) (.ofVariable v (some (ρ id))) where
  eq := rfl
  origin_lt _ hsome := Option.some.inj hsome ▸ hid

theorem ofFunction (f : Function) {id : NodeId} (hid : id < n) :
    Renamed ρ n (.ofFunction (.script f) (some id))
      (.ofFunction (.script (f.rename ρ)) (some (ρ id))) where
  eq := rfl
  origin_lt _ hsome := Option.some.inj hsome ▸ hid

end Binding.Renamed

namespace Registry.Alike

variable {ρ : NodeId → NodeId} {n : Nat} {r q : Registry}
  (h : Alike (Binding.Renamed ρ n) r q)
include h

theorem value? (key : String) : q.value? key = r.value? key := by
  unfold Registry.value?
  rcases h.get?_cases key with ⟨hr, hq⟩ | ⟨_, _, hr, hq, hb⟩
  · rw [hr, hq]
  · rw [hr, hq]
    exact congrArg some hb.value

end Registry.Alike

/-- A function is declared in both registries, or its name is taken in both. -/
theorem Registry.Alike.register {κ : Correspondence} {n : Nat} {r q : Registry}
    (h : Alike (Binding.Renamed κ.node n) r q) {id : NodeId} (hid : id < n) {line line' : Nat}
    (hl : κ.line line line') {s t : Shape} (hst : Shape.Alike κ s t) :
    κ.Results (Alike (Binding.Renamed κ.node n)) (Workshop.register id line s r)
      (Workshop.register (κ.node id) line' t q) := by
  cases hst with
  | function fn =>
    simp only [Workshop.register]
    rcases h.declare? fn.name (.ofFunction fn hid) with ⟨hr, hq⟩ | ⟨r', q', hr, hq, halike⟩
    · have hq' : q.declare? (fn.rename κ.node).name _ = none := hq
      rw [hr, hq']
      exact .fail hl (.alreadyDeclared fn.name)
    · have hq' : q.declare? (fn.rename κ.node).name _ = some q' := hq
      rw [hr, hq']
      exact .ok halike
  | _ => exact .ok h

/-! ### Computations in lockstep -/

section Lockstep

variable {ε σ α β γ δ : Type}

/-- Two computations end alike: both with results that `Q` relates, or both with errors that `E`
relates, and `S` relates the states that they leave. -/
inductive EndAlike (E : ε → ε → Prop) (S : σ → σ → Prop) (Q : α → β → Prop) :
    EStateM.Result ε σ α → EStateM.Result ε σ β → Prop where
  | ok {a : α} {b : β} {s t : σ} (hq : Q a b) (hs : S s t) : EndAlike E S Q (.ok a s) (.ok b t)
  | error {e e' : ε} {s t : σ} (he : E e e') (hs : S s t) :
    EndAlike E S Q (.error e s) (.error e' t)

/-- From related states two computations end alike. -/
def Lockstep (E : ε → ε → Prop) (S : σ → σ → Prop) (Q : α → β → Prop) (x : EStateM ε σ α)
    (y : EStateM ε σ β) : Prop :=
  ∀ s t, S s t → EndAlike E S Q (x s) (y t)

variable {E E' : ε → ε → Prop} {S S' : σ → σ → Prop} {Q : α → β → Prop} {P : γ → δ → Prop}

theorem EndAlike.mono {x : EStateM.Result ε σ α} {y : EStateM.Result ε σ β} (h : EndAlike E S Q x y)
    (hE : ∀ e e', E e e' → E' e e') (hS : ∀ s t, S s t → S' s t) : EndAlike E' S' Q x y := by
  cases h with
  | ok hq hs => exact .ok hq (hS _ _ hs)
  | error he hs => exact .error (hE _ _ he) (hS _ _ hs)

namespace Lockstep

theorem pure {a : α} {b : β} (hq : Q a b) :
    Lockstep E S Q (Pure.pure a) (Pure.pure b) :=
  fun _ _ hs => .ok hq hs

theorem throw {e e' : ε} (he : E e e') : Lockstep E S Q (MonadExcept.throw e : EStateM ε σ α)
    (MonadExcept.throw e' : EStateM ε σ β) :=
  fun _ _ hs => .error he hs

/-- What follows goes on in lockstep from related results. -/
theorem bind {x : EStateM ε σ α} {y : EStateM ε σ β} {k : α → EStateM ε σ γ} {l : β → EStateM ε σ δ}
    (hx : Lockstep E S Q x y) (hk : ∀ a b, Q a b → Lockstep E S P (k a) (l b)) :
    Lockstep E S P (x >>= k) (y >>= l) := by
  intro s t hs
  show EndAlike E S P (EStateM.bind x k s) (EStateM.bind y l t)
  unfold EStateM.bind
  have hend := hx s t hs
  generalize x s = xs at hend
  generalize y t = yt at hend
  cases hend with
  | ok hq hst => exact hk _ _ hq _ _ hst
  | error he hst => exact .error he hst

end Lockstep

end Lockstep

/-! ### Workshops -/

/-- Two workshops whose contents correspond, with at least `n` nodes. -/
structure Workshop.Alike (κ : Correspondence) (n : Nat) (w v : Workshop) : Prop where
  forest : Forest.Alike κ w.forest v.forest
  floor : n ≤ w.forest.size
  registry : Registry.Alike (Binding.Renamed κ.node w.forest.size) w.registry v.registry
  muted : ∀ id, κ.node id ∈ v.muted ↔ id ∈ w.muted

namespace Workshop.Alike

variable {κ : Correspondence} {n : Nat} {w v : Workshop}

theorem lower (h : Alike κ n w v) {n' : Nat} (hle : n' ≤ n) : Alike κ n' w v :=
  { h with floor := Nat.le_trans hle h.floor }

theorem isPassedOver (h : Alike κ n w v) (inserting : Bool) (id : NodeId) :
    Workshop.isPassedOver v.forest inserting (κ.node id) =
      Workshop.isPassedOver w.forest inserting id := by
  rw [Workshop.isPassedOver, h.forest.kind]
  rfl

/-- A node that gets its shape gets it in both workshops. -/
theorem setShape (h : Alike κ n w v) {id : NodeId} (hid : κ.bound ≤ id) {s t : Shape}
    (hst : Shape.Alike κ s t) {r q : Registry}
    (hrq : Registry.Alike (Binding.Renamed κ.node w.forest.size) r q) (muted : List NodeId) :
    Alike κ n ⟨w.forest.setShape id s, r, muted ++ w.muted⟩
      ⟨v.forest.setShape (κ.node id) t, q, muted.map κ.node ++ v.muted⟩ where
  forest := h.forest.setShape hid hst
  floor := by
    rw [Forest.size_setShape]
    exact h.floor
  registry := by
    rw [Forest.size_setShape]
    exact hrq
  muted x := by
    simp only [List.mem_append, List.mem_map, κ.eq_iff, exists_eq_right, h.muted]

theorem loadNode (inserting : Bool) {id : NodeId} (hbound : κ.bound ≤ id) (hid : id < n) :
    Lockstep (Failure.Alike κ) (Alike κ n) Eq (Workshop.loadNode inserting id)
      (Workshop.loadNode inserting (κ.node id)) := by
  intro w v h
  have hshape := h.forest.shapeOf hbound
  have hlt := Nat.lt_of_lt_of_le hid h.floor
  unfold Workshop.loadNode
  rw [h.isPassedOver]
  split
  · exact .ok rfl (h.setShape hbound .leaf h.registry [id])
  · generalize w.forest.shapeOf id = x at hshape
    generalize v.forest.shapeOf (κ.node id) = y at hshape
    cases hshape with
    | error he => exact .error he h
    | @ok s t hst =>
      have hregister := h.registry.register hlt (h.forest.line id) hst
      dsimp only
      generalize Workshop.register id (w.forest.line id) s w.registry = x at hregister
      generalize Workshop.register (κ.node id) (v.forest.line (κ.node id)) t v.registry = y
        at hregister
      cases hregister with
      | error he => exact .error he h
      | ok hrq =>
        rw [hst.muted]
        exact .ok rfl (h.setShape hbound hst hrq (s.muted id))

theorem loadAll (inserting : Bool) (ids : List NodeId) (hbound : ∀ id ∈ ids, κ.bound ≤ id)
    (hids : ∀ id ∈ ids, id < n) :
    Lockstep (Failure.Alike κ) (Alike κ n) Eq (Workshop.loadAll inserting ids)
      (Workshop.loadAll inserting (ids.map κ.node)) := by
  induction ids with
  | nil => exact .pure rfl
  | cons id rest ih =>
    obtain ⟨hfirst, hrest⟩ := List.forall_mem_cons.mp hbound
    obtain ⟨hid, hlt⟩ := List.forall_mem_cons.mp hids
    apply (loadNode inserting hfirst hid).bind
    intro _ _ _
    exact ih hrest hlt

/-- A tree is loaded alike in both workshops. -/
theorem load (inserting : Bool) {root : NodeId} (hbound : κ.bound ≤ root) (hroot : root < n) :
    Lockstep (Failure.Alike κ) (Alike κ n) Eq (Workshop.load inserting root)
      (Workshop.load inserting (κ.node root)) := by
  intro w v h
  have hlt := Nat.lt_of_lt_of_le hroot h.floor
  show EndAlike _ _ _ (Workshop.loadAll inserting _ w) (Workshop.loadAll inserting _ v)
  rw [h.forest.postorder (h.isPassedOver inserting) hbound hlt]
  have hdown : ∀ id, κ.bound ≤ id → Workshop.isPassedOver w.forest inserting id = false →
      ∀ c ∈ w.forest.children id, κ.bound ≤ c :=
    fun id hid _ c hc => Nat.le_trans hid (Nat.le_of_lt (h.forest.source.lt_of_mem_children hc))
  -- All nodes of the tree are in the forest by now, so the floor may be raised to its size.
  have hall := loadAll (κ := κ) (n := w.forest.size) inserting
    (w.forest.postorder (Workshop.isPassedOver w.forest inserting) root)
    (fun id hid => Forest.of_mem_postorder_go hdown hbound hid)
    fun id hid => Forest.lt_size_of_mem_postorder_go h.forest.source hlt hid
  exact (hall w v { h with floor := Nat.le_refl _ }).mono (fun _ _ he => he)
    fun _ _ hs => hs.lower h.floor

end Workshop.Alike

end TagLang
