import TagLang.Proofs.Transitions
import TagLang.Proofs.Reloading

/-!
# The history of a registry

What is done to a registry in a run is a list of deeds (`Deed`), and of these only one kind makes a
binding; all others give values to bindings, move them about or drop them.  Every change of a
situation consists of certain deeds (`Situation.Change.deeds`), so a run has a history
(`Situation.Path`).

To tell bindings apart that look alike, a history is also performed on a second registry, in which
the origin of a binding is not a statement but a number: the place in the history of the deed that
made it (`Registry.traced`).  Both registries bind and hide the same names at all times
(`Registry.Alike.performAll`), and a binding and its numbered twin differ in nothing else.
-/

namespace TagLang

open Machine

/-! ### Deeds -/

/-- How a binding comes about. -/
inductive Maker where
  /-- A statement gives a name its first value. -/
  | declaration
  /-- A source with a function is loaded. -/
  | function
  /-- A call begins and binds a parameter. -/
  | parameter
  /-- A loop over a list binds its item. -/
  | item
  /-- The host provides it. -/
  | host
  deriving DecidableEq, Repr

/-- The binding lasts until the innermost call is over. -/
def Maker.isLocal : Maker → Bool
  | declaration | parameter => true
  | function | item | host => false

/-- What is done to a registry. -/
inductive Deed where
  /-- A name is bound to something new. -/
  | make (maker : Maker) (key : String) (b : Binding)
  /-- A bound name is given a value. -/
  | assign (key : String) (v : Value)
  /-- The name of a function is given what the function gave. -/
  | answer (function : String) (v : Value)
  /-- A name is freed. -/
  | remove (key : String)
  /-- All names are freed. -/
  | clear
  /-- What a name stands for is kept for the end of a loop. -/
  | hide (key : String)
  | endLoop
  | beginCall (function : String)
  | endCall

namespace Deed

/-- The deed that binds the name with which a session starts. -/
def first : Deed :=
  make .host "π" (.ofConstant (.float circleConstant))

/-- The deed that declares a function. -/
def declare (f : Function) (id : NodeId) : Deed :=
  make .function f.name (.ofFunction (.script f) (some id))

/-- The deeds that bind the parameters of a call. -/
def parameters (f : Function) (args : List Value) : List Deed :=
  (Engine.parameters f args).map fun p => make .parameter p.1 p.2

/-- The deeds that a single change of a situation can consist of, by how it shows on the account. -/
inductive OfChange : Situation.Label → List Deed → Prop
  | aside {label : Situation.Label} : OfChange label []
  | assign (key : String) (v : Value) : OfChange (.told (.assigns key)) [.assign key v]
  | answer (function : String) (v : Value) :
    OfChange (.told (.answers function)) [.answer function v]
  | clear : OfChange .silent [.clear]
  | bind (key : String) (v : Value) (id : NodeId) :
    OfChange (.told (.makes [(key, .ofVariable v (some id))]))
      [make .declaration key (.ofVariable v (some id))]
  | remove (key : String) : OfChange .silent [.remove key]
  | member (key : String) (entry : HostEntry) :
    OfChange (.told (.makes [(key, Engine.hostBinding entry)]))
      [make .host key (Engine.hostBinding entry)]
  | beginLoop (item : String) :
    OfChange (.told (.makes [(item, .ofVariable .none none)]))
      [.hide item, make .item item (.ofVariable .none none)]
  | nextItem (item : String) (v : Value) :
    OfChange (.told (.makes [(item, .ofVariable v none)])) [make .item item (.ofVariable v none)]
  | endLoop : OfChange .silent [.endLoop]
  | beginCall (f : Function) :
    OfChange (.told (.answers f.name)) [.answer f.name .none, .beginCall f.name]
  | parameters (f : Function) (args : List Value) :
    OfChange (.told (.makes (Engine.parameters f args))) (parameters f args)
  | endCall : OfChange .silent [.endCall]
  | load {label : Situation.Label} (h : label ≠ .silent) (functions : List (Function × NodeId)) :
    OfChange label (functions.map fun p => declare p.1 p.2)

/-- The deed with the number `n` for the origin of what it makes. -/
def number (n : Nat) : Deed → Deed
  | make maker key b => make maker key { b with origin := some n }
  | deed => deed

/-- The deeds with their places, counted from `n`, for the origins of what they make. -/
def numbered : Nat → List Deed → List Deed
  | _, [] => []
  | n, deed :: rest => deed.number n :: numbered (n + 1) rest

end Deed

namespace Registry

/-- The registry after a deed. -/
def perform (r : Registry) : Deed → Registry
  | .make maker key b => if maker.isLocal then r.bindLocal key b else r.define key b
  | .assign key v => (r.assign key v).toOption.getD r
  | .answer function v => r.setResult function v
  | .remove key => (r.remove? key).getD r
  | .clear => r.clear
  | .hide key => { r with items := ⟨key, r.get? key⟩ :: r.items }
  | .endLoop => r.popItem
  | .beginCall function => r.pushFrame function
  | .endCall => r.popFrame

/-- The registry after deeds, one after the other. -/
def performAll (r : Registry) (deeds : List Deed) : Registry :=
  deeds.foldl perform r

@[simp]
theorem performAll_nil (r : Registry) : r.performAll [] = r := rfl

@[simp]
theorem performAll_cons (r : Registry) (deed : Deed) (rest : List Deed) :
    r.performAll (deed :: rest) = (r.perform deed).performAll rest := rfl

@[simp]
theorem performAll_append (r : Registry) (deeds more : List Deed) :
    r.performAll (deeds ++ more) = (r.performAll deeds).performAll more :=
  List.foldl_append

/-- The registry after a history from the start of a session, with the place in the history of the
deed that made it for the origin of every binding. -/
def traced (history : List Deed) : Registry :=
  Registry.empty.performAll (Deed.numbered 0 history)

/-- Outside of calls a name is bound for good. -/
theorem bindLocal_of_not_inCall {r : Registry} (h : r.inCall = false) (key : String) (b : Binding) :
    r.bindLocal key b = r.define key b := by
  have hnone : r.frames = [] := by simpa [inCall] using h
  obtain ⟨bindings, frames, items⟩ := r
  have hframes : frames = [] := hnone
  subst hframes
  rfl

theorem performAll_parameters (r : Registry) (f : Function) (args : List Value) :
    r.performAll (Deed.parameters f args) = r.bindLocals (Engine.parameters f args) := by
  rw [Deed.parameters, performAll, List.foldl_map]
  rfl

/-- What loading a source does to a registry is declaring functions. -/
theorem prepare_eq_performAll (inserting : Bool) (source : String) (f : Forest) (r : Registry) :
    ∃ functions : List (Function × NodeId),
      (Workshop.left (Workshop.prepare inserting source f r)).registry =
        r.performAll (functions.map fun p => Deed.declare p.1 p.2) := by
  refine Workshop.registry_prepare (P := fun r' => ∃ functions : List (Function × NodeId),
    r' = r.performAll (functions.map fun p => Deed.declare p.1 p.2)) ?_ inserting source f ⟨[], rfl⟩
  rintro r₁ r₂ g id ⟨functions, rfl⟩ h
  refine ⟨functions ++ [(g, id)], ?_⟩
  rw [List.map_append, performAll_append]
  unfold declare? at h
  split at h
  · cases h
  · exact (Option.some.inj h).symm

end Registry

/-- Every change consists of deeds. -/
theorem Situation.Change.deeds {w : World} {label : Label} {s s' : Situation}
    (h : Change w label s s') :
    ∃ deeds, Deed.OfChange label deeds ∧ s'.registry = s.registry.performAll deeds := by
  have hload := fun inserting source =>
    Registry.prepare_eq_performAll inserting source s.forest s.registry
  cases h with
  | tell | console | switch | startFile | find | miss | beginFile | endFile =>
    exact ⟨[], .aside, rfl⟩
  | @assign _ name v r h =>
    refine ⟨_, .assign name v, ?_⟩
    simp [Registry.perform, h, Except.toOption]
  | bind name v id h =>
    refine ⟨_, .bind name v id, ?_⟩
    show (if s.registry.inCall then _ else _) = s.registry.bindLocal name (.ofVariable v (some id))
    split
    · rfl
    next hout => exact (Registry.bindLocal_of_not_inCall (Bool.eq_false_iff.mpr hout) ..).symm
  | answer function v => exact ⟨_, .answer function v, rfl⟩
  | @remove _ name r h =>
    refine ⟨_, .remove name, ?_⟩
    simp [Registry.perform, h]
  | clear => exact ⟨_, .clear, rfl⟩
  | member key entry h => exact ⟨_, .member key entry, rfl⟩
  | beginLoop item => exact ⟨_, .beginLoop item, rfl⟩
  | nextItem item v => exact ⟨_, .nextItem item v, rfl⟩
  | endLoop => exact ⟨_, .endLoop, rfl⟩
  | beginCall f h => exact ⟨_, .beginCall f, rfl⟩
  | parameters f args => exact ⟨_, .parameters f args, (Registry.performAll_parameters ..).symm⟩
  | endCall => exact ⟨_, .endCall, rfl⟩
  | load source =>
    obtain ⟨functions, h⟩ := hload false source
    exact ⟨_, .load Label.noConfusion functions, h⟩
  | @refuse _ path source failure made hnew htext hmade =>
    obtain ⟨functions, h⟩ := hload true source
    rw [hmade] at h
    exact ⟨_, .load Label.noConfusion functions, h⟩
  | @remember _ path source root made hnew htext hmade =>
    obtain ⟨functions, h⟩ := hload true source
    rw [hmade] at h
    exact ⟨_, .load Label.noConfusion functions, h⟩

/-! ### Numbered twins -/

/-- The second binding is the first one with a number for its origin, of which `P` holds. -/
def Binding.Numbered (P : Nat → Binding → Prop) (b c : Binding) : Prop :=
  ∃ n, c = { b with origin := some n } ∧ P n b

theorem Binding.Numbered.lasting {P : Nat → Binding → Prop}
    (hP : ∀ n b v, P n b → P n { b with value := v }) : Binding.Lasting (Binding.Numbered P) where
  isConstant := by
    rintro b c ⟨n, rfl, _⟩
    rfl
  isFunction := by
    rintro b c ⟨n, rfl, _⟩
    rfl
  setValue := by
    rintro b c ⟨n, rfl, hn⟩ v
    exact ⟨n, rfl, hP n b v hn⟩

namespace Registry.Alike

variable {P : Nat → Binding → Prop} {r q : Registry}

/-- A deed and the deed with its number do the same to a registry and its numbered twin. -/
theorem perform (hP : ∀ n b v, P n b → P n { b with value := v })
    (h : Alike (Binding.Numbered P) r q) {n : Nat} {deed : Deed}
    (hmade : ∀ maker key b, deed = .make maker key b → P n b) :
    Alike (Binding.Numbered P) (r.perform deed) (q.perform (deed.number n)) := by
  have hlasting := Binding.Numbered.lasting hP
  cases deed with
  | make maker key b =>
    have hb : Binding.Numbered P b { b with origin := some n } := ⟨n, rfl, hmade maker key b rfl⟩
    simp only [Deed.number, Registry.perform]
    split
    · exact h.bindLocal key hb
    · exact h.define key hb
  | assign key v =>
    rcases h.assign hlasting key v with ⟨e, hr, hq⟩ | ⟨r', q', hr, hq, hrq⟩
    · simpa [Deed.number, Registry.perform, hr, hq, Except.toOption] using h
    · simpa [Deed.number, Registry.perform, hr, hq, Except.toOption] using hrq
  | answer function v => exact h.setResult hlasting function v
  | remove key =>
    rcases h.remove? key with ⟨hr, hq⟩ | ⟨r', q', hr, hq, hrq⟩
    · simpa [Deed.number, Registry.perform, hr, hq] using h
    · simpa [Deed.number, Registry.perform, hr, hq] using hrq
  | clear => exact h.clear
  | hide key => exact { h with items := .cons ⟨rfl, h.get? key⟩ h.items }
  | endLoop => exact h.popItem
  | beginCall function => exact h.pushFrame function
  | endCall => exact h.popFrame

/-- A history does the same to a registry and its numbered twin. -/
theorem performAll (hP : ∀ n b v, P n b → P n { b with value := v })
    (h : Alike (Binding.Numbered P) r q) {n : Nat} {deeds : List Deed}
    (hmade : ∀ i maker key b, deeds[i]? = some (.make maker key b) → P (n + i) b) :
    Alike (Binding.Numbered P) (r.performAll deeds) (q.performAll (Deed.numbered n deeds)) := by
  induction deeds generalizing n r q with
  | nil => exact h
  | cons deed rest ih =>
    have hfirst : ∀ maker key b, deed = .make maker key b → P n b := by
      rintro maker key b rfl
      exact hmade 0 maker key b rfl
    refine ih (h.perform hP hfirst) fun i maker key b hi => ?_
    have hplace : n + 1 + i = n + (i + 1) := by omega
    rw [hplace]
    exact hmade (i + 1) maker key b hi

end Registry.Alike

/-- The deed at the place `n` of the history made the binding; it has been given values since, but
no other kind and no other origin. -/
def Deed.Makes (history : List Deed) (n : Nat) (b : Binding) : Prop :=
  ∃ maker key made, history[n]? = some (.make maker key made) ∧ b = { made with value := b.value }

theorem Deed.Makes.setValue {history : List Deed} (n : Nat) (b : Binding) (v : Value)
    (h : Deed.Makes history n b) : Deed.Makes history n { b with value := v } := by
  obtain ⟨maker, key, made, hn, hb⟩ := h
  refine ⟨maker, key, made, hn, ?_⟩
  rw [hb]

theorem Registry.alike_empty (R : Binding → Binding → Prop) : Alike R .empty .empty :=
  ⟨⟨.nil, .nil⟩, fun _ => .none, .nil, .nil⟩

/-- Every binding has been made by the deed that its numbered twin names. -/
theorem Registry.alike_traced (history : List Deed) :
    Alike (Binding.Numbered (Deed.Makes history)) (Registry.empty.performAll history)
      (traced history) := by
  refine (alike_empty _).performAll Deed.Makes.setValue fun i maker key b hi => ?_
  rw [Nat.zero_add]
  exact ⟨maker, key, b, hi, rfl⟩

/-! ### Runs -/

/-- Changes lead from the first situation to the second, and consist of the deeds. -/
inductive Situation.Path (w : World) : List Deed → Situation → Situation → Prop
  | refl (s : Situation) : Path w [] s s
  | step {deeds more : List Deed} {label : Label} {s s₁ s₂ : Situation}
    (h : Path w deeds s s₁) (hs : Change w label s₁ s₂) (hd : Deed.OfChange label more)
    (hr : s₂.registry = s₁.registry.performAll more) : Path w (deeds ++ more) s s₂

namespace Situation.Path

variable {w : World} {deeds more : List Deed} {s s₁ s₂ : Situation}

theorem registry_eq (h : Path w deeds s s₁) : s₁.registry = s.registry.performAll deeds := by
  induction h with
  | refl => rfl
  | step _ _ _ hr ih => rw [hr, ih, Registry.performAll_append]

/-- Whatever a path makes, a change makes. -/
theorem ofChange (h : Path w deeds s s₁) {deed : Deed} (hd : deed ∈ deeds) :
    ∃ label change, Deed.OfChange label change ∧ deed ∈ change := by
  induction h with
  | refl => cases hd
  | @step deeds more label s s₁ s₂ _ _ hchange _ ih =>
    rcases List.mem_append.mp hd with hd | hd
    · exact ih hd
    · exact ⟨label, more, hchange, hd⟩

end Situation.Path

/-- Changes lead from the first situation to the second. -/
def Situation.Reaches (w : World) (s s' : Situation) : Prop :=
  ∃ deeds, Path w deeds s s'

namespace Situation.Reaches

variable {w : World} {s s₁ s₂ : Situation}

theorem refl (s : Situation) : s.Reaches w s :=
  ⟨[], .refl s⟩

theorem step (h : s.Reaches w s₁) {label : Label} (hs : Change w label s₁ s₂) :
    s.Reaches w s₂ := by
  obtain ⟨deeds, hpath⟩ := h
  obtain ⟨more, hd, hr⟩ := hs.deeds
  exact ⟨deeds ++ more, hpath.step hs hd hr⟩

end Situation.Reaches

end TagLang
