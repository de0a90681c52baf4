import Mathlib.Logic.Relation
import TagLang.Proofs.Resting

/-!
# Runs as sequences of changes

`Situation.Change` lists what can happen to a situation in one go, each kind of change under the
condition that is tested before it is made, and with the event that is told of it.  Everything a
machine computes is a sequence of such changes (`Run.Passes.closed`), and so is every step of a
session, behind the changes that it starts with (`Session.runStep_leads`).

What every change keeps therefore holds at every moment of a run (`Machine.Leads.keeps`,
`Session.course_keeps`).
-/

namespace TagLang

open Machine

/-! ### Single changes -/

/-- How a change shows on the account. -/
inductive Situation.Label where
  /-- The change is made without a word. -/
  | silent
  /-- The event is told of the situation before the change. -/
  | told (event : Event)
  /-- The change is made at the start of a step, before anything is told. -/
  | start

/-- The change may read and load a source. -/
def Situation.Label.isLoad : Situation.Label → Bool
  | start | told (.reads _) => true
  | _ => false

/-- What can happen to a situation in one go. -/
inductive Situation.Change (w : World) : Label → Situation → Situation → Prop
  /-- Something is told that has nothing to do with the file of an insertion. -/
  | tell {s : Situation} (event : Event) (h : event.isFile = false) : Change w (.told event) s s
  | console {s : Situation} (console : Console) : Change w .silent s { s with console }
  | switch {s : Situation} (id : NodeId) (on : Bool) : Change w .silent s (s.switch id on)
  /-- A name gets a new value, and keeps its kind and origin. -/
  | assign {s : Situation} {name : String} {v : Value} {r : Registry}
    (h : s.registry.assign name v = .ok r) :
    Change w (.told (.assigns name)) s { s with registry := r }
  /-- Outside of calls only free names are bound. -/
  | bind {s : Situation} (name : String) (v : Value) (id : NodeId)
    (h : s.registry.inCall = true ∨ s.registry.get? name = none) :
    Change w (.told (.makes [(name, .ofVariable v (some id))])) s (s.onRegistry fun r =>
      if r.inCall then r.bindLocal name (.ofVariable v (some id))
      else r.define name (.ofVariable v (some id)))
  | answer {s : Situation} (function : String) (v : Value) :
    Change w (.told (.answers function)) s (s.onRegistry fun r => r.setResult function v)
  | remove {s : Situation} {name : String} {r : Registry} (h : s.registry.remove? name = some r) :
    Change w .silent s { s with registry := r }
  | clear {s : Situation} : Change w .silent s (s.onRegistry Registry.clear)
  /-- A member of a module replaces no name that a statement has bound. -/
  | member {s : Situation} (key : String) (entry : HostEntry)
    (h : ((s.registry.get? key).bind (·.origin)).isSome = false) :
    Change w (.told (.makes [(key, Engine.hostBinding entry)])) s
      (s.onRegistry fun r => r.define key (Engine.hostBinding entry))
  | beginLoop {s : Situation} (item : String) :
    Change w (.told (.makes [(item, .ofVariable .none none)])) s
      (s.onRegistry fun r => r.pushItem item)
  | nextItem {s : Situation} (item : String) (v : Value) :
    Change w (.told (.makes [(item, .ofVariable v none)])) s
      (s.onRegistry fun r => r.define item (.ofVariable v none))
  | endLoop {s : Situation} : Change w .silent s (s.onRegistry Registry.popItem)
  /-- No more than a certain number of calls are under way. -/
  | beginCall {s : Situation} (f : Function) (h : s.depth < maxCallDepth) :
    Change w (.told (.answers f.name)) s
      { s with registry := Engine.beginCall f s.registry, depth := s.depth + 1 }
  | parameters {s : Situation} (f : Function) (args : List Value) :
    Change w (.told (.makes (Engine.parameters f args))) s
      (s.onRegistry fun r => r.bindLocals (Engine.parameters f args))
  | endCall {s : Situation} :
    Change w .silent s { s with registry := s.registry.popFrame, depth := s.depth - 1 }
  /-- The source of a step is read and loaded, or as much of it as can be. -/
  | load {s : Situation} (source : String) :
    Change w .start s
      (s.settle (Workshop.left (Workshop.prepare false source s.forest s.registry)))
  /-- A step that runs a file starts where no file is being run. -/
  | startFile {s : Situation} (path base : Path) (h : s.inserting = []) :
    Change w .start s { s with baseDir := base, inserting := [path] }
  /-- An insertion that is not refused gets to its file. -/
  | find {s : Situation} (path : Path) : Change w (.told (.finds path)) s s
  /-- A file that is not remembered is read, but has no text. -/
  | miss {s : Situation} {path : Path} (hnew : s.inserted.get? path.components = none) :
    Change w (.told (.reads path)) s s
  /-- A file that is not remembered is read, but only a part of it can be loaded. -/
  | refuse {s : Situation} {path : Path} {source : String} {failure : Failure} {made : Workshop}
    (hnew : s.inserted.get? path.components = none) (hload : w.library.load path = .ok source)
    (h : Workshop.prepare true source s.forest s.registry = .error failure made) :
    Change w (.told (.reads path)) s (s.settle made)
  /-- A file that is not remembered is read and loaded, and is remembered from then on. -/
  | remember {s : Situation} {path : Path} {source : String} {root : NodeId} {made : Workshop}
    (hnew : s.inserted.get? path.components = none) (hload : w.library.load path = .ok source)
    (h : Workshop.prepare true source s.forest s.registry = .ok root made) :
    Change w (.told (.reads path)) s
      { s.settle made with inserted := s.inserted.insert path.components root }
  /-- The tree of a file that is remembered is entered.  No file is run inside itself, and not too
  many inside one another. -/
  | beginFile {s : Situation} {path : Path} {root : NodeId}
    (hknown : s.inserted.get? path.components = some root)
    (hnew : s.inserting.any path.same = false) (h : s.inserting.length < maxInsertDepth) :
    Change w (.told (.enters path root)) s
      { s with baseDir := path.parent?.getD .empty, inserting := path :: s.inserting }
  | endFile {s : Situation} (base : Path) :
    Change w .silent s { s with baseDir := base, inserting := s.inserting.tail }

/-- A change leaves a good situation good, with the nodes of the forest as they were. -/
theorem Situation.Change.good {w : World} {label : Label} {s s' : Situation}
    (h : Change w label s s') (hs : s.Good) : s'.Good ∧ s.forest.Grown s'.forest := by
  -- Most changes leave the forest alone, and the registry with functions that were there before.
  have haside : ∀ {s' : Situation}, s'.forest = s.forest → s'.inserted = s.inserted →
      s'.registry.Fits s.forest → s'.Good ∧ s.forest.Grown s'.forest :=
    fun hf hi hr => ⟨hs.of_eq hf hi hr, hf ▸ .refl _⟩
  have hregistry := hs.registry
  have hgrown := fun inserting source =>
    Workshop.grown_prepare hs.forest hregistry inserting source
  have hsettle : ∀ inserting source, (s.settle (Workshop.left
      (Workshop.prepare inserting source s.forest s.registry))).Good := by
    intro inserting source
    obtain ⟨seen, hl⟩ := Workshop.prepare_loads hs.forest hregistry inserting source
    exact hs.settle (Forest.parse_sprouts hs.forest.wellFormed source) hl
  cases h with
  | tell | console | switch | startFile | find | miss | beginFile | endFile =>
    exact haside rfl rfl hregistry
  | assign h => exact haside rfl rfl (hregistry.assign h)
  | bind name v id h =>
    refine haside rfl rfl ?_
    show Registry.Fits s.forest (if s.registry.inCall then _ else _)
    split
    · exact hregistry.bindLocal name (.ofVariable s.forest v (some id))
    · exact hregistry.define name (.ofVariable s.forest v (some id))
  | answer function v => exact haside rfl rfl (hregistry.setResult function v)
  | remove h => exact haside rfl rfl (hregistry.remove? h)
  | clear => exact haside rfl rfl hregistry.clear
  | member key entry h =>
    exact haside rfl rfl (hregistry.define key (Engine.hostBinding_fits s.forest entry))
  | beginLoop item => exact haside rfl rfl (hregistry.pushItem item)
  | nextItem item v => exact haside rfl rfl (hregistry.define item (.ofVariable s.forest v none))
  | endLoop => exact haside rfl rfl hregistry.popItem
  | beginCall f h => exact haside rfl rfl (Engine.beginCall_fits hregistry f)
  | parameters f args => exact haside rfl rfl (Engine.parameters_fits hregistry f args)
  | endCall => exact haside rfl rfl hregistry.popFrame
  | load source => exact ⟨hsettle false source, hgrown false source⟩
  | @refuse _ path source failure made hnew hload h =>
    have hmade := hsettle true source
    have hforest := hgrown true source
    rw [h] at hmade hforest
    exact ⟨hmade, hforest⟩
  | @remember _ path source root made hnew hload h =>
    have hmade := hsettle true source
    have hforest := hgrown true source
    rw [h] at hmade hforest
    refine ⟨{ hmade with inserted := fun p r hp => ?_ }, hforest⟩
    rw [Table.get?_insert] at hp
    split at hp
    · cases hp
      -- A file is remembered with the root of the tree that has just been loaded.
      have hprepare : prepare true source { s with } = .ok root
          ((Machine.mk s false []).update (Situation.settle made)) := by
        rw [prepare_eq_workshop, h]
      exact (isRoot_of_prepare hs hprepare).2
    · exact hmade.inserted p r hp

/-- Changes that show in one way lead from the first situation to the second. -/
def Situation.Changes (w : World) (label : Label) : Situation → Situation → Prop :=
  Relation.ReflTransGen (Change w label)

/-- What every change keeps is kept. -/
theorem Situation.Changes.keeps {w : World} {label : Label} {s s' : Situation}
    {I : Situation → Prop}
    (hI : ∀ {label s s'}, Change w label s s' → I s → I s') (h : Changes w label s s') (hs : I s) :
    I s' := by
  induction h with
  | refl => exact hs
  | tail _ hc ih => exact hI hc ih

theorem Situation.Changes.good {w : World} {label : Label} {s s' : Situation}
    (h : Changes w label s s') (hs : s.Good) : s'.Good ∧ s.forest.size ≤ s'.forest.size :=
  h.keeps (I := fun s' => s'.Good ∧ s.forest.size ≤ s'.forest.size)
    (fun hc hs => ⟨(hc.good hs.1).1, Nat.le_trans hs.2 (hc.good hs.1).2.size_le⟩)
    ⟨hs, Nat.le_refl _⟩

namespace Machine

/-- The machine behind a change, with the event on its account. -/
def move (label : Situation.Label) (s : Situation) (m : Machine) : Machine :=
  match label with
  | .told event => (m.record event).update fun _ => s
  | .silent | .start => m.update fun _ => s

theorem update_record (m : Machine) (event : Event) (f : Situation → Situation) :
    (m.record event).update f = m.move (.told event) (f m.toSituation) := by
  show { m.record event with toSituation := f (m.record event).toSituation } = _
  rw [toSituation_record]
  rfl

theorem record_eq_move (m : Machine) (event : Event) :
    m.record event = m.move (.told event) m.toSituation :=
  (update_record m event id).symm ▸ rfl

theorem continues_move (m : Machine) (label : Situation.Label) (s : Situation) :
    Continues m (m.move label s) := by
  cases label with
  | silent | start => exact .update m fun _ => s
  | told event => exact (Continues.record m event).trans (.update _ fun _ => s)

theorem toSituation_move (m : Machine) (label : Situation.Label) (s : Situation) :
    (m.move label s).toSituation = s := by
  cases label <;> rfl

/-- The event of a change is told of the situation before it. -/
theorem mem_since_move {m : Machine} {label : Situation.Label} {s : Situation} {t : Moment}
    (ht : t ∈ since m (m.move label s)) : label = .told t.event ∧ t.situation = m.toSituation := by
  cases label with
  | silent | start =>
    rw [move, Continues.since_update] at ht
    cases ht
  | told event =>
    have hsame : since m (m.move (.told event) s) = since m (m.record event) := rfl
    rw [hsame] at ht
    by_cases hw : m.watched = true
    · rw [Continues.since_record hw, List.mem_singleton] at ht
      exact ht ▸ ⟨rfl, rfl⟩
    · rw [record, if_neg hw, Continues.since_self] at ht
      cases ht

/-! ### Sequences of changes -/

/-- Changes lead from the first machine to the second, none of which belongs to the start of a
step. -/
inductive Leads (w : World) : Machine → Machine → Prop
  | refl (m : Machine) : Leads w m m
  | step {m m₁ : Machine} {label : Situation.Label} {s : Situation} (h : Leads w m m₁)
    (hs : Situation.Change w label m₁.toSituation s) (hl : label ≠ .start) :
    Leads w m (m₁.move label s)

namespace Leads

variable {w : World} {m m₁ m₂ : Machine}

theorem trans (h₁ : Leads w m m₁) (h₂ : Leads w m₁ m₂) : Leads w m m₂ := by
  induction h₂ with
  | refl => exact h₁
  | step _ hs hl ih => exact ih.step hs hl

theorem change {f : Situation → Situation}
    (h : Situation.Change w .silent m.toSituation (f m.toSituation)) : Leads w m (m.update f) :=
  (refl m).step h Situation.Label.noConfusion

theorem changeTelling {event : Event} {f : Situation → Situation}
    (h : Situation.Change w (.told event) m.toSituation (f m.toSituation)) :
    Leads w m ((m.record event).update f) := by
  rw [update_record]
  exact (refl m).step h Situation.Label.noConfusion

theorem record {event : Event} (h : Situation.Change w (.told event) m.toSituation m.toSituation) :
    Leads w m (m.record event) := by
  rw [record_eq_move]
  exact (refl m).step h Situation.Label.noConfusion

/-- A call may begin if not too many are under way. -/
theorem entered {f : Function} (args : List Value) (h : m.depth < maxCallDepth) :
    Leads w m (m.entered f args) :=
  (changeTelling (.beginCall f h)).trans (changeTelling (.parameters f args))

theorem continues (h : Leads w m m₁) : Continues m m₁ := by
  induction h with
  | refl => exact .refl m
  | step _ _ _ ih => exact ih.trans (continues_move _ _ _)

/-- What every change keeps holds at every moment and in the end. -/
theorem keeps {I : Situation → Prop}
    (hI : ∀ {label s s'}, Situation.Change w label s s' → I s → I s') (h : Leads w m m₁)
    (hm : I m.toSituation) : I m₁.toSituation ∧ ∀ t ∈ since m m₁, I t.situation := by
  induction h with
  | refl =>
    refine ⟨hm, fun t ht => ?_⟩
    rw [Continues.since_self] at ht
    cases ht
  | @step k label s h hs _ ih =>
    obtain ⟨hend, hmoments⟩ := ih
    rw [toSituation_move]
    refine ⟨hI hs hend, fun t ht => ?_⟩
    rw [h.continues.since_trans (continues_move k label s)] at ht
    rcases List.mem_append.mp ht with ht | ht
    · rw [(mem_since_move ht).2]
      exact hend
    · exact hmoments t ht

end Leads

end Machine

/-! ### Whole computations -/

/-- The functions whose calls are under way, the innermost first. -/
def Registry.functions (r : Registry) : List String :=
  r.frames.map (·.function)

namespace Registry

theorem functions_bindLocal (r : Registry) (key : String) (b : Binding) :
    (r.bindLocal key b).functions = r.functions := by
  rw [functions, frames_bindLocal, functions]
  cases r.frames <;> rfl

theorem functions_setResult (r : Registry) (function : String) (v : Value) :
    (r.setResult function v).functions = r.functions := by
  rw [functions, frames_setResult, functions]

theorem functions_enterCall (f : Function) (args : List Value) (r : Registry) :
    (Engine.enterCall f args r).functions = f.name :: r.functions := by
  obtain ⟨params, hframes, _⟩ := enterCall_eq f args r
  rw [functions, hframes, functions]
  rfl

theorem functions_popFrame (r : Registry) : r.popFrame.functions = r.functions.tail := by
  unfold popFrame
  cases hf : r.frames with
  | nil => simp [functions, hf]
  | cons f frames =>
    have hframes := (foldl_unshadow { r with frames } f.locals).1
    show (f.locals.foldl unshadow { r with frames }).functions = _
    rw [functions, hframes, functions, hf]
    rfl

theorem functions_popItem (r : Registry) : r.popItem.functions = r.functions := by
  unfold popItem
  split
  · rfl
  · rw [functions, frames_unshadow, functions]

theorem functions_clear (r : Registry) : r.clear.functions = r.functions := by
  simp [functions, clear, Function.comp_def]

theorem pending_clear (r : Registry) : r.clear.pending = r.pending.map Shadow.forget := by
  simp [pending, clear, List.flatMap_map, List.map_flatMap]

theorem functions_prepare (inserting : Bool) (source : String) (f : Forest) (r : Registry) :
    (Workshop.left (Workshop.prepare inserting source f r)).registry.functions = r.functions := by
  refine Workshop.registry_prepare (P := fun r' => r'.functions = r.functions) ?_ inserting source f
    rfl
  intro r₁ r₂ g id h₁ h
  unfold declare? at h
  split at h
  · cases h
  · cases h
    exact h₁

end Registry

/-- Changes lead from the first machine to the second, and the same calls are under way. -/
structure Machine.Passes (w : World) (m m' : Machine) : Prop where
  leads : Leads w m m'
  functions : m'.registry.functions = m.registry.functions

namespace Machine.Passes

variable {w : World} {m m₁ m₂ : Machine}

theorem refl (m : Machine) : Passes w m m :=
  ⟨.refl m, rfl⟩

theorem trans (h₁ : Passes w m m₁) (h₂ : Passes w m₁ m₂) : Passes w m m₂ :=
  ⟨h₁.leads.trans h₂.leads, h₂.functions.trans h₁.functions⟩

theorem change {f : Situation → Situation}
    (h : Situation.Change w .silent m.toSituation (f m.toSituation))
    (hf : (f m.toSituation).registry.functions = m.registry.functions) : Passes w m (m.update f) :=
  ⟨.change h, hf⟩

theorem changeTelling {event : Event} {f : Situation → Situation}
    (h : Situation.Change w (.told event) m.toSituation (f m.toSituation))
    (hf : (f m.toSituation).registry.functions = m.registry.functions) :
    Passes w m ((m.record event).update f) := by
  refine ⟨.changeTelling h, ?_⟩
  rw [update_record]
  exact hf

theorem record {event : Event} (h : Situation.Change w (.told event) m.toSituation m.toSituation) :
    Passes w m (m.record event) := by
  refine ⟨.record h, ?_⟩
  rw [toSituation_record]

end Machine.Passes

/-- The computation is a sequence of changes, and is in the same calls in the end. -/
def Run.Passes (w : World) ⦃α : Type⦄ (x : Run α) : Prop :=
  Run.Moves (Machine.Passes w) x

namespace Run.Passes

variable {w : World} {α β : Type}

theorem refl {x : Run α} (h : ∀ m, Run.final x m = m) : Run.Passes w x := by
  intro m
  rw [h m]
  exact .refl m

/-- A computation and one that follows it, on a machine on which the first one is known. -/
theorem bind_of {x : Run α} {f : α → Run β} {m : Machine} (hx : m.Passes w (Run.final x m))
    (hf : ∀ a m', x m = .ok a m' → m'.Passes w (Run.final (f a) m')) :
    m.Passes w (Run.final (x >>= f) m) :=
  Run.final_bind_of hx fun a m' h h' => h'.trans (hf a m' h)

theorem bind {x : Run α} {f : α → Run β} (hx : Run.Passes w x) (hf : ∀ a, Run.Passes w (f a)) :
    Run.Passes w (x >>= f) :=
  fun m => bind_of (hx m) fun a m' _ => hf a m'

theorem look (g : Situation → α) : Run.Passes w (look g) := refl fun _ => rfl

theorem note {event : Event} (h : event.isFile = false) : Run.Passes w (note event) :=
  fun _ => .record (.tell event h)

theorem sequential : Sequential (Run.Passes w) where
  pure _ := refl fun _ => rfl
  bind := bind
  failed _ := refl fun _ => rfl
  look := look
  note _ h := note (Event.isFile_of_isPlain h)

/-! #### Names -/

theorem assign (name : String) (v : Value) (line : Nat) :
    Run.Passes w (Engine.assign name v line) := by
  intro m
  rw [Engine.assign, Run.final_look_bind]
  split
  next r hr =>
    obtain ⟨b, _, hdefine⟩ := Registry.assign_eq_ok hr
    refine .changeTelling (f := fun s => { s with registry := r }) (.assign hr) ?_
    show r.functions = m.registry.functions
    rw [hdefine]
    rfl
  · exact .refl m
  · exact .refl m

theorem bindNew (id : NodeId) (name : String) (v : Value) {m : Machine}
    (h : m.registry.inCall = true ∨ m.registry.get? name = none) :
    m.Passes w (Run.final (Engine.bindNew id name v) m) := by
  refine .changeTelling (.bind name v id h) ?_
  show Registry.functions (if m.registry.inCall then _ else _) = m.registry.functions
  split
  · exact Registry.functions_bindLocal ..
  · rfl

theorem declare (id : NodeId) (name : String) (v : Value) (line : Nat) :
    Run.Passes w (Engine.declare id name v line) := by
  intro m
  rw [Engine.declare, Run.final_look_bind]
  split
  next hfree => exact bindNew id name v (.inr hfree)
  next b _ =>
    split
    · split
      next hcall => exact bindNew id name v (.inl (Bool.and_eq_true_iff.mp hcall).1)
      next => exact assign name v line m
    · exact .refl m

theorem answer (function : String) (v : Value) : Run.Passes w (Engine.answer function v) := by
  intro m
  exact .changeTelling (.answer function v) (Registry.functions_setResult ..)

theorem freeNames (line : Nat) (names : List String) :
    Run.Passes w (Engine.freeNames line names) := by
  induction names with
  | nil => exact refl fun _ => rfl
  | cons name rest ih =>
    intro m
    rw [Engine.freeNames, Run.final_look_bind]
    split
    next r hr =>
      refine Machine.Passes.trans (.change (.remove hr) ?_) (ih _)
      show r.functions = m.registry.functions
      unfold Registry.remove? at hr
      split at hr
      · cases hr
      · cases hr
        rfl
    · exact .refl m

theorem runFreeAll : Run.Passes w Engine.runFreeAll :=
  bind (fun m => .change .clear (Registry.functions_clear m.registry)) fun _ => note rfl

theorem bindEntries (nickname : String) (line : Nat) (entries : List (String × HostEntry)) :
    Run.Passes w (Engine.bindEntries nickname line entries) := by
  induction entries with
  | nil => exact refl fun _ => rfl
  | cons entry rest ih =>
    intro m
    rw [Engine.bindEntries, Run.final_look_bind]
    split
    · exact .refl m
    next hfree =>
      have hmember := Situation.Change.member (w := w) _ entry.2 (Bool.eq_false_iff.mpr hfree)
      exact Machine.Passes.trans (.changeTelling hmember rfl) (ih _)

theorem bindModule (source nickname : String) (line : Nat) :
    Run.Passes w (Engine.bindModule w source nickname line) := by
  unfold Engine.bindModule
  split
  · exact bindEntries nickname line _
  · exact refl fun _ => rfl

/-! #### Calls, loops and switches -/

theorem switchingOn {run : NodeId → Run Flow} {id : NodeId} (h : Run.Passes w (run id)) :
    Run.Passes w (switchingOn run id) := by
  intro m
  rw [Machine.switchingOn, Run.final_look_bind, Run.final_change_bind, Run.final_ensuring]
  exact (Machine.Passes.trans (.change (.switch id true) rfl) (h _)).trans
    (.change (.switch id _) rfl)

/-- A call that is not refused, because not too many are under way. -/
theorem duringCall (f : Function) (args : List Value) {x : Run Flow} (hx : Run.Passes w x)
    {m : Machine} (hdepth : m.depth < maxCallDepth) :
    m.Passes w (Run.final (Engine.duringCall f args x) m) := by
  rw [Run.final_duringCall]
  have hbody := hx (m.entered f args)
  refine ⟨((Leads.entered args hdepth).trans hbody.leads).trans (.change .endCall), ?_⟩
  show Registry.functions (Registry.popFrame _) = m.registry.functions
  rw [Registry.functions_popFrame, hbody.functions, registry_entered, Registry.functions_enterCall,
    List.tail_cons]

theorem callScript (e : Engine) (f : Function) (args : List Value) (line : Nat)
    (hx : Run.Passes w (e.force f.body)) : Run.Passes w (e.callScript f args line) := by
  unfold Engine.callScript
  split
  · exact refl fun _ => rfl
  · intro m
    rw [Run.final_look_bind]
    split
    · exact .refl m
    next hdepth =>
      refine bind_of (duringCall f args hx (Nat.lt_of_not_le hdepth)) fun flow m' _ => ?_
      cases flow <;> exact .refl m'

theorem runItems {e : Engine} {item : String} {body : NodeId} (hb : Run.Passes w (e.force body))
    (values : List Value) : Run.Passes w (e.runItems item body values) := by
  induction values with
  | nil => exact refl fun _ => rfl
  | cons v rest ih =>
    rw [Engine.runItems]
    refine bind (fun m => .changeTelling (.nextItem item v) rfl) fun _ => hb.bind fun flow => ?_
    cases flow with
    | completed => exact ih
    | break_ | return_ => exact refl fun _ => rfl

theorem duringLoop (e : Engine) (item : String) (body : NodeId) (values : List Value)
    (hb : Run.Passes w (e.force body)) :
    Run.Passes w (Engine.duringLoop item (e.runItems item body values)) := by
  intro m
  rw [Engine.duringLoop, Run.final_make_bind, Run.final_ensuring]
  exact (Machine.Passes.trans (.changeTelling (.beginLoop item) rfl) (runItems hb values _)).trans
    (.change .endLoop (Registry.functions_popItem _))

/-! #### Sources -/

theorem inserted (path : Path) (line : Nat) : Run.Passes w (Engine.inserted w path line) := by
  intro m
  cases hknown : m.inserted.get? path.components with
  | some root =>
    rw [Run.final, Engine.inserted_of_known w line hknown]
    exact .refl m
  | none =>
    have hread := Engine.inserted_of_new w line hknown
    cases hload : w.library.load path with
    | error io =>
      rw [hload] at hread
      rw [Run.final_of_error hread]
      exact .record (.miss hknown)
    | ok source =>
      have hfunctions := Registry.functions_prepare true source m.forest m.registry
      cases hw : Workshop.prepare true source m.forest m.registry with
      | ok root made =>
        simp only [hload, hw] at hread hfunctions
        rw [Run.final_of_ok hread]
        exact .changeTelling
          (f := fun s => { s.settle made with
            inserted := s.inserted.insert path.components root })
          (.remember hknown hload hw) hfunctions
      | error failure made =>
        simp only [hload, hw] at hread hfunctions
        rw [Run.final_of_error hread]
        exact Machine.Passes.trans (.changeTelling (.refuse hknown hload hw) hfunctions)
          (.record (.tell _ rfl))

theorem runInserted (e : Engine) (path : Path) (line : Nat) {m : Machine}
    (he : ∀ root, Run.Passes w (e.execute root)) (hnew : m.inserting.any path.same = false)
    (hdepth : m.inserting.length < maxInsertDepth) :
    m.Passes w (Run.final (e.runInserted w path line) m) := by
  let m₁ := m.record (.finds path)
  have hfinds : m.Passes w m₁ := .record (.find path)
  refine hfinds.trans (bind_of (inserted path line m₁) fun root m₂ hroot => ?_)
  have hsame : m₂.inserting = m.inserting := by
    have h := (Run.Returns.inserted w path line m₁).inserting
    rw [Run.final_of_ok hroot] at h
    rw [h, toSituation_record]
  rw [← hsame] at hnew hdepth
  rw [Run.final_note_bind]
  refine Run.final_bind_of (P := m₂.Passes w) ?_ fun _ m₃ _ h => h
  rw [Engine.duringFile, Run.final_look_bind, Run.final_change_bind, Run.final_ensuring]
  have hbegin := Situation.Change.beginFile (w := w) (Engine.get?_of_inserted hroot) hnew hdepth
  exact (Machine.Passes.trans (.changeTelling hbegin rfl) (he root _)).trans
    (.change (.endFile _) rfl)

theorem runTarget (e : Engine) (target : Sequence) (line : Nat) (ht : Run.Passes w (e.eval target))
    (he : ∀ root, Run.Passes w (e.execute root)) : Run.Passes w (e.runTarget w target line) := by
  unfold Engine.runTarget
  refine ht.bind fun v => ?_
  split
  · exact refl fun _ => rfl
  · refine (look _).bind fun path m => ?_
    rw [Engine.runPath, Run.final_look_bind]
    split
    · exact .refl m
    next hnew =>
      split
      · exact .refl m
      next hdepth =>
        exact runInserted e path line he (Bool.eq_false_iff.mpr hnew) (Nat.lt_of_not_le hdepth)

/-- Everything that a machine computes is a sequence of changes. -/
theorem closed (w : World) : Closed w (Run.Passes w) where
  toSequential := sequential
  stop _ := refl fun _ => rfl
  run id := note rfl
  write line text m := by
    rw [Run.final_write]
    exact .change (.console _) rfl
  flush line := refl fun m => Run.final_flush line m
  readLine line m := by
    rw [Run.final_readLine]
    exact .change (.console _) rfl
  switch id on m := .change (.switch id on) rfl
  switchingOn := switchingOn
  assign := assign
  declare := declare
  answer := answer
  call := callScript
  duringLoop := duringLoop
  runFree names line := (note rfl).bind fun _ => freeNames line names
  runFreeAll := runFreeAll
  runExtern source nickname line := (note rfl).bind fun _ => bindModule source nickname line
  runInsert e target line ht he := (note rfl).bind fun _ => runTarget e target line ht he

end Run.Passes

/-! ### Sessions -/

namespace Session

variable {w : World}

/-- The source of a step is read and loaded, and what comes then is a sequence of changes. -/
theorem runSource_leads (w : World) (n : Nat) (text : String) (m : Machine) :
    ∃ s, Situation.Change w .start m.toSituation s ∧
      Leads w (m.update fun _ => s) (Run.final (runSource w n text) m) := by
  refine ⟨_, .load text, ?_⟩
  have hprepare := prepare_eq_workshop false text m
  cases hw : Workshop.prepare false text m.forest m.registry with
  | ok root made =>
    rw [hw] at hprepare
    have hrun : Run.Passes w ((engine w n).execute root >>= fun _ => pure ()) :=
      (((Run.Passes.closed w).engine n).execute root).bind fun _ => .refl fun _ => rfl
    rw [runSource, Run.final_bind_of_ok hprepare]
    exact (hrun _).leads
  | error failure made =>
    rw [hw] at hprepare
    rw [runSource, Run.final_bind_of_error hprepare]
    exact .record (.tell _ rfl)

/-- A step of a session is a sequence of changes, behind those that it starts with.  It starts where
no file is being run. -/
theorem runStep_leads (n : Nat) (s : Step) {m : Machine} (hm : m.inserting = []) :
    ∃ s₀, Situation.Changes w .start m.toSituation s₀ ∧
      Leads w (m.update fun _ => s₀) (Run.final (runStep w n s) m) := by
  cases s with
  | source text =>
    obtain ⟨s₀, hload, hleads⟩ := runSource_leads w n text m
    exact ⟨s₀, .single hload, hleads⟩
  | file target =>
    unfold runStep runFile
    dsimp only
    cases w.library.load (w.library.resolve .empty target) with
    | error io => exact ⟨m.toSituation, .refl, .refl m⟩
    | ok text =>
      let path := w.library.resolve .empty target
      let enter := fun s : Situation =>
        { s with baseDir := path.parent?.getD s.baseDir, inserting := path :: s.inserting }
      let leave := fun s : Situation => { s with inserting := s.inserting.tail }
      have hbegin : Situation.Change w .start m.toSituation (enter m.toSituation) := by
        have hfile := Situation.Change.startFile (w := w) path (path.parent?.getD m.baseDir) hm
        simpa only [enter, hm] using hfile
      obtain ⟨s₀, hload, hleads⟩ := runSource_leads w n text (m.update enter)
      refine ⟨s₀, (Relation.ReflTransGen.single hbegin).tail hload, ?_⟩
      show Leads w _ (Run.final (Run.ensuring (runSource w n text) leave) (m.update enter))
      rw [Run.final_ensuring]
      exact hleads.trans (.change (.endFile _))

/-- The situations of a step: before it, at its moments in order, and after it. -/
def situations (w : World) (n : Nat) (s : Step) (m : Machine) : List Situation :=
  m.toSituation :: (Run.account (runStep w n s) m).reverse.map (·.situation) ++
    [(Run.final (runStep w n s) m).toSituation]

/-- The situations of a session. -/
def course (w : World) : List (Nat × Step) → Machine → List Situation
  | [], m => [m.toSituation]
  | (n, s) :: rest, m => situations w n s m ++ course w rest (Run.final (runStep w n s) m)

/-- The moments of a step are those of a sequence of changes from the machine at the start of an
account. -/
theorem situations_eq (n : Nat) (s : Step) (m : Machine) :
    situations w n s m = ((Run.final (runStep w n s) m.watch).toSituation ::
      (since m.watch (Run.final (runStep w n s) m.watch)).map (·.situation) ++
        [m.watch.toSituation]).reverse := by
  have hblind := (runStep_indifferent Run.blind_indifferent w n s).final_toSituation m
  have hsince : since m.watch (Run.final (runStep w n s) m.watch) = Run.account (runStep w n s) m :=
    Continues.since_eq (List.append_nil _).symm
  rw [hsince, hblind]
  simp [situations, Machine.watch]

section Course

variable {I : Situation → Prop} {m : Machine}
  (hI : ∀ {label s s'}, Situation.Change w label s s' → I s → I s')
include hI

/-- What every change keeps holds in all situations of a step. -/
theorem situations_keeps (hm : m.inserting = []) (hstart : I m.toSituation) (n : Nat) (s : Step) :
    ∀ t ∈ situations w n s m, I t := by
  obtain ⟨s₀, hstarts, hleads⟩ := runStep_leads (w := w) n s (m := m.watch) hm
  obtain ⟨hend, hmoments⟩ := hleads.keeps hI (hstarts.keeps hI hstart)
  intro t ht
  rw [situations_eq, List.mem_reverse] at ht
  rcases List.mem_append.mp ht with ht | ht
  · rcases List.mem_cons.mp ht with rfl | ht
    · exact hend
    · obtain ⟨moment, hmoment, rfl⟩ := List.mem_map.mp ht
      exact hmoments moment hmoment
  · exact List.mem_singleton.mp ht ▸ hstart

/-- What every change keeps holds in all situations of a session. -/
theorem course_keeps (hm : Reachable w m) (hstart : I m.toSituation) (steps : List (Nat × Step)) :
    ∀ t ∈ course w steps m, I t := by
  induction steps generalizing m with
  | nil =>
    intro t ht
    exact List.mem_singleton.mp ht ▸ hstart
  | cons step rest ih =>
    obtain ⟨n, s⟩ := step
    have hstep := situations_keeps hI hm.idle.inserting hstart n s
    have hend : I (Run.final (runStep w n s) m).toSituation := hstep _ (by simp [situations])
    intro t ht
    rcases List.mem_append.mp ht with ht | ht
    · exact hstep t ht
    · exact ih (.step n s hm) hend t ht

end Course

end Session

end TagLang
