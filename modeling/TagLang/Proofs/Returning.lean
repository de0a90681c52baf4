import TagLang.Proofs.CallFrame
import TagLang.Proofs.Evaluation

/-!
# Everything that is begun is brought to its end

Calls, loops over a list and inserted files borrow something from the machine: a frame, a place on
the stack of loop items, one of the calls that may be under way, the base directory.  However a
computation ends, all of this has been given back (`Run.Returns.closed`).  Only the innermost frame
may have gained names, those that the call has bound meanwhile.

The names are what counts here: freeing everything drops the bindings that wait in frames and loops,
but not the names that they wait under.
-/

namespace TagLang

open Machine

/-! ### Names that wait -/

namespace Registry

/-- The names bound in the calls under way, the innermost call first and its latest name first. -/
def localKeys (r : Registry) : List (List String) :=
  r.frames.map fun f => f.locals.map (·.key)

/-- The items of the loops under way, the innermost first. -/
def itemKeys (r : Registry) : List String :=
  r.items.map (·.key)

/-- The names of calls, with more in the innermost one. -/
def addKeys (added : List String) : List (List String) → List (List String)
  | [] => []
  | keys :: outer => (added ++ keys) :: outer

theorem addKeys_nil (keys : List (List String)) : addKeys [] keys = keys := by
  cases keys <;> rfl

theorem addKeys_append (later earlier : List String) (keys : List (List String)) :
    addKeys later (addKeys earlier keys) = addKeys (later ++ earlier) keys := by
  cases keys with
  | nil => rfl
  | cons inner outer => simp only [addKeys, List.append_assoc]

theorem localKeys_bindLocal (r : Registry) (key : String) (b : Binding) :
    (r.bindLocal key b).localKeys = addKeys [key] r.localKeys := by
  rw [localKeys, frames_bindLocal, localKeys]
  cases r.frames <;> rfl

theorem itemKeys_bindLocal (r : Registry) (key : String) (b : Binding) :
    (r.bindLocal key b).itemKeys = r.itemKeys := by
  rw [itemKeys, items_bindLocal, itemKeys]

theorem localKeys_setResult (r : Registry) (function : String) (v : Value) :
    (r.setResult function v).localKeys = r.localKeys := by
  rw [localKeys, frames_setResult, localKeys]

theorem itemKeys_setResult (r : Registry) (function : String) (v : Value) :
    (r.setResult function v).itemKeys = r.itemKeys := by
  rw [itemKeys, items_setResult, itemKeys]

theorem localKeys_clear (r : Registry) : r.clear.localKeys = r.localKeys := by
  simp only [localKeys, clear, List.map_map]
  refine List.map_congr_left fun f _ => ?_
  simp only [Function.comp, List.map_map]
  rfl

theorem itemKeys_clear (r : Registry) : r.clear.itemKeys = r.itemKeys := by
  simp only [itemKeys, clear, List.map_map]
  rfl

/-- A call starts with the names of its parameters, and above that everything is as it was. -/
theorem localKeys_enterCall (f : Function) (args : List Value) (r : Registry) :
    ∃ params, (Engine.enterCall f args r).localKeys = params :: r.localKeys ∧
      (Engine.enterCall f args r).itemKeys = r.itemKeys := by
  obtain ⟨params, hframes, hitems, _⟩ := enterCall_eq f args r
  refine ⟨params.map (·.key), ?_, ?_⟩
  · rw [localKeys, hframes, localKeys]
    rfl
  · rw [itemKeys, hitems, itemKeys]

/-- The end of a call drops the names of the innermost frame. -/
theorem keys_popFrame (r : Registry) :
    r.popFrame.localKeys = r.localKeys.tail ∧ r.popFrame.itemKeys = r.itemKeys := by
  cases hf : r.frames with
  | nil => simp [popFrame, hf, localKeys]
  | cons f frames =>
    have hpop : r.popFrame = f.locals.foldl unshadow { r with frames } := by rw [popFrame, hf]
    obtain ⟨hframes, hitems, _⟩ := foldl_unshadow { r with frames } f.locals
    rw [hpop, localKeys, itemKeys, hframes, hitems, localKeys, itemKeys, hf]
    exact ⟨rfl, rfl⟩

/-- The end of a loop drops its item. -/
theorem keys_popItem (r : Registry) :
    r.popItem.localKeys = r.localKeys ∧ r.popItem.itemKeys = r.itemKeys.tail := by
  cases hi : r.items with
  | nil => simp [popItem, hi, itemKeys]
  | cons s items =>
    have hpop : r.popItem = { r with items }.unshadow s := by rw [popItem, hi]
    rw [hpop, localKeys, itemKeys, frames_unshadow, items_unshadow, itemKeys, hi]
    exact ⟨rfl, rfl⟩

end Registry

/-! ### Sources -/

namespace Workshop

/-- Loading changes the registry only by declaring functions whose names are free. -/
theorem registry_loadAll {P : Registry → Prop}
    (hdeclare : ∀ r r' (f : Function) id, P r →
      r.declare? f.name (.ofFunction (.script f) (some id)) = some r' → P r') (inserting : Bool)
    (ids : List NodeId) (w : Workshop) (h : P w.registry) :
    P (left (loadAll inserting ids w)).registry := by
  induction ids generalizing w with
  | nil => exact h
  | cons id rest ih =>
    have hnode : P (left (loadNode inserting id w)).registry := by
      unfold loadNode
      split
      · exact h
      · split
        · exact h
        · split
          · exact h
          next registry hreg =>
            show P registry
            unfold register at hreg
            split at hreg
            · split at hreg
              next hr =>
                cases hreg
                exact hdeclare _ _ _ _ h hr
              · cases hreg
            · cases hreg
              exact h
    show P (left
      (EStateM.bind (loadNode inserting id) (fun _ => loadAll inserting rest) w)).registry
    unfold EStateM.bind
    cases hw : loadNode inserting id w with
    | ok _ w' =>
      rw [hw] at hnode
      exact ih w' hnode
    | error e w' =>
      rw [hw] at hnode
      exact hnode

theorem registry_prepare {P : Registry → Prop}
    (hdeclare : ∀ r r' (f : Function) id, P r →
      r.declare? f.name (.ofFunction (.script f) (some id)) = some r' → P r') (inserting : Bool)
    (source : String) (f : Forest) {r : Registry} (h : P r) :
    P (left (prepare inserting source f r)).registry := by
  unfold prepare
  split
  · exact h
  next root _ =>
    have hload : P (left (load inserting root ⟨(f.parse source).1, r, []⟩)).registry :=
      registry_loadAll hdeclare inserting _ ⟨(f.parse source).1, r, []⟩ h
    cases hw : load inserting root ⟨(f.parse source).1, r, []⟩ with
    | ok _ w => rw [hw] at hload; exact hload
    | error failure w => rw [hw] at hload; exact hload

end Workshop

namespace Machine

/-- Reading and loading a source ends as it does in the workshop, and what the workshop has made is
settled. -/
theorem prepare_eq_workshop (inserting : Bool) (source : String) (m : Machine) :
    prepare inserting source m =
      match Workshop.prepare inserting source m.forest m.registry with
      | .ok root w => .ok root (m.update (Situation.settle w))
      | .error failure w => refuse inserting failure (m.update (Situation.settle w)) := by
  rw [prepare_eq, Workshop.prepare]
  cases (m.forest.parse source).2 with
  | error failure => rfl
  | ok root =>
    let read := m.update fun s => { s with forest := (m.forest.parse source).1 }
    have hload := load_eq inserting root read
    dsimp only
    cases hw : Workshop.load inserting root ⟨(m.forest.parse source).1, m.registry, []⟩ with
    | ok _ w =>
      have hread : Workshop.load inserting root ⟨read.forest, read.registry, []⟩ = .ok _ w := hw
      rw [hread] at hload
      rw [Run.bind_of_ok hload]
      rfl
    | error failure w =>
      have hread : Workshop.load inserting root ⟨read.forest, read.registry, []⟩ =
        .error failure w := hw
      rw [hread] at hload
      rw [Run.bind_of_error hload]
      rfl

theorem final_prepare (inserting : Bool) (source : String) (m : Machine) :
    (Run.final (prepare inserting source) m).toSituation =
      m.settle (Workshop.left (Workshop.prepare inserting source m.forest m.registry)) := by
  rw [Run.final, prepare_eq_workshop]
  cases Workshop.prepare inserting source m.forest m.registry with
  | ok root w => rfl
  | error failure w => exact toSituation_record _ _

end Machine

namespace Engine

variable {path : Path} {m : Machine}

/-- The tree of a file that is remembered is at hand, whatever the library would say. -/
theorem inserted_of_known (w : World) (line : Nat) {root : NodeId}
    (h : m.inserted.get? path.components = some root) : inserted w path line m = .ok root m := by
  rw [inserted, Run.look_bind_of_eq h]
  rfl

/-- A file that is not remembered is read.  If it is loaded as a whole, it is remembered. -/
theorem inserted_of_new (w : World) (line : Nat) (h : m.inserted.get? path.components = none) :
    inserted w path line m =
      match w.library.load path with
      | .error io => Run.orIo line (.error io) (m.record (.reads path))
      | .ok source =>
        match Workshop.prepare true source m.forest m.registry with
        | .ok root made => .ok root ((m.record (.reads path)).update fun s =>
          { s.settle made with inserted := s.inserted.insert path.components root })
        | .error failure made =>
          refuse true failure ((m.record (.reads path)).update (Situation.settle made)) := by
  rw [inserted, Run.look_bind_of_eq h]
  cases w.library.load path with
  | error io => rfl
  | ok source =>
    let k := m.record (.reads path)
    show (prepare true source >>= _) k = _
    have hprepare := prepare_eq_workshop true source k
    have hk : k.toSituation = m.toSituation := toSituation_record m _
    rw [hk] at hprepare
    dsimp only
    generalize Workshop.prepare true source m.forest m.registry = prepared at hprepare ⊢
    cases prepared with
    | ok root made =>
      rw [Run.bind_of_ok hprepare]
      rfl
    | error failure made => exact Run.bind_of_error hprepare _

end Engine

/-! ### What a computation gives back -/

/-- The second machine is in the same calls, loops and files as the first one; the innermost call
may have bound more names. -/
structure Machine.Returns (m m' : Machine) : Prop where
  locals : ∃ added, m'.registry.localKeys = Registry.addKeys added m.registry.localKeys
  items : m'.registry.itemKeys = m.registry.itemKeys
  depth : m'.depth = m.depth
  inserting : m'.inserting = m.inserting
  baseDir : m'.baseDir = m.baseDir

namespace Machine.Returns

variable {m m₁ m₂ : Machine}

theorem trans (h₁ : Returns m m₁) (h₂ : Returns m₁ m₂) : Returns m m₂ where
  locals := by
    obtain ⟨earlier, h₁⟩ := h₁.locals
    obtain ⟨later, h₂⟩ := h₂.locals
    exact ⟨later ++ earlier, by rw [h₂, h₁, Registry.addKeys_append]⟩
  items := h₂.items.trans h₁.items
  depth := h₂.depth.trans h₁.depth
  inserting := h₂.inserting.trans h₁.inserting
  baseDir := h₂.baseDir.trans h₁.baseDir

/-- A change of the registry. -/
theorem of_registry {r : Registry} (hs : m₁.toSituation =
      { m.toSituation with
        registry := r, forest := m₁.forest, switches := m₁.switches, console := m₁.console,
        inserted := m₁.inserted })
    {added : List String} (hl : r.localKeys = Registry.addKeys added m.registry.localKeys)
    (hi : r.itemKeys = m.registry.itemKeys) : Returns m m₁ := by
  refine ⟨⟨added, ?_⟩, ?_, ?_, ?_, ?_⟩ <;> rw [hs]
  · exact hl
  · exact hi

/-- A change of the registry in which no names wait that did not before. -/
theorem of_keys {r : Registry} (hs : m₁.toSituation =
      { m.toSituation with
        registry := r, forest := m₁.forest, switches := m₁.switches, console := m₁.console,
        inserted := m₁.inserted })
    (hl : r.localKeys = m.registry.localKeys) (hi : r.itemKeys = m.registry.itemKeys) :
    Returns m m₁ :=
  of_registry hs (hl.trans (Registry.addKeys_nil _).symm) hi

theorem refl (m : Machine) : Returns m m :=
  of_keys rfl rfl rfl

theorem record (m : Machine) (event : Event) : Returns m (m.record event) := by
  refine of_keys (r := m.registry) ?_ rfl rfl
  rw [toSituation_record]

end Machine.Returns

/-! ### Single steps -/

/-- The computation gives back what it has borrowed. -/
def Run.Returns ⦃α : Type⦄ (x : Run α) : Prop :=
  Run.Moves Machine.Returns x

namespace Run.Returns

theorem bind {α β : Type} {x : Run α} {f : α → Run β} (hx : Run.Returns x)
    (hf : ∀ a, Run.Returns (f a)) : Run.Returns (x >>= f) :=
  Run.Moves.bind .trans hx hf

theorem look {α : Type} (g : Situation → α) : Run.Returns (look g) := fun m => .refl m

theorem note (event : Event) : Run.Returns (note event) := fun m => .record m event

theorem sequential : Sequential Run.Returns where
  pure _ m := .refl m
  bind := bind
  failed _ m := .refl m
  look := look
  note event _ := note event

theorem assign (name : String) (v : Value) (line : Nat) :
    Run.Returns (Engine.assign name v line) := by
  intro m
  rw [Engine.assign, Run.final_look_bind]
  split
  next r hr =>
    obtain ⟨b, _, rfl⟩ := Registry.assign_eq_ok hr
    rw [Run.final_note_bind]
    refine (Machine.Returns.record m _).trans (.of_keys rfl ?_ ?_)
    · rw [toSituation_record]
      rfl
    · rw [toSituation_record]
      rfl
  · exact .refl m
  · exact .refl m

theorem bindNew (id : NodeId) (name : String) (v : Value) :
    Run.Returns (Engine.bindNew id name v) := by
  refine (note _).bind fun _ m => ?_
  by_cases hc : m.registry.inCall = true
  · refine .of_registry (r := m.registry.bindLocal name (.ofVariable v (some id))) ?_
      (Registry.localKeys_bindLocal ..) (Registry.itemKeys_bindLocal ..)
    simp [Run.final, change, update, Situation.onRegistry, hc]
  · refine .of_keys (r := m.registry.define name (.ofVariable v (some id))) ?_ rfl rfl
    simp [Run.final, change, update, Situation.onRegistry, hc]

theorem declare (id : NodeId) (name : String) (v : Value) (line : Nat) :
    Run.Returns (Engine.declare id name v line) := by
  intro m
  rw [Engine.declare, Run.final_look_bind]
  split
  · exact bindNew id name v m
  · split
    · split
      · exact bindNew id name v m
      · exact assign name v line m
    · exact .refl m

theorem answer (function : String) (v : Value) : Run.Returns (Engine.answer function v) := by
  refine (note _).bind fun _ m => ?_
  exact .of_keys rfl (Registry.localKeys_setResult ..) (Registry.itemKeys_setResult ..)

theorem switchingOn {run : NodeId → Run Flow} {id : NodeId} (h : Run.Returns (run id)) :
    Run.Returns (switchingOn run id) := by
  intro m
  rw [Machine.switchingOn, Run.final_look_bind, Run.final_change_bind, Run.final_ensuring]
  have hon : Machine.Returns m (m.update (Situation.switch id true)) := .of_keys rfl rfl rfl
  exact (hon.trans (h _)).trans (.of_keys rfl rfl rfl)

/-! ### Calls and loops -/

theorem duringCall (f : Function) (args : List Value) {x : Run Flow} (hx : Run.Returns x) :
    Run.Returns (Engine.duringCall f args x) := by
  intro m
  rw [Run.final_duringCall]
  -- The body starts with a frame of its own, and gives back all but the names in it.
  let m₁ := m.entered f args
  have hstart : m₁.toSituation = _ := toSituation_entered f args m
  have hbody : Machine.Returns m₁ (Run.final x m₁) := hx m₁
  obtain ⟨params, hparams, hitems⟩ := Registry.localKeys_enterCall f args m.registry
  obtain ⟨added, hadded⟩ := hbody.locals
  obtain ⟨hlocals, hpop⟩ := Registry.keys_popFrame (Run.final x m₁).registry
  have hframe : (Run.final x m₁).registry.localKeys =
      (added ++ params) :: m.registry.localKeys := by
    rw [hadded, hstart, hparams]
    rfl
  refine ⟨⟨[], ?_⟩, ?_, ?_, ?_, ?_⟩
  · show (Run.final x m₁).registry.popFrame.localKeys = _
    rw [hlocals, hframe, Registry.addKeys_nil]
    rfl
  · show (Run.final x m₁).registry.popFrame.itemKeys = _
    rw [hpop, hbody.items, hstart, hitems]
  · show (Run.final x m₁).depth - 1 = m.depth
    rw [hbody.depth, hstart]
    exact Nat.add_sub_cancel ..
  · show (Run.final x m₁).inserting = m.inserting
    rw [hbody.inserting, hstart]
  · show (Run.final x m₁).baseDir = m.baseDir
    rw [hbody.baseDir, hstart]

theorem runItems (e : Engine) (item : String) (body : NodeId) (hb : Run.Returns (e.force body))
    (values : List Value) : Run.Returns (e.runItems item body values) :=
  sequential.runItems (fun _ _ => .of_keys rfl rfl rfl) hb values

theorem duringLoop (e : Engine) (item : String) (body : NodeId) (values : List Value)
    (hb : Run.Returns (e.force body)) :
    Run.Returns (Engine.duringLoop item (e.runItems item body values)) := by
  intro m
  rw [Engine.duringLoop, Run.final_make_bind, Run.final_ensuring]
  refine (Machine.Returns.record m (.makes [(item, .ofVariable .none none)])).trans ?_
  let m₁ := (m.record (.makes [(item, .ofVariable .none none)])).update
    (Situation.onRegistry fun r => r.pushItem item)
  have hbody : Machine.Returns m₁ (Run.final (e.runItems item body values) m₁) :=
    runItems e item body hb values m₁
  obtain ⟨added, hadded⟩ := hbody.locals
  obtain ⟨hlocals, hitems⟩ :=
    Registry.keys_popItem (Run.final (e.runItems item body values) m₁).registry
  refine ⟨⟨added, hlocals.trans hadded⟩, ?_, hbody.depth, hbody.inserting, hbody.baseDir⟩
  show (Run.final (e.runItems item body values) m₁).registry.popItem.itemKeys = _
  rw [hitems, hbody.items]
  rfl

/-! ### Names -/

theorem freeNames (line : Nat) (names : List String) :
    Run.Returns (Engine.freeNames line names) := by
  induction names with
  | nil => exact fun m => .refl m
  | cons name rest ih =>
    intro m
    rw [Engine.freeNames, Run.final_look_bind]
    split
    next r hr =>
      rw [Run.final_change_bind]
      refine Machine.Returns.trans ?_ (ih _)
      unfold Registry.remove? at hr
      split at hr
      · cases hr
      · cases hr
        exact .of_keys rfl rfl rfl
    · exact .refl m

/-! ### Inserted files -/

theorem prepare (inserting : Bool) (source : String) : Run.Returns (prepare inserting source) := by
  intro m
  have hs := Machine.final_prepare inserting source m
  have hkeys := Workshop.registry_prepare
    (P := fun r => r.localKeys = m.registry.localKeys ∧ r.itemKeys = m.registry.itemKeys)
    (fun r r' f id h hr => by
      unfold Registry.declare? at hr
      split at hr
      · cases hr
      · cases hr
        exact h)
    inserting source m.forest ⟨rfl, rfl⟩
  refine .of_keys ?_ hkeys.1 hkeys.2
  rw [hs]
  rfl

theorem inserted (w : World) (path : Path) (line : Nat) :
    Run.Returns (Engine.inserted w path line) :=
  sequential.inserted (note _) (prepare true) (fun _ _ => .of_keys rfl rfl rfl) line

theorem duringFile (path : Path) {x : Run Flow} (hx : Run.Returns x) :
    Run.Returns (Engine.duringFile path x) := by
  intro m
  rw [Engine.duringFile, Run.final_look_bind, Run.final_change_bind, Run.final_ensuring]
  let m₁ := m.update fun s =>
    { s with baseDir := path.parent?.getD .empty, inserting := path :: s.inserting }
  have hfile : Machine.Returns m₁ (Run.final x m₁) := hx m₁
  refine ⟨hfile.locals, hfile.items, hfile.depth, ?_, rfl⟩
  show (Run.final x m₁).inserting.tail = m.inserting
  rw [hfile.inserting]
  rfl

/-- Everything that a machine computes gives back what it has borrowed. -/
theorem closed (w : World) : Closed w Run.Returns where
  toSequential := sequential
  stop _ m := .refl m
  run id := note (.runs id)
  write line text m := by
    rw [Run.final_write]
    exact .of_keys rfl rfl rfl
  flush line m := by
    rw [Run.final_flush]
    exact .refl m
  readLine line m := by
    rw [Run.final_readLine]
    exact .of_keys rfl rfl rfl
  switch id on m := .of_keys rfl rfl rfl
  switchingOn := switchingOn
  assign := assign
  declare := declare
  answer := answer
  call _ f args line hx := sequential.callScript (duringCall f args hx) line
  duringLoop := duringLoop
  runFree names line := (note _).bind fun _ => freeNames line names
  runFreeAll := bind (fun m => .of_keys rfl (Registry.localKeys_clear m.registry)
    (Registry.itemKeys_clear m.registry)) fun _ => note _
  runExtern source nickname line := (note _).bind fun _ =>
    sequential.bindModule (fun _ _ _ => .of_keys rfl rfl rfl) source line
  runInsert e target line ht he := (note _).bind fun _ =>
    sequential.runTarget ht fun path => sequential.runInserted (note _) (inserted w path line)
      (fun _ => note _) fun root => duringFile path (he root)

end Run.Returns

end TagLang
