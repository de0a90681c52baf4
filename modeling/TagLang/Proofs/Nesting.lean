import TagLang.Proofs.Returning
import TagLang.Session

/-!
# The order in which hidden bindings come back

The bindings that calls and loops hide wait in two places, in the frames and on the stack of loop
items.  They come back in the reverse of the order in which they were hidden if nothing that was
hidden later still waits when one of them comes back (`Registry.enteredSince`).

* At the end of a call this is always so.
* At the end of a loop it is so as long as the innermost call has not bound the name of the item in
  the meantime.  A name that a loop has bound cannot be declared, so the item must have been freed
  first: a loop during which no statement frees its item spares the name (`Machine.Spares`).
* `bindings_come_back_in_reverse` says both, and `free_item_loses_hidden` shows what a freed item
  leads to.
-/

namespace TagLang

open Machine

/-! ### What waits and did not before -/

/-- What has been put in front of a list, as far as it can be told by its length. -/
def newest {α : Type} (old new : List α) : List α :=
  new.take (new.length - old.length)

theorem newest_append {α : Type} (added old : List α) : newest old (added ++ old) = added := by
  simp [newest]

theorem newest_self {α : Type} (old : List α) : newest old old = [] := by
  simp [newest]

namespace Registry

/-- The names that wait in calls and loops of the second registry and did not in the first one: all
names of calls that are new, the new names of the other calls, and the items of loops that are
new. -/
def enteredSince (r r' : Registry) : List String :=
  (newest r.localKeys r'.localKeys).flatten ++
    (List.zipWith newest r.localKeys
      (r'.localKeys.drop (r'.localKeys.length - r.localKeys.length))).flatten ++
    newest r.itemKeys r'.itemKeys

theorem flatten_zipWith_newest_self (keys : List (List String)) :
    (List.zipWith newest keys keys).flatten = [] := by
  induction keys with
  | nil => rfl
  | cons first rest ih => rw [List.zipWith_cons_cons, List.flatten_cons, newest_self, ih]; rfl

/-- Inside the same calls and loops, the new names are those of the innermost call. -/
theorem enteredSince_of_addKeys {r r' : Registry} {inner added : List String}
    {outer : List (List String)} (hr : r.localKeys = inner :: outer)
    (hl : r'.localKeys = addKeys added r.localKeys) (hi : r'.itemKeys = r.itemKeys) :
    enteredSince r r' = added := by
  have hlen : r'.localKeys.length = r.localKeys.length := by
    rw [hl, hr]
    rfl
  rw [enteredSince, newest, hlen, Nat.sub_self, List.take_zero, List.drop_zero, hi, newest_self, hl,
    hr]
  show [].flatten ++
    (newest inner (added ++ inner) :: List.zipWith newest outer outer).flatten ++ [] = _
  rw [List.flatten_cons, newest_append, flatten_zipWith_newest_self, List.append_nil,
    List.append_nil]
  rfl

/-- Outside of all calls no names are entered but items of loops. -/
theorem enteredSince_of_nil {r r' : Registry} (hr : r.localKeys = []) (hl : r'.localKeys = [])
    (hi : r'.itemKeys = r.itemKeys) : enteredSince r r' = [] := by
  rw [enteredSince, hr, hl, hi, newest_self, newest_self]
  rfl

/-- Where the same names wait, nothing has been entered. -/
theorem enteredSince_of_eq {r r' : Registry} (hl : r'.localKeys = r.localKeys)
    (hi : r'.itemKeys = r.itemKeys) : enteredSince r r' = [] := by
  rw [enteredSince, hl, hi, newest_self, newest_self, Nat.sub_self, List.drop_zero,
    flatten_zipWith_newest_self]
  rfl

/-! ### Names that no statement has bound -/

variable {r : Registry} {k : String}

theorem fixed_eq_iff : r.Fixed (· = k) ↔ ∃ b, r.get? k = some b ∧ b.origin = none := by
  constructor
  · exact fun h => h k rfl
  · rintro h _ rfl
    exact h

theorem Fixed.define (h : r.Fixed (· = k)) {key : String} {b : Binding}
    (hb : key = k → b.origin = none) : (r.define key b).Fixed (· = k) := by
  rw [fixed_eq_iff] at h ⊢
  rw [get?_define]
  by_cases hk : key = k
  · exact ⟨b, by rw [if_pos hk], hb hk⟩
  · rw [if_neg hk]
    exact h

theorem Fixed.bindLocal (h : r.Fixed (· = k)) {key : String} {b : Binding}
    (hb : key = k → b.origin = none) : (r.bindLocal key b).Fixed (· = k) := by
  have hget : (r.bindLocal key b).get? k = (r.define key b).get? k := by
    unfold Registry.bindLocal Registry.define
    cases r.frames <;> rfl
  have hd := fixed_eq_iff.mp (h.define hb)
  rw [fixed_eq_iff, hget]
  exact hd

theorem Fixed.setResult (h : r.Fixed (· = k)) (function : String) (v : Value) :
    (r.setResult function v).Fixed (· = k) := by
  unfold Registry.setResult
  split
  next b hb =>
    split
    · refine h.define fun hk => ?_
      obtain ⟨b', hb', ho⟩ := fixed_eq_iff.mp h
      rw [hk, hb', Option.some_inj] at hb
      exact hb ▸ ho
    · exact h
  · exact h

/-- At the start of a call a fixed name is still fixed, be it as a parameter. -/
theorem Fixed.enterCall (h : r.Fixed (· = k)) (f : Function) (args : List Value) :
    (Engine.enterCall f args r).Fixed (· = k) := by
  refine Engine.enterCall_induct (P := Fixed (· = k)) f args (h.setResult f.name .none) ?_
  exact fun r param arg hr => hr.bindLocal fun _ => rfl

theorem Fixed.of_get? {r' : Registry} (h : r.Fixed (· = k)) (hk : r'.get? k = r.get? k) :
    r'.Fixed (· = k) := by
  rw [fixed_eq_iff] at h ⊢
  rwa [hk]

/-- Only free names are declared, so a fixed name stays as it is. -/
theorem Fixed.declare? (h : r.Fixed (· = k)) {key : String} {b : Binding} {r' : Registry}
    (hr : r.declare? key b = some r') : r'.Fixed (· = k) := by
  unfold Registry.declare? at hr
  split at hr
  · cases hr
  next hfree =>
    cases hr
    refine h.define fun hk => ?_
    obtain ⟨b', hb', _⟩ := fixed_eq_iff.mp h
    rw [hk, hb'] at hfree
    cases hfree

end Registry

/-! ### Parts of a run that spare a name -/

/-- The event takes away the binding of a name. -/
def Event.frees? (k : String) : Event → Bool
  | frees names => names.contains k
  | clears => true
  | _ => false

/-- The registry has gained shadows in its innermost frame only, none of them of the name, which no
statement has bound. -/
structure Registry.Spared (k : String) (r r' : Registry) : Prop where
  frames : ∃ added, r'.frames = addLocals added r.frames ∧ ∀ s ∈ added, s.key ≠ k
  items : r'.items = r.items
  fixed : r'.Fixed (· = k)

namespace Registry.Spared

variable {k : String} {r r₁ r₂ : Registry}

theorem of_eq (hf : r₁.frames = r.frames) (hi : r₁.items = r.items) (h : r₁.Fixed (· = k)) :
    Spared k r r₁ :=
  ⟨⟨[], by rw [hf, addLocals_nil], nofun⟩, hi, h⟩

theorem refl (h : r.Fixed (· = k)) : Spared k r r :=
  of_eq rfl rfl h

theorem trans (h₁ : Spared k r r₁) (h₂ : Spared k r₁ r₂) : Spared k r r₂ where
  frames := by
    obtain ⟨earlier, hf₁, hk₁⟩ := h₁.frames
    obtain ⟨later, hf₂, hk₂⟩ := h₂.frames
    exact ⟨later ++ earlier, by rw [hf₂, hf₁, addLocals_append],
      List.forall_mem_append.mpr ⟨hk₂, hk₁⟩⟩
  items := h₂.items.trans h₁.items
  fixed := h₂.fixed

/-- What spares a name inside a call spares it when the call is over. -/
theorem popFrame {f : Function} {args : List Value} (hr : r.Fixed (· = k))
    (h : Spared k (Engine.enterCall f args r) r₁) : Spared k r r₁.popFrame := by
  obtain ⟨params, hf, hi, hu⟩ := enterCall_eq f args r
  obtain ⟨added, hadded, hk⟩ := h.frames
  have hframes : r₁.frames = ⟨f.name, added ++ params⟩ :: r.frames := by
    rw [hadded, hf]
    rfl
  have hpop : r₁.popFrame = (added ++ params).foldl unshadow { r₁ with frames := r.frames } := by
    rw [Registry.popFrame, hframes]
  obtain ⟨hfr, hit, hb⟩ := foldl_unshadow { r₁ with frames := r.frames } (added ++ params)
  rw [← hpop] at hfr hit hb
  refine of_eq hfr (hit.trans (h.items.trans hi)) ?_
  have hget : r₁.popFrame.get? k = undone k params (r₁.get? k) := by
    rw [hb k, undone_append, undone_of_not_mem hk]
    rfl
  by_cases hp : ∃ s ∈ params, s.key = k
  · -- A parameter of this name gives back what the caller has seen.
    obtain ⟨s, hs, hsk⟩ := hp
    refine (hr.setResult f.name .none).of_get? ?_
    rw [hget, undone_eq_of_mem hs hsk _ ((Engine.enterCall f args r).get? k), hu k]
  · refine h.fixed.of_get? ?_
    rw [hget, undone_of_not_mem fun s hs hsk => hp ⟨s, hs, hsk⟩]

theorem get?_popItem (item : String) (h : Spared k (r.pushItem item) r₁) :
    r₁.popItem.frames = r₁.frames ∧ r₁.popItem.items = r.items ∧
      r₁.popItem.get? k = if item = k then r.get? item else r₁.get? k := by
  have hitems : r₁.items = ⟨item, r.get? item⟩ :: r.items := h.items
  have hpop : r₁.popItem = { r₁ with items := r.items }.unshadow ⟨item, r.get? item⟩ := by
    rw [Registry.popItem, hitems]
  rw [hpop]
  exact ⟨frames_unshadow _ _, items_unshadow _ _, get?_unshadow _ _ _⟩

/-- What spares a name inside a loop spares it when the loop is over. -/
theorem popItem {item : String} (hr : r.Fixed (· = k)) (h : Spared k (r.pushItem item) r₁) :
    Spared k r r₁.popItem := by
  obtain ⟨hf, hi, hget⟩ := h.get?_popItem item
  obtain ⟨added, hadded, hk⟩ := h.frames
  refine ⟨⟨added, hf.trans hadded, hk⟩, hi, ?_⟩
  by_cases hitem : item = k
  · exact hr.of_get? (by rw [hget, if_pos hitem, hitem])
  · exact h.fixed.of_get? (by rw [hget, if_neg hitem])

end Registry.Spared

/-- A part of a run that spares a name unless it frees it. -/
structure Machine.Spares (k : String) (m m' : Machine) : Prop where
  continues : Continues m m'
  spared : m.watched = true → m.registry.Fixed (· = k) →
    (∀ t ∈ since m m', t.event.frees? k = false) → m.registry.Spared k m'.registry

namespace Machine.Spares

variable {k : String} {m m₁ m₂ : Machine}

theorem trans (h₁ : Spares k m m₁) (h₂ : Spares k m₁ m₂) : Spares k m m₂ := by
  refine ⟨h₁.continues.trans h₂.continues, fun hw hk hn => ?_⟩
  rw [h₁.continues.since_trans h₂.continues] at hn
  have hs₁ := h₁.spared hw hk fun t ht => hn t (List.mem_append_right _ ht)
  have hs₂ := h₂.spared (h₁.continues.watched.trans hw) hs₁.fixed
    fun t ht => hn t (List.mem_append_left _ ht)
  exact hs₁.trans hs₂

theorem of_registry (hc : Continues m m₁)
    (h : m.registry.Fixed (· = k) → m.registry.Spared k m₁.registry) : Spares k m m₁ :=
  ⟨hc, fun _ hk _ => h hk⟩

theorem of_eq (hc : Continues m m₁) (hr : m₁.registry = m.registry) : Spares k m m₁ :=
  of_registry hc fun hk => by
    rw [hr]
    exact .refl hk

theorem refl (m : Machine) : Spares k m m :=
  of_eq (.refl m) rfl

theorem record (m : Machine) (event : Event) : Spares k m (m.record event) :=
  of_eq (.record m event) (congrArg _ (m.toSituation_record event))

/-- A change that leaves the frames and the loops alone. -/
theorem update (m : Machine) (f : Situation → Situation)
    (hf : (f m.toSituation).registry.frames = m.registry.frames)
    (hi : (f m.toSituation).registry.items = m.registry.items)
    (h : m.registry.Fixed (· = k) → (f m.toSituation).registry.Fixed (· = k)) :
    Spares k m (m.update f) :=
  of_registry (.update m f) fun hk => .of_eq hf hi (h hk)

/-- What frees the name may do anything. -/
theorem of_frees (h : Continues m m₁)
    (he : m.watched = true → ∃ t ∈ since m m₁, t.event.frees? k = true) : Spares k m m₁ := by
  refine ⟨h, fun hw _ hn => ?_⟩
  obtain ⟨t, ht, hfrees⟩ := he hw
  rw [hn t ht] at hfrees
  cases hfrees

end Machine.Spares

/-- The computation spares a name unless it frees it. -/
def Run.Spares (k : String) ⦃α : Type⦄ (x : Run α) : Prop :=
  Run.Moves (Machine.Spares k) x

namespace Run.Spares

variable {k : String}

theorem bind {α β : Type} {x : Run α} {f : α → Run β} (hx : Run.Spares k x)
    (hf : ∀ a, Run.Spares k (f a)) : Run.Spares k (x >>= f) :=
  Run.Moves.bind .trans hx hf

theorem look {α : Type} (g : Situation → α) : Run.Spares k (look g) := fun m => .refl m

theorem note (event : Event) : Run.Spares k (note event) := fun m => .record m event

theorem sequential : Sequential (Run.Spares k) where
  pure _ m := .refl m
  bind := bind
  failed _ m := .refl m
  look := look
  note event _ := note event

theorem assign (name : String) (v : Value) (line : Nat) :
    Run.Spares k (Engine.assign name v line) := by
  intro m
  rw [Engine.assign, Run.final_look_bind]
  split
  next r hr =>
    obtain ⟨b, hb, rfl⟩ := Registry.assign_eq_ok hr
    rw [Run.final_note_bind, Run.final_change]
    refine (Machine.Spares.record m _).trans (.update _ _ ?_ ?_ fun hk => ?_)
    · rw [registry_record]
      rfl
    · rw [registry_record]
      rfl
    · rw [registry_record] at hk
      refine hk.define fun hname => ?_
      obtain ⟨b', hb', ho⟩ := Registry.fixed_eq_iff.mp hk
      rw [hname, hb', Option.some_inj] at hb
      exact hb ▸ ho
  · exact .refl m
  · exact .refl m

/-- Any other name may be bound. -/
theorem bindNew (id : NodeId) (name : String) (v : Value) {m : Machine}
    (hname : m.registry.Fixed (· = k) → name ≠ k) :
    Machine.Spares k m (Run.final (Engine.bindNew id name v) m) := by
  rw [Engine.bindNew, Run.final_make]
  refine (Machine.Spares.record m (.makes [(name, .ofVariable v (some id))])).trans ?_
  rw [← registry_record m (.makes [(name, .ofVariable v (some id))])] at hname
  generalize m.record (.makes [(name, .ofVariable v (some id))]) = m at hname
  refine .of_registry (.update m _) fun hk => ?_
  show m.registry.Spared k (if m.registry.inCall then _ else _)
  split
  · refine ⟨⟨[⟨name, m.registry.get? name⟩], Registry.frames_bindLocal .., ?_⟩,
      Registry.items_bindLocal .., hk.bindLocal fun h => absurd h (hname hk)⟩
    exact List.forall_mem_singleton.mpr (hname hk)
  · exact .of_eq rfl rfl (hk.define fun h => absurd h (hname hk))

/-- A name that no statement has bound is not declared. -/
theorem declare (id : NodeId) (name : String) (v : Value) (line : Nat) :
    Run.Spares k (Engine.declare id name v line) := by
  intro m
  rw [Engine.declare, Run.final_look_bind]
  split
  next hfree =>
    refine bindNew id name v fun hk hname => ?_
    obtain ⟨b, hb, _⟩ := Registry.fixed_eq_iff.mp hk
    rw [hname, hb] at hfree
    cases hfree
  next b hb =>
    split
    next ho =>
      split
      · refine bindNew id name v fun hk hname => ?_
        obtain ⟨b', hb', hnone⟩ := Registry.fixed_eq_iff.mp hk
        rw [hname, hb', Option.some_inj] at hb
        rw [← hb, hnone] at ho
        cases ho
      · exact assign name v line m
    · exact .refl m

theorem answer (function : String) (v : Value) : Run.Spares k (Engine.answer function v) :=
  (note _).bind fun _ m => .update m _ (Registry.frames_setResult ..) (Registry.items_setResult ..)
    fun hk => hk.setResult function v

theorem switchingOn {run : NodeId → Run Flow} {id : NodeId} (h : Run.Spares k (run id)) :
    Run.Spares k (switchingOn run id) := by
  intro m
  rw [Machine.switchingOn, Run.final_look_bind, Run.final_change_bind, Run.final_ensuring]
  have hon : Machine.Spares k m (m.update (Situation.switch id true)) := .of_eq (.update m _) rfl
  exact (hon.trans (h _)).trans (.of_eq (.update _ _) rfl)

theorem duringCall (f : Function) (args : List Value) {x : Run Flow} (hx : Run.Spares k x) :
    Run.Spares k (Engine.duringCall f args x) := by
  intro m
  rw [Run.final_duringCall]
  let m₁ := m.entered f args
  have henter : Continues m m₁ := continues_entered
  have hbody : Machine.Spares k m₁ (Run.final x m₁) := hx m₁
  have hafter := hbody.continues.trans (.update _ fun s =>
    { s with registry := s.registry.popFrame, depth := s.depth - 1 })
  refine ⟨henter.trans hafter, fun hw hk hn => ?_⟩
  rw [henter.since_trans hafter] at hn
  have hw₁ : m₁.watched = true := henter.watched.trans hw
  have hk₁ : m₁.registry.Fixed (· = k) := registry_entered f args m ▸ hk.enterCall f args
  have hspared := hbody.spared hw₁ hk₁ fun t ht => hn t (List.mem_append_left _ ht)
  rw [registry_entered] at hspared
  exact hspared.popFrame hk

theorem runItems (e : Engine) (item : String) (body : NodeId) (hb : Run.Spares k (e.force body))
    (values : List Value) : Run.Spares k (e.runItems item body values) :=
  sequential.runItems (fun _ m => .update m _ rfl rfl fun hk => hk.define fun _ => rfl) hb values

theorem duringLoop (e : Engine) (item : String) (body : NodeId) (values : List Value)
    (hb : Run.Spares k (e.force body)) :
    Run.Spares k (Engine.duringLoop item (e.runItems item body values)) := by
  intro m
  rw [Engine.duringLoop, Run.final_make_bind, Run.final_ensuring]
  refine (Machine.Spares.record m (.makes [(item, .ofVariable .none none)])).trans ?_
  generalize m.record (.makes [(item, .ofVariable .none none)]) = m
  let m₁ := m.update (Situation.onRegistry fun r => r.pushItem item)
  have hbody : Machine.Spares k m₁ (Run.final (e.runItems item body values) m₁) :=
    runItems e item body hb values m₁
  refine ⟨(Continues.update m _).trans (hbody.continues.trans (.update _ _)), fun hw hk hn => ?_⟩
  have hpush : m₁.registry.Fixed (· = k) := hk.define fun _ => rfl
  exact (hbody.spared hw hpush hn).popItem hk

/-- Freeing other names. -/
theorem freeNames (line : Nat) {names : List String} (hk : names.contains k = false) :
    Run.Spares k (Engine.freeNames line names) := by
  induction names with
  | nil => exact fun m => .refl m
  | cons name rest ih =>
    rw [List.contains_cons, Bool.or_eq_false_iff, beq_eq_false_iff_ne] at hk
    intro m
    rw [Engine.freeNames, Run.final_look_bind]
    split
    next r hr =>
      rw [Run.final_change_bind]
      refine Machine.Spares.trans ?_ (ih hk.2 _)
      unfold Registry.remove? at hr
      split at hr
      · cases hr
      · cases hr
        refine .update m _ rfl rfl fun hfixed => hfixed.of_get? ?_
        exact (Table.get?_erase _ _ _).trans (if_neg (Ne.symm hk.1))
    · exact .refl m

theorem runFree (names : List String) (line : Nat) : Run.Spares k (Engine.runFree names line) := by
  cases hk : names.contains k with
  | false => exact (note _).bind fun _ => freeNames line hk
  | true =>
    intro m
    have hc := Run.continues_indifferent.freeNames line names (m.record (.frees names))
    refine .of_frees ((Continues.record m _).trans hc) fun hw =>
      ⟨⟨.frees names, m.toSituation⟩, ?_, hk⟩
    rw [Engine.runFree, Run.final_note_bind, Continues.since_of_record hw hc]
    exact List.mem_append_right _ (List.mem_singleton_self _)

/-- Names of the host are not bound by a statement either. -/
theorem bindModule (w : World) (source nickname : String) (line : Nat) :
    Run.Spares k (Engine.bindModule w source nickname line) := by
  refine sequential.bindModule (fun member entry m => ?_) source line
  refine .update m _ rfl rfl fun hk => hk.define fun _ => ?_
  cases entry <;> rfl

theorem prepare (inserting : Bool) (source : String) :
    Run.Spares k (prepare inserting source) := by
  intro m
  refine .of_registry (Run.continues_indifferent.prepare inserting source m) fun hk => ?_
  have hdeclared := Workshop.registry_prepare
    (P := fun r => r.frames = m.registry.frames ∧ r.items = m.registry.items ∧ r.Fixed (· = k))
    (fun r r' f id h hr => by
      have hfixed := h.2.2.declare? hr
      unfold Registry.declare? at hr
      split at hr
      · cases hr
      · cases hr
        exact ⟨h.1, h.2.1, hfixed⟩)
    inserting source m.forest ⟨rfl, rfl, hk⟩
  rw [Machine.final_prepare]
  exact .of_eq hdeclared.1 hdeclared.2.1 hdeclared.2.2

theorem runTarget (w : World) (e : Engine) (target : Sequence) (line : Nat)
    (ht : Run.Spares k (e.eval target)) (he : ∀ root, Run.Spares k (e.execute root)) :
    Run.Spares k (e.runTarget w target line) := by
  have hinserted : ∀ path, Run.Spares k (Engine.inserted w path line) := by
    refine fun path => sequential.inserted (note _) (prepare true) (fun root m => ?_) line
    rw [Run.final_change]
    exact .of_eq (.update m _) rfl
  refine sequential.runTarget ht fun path => sequential.runInserted (note _) (hinserted path)
    (fun _ => note _) fun root m => ?_
  rw [Engine.duringFile, Run.final_look_bind, Run.final_change_bind, Run.final_ensuring]
  exact (Machine.Spares.trans (.of_eq (.update m _) rfl) (he root _)).trans
    (.of_eq (.update _ _) rfl)

/-- Everything that a machine computes spares a name that no statement has bound, unless it frees
it. -/
theorem closed (w : World) (k : String) : Closed w (Run.Spares k) where
  toSequential := sequential
  stop _ m := .refl m
  run id := note (.runs id)
  write line text m := by
    rw [Run.final_write]
    exact .of_eq (.update m _) rfl
  flush line m := by
    rw [Run.final_flush]
    exact .refl m
  readLine line m := by
    rw [Run.final_readLine]
    exact .of_eq (.update m _) rfl
  switch id on m := .of_eq (.update m _) rfl
  switchingOn := switchingOn
  assign := assign
  declare := declare
  answer := answer
  call _ f args line hx := sequential.callScript (duringCall f args hx) line
  duringLoop := duringLoop
  runFree := runFree
  runFreeAll m := by
    refine .of_frees ((Continues.update m _).trans (.record _ .clears)) fun hw => ?_
    rw [Run.since_runFreeAll hw]
    exact ⟨_, List.mem_singleton_self _, rfl⟩
  runExtern source nickname line := (note _).bind fun _ => bindModule w source nickname line
  runInsert e target line ht he := (note _).bind fun _ => runTarget w e target line ht he

end Run.Spares

/-! ### Calls and loops as a whole -/

/-- When the innermost frame is left, all that waits and did not before the call is in the frame. -/
theorem Machine.Returns.call {f : Function} {args : List Value} {m m₂ : Machine}
    (h : Returns (m.update fun s =>
      { s with registry := Engine.enterCall f args s.registry, depth := s.depth + 1 }) m₂) :
    ∃ frame frames, m₂.registry.frames = frame :: frames ∧
      frames.map (fun f => f.locals.map (·.key)) = m.registry.localKeys ∧
      m₂.registry.itemKeys = m.registry.itemKeys := by
  obtain ⟨params, hparams, hitems⟩ := Registry.localKeys_enterCall f args m.registry
  obtain ⟨added, hadded⟩ := h.locals
  have hkeys : m₂.registry.localKeys = (added ++ params) :: m.registry.localKeys := by
    rw [hadded]
    show Registry.addKeys added (Engine.enterCall f args m.registry).localKeys = _
    rw [hparams]
    rfl
  obtain ⟨frame, frames, hframes, _, hrest⟩ := List.map_eq_cons_iff.mp hkeys
  exact ⟨frame, frames, hframes, hrest, h.items.trans hitems⟩

/-- In the same calls and loops, a name is not entered exactly if the innermost call has bound it as
often as before. -/
theorem Machine.Returns.not_mem_enteredSince_iff {m m' : Machine} (h : Returns m m') (k : String) :
    k ∉ Registry.enteredSince m.registry m'.registry ↔
      m'.registry.localKeys.head?.map (·.count k) = m.registry.localKeys.head?.map (·.count k) := by
  obtain ⟨added, hadded⟩ := h.locals
  cases hl : m.registry.localKeys with
  | nil =>
    have hl' : m'.registry.localKeys = [] := by
      rw [hadded, hl]
      rfl
    rw [Registry.enteredSince_of_nil hl hl' h.items, hl']
    simp
  | cons inner outer =>
    rw [Registry.enteredSince_of_addKeys hl hadded h.items, hadded, hl]
    show _ ↔ some ((added ++ inner).count k) = some (inner.count k)
    rw [Option.some_inj, List.count_append, ← List.count_eq_zero]
    omega

theorem Registry.Spared.not_mem_enteredSince {k : String} {r r' : Registry} (h : Spared k r r') :
    k ∉ enteredSince r r' := by
  obtain ⟨added, hf, hk⟩ := h.frames
  have hkeys : r'.localKeys = addKeys (added.map (·.key)) r.localKeys := by
    rw [localKeys, hf, localKeys]
    cases r.frames with
    | nil => rfl
    | cons f frames => simp only [addLocals, addKeys, List.map_cons, List.map_append]
  have hitems : r'.itemKeys = r.itemKeys := by rw [itemKeys, h.items, itemKeys]
  cases hl : r.localKeys with
  | nil =>
    rw [enteredSince_of_nil hl (by rw [hkeys, hl]; rfl) hitems]
    exact List.not_mem_nil
  | cons inner outer =>
    rw [enteredSince_of_addKeys hl hkeys hitems]
    intro hmem
    obtain ⟨s, hs, hsk⟩ := List.mem_map.mp hmem
    exact hk s hs hsk

/-- Whatever a call or a loop runs, what it has hidden comes back in the reverse order.

When the frame of a call is left, its names are undone one after the other, the latest first, and
when it is a name's turn, nothing waits any more that was hidden since the call began and later than
it.

When a loop is left, its item is undone, and nothing waits under that name that was hidden since the
loop began exactly if the innermost call has not bound the name in the meantime.  That is so unless
a statement has freed the item during the loop, and then the name has the binding again that it had
before the loop. -/
theorem bindings_come_back_in_reverse (w : World) (n : Nat) (m : Machine) :
    (∀ (f : Function) (args : List Value),
      let m₁ := m.update fun s =>
        { s with registry := Engine.enterCall f args s.registry, depth := s.depth + 1 }
      let r := (Run.final ((engine w n).force f.body) m₁).registry
      ∃ frame frames, r.frames = frame :: frames ∧
        ∀ later s earlier, frame.locals = later ++ s :: earlier →
          let r' := later.foldl Registry.unshadow { r with frames }
          r.popFrame = earlier.foldl Registry.unshadow (r'.unshadow s) ∧
            Registry.enteredSince m.registry r' = []) ∧
    ∀ (item : String) (body : NodeId) (values : List Value),
      let m₁ := m.update (Situation.onRegistry fun r => r.pushItem item)
      let r := (Run.final ((engine w n).runItems item body values) m₁).registry
      (∃ s items, r.items = s :: items ∧ s.key = item ∧ r.popItem = { r with items }.unshadow s) ∧
      (item ∉ Registry.enteredSince m₁.registry r ↔
        r.localKeys.head?.map (·.count item) = m₁.registry.localKeys.head?.map (·.count item)) ∧
      ((∀ t ∈ Run.account ((engine w n).runItems item body values) m₁,
          t.event.frees? item = false) →
        item ∉ Registry.enteredSince m₁.registry r ∧
          r.popItem.get? item = m.registry.get? item) := by
  have hreturns := (Run.Returns.closed w).engine n
  refine ⟨fun f args => ?_, fun item body values => ?_⟩
  · intro m₁ r
    obtain ⟨frame, frames, hframes, hkeys, hitems⟩ := (hreturns.force f.body m₁).call
    refine ⟨frame, frames, hframes, fun later s earlier hlocals => ?_⟩
    obtain ⟨hf, hi, _⟩ := Registry.foldl_unshadow { r with frames } later
    constructor
    · rw [Registry.popFrame, hframes]
      show frame.locals.foldl _ _ = _
      rw [hlocals, List.foldl_append, List.foldl_cons]
    · apply Registry.enteredSince_of_eq
      · rw [Registry.localKeys, hf]
        exact hkeys
      · rw [Registry.itemKeys, hi]
        exact hitems
  · intro m₁ r
    have hloop : Machine.Returns m₁ (Run.final ((engine w n).runItems item body values) m₁) :=
      Run.Returns.runItems _ item body (hreturns.force body) values m₁
    obtain ⟨s, items, hitems, hkey, _⟩ := List.map_eq_cons_iff.mp hloop.items
    refine ⟨⟨s, items, hitems, hkey, ?_⟩, hloop.not_mem_enteredSince_iff item, fun hn => ?_⟩
    · rw [Registry.popItem, hitems]
    · -- The account is kept by a watched machine, which ends in the same situation.
      have hforce : Run.Spares item ((engine w n).force body) :=
        ((Run.Spares.closed w item).engine n).force body
      have hblind : Run.Blind ((engine w n).runItems item body values) :=
        Run.blind_indifferent.runItems _ item body values
          (((Run.blind_indifferent.closed w).engine n).force body)
      have hfixed : m₁.watch.registry.Fixed (· = item) := by
        rintro k rfl
        exact ⟨_, (Registry.get?_define _ _ _ _).trans (if_pos rfl), rfl⟩
      have hsince : since m₁.watch (Run.final ((engine w n).runItems item body values) m₁.watch) =
          Run.account ((engine w n).runItems item body values) m₁ :=
        Continues.since_eq (List.append_nil _).symm
      have hspared := (Run.Spares.runItems _ item body hforce values m₁.watch).spared rfl hfixed
        (hsince ▸ hn)
      rw [hblind.final_toSituation] at hspared
      obtain ⟨_, _, hget⟩ := Registry.Spared.get?_popItem item hspared
      exact ⟨hspared.not_mem_enteredSince, hget.trans (if_pos rfl)⟩

/-- A loop in a call makes two passes, and its body declares a local of the call.  Nothing frees the
item, which hides a name, and that name has its old binding again behind the loop. -/
theorem bindings_come_back_in_reverse_local :
    let w : World := ⟨.empty, .constant ""⟩
    let source := "x = 1; fun f() { repeat (x : [7, 8]) { y = x; } }"
    let m :=
      (Run.final (Session.runStep w 40 (.source source)) (fresh { input := [] } .empty)).update
        (Situation.onRegistry fun r => r.pushFrame "f")
    let m₁ := m.update (Situation.onRegistry fun r => r.pushItem "x")
    let loop := (engine w 40).runItems "x" 16 [.int 7, .int 8]
    let r := (Run.final loop m₁).registry
    (∀ t ∈ Run.account loop m₁, t.event.frees? "x" = false) ∧
      ((r.value? "x").map Value.text, Registry.enteredSince m₁.registry r) = (some "8", ["y"]) ∧
      "x" ∉ Registry.enteredSince m₁.registry r ∧
      ((m.registry.value? "x").map Value.text = some "1" ∧
        r.popItem.get? "x" = m.registry.get? "x") := by
  intro w source m m₁ loop r
  have hfrees : ∀ t ∈ Run.account loop m₁, t.event.frees? "x" = false := by
    decide +kernel
  obtain ⟨hnot, hback⟩ :=
    ((bindings_come_back_in_reverse w 40 m).2 "x" 16 [.int 7, .int 8]).2.2 hfrees
  exact ⟨hfrees, by decide +kernel, hnot, by decide +kernel, hback⟩

/-- A loop in a call frees its item and the call declares a name like it: the loop hands back the
binding from before the call first, and the call then takes it away. -/
theorem free_item_loses_hidden :
    (match Session.runStep ⟨.empty, .constant ""⟩ 40
        (.source ("x = 1; fun f() { repeat (x : [1]) { free x; x = 5; } } " ++
          "call f(); print x;"))
        (Machine.fresh { input := [] } .empty) with
      | .error (.failed ⟨1, .undefined name⟩) _ => name == "x"
      | _ => false) = true := by
  decide +kernel

end TagLang
