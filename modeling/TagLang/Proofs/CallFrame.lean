import TagLang.Proofs.Account

/-!
# Calls leave the names of their caller alone

One flat table binds all names, and a call and a loop over a list put back what they hid.  During a
call in which no statement frees names, brings in a module or inserts a file, every name that the
call binds is entered in the call's frame, with the binding that it hides; a loop item is never
bound in between, because a name that a loop has bound cannot be declared.  So what waits in the
frame, undone from the latest entry to the first, gives the bindings from before the call, up to
values that were assigned while they could be seen.

* `Registry.layers`: how many bindings of a name wait to come back.  The binding from before the
  call is the visible one exactly when no layer has been added.
* `Kept`: what a part of a run inside a call does to the registry: it adds entries to the innermost
  frame, and undoing them gives the bindings from before.  It composes (`Kept.trans`).
* `Run.KeepsCall.closed`: every computation inside a call keeps the registry in this sense.
* `callScript_keeps_caller`: the law for whole calls.
-/

namespace TagLang

open Machine

/-! ### Undoing shadows -/

namespace Registry

/-- The binding of a name once some shadows are undone, the first one first. -/
def undone (k : String) (shadows : List Shadow) (b : Option Binding) : Option Binding :=
  shadows.foldl (fun b s => if s.key = k then s.hidden else b) b

theorem undone_append (k : String) (later earlier : List Shadow) (b : Option Binding) :
    undone k (later ++ earlier) b = undone k earlier (undone k later b) :=
  List.foldl_append

theorem undone_of_not_mem {k : String} {shadows : List Shadow}
    (h : ∀ s ∈ shadows, s.key ≠ k) (b : Option Binding) : undone k shadows b = b := by
  induction shadows generalizing b with
  | nil => rfl
  | cons s rest ih =>
    have hs : s.key ≠ k := h s (List.mem_cons_self ..)
    rw [undone, List.foldl_cons, if_neg hs]
    exact ih (fun t ht => h t (List.mem_cons_of_mem _ ht)) b

/-- A name that a shadow is about has the same binding behind it, whatever it had before. -/
theorem undone_eq_of_mem {k : String} {shadows : List Shadow} {s : Shadow} (hs : s ∈ shadows)
    (hk : s.key = k) (b c : Option Binding) : undone k shadows b = undone k shadows c := by
  induction shadows generalizing b c with
  | nil => cases hs
  | cons t rest ih =>
    rw [undone, undone, List.foldl_cons, List.foldl_cons]
    by_cases ht : t.key = k
    · rw [if_pos ht, if_pos ht]
    · rw [if_neg ht, if_neg ht]
      rcases List.mem_cons.mp hs with rfl | hs
      · exact absurd hk ht
      · exact ih hs b c

@[simp]
theorem get?_define (r : Registry) (key k : String) (b : Binding) :
    (r.define key b).get? k = if key = k then some b else r.get? k :=
  Table.get?_insert _ _ _ _

theorem assign_eq_ok {r r' : Registry} {key : String} {v : Value} (h : r.assign key v = .ok r') :
    ∃ b, r.get? key = some b ∧ r' = r.define key { b with value := v } := by
  unfold assign at h
  split at h
  · cases h
  next b hb =>
    split at h
    · cases h
    · cases h
      exact ⟨b, hb, rfl⟩

theorem get?_unshadow (r : Registry) (s : Shadow) (k : String) :
    (r.unshadow s).get? k = if s.key = k then s.hidden else r.get? k := by
  unfold unshadow
  split
  next b hb => rw [get?_define, hb]
  next hb => rw [hb]; exact Table.get?_erase _ _ _

theorem frames_unshadow (r : Registry) (s : Shadow) : (r.unshadow s).frames = r.frames := by
  unfold unshadow
  split <;> rfl

theorem items_unshadow (r : Registry) (s : Shadow) : (r.unshadow s).items = r.items := by
  unfold unshadow
  split <;> rfl

/-- Undoing shadows one after the other changes only bindings, as `undone` says. -/
theorem foldl_unshadow (r : Registry) (shadows : List Shadow) :
    (shadows.foldl unshadow r).frames = r.frames ∧ (shadows.foldl unshadow r).items = r.items ∧
      ∀ k, (shadows.foldl unshadow r).get? k = undone k shadows (r.get? k) := by
  induction shadows generalizing r with
  | nil => exact ⟨rfl, rfl, fun k => rfl⟩
  | cons s rest ih =>
    obtain ⟨hf, hi, hb⟩ := ih (r.unshadow s)
    refine ⟨hf.trans (frames_unshadow r s), hi.trans (items_unshadow r s), fun k => ?_⟩
    rw [List.foldl_cons, hb k, get?_unshadow]
    rfl

/-! ### Layers of a name -/

/-- How many bindings of a name wait to come back. -/
def layers (r : Registry) (k : String) : Nat :=
  r.pending.countP fun s => s.key == k

/-- The frames with shadows added to the innermost one. -/
def addLocals (added : List Shadow) : List Frame → List Frame
  | [] => []
  | f :: frames => { f with locals := added ++ f.locals } :: frames

theorem addLocals_append (later earlier : List Shadow) (frames : List Frame) :
    addLocals later (addLocals earlier frames) = addLocals (later ++ earlier) frames := by
  cases frames with
  | nil => rfl
  | cons f frames => simp only [addLocals, List.append_assoc]

theorem addLocals_nil (frames : List Frame) : addLocals [] frames = frames := by
  cases frames <;> rfl

theorem frames_bindLocal (r : Registry) (key : String) (b : Binding) :
    (r.bindLocal key b).frames = addLocals [⟨key, r.get? key⟩] r.frames := by
  unfold bindLocal define
  cases r.frames <;> rfl

theorem items_bindLocal (r : Registry) (key : String) (b : Binding) :
    (r.bindLocal key b).items = r.items := by
  unfold bindLocal define
  cases r.frames <;> rfl

theorem undone_bindLocal (r : Registry) (key k : String) (b : Binding) :
    undone k [⟨key, r.get? key⟩] ((r.bindLocal key b).get? k) = r.get? k := by
  have hb : (r.bindLocal key b).get? k = (r.define key b).get? k := by
    unfold bindLocal define
    cases r.frames <;> rfl
  rw [hb, get?_define, undone, List.foldl_cons, List.foldl_nil]
  by_cases hk : key = k
  · rw [if_pos hk, hk]
  · rw [if_neg hk, if_neg hk]

/-- Shadows of other names add no layer to a name. -/
theorem layers_addLocals {r r' : Registry} {added : List Shadow} {k : String}
    (hf : r'.frames = addLocals added r.frames) (hi : r'.items = r.items)
    (hk : ∀ s ∈ added, s.key ≠ k) : r'.layers k = r.layers k := by
  have h0 : added.countP (fun s => s.key == k) = 0 := by
    rw [List.countP_eq_zero]
    intro s hs
    simpa using hk s hs
  unfold layers pending
  rw [hf, hi]
  cases hfr : r.frames with
  | nil => rfl
  | cons f frames =>
    simp only [addLocals, List.flatMap_cons, List.append_assoc, List.countP_append, h0,
      Nat.zero_add]

/-! ### The start of a call -/

theorem frames_setResult (r : Registry) (function : String) (v : Value) :
    (r.setResult function v).frames = r.frames := by
  unfold setResult
  split
  · split <;> rfl
  · rfl

theorem items_setResult (r : Registry) (function : String) (v : Value) :
    (r.setResult function v).items = r.items := by
  unfold setResult
  split
  · split <;> rfl
  · rfl

/-- Binding parameters adds shadows to the innermost frame, and undoing them frees the
parameters. -/
theorem bindLocals_eq (r : Registry) (made : List (String × Binding)) :
    ∃ added, (r.bindLocals made).frames = addLocals added r.frames ∧
      (r.bindLocals made).items = r.items ∧
      ∀ k, undone k added ((r.bindLocals made).get? k) = r.get? k := by
  induction made generalizing r with
  | nil => exact ⟨[], (addLocals_nil _).symm, rfl, fun k => rfl⟩
  | cons p rest ih =>
    obtain ⟨param, b⟩ := p
    have hcons : r.bindLocals ((param, b) :: rest) = (r.bindLocal param b).bindLocals rest := rfl
    obtain ⟨added, hf, hi, hu⟩ := ih (r.bindLocal param b)
    refine ⟨added ++ [⟨param, r.get? param⟩], ?_, ?_, fun k => ?_⟩
    · rw [hcons, hf, frames_bindLocal, addLocals_append]
    · rw [hcons, hi, items_bindLocal]
    · rw [hcons, undone_append, hu k, undone_bindLocal]

/-- A call starts with a frame of its own, and undoing the parameters gives the caller's
bindings. -/
theorem enterCall_eq (f : Function) (args : List Value) (r : Registry) :
    ∃ params, (Engine.enterCall f args r).frames = ⟨f.name, params⟩ :: r.frames ∧
      (Engine.enterCall f args r).items = r.items ∧
      ∀ k, undone k params ((Engine.enterCall f args r).get? k) =
        (r.setResult f.name .none).get? k := by
  obtain ⟨added, hf, hi, hu⟩ := bindLocals_eq (Engine.beginCall f r) (Engine.parameters f args)
  refine ⟨added, hf.trans ?_, hi.trans (items_setResult r _ _), hu⟩
  show Frame.mk f.name (added ++ []) :: (r.setResult f.name .none).frames = _
  rw [List.append_nil, frames_setResult]

theorem layers_enterCall {f : Function} {args : List Value} {r : Registry} {params : List Shadow}
    {k : String} (hf : (Engine.enterCall f args r).frames = ⟨f.name, params⟩ :: r.frames)
    (hi : (Engine.enterCall f args r).items = r.items) (hk : ∀ s ∈ params, s.key ≠ k) :
    (Engine.enterCall f args r).layers k = r.layers k := by
  have hp : (Engine.enterCall f args r).frames = addLocals params (r.pushFrame f.name).frames := by
    simp [hf, addLocals, pushFrame]
  have h : (Engine.enterCall f args r).layers k = (r.pushFrame f.name).layers k :=
    layers_addLocals hp hi hk
  rw [h]
  rfl

end Registry

/-! ### What a part of a run does to the bindings -/

/-- The event takes names away, or binds names that it does not enter in a frame. -/
def Event.rebinds : Event → Bool
  | frees _ | clears | imports .. | inserts => true
  | _ => false

/-- The moment at which a name's binding is given a value: by an assignment, or, if it is a
function, by what the function gave. -/
def Moment.Hits (t : Moment) (k : String) : Prop :=
  match t.event with
  | .assigns name => name = k
  | .answers function =>
    function = k ∧ ∃ b, t.situation.registry.get? k = some b ∧ b.isFunction = true
  | _ => False

/-- A name is bound as before or free as before.  Its kind and its origin are the same, and its
value is too unless the name was hit at a moment at which it had as many layers as before. -/
def Preserved (moments : List Moment) (layers : Nat) (k : String) :
    Option Binding → Option Binding → Prop
  | none, none => True
  | some b, some b' => b'.kind = b.kind ∧ b'.origin = b.origin ∧
      (b'.value = b.value ∨ ∃ t ∈ moments, t.Hits k ∧ t.situation.registry.layers k = layers)
  | _, _ => False

namespace Preserved

variable {moments later earlier : List Moment} {layers : Nat} {k : String}
  {a b c : Option Binding}

theorem refl (a : Option Binding) : Preserved moments layers k a a := by
  cases a with
  | none => trivial
  | some b => exact ⟨rfl, rfl, .inl rfl⟩

theorem mono (h : Preserved moments layers k a b) (hs : ∀ t ∈ moments, t ∈ later) :
    Preserved later layers k a b := by
  cases a with
  | none => cases b with
    | none => trivial
    | some b => exact h.elim
  | some a => cases b with
    | none => exact h.elim
    | some b =>
      obtain ⟨hk, ho, hv⟩ := h
      exact ⟨hk, ho, hv.imp_right fun ⟨t, ht, hit⟩ => ⟨t, hs t ht, hit⟩⟩

theorem trans (h₁ : Preserved earlier layers k a b) (h₂ : Preserved later layers k b c) :
    Preserved (later ++ earlier) layers k a c := by
  have h₁' : Preserved (later ++ earlier) layers k a b :=
    h₁.mono fun t => List.mem_append_right later
  have h₂' : Preserved (later ++ earlier) layers k b c :=
    h₂.mono fun t => List.mem_append_left earlier
  cases a with
  | none => cases b with
    | none => exact h₂'
    | some b => exact h₁.elim
  | some a => cases b with
    | none => exact h₁.elim
    | some b => cases c with
      | none => exact h₂.elim
      | some c =>
        obtain ⟨hk₁, ho₁, hv₁⟩ := h₁'
        obtain ⟨hk₂, ho₂, hv₂⟩ := h₂'
        refine ⟨hk₂.trans hk₁, ho₂.trans ho₁, ?_⟩
        rcases hv₁ with hv₁ | hit
        · rcases hv₂ with hv₂ | hit
          · exact .inl (hv₂.trans hv₁)
          · exact .inr hit
        · exact .inr hit

/-- A bound name stays bound, and by the same statement if a statement bound it. -/
theorem exists_eq_some {b : Binding} (h : Preserved moments layers k (some b) c) :
    ∃ b', c = some b' ∧ b'.kind = b.kind ∧ b'.origin = b.origin := by
  cases c with
  | none => exact h.elim
  | some b' => exact ⟨b', rfl, h.1, h.2.1⟩

end Preserved

/-- The names are bound, and by no statement. -/
def Registry.Fixed (names : String → Prop) (r : Registry) : Prop :=
  ∀ k, names k → ∃ b, r.get? k = some b ∧ b.origin = none

/-- What a part of a run inside a call does to the registry: it adds shadows to the innermost frame,
and with these undone the bindings are those from before.  Only names that were free or bound by a
statement are shadowed.

The `loose` names are items of loops: they are bound anew in every pass, but stay fixed. -/
structure Kept (loose : String → Prop) (moments : List Moment) (r r' : Registry)
    (added : List Shadow) : Prop where
  frames : r'.frames = Registry.addLocals added r.frames
  items : r'.items = r.items
  bindings : ∀ k, ¬ loose k →
    Preserved moments (r.layers k) k (r.get? k) (Registry.undone k added (r'.get? k))
  declared : ∀ s ∈ added, ¬ loose s.key ∧ ∀ b, r.get? s.key = some b → b.origin.isSome
  fixed : r'.Fixed loose

namespace Kept

variable {loose : String → Prop} {moments later earlier : List Moment} {r r₁ r₂ : Registry}
  {a₁ a₂ : List Shadow}

/-- Bindings may change, as long as they are preserved, if nothing is shadowed. -/
theorem of_bindings (hf : r₁.frames = r.frames) (hi : r₁.items = r.items)
    (hb : ∀ k, Preserved moments (r.layers k) k (r.get? k) (r₁.get? k)) :
    Kept (fun _ => False) moments r r₁ [] where
  frames := by rw [hf, Registry.addLocals_nil]
  items := hi
  bindings k _ := hb k
  declared s hs := by cases hs
  fixed k hk := hk.elim

theorem refl (r : Registry) : Kept (fun _ => False) moments r r [] :=
  of_bindings rfl rfl fun _ => .refl _

theorem mono (h : Kept loose moments r r₁ a₁) (hs : ∀ t ∈ moments, t ∈ later) :
    Kept loose later r r₁ a₁ :=
  { h with bindings := fun k hk => (h.bindings k hk).mono hs }

theorem inCall_eq (h : Kept loose moments r r₁ a₁) : r₁.inCall = r.inCall := by
  rw [Registry.inCall, h.frames, Registry.inCall]
  cases r.frames <;> rfl

/-- Names that are not shadowed keep their bindings. -/
theorem preserved (h : Kept loose moments r r₁ a₁) {k : String} (hl : ¬ loose k)
    (hk : ∀ s ∈ a₁, s.key ≠ k) : Preserved moments (r.layers k) k (r.get? k) (r₁.get? k) := by
  have hb := h.bindings k hl
  rwa [Registry.undone_of_not_mem hk] at hb

theorem trans (h₁ : Kept loose earlier r r₁ a₁) (h₂ : Kept loose later r₁ r₂ a₂) :
    Kept loose (later ++ earlier) r r₂ (a₂ ++ a₁) where
  frames := by rw [h₂.frames, h₁.frames, Registry.addLocals_append]
  items := h₂.items.trans h₁.items
  bindings k hl := by
    rw [Registry.undone_append]
    by_cases hk : ∃ s ∈ a₁, s.key = k
    · -- The earlier part has hidden the binding, so the later part cannot reach it.
      obtain ⟨s, hs, hk⟩ := hk
      rw [Registry.undone_eq_of_mem hs hk _ (r₁.get? k)]
      exact (h₁.bindings k hl).mono fun t => List.mem_append_right later
    · have hk' : ∀ s ∈ a₁, s.key ≠ k := fun s hs hsk => hk ⟨s, hs, hsk⟩
      have hlayers : r₁.layers k = r.layers k := Registry.layers_addLocals h₁.frames h₁.items hk'
      have hb := h₂.bindings k hl
      rw [hlayers] at hb
      rw [Registry.undone_of_not_mem hk']
      exact (h₁.preserved hl hk').trans hb
  declared s hs := by
    rcases List.mem_append.mp hs with hs | hs
    · obtain ⟨hl, hd⟩ := h₂.declared s hs
      refine ⟨hl, fun b hb => ?_⟩
      by_cases hk : ∃ t ∈ a₁, t.key = s.key
      · obtain ⟨t, ht, hk⟩ := hk
        exact (h₁.declared t ht).2 b (hk ▸ hb)
      · have hk' : ∀ t ∈ a₁, t.key ≠ s.key := fun t ht htk => hk ⟨t, ht, htk⟩
        have hp := h₁.preserved hl hk'
        rw [hb] at hp
        obtain ⟨b', hb', _, ho⟩ := hp.exists_eq_some
        rw [← ho]
        exact hd b' hb'
    · exact h₁.declared s hs
  fixed := h₂.fixed

/-- Names that are fixed are not shadowed, because no statement has bound them. -/
theorem loosen (h : Kept (fun _ => False) moments r r₁ a₁) (hr : r.Fixed loose) :
    Kept loose moments r r₁ a₁ := by
  have hn : ∀ s ∈ a₁, ¬ loose s.key := by
    intro s hs hl
    obtain ⟨b, hb, ho⟩ := hr s.key hl
    have hd := (h.declared s hs).2 b hb
    rw [ho] at hd
    cases hd
  refine ⟨h.frames, h.items, fun k _ => h.bindings k id,
    fun s hs => ⟨hn s hs, (h.declared s hs).2⟩, fun k hk => ?_⟩
  obtain ⟨b, hb, ho⟩ := hr k hk
  have hp : Preserved moments (r.layers k) k (r.get? k) (r₁.get? k) :=
    h.preserved id fun s hs hsk => hn s hs (hsk ▸ hk)
  rw [hb] at hp
  obtain ⟨b', hb', _, ho'⟩ := hp.exists_eq_some
  exact ⟨b', hb', ho'.trans ho⟩

/-- Giving a bound name a value at a moment that hits it. -/
theorem define {key : String} {b : Binding} {t : Moment} (v : Value) (hb : r.get? key = some b)
    (ht : t ∈ moments) (hit : t.Hits key) (hr : t.situation.registry = r) :
    Kept (fun _ => False) moments r (r.define key { b with value := v }) [] := by
  refine of_bindings rfl rfl fun k => ?_
  rw [Registry.get?_define]
  by_cases hk : key = k
  · subst hk
    rw [if_pos rfl, hb]
    exact ⟨rfl, rfl, .inr ⟨t, ht, hit, by rw [hr]⟩⟩
  · rw [if_neg hk]
    exact .refl _

/-- Keeping what a function gave under its name. -/
theorem setResult {function : String} {t : Moment} (v : Value) (ht : t ∈ moments)
    (he : t.event = .answers function) (hr : t.situation.registry = r) :
    Kept (fun _ => False) moments r (r.setResult function v) [] := by
  unfold Registry.setResult
  split
  next b hb =>
    split
    next hf =>
      refine define v hb ht ?_ hr
      rw [Moment.Hits, he]
      exact ⟨rfl, b, by rw [hr, hb], hf⟩
    next => exact refl r
  next => exact refl r

/-- Binding a name in the innermost call, if it is free or was bound by a statement. -/
theorem bindLocal (key : String) (b : Binding)
    (hd : ∀ b', r.get? key = some b' → b'.origin.isSome) :
    Kept (fun _ => False) moments r (r.bindLocal key b) [⟨key, r.get? key⟩] where
  frames := Registry.frames_bindLocal r key b
  items := Registry.items_bindLocal r key b
  bindings k _ := by
    rw [Registry.undone_bindLocal]
    exact .refl _
  declared s hs := by
    obtain rfl := List.mem_singleton.mp hs
    exact ⟨id, hd⟩
  fixed k hk := hk.elim

/-! ### Loops over a list -/

/-- A pass of a loop binds its item anew. -/
theorem defineItem (item : String) (v : Value) :
    Kept (· = item) moments r (r.define item (.ofVariable v none)) [] where
  frames := (Registry.addLocals_nil _).symm
  items := rfl
  bindings k hk := by
    rw [Registry.undone, List.foldl_nil, Registry.get?_define, if_neg (Ne.symm hk)]
    exact .refl _
  declared s hs := by cases hs
  fixed k hk := ⟨.ofVariable v none, by rw [Registry.get?_define, if_pos hk.symm], rfl⟩

/-- A loop keeps what its passes keep, because its item gets back the binding that it hid. -/
theorem popItem {item : String} (h : Kept (· = item) moments (r.pushItem item) r₁ a₁) :
    Kept (fun _ => False) moments r r₁.popItem a₁ := by
  have hpush : ∀ k, ¬ k = item → (r.pushItem item).get? k = r.get? k := by
    intro k hk
    exact (Registry.get?_define r item k _).trans (if_neg (Ne.symm hk))
  have hlayers : ∀ k, ¬ k = item → (r.pushItem item).layers k = r.layers k := by
    intro k hk
    show (r.frames.flatMap (·.locals) ++ ⟨item, r.get? item⟩ :: r.items).countP _ = _
    rw [List.countP_append, List.countP_cons_of_neg (by simpa using Ne.symm hk),
      ← List.countP_append]
    rfl
  have hitems : r₁.items = ⟨item, r.get? item⟩ :: r.items := h.items
  have hpop : r₁.popItem = { r₁ with items := r.items }.unshadow ⟨item, r.get? item⟩ := by
    rw [Registry.popItem, hitems]
  rw [hpop]
  refine ⟨(Registry.frames_unshadow _ _).trans h.frames, Registry.items_unshadow _ _,
    fun k _ => ?_, fun s hs => ⟨id, fun b hb => ?_⟩, fun k hk => hk.elim⟩
  · rw [Registry.get?_unshadow]
    by_cases hk : item = k
    · -- The item itself: no pass declares it, so what it hid comes back untouched.
      subst hk
      have hn : ∀ s ∈ a₁, s.key ≠ item := fun s hs => (h.declared s hs).1
      rw [if_pos rfl, Registry.undone_of_not_mem hn]
      exact .refl _
    · rw [if_neg hk]
      have hb := h.bindings k (Ne.symm hk)
      rwa [hpush k (Ne.symm hk), hlayers k (Ne.symm hk)] at hb
  · obtain ⟨hl, hd⟩ := h.declared s hs
    exact hd b ((hpush s.key hl).trans hb)

/-! ### Calls -/

/-- A call keeps the bindings of its caller, if its body keeps those that it starts with. -/
theorem popFrame {f : Function} {args : List Value} {t : Moment} (ht : t ∈ moments)
    (he : t.event = .answers f.name) (hr : t.situation.registry = r)
    (h : Kept (fun _ => False) moments (Engine.enterCall f args r) r₁ a₁) :
    Kept (fun _ => False) moments r r₁.popFrame [] := by
  obtain ⟨params, hf, hi, hu⟩ := Registry.enterCall_eq f args r
  have hk₀ : Kept (fun _ => False) moments r (r.setResult f.name .none) [] :=
    setResult .none ht he hr
  have hf₁ : r₁.frames = ⟨f.name, a₁ ++ params⟩ :: r.frames := by
    rw [h.frames, hf]
    rfl
  have hpop : r₁.popFrame =
      (a₁ ++ params).foldl Registry.unshadow { r₁ with frames := r.frames } := by
    rw [Registry.popFrame, hf₁]
  obtain ⟨hfr, hit, hb⟩ := Registry.foldl_unshadow { r₁ with frames := r.frames } (a₁ ++ params)
  rw [← hpop] at hfr hit hb
  refine of_bindings hfr (hit.trans (h.items.trans hi)) fun k => ?_
  rw [hb k, Registry.undone_append]
  by_cases hk : ∃ s ∈ params, s.key = k
  · -- A parameter: nothing in the body reaches the binding that it hides.
    obtain ⟨s, hs, hk⟩ := hk
    rw [Registry.undone_eq_of_mem hs hk _ ((Engine.enterCall f args r).get? k), hu k]
    exact hk₀.bindings k id
  · have hk' : ∀ s ∈ params, s.key ≠ k := fun s hs hsk => hk ⟨s, hs, hsk⟩
    have hlayers : (Engine.enterCall f args r).layers k = r.layers k :=
      Registry.layers_enterCall hf hi hk'
    have hstart : (Engine.enterCall f args r).get? k = (r.setResult f.name .none).get? k := by
      rw [← hu k, Registry.undone_of_not_mem hk']
    have hbody := h.bindings k id
    rw [hlayers, hstart] at hbody
    rw [Registry.undone_of_not_mem hk']
    exact ((hk₀.bindings k id).trans hbody).mono fun t ht => by simpa using ht

end Kept

/-! ### Computations inside a call -/

/-- What a computation inside a call does to a watched machine, as long as nothing happens that
rebinds names. -/
structure Machine.Keeps (loose : String → Prop) (m m' : Machine) : Prop where
  continues : Continues m m'
  kept : m.watched = true → m.registry.inCall = true → m.registry.Fixed loose →
    (∀ t ∈ since m m', t.event.rebinds = false) →
    m'.depth = m.depth ∧ ∃ added, Kept loose (since m m') m.registry m'.registry added

namespace Machine.Keeps

variable {loose : String → Prop} {m m₁ m₂ : Machine}

theorem trans (h₁ : Keeps loose m m₁) (h₂ : Keeps loose m₁ m₂) : Keeps loose m m₂ := by
  refine ⟨h₁.continues.trans h₂.continues, fun hw hc hl hn => ?_⟩
  rw [h₁.continues.since_trans h₂.continues] at hn ⊢
  obtain ⟨hd₁, a₁, hk₁⟩ := h₁.kept hw hc hl fun t ht => hn t (List.mem_append_right _ ht)
  obtain ⟨hd₂, a₂, hk₂⟩ := h₂.kept (h₁.continues.watched.trans hw) (hk₁.inCall_eq.trans hc)
    hk₁.fixed fun t ht => hn t (List.mem_append_left _ ht)
  exact ⟨hd₂.trans hd₁, _, hk₁.trans hk₂⟩

theorem loosen (h : Keeps (fun _ => False) m m₁) : Keeps loose m m₁ := by
  refine ⟨h.continues, fun hw hc hl hn => ?_⟩
  obtain ⟨hd, added, hk⟩ := h.kept hw hc (fun k hk => hk.elim) hn
  exact ⟨hd, added, hk.loosen hl⟩

/-- A part of a run that leaves the registry and the number of calls alone. -/
theorem of_eq (hc : Continues m m₁) (hr : m₁.registry = m.registry) (hd : m₁.depth = m.depth) :
    Keeps loose m m₁ :=
  loosen ⟨hc, fun _ _ _ _ => ⟨hd, [], by rw [hr]; exact .refl _⟩⟩

theorem refl (m : Machine) : Keeps loose m m :=
  of_eq (.refl m) rfl rfl

/-- An event as such. -/
theorem record (event : Event) (m : Machine) : Keeps loose m (m.record event) :=
  of_eq (.record m event) (congrArg _ (m.toSituation_record event))
    (congrArg _ (m.toSituation_record event))

/-- A change of the registry that is not on the account. -/
theorem of_change (f : Registry → Registry)
    (h : m.registry.inCall = true → ∃ added, Kept loose [] m.registry (f m.registry) added) :
    Keeps loose m (m.update (Situation.onRegistry f)) := by
  refine ⟨.update m _, fun _ hc _ _ => ⟨rfl, ?_⟩⟩
  rw [Continues.since_update]
  exact h hc

/-- A change of the registry right behind an event. -/
theorem of_record (event : Event) (f : Registry → Registry)
    (h : Kept (fun _ => False) [⟨event, m.toSituation⟩] m.registry (f m.registry) []) :
    Keeps (fun _ => False) m ((m.record event).update (Situation.onRegistry f)) := by
  refine ⟨(Continues.record m event).trans (.update _ _), fun hw _ _ _ => ?_⟩
  have hs : since m ((m.record event).update (Situation.onRegistry f)) =
      [⟨event, m.toSituation⟩] :=
    Continues.since_record hw event
  rw [hs, Machine.record, if_pos hw]
  exact ⟨rfl, [], h⟩

/-- What rebinds names may do anything. -/
theorem of_rebinds (h : Continues m m₁)
    (he : m.watched = true → ∃ t ∈ since m m₁, t.event.rebinds = true) : Keeps loose m m₁ := by
  refine ⟨h, fun hw _ _ hn => ?_⟩
  obtain ⟨t, ht, hrebinds⟩ := he hw
  rw [hn t ht] at hrebinds
  cases hrebinds

theorem sequential (loose : String → Prop) : Sequential (Run.Moves (Keeps loose)) where
  pure _ m := .refl m
  bind := Run.Moves.bind .trans
  failed _ m := .refl m
  look _ m := .refl m
  note event _ m := .record event m

end Machine.Keeps

/-! ### Single steps -/

/-- The computation keeps, inside a call, what the call has not hidden. -/
def Run.KeepsCall ⦃α : Type⦄ (x : Run α) : Prop :=
  Run.Moves (Keeps fun _ => False) x

namespace Run.KeepsCall

theorem assign (name : String) (v : Value) (line : Nat) :
    Run.KeepsCall (Engine.assign name v line) := by
  intro m
  rw [Engine.assign, Run.final_look_bind]
  split
  next r hr =>
    obtain ⟨b, hb, rfl⟩ := Registry.assign_eq_ok hr
    exact Keeps.of_record (.assigns name) (fun _ => m.registry.define name { b with value := v })
      (Kept.define v hb (List.mem_singleton_self _) rfl rfl)
  · exact .refl m
  · exact .refl m

/-- A name that is free, or that a statement has bound, is bound in the innermost call. -/
theorem bindNew (id : NodeId) (name : String) (v : Value) {m : Machine}
    (hd : ∀ b, m.registry.get? name = some b → b.origin.isSome) :
    Keeps (fun _ => False) m (Run.final (Engine.bindNew id name v) m) := by
  have hrecord : Keeps (fun _ => False) m (m.record (.makes [(name, .ofVariable v (some id))])) :=
    .record _ m
  refine hrecord.trans (Keeps.of_change _ fun hc => ⟨[⟨name, m.registry.get? name⟩], ?_⟩)
  rw [toSituation_record] at hc ⊢
  rw [if_pos hc]
  exact Kept.bindLocal name _ hd

theorem declare (id : NodeId) (name : String) (v : Value) (line : Nat) :
    Run.KeepsCall (Engine.declare id name v line) := by
  intro m
  rw [Engine.declare, Run.final_look_bind]
  split
  next hb =>
    refine bindNew id name v fun b hb' => ?_
    rw [hb] at hb'
    cases hb'
  next b hb =>
    split
    next ho =>
      split
      · refine bindNew id name v fun b' hb' => ?_
        rw [hb, Option.some_inj] at hb'
        rw [← hb', ho]
        rfl
      · exact assign name v line m
    next => exact .refl m

theorem answer (function : String) (v : Value) : Run.KeepsCall (Engine.answer function v) :=
  fun _ => Keeps.of_record (.answers function) (fun r => r.setResult function v)
    (Kept.setResult v (List.mem_singleton_self _) rfl rfl)

theorem switchingOn {run : NodeId → Run Flow} {id : NodeId} (h : Run.KeepsCall (run id)) :
    Run.KeepsCall (switchingOn run id) := by
  intro m
  rw [Machine.switchingOn, Run.final_look_bind, Run.final_change_bind, Run.final_ensuring]
  have hon : Keeps (fun _ => False) m (m.update (Situation.switch id true)) :=
    .of_eq (.update m _) rfl rfl
  exact (hon.trans (h _)).trans (.of_eq (.update _ _) rfl rfl)

/-! ### Loops and calls -/

/-- The passes of a loop bind its item anew and keep the rest. -/
theorem runItems (e : Engine) (item : String) (body : NodeId) (hb : Run.KeepsCall (e.force body))
    (values : List Value) :
    Run.Moves (Keeps (· = item)) (e.runItems item body values) :=
  (Keeps.sequential _).runItems (fun v _ => .of_change _ fun _ => ⟨[], Kept.defineItem item v⟩)
    (fun m => (hb m).loosen) values

theorem duringLoop (e : Engine) (item : String) (body : NodeId) (values : List Value)
    (hb : Run.KeepsCall (e.force body)) :
    Run.KeepsCall (Engine.duringLoop item (e.runItems item body values)) := by
  intro m
  rw [Engine.duringLoop, Run.final_make_bind, Run.final_ensuring]
  refine Keeps.trans (.record (.makes [(item, .ofVariable .none none)]) m) ?_
  generalize m.record (.makes [(item, .ofVariable .none none)]) = m
  -- The run goes from `m` over the start `m₁` and the end `m₂` of the passes.
  let m₁ := m.update (Situation.onRegistry fun r => r.pushItem item)
  let m₂ := Run.final (e.runItems item body values) m₁
  have hpasses : Keeps (· = item) m₁ m₂ := runItems e item body hb values m₁
  have hc : Continues m (m₂.update (Situation.onRegistry Registry.popItem)) :=
    (Continues.update m _).trans (hpasses.continues.trans (.update _ _))
  have hs : since m (m₂.update (Situation.onRegistry Registry.popItem)) = since m₁ m₂ := rfl
  refine ⟨hc, fun hw hcall _ hn => ?_⟩
  have hfixed : m₁.registry.Fixed (· = item) := by
    rintro k rfl
    exact ⟨_, (Registry.get?_define _ _ _ _).trans (if_pos rfl), rfl⟩
  obtain ⟨hd, added, hk⟩ := hpasses.kept hw hcall hfixed hn
  exact ⟨hd, added, hk.popItem⟩

/-- A call keeps the bindings of its caller, who may be outside of all calls. -/
theorem final_duringCall (f : Function) (args : List Value) {x : Run Flow} (hx : Run.KeepsCall x)
    (m : Machine) : Continues m (Run.final (Engine.duringCall f args x) m) ∧
      (m.watched = true →
        (∀ t ∈ since m (Run.final (Engine.duringCall f args x) m), t.event.rebinds = false) →
        (Run.final (Engine.duringCall f args x) m).depth = m.depth ∧
        Kept (fun _ => False) (since m (Run.final (Engine.duringCall f args x) m)) m.registry
          (Run.final (Engine.duringCall f args x) m).registry []) := by
  rw [Run.final_duringCall]
  -- The run goes from `m` over the start `m₁` and the end `m₂` of the body.
  let m₁ := m.entered f args
  let m₂ := Run.final x m₁
  have hbody : Keeps (fun _ => False) m₁ m₂ := hx m₁
  have h₁ : Continues m m₁ := continues_entered
  have h₂ : Continues m m₂ := h₁.trans hbody.continues
  refine ⟨h₂.trans (.update _ _), fun hw hn => ?_⟩
  have hs : since m m₂ = since m₁ m₂ ++ since m m₁ := h₁.since_trans hbody.continues
  have hbegins : ⟨.answers f.name, m.toSituation⟩ ∈ since m m₂ := by
    rw [hs]
    exact List.mem_append_right _ (mem_since_entered hw)
  have hcall : m₁.registry.inCall = true := by
    obtain ⟨params, hf, _⟩ := Registry.enterCall_eq f args m.registry
    rw [registry_entered, Registry.inCall, hf]
    rfl
  have hn₁ : ∀ t ∈ since m₁ m₂, t.event.rebinds = false := by
    intro t ht
    refine hn t ?_
    show t ∈ since m m₂
    rw [hs]
    exact List.mem_append_left _ ht
  obtain ⟨hd, added, hk⟩ :=
    hbody.kept (h₁.watched.trans hw) hcall (fun k hk => hk.elim) hn₁
  constructor
  · show m₂.depth - 1 = m.depth
    rw [hd, depth_entered, Nat.add_sub_cancel]
  · show Kept _ (since m m₂) m.registry m₂.registry.popFrame []
    rw [registry_entered] at hk
    refine Kept.popFrame hbegins rfl rfl (hk.mono fun t ht => ?_)
    rw [hs]
    exact List.mem_append_left _ ht

theorem duringCall (f : Function) (args : List Value) {x : Run Flow} (hx : Run.KeepsCall x) :
    Run.KeepsCall (Engine.duringCall f args x) := by
  intro m
  obtain ⟨hc, hk⟩ := final_duringCall f args hx m
  refine ⟨hc, fun hw _ _ hn => ?_⟩
  obtain ⟨hd, hk⟩ := hk hw hn
  exact ⟨hd, [], hk⟩

/-! ### The whole machine -/

theorem continues {α : Type} {x : Run α} (hx : Run.KeepsCall x) : Run.Moves Continues x :=
  fun m => (hx m).continues

/-- A statement that starts by rebinding names. -/
theorem of_rebinds {α : Type} {event : Event} (he : event.rebinds = true) {x : Run α}
    (hx : Run.Moves Continues x) : Run.KeepsCall (note event >>= fun _ => x) := by
  intro m
  have hc : Continues (m.record event) (Run.final x (m.record event)) := hx (m.record event)
  refine Keeps.of_rebinds ((Continues.record m event).trans hc) fun hw =>
    ⟨⟨event, m.toSituation⟩, ?_, he⟩
  rw [Run.final_note_bind, Continues.since_of_record hw hc]
  exact List.mem_append_right _ (List.mem_singleton_self _)

/-- Everything that a machine computes in a call keeps what the call has not hidden. -/
theorem closed (w : World) : Closed w Run.KeepsCall where
  toSequential := Keeps.sequential _
  stop _ m := .refl m
  run id m := .record (.runs id) m
  write line text m := by
    rw [Run.final_write]
    exact .of_eq (.update m _) rfl rfl
  flush line m := by
    rw [Run.final_flush]
    exact .refl m
  readLine line m := by
    rw [Run.final_readLine]
    exact .of_eq (.update m _) rfl rfl
  switch id on m := .of_eq (.update m _) rfl rfl
  switchingOn := switchingOn
  assign := assign
  declare := declare
  answer := answer
  call _ f args line hx := (Keeps.sequential _).callScript (duringCall f args hx) line
  duringLoop := duringLoop
  runFree names line := of_rebinds rfl (Run.continues_indifferent.freeNames line names)
  runFreeAll m := by
    refine .of_rebinds ((Continues.update m _).trans (.record _ .clears)) fun hw => ?_
    rw [Run.since_runFreeAll hw]
    exact ⟨_, List.mem_singleton_self _, rfl⟩
  runExtern source nickname line :=
    of_rebinds rfl (Run.continues_indifferent.bindModule w source nickname line)
  runInsert e target line ht he := of_rebinds rfl
    (Run.continues_indifferent.runTarget w e target line ht.continues fun root =>
      (he root).continues)

end Run.KeepsCall

/-! ### Calls as a whole -/

/-- A call that is refused changes nothing. -/
theorem final_callScript (e : Engine) (f : Function) (args : List Value) (line : Nat)
    (m : Machine) :
    Run.final (e.callScript f args line) m = m ∨ Run.final (e.callScript f args line) m =
      Run.final (Engine.duringCall f args (e.force f.body)) m := by
  unfold Engine.callScript
  split
  · exact .inl rfl
  · rw [Run.final_look_bind]
    split
    · exact .inl rfl
    · refine .inr ?_
      cases hx : Engine.duringCall f args (e.force f.body) m with
      | ok flow m' =>
        rw [Run.final, Run.bind_of_ok hx, Run.final_of_ok hx]
        cases flow <;> rfl
      | error s m' => rw [Run.final, Run.bind_of_error hx, Run.final_of_error hx]

/-- A call of a script's function, however it ends, leaves the calls and loops under way as they
were and binds the same names as before, with the same kinds and origins.  The value of a name
differs only if the name was given a value while the binding from before the call was the visible
one.  Only statements that free names, bring in modules or insert files are ruled out meanwhile. -/
theorem callScript_keeps_caller (w : World) (n : Nat) (f : Function) (args : List Value)
    (line : Nat) (m : Machine)
    (hn : ∀ t ∈ Run.account ((engine w n).callScript f args line) m, t.event.rebinds = false) :
    (Run.final ((engine w n).callScript f args line) m).registry.frames = m.registry.frames ∧
    (Run.final ((engine w n).callScript f args line) m).registry.items = m.registry.items ∧
    (Run.final ((engine w n).callScript f args line) m).depth = m.depth ∧
    ∀ k, Preserved (Run.account ((engine w n).callScript f args line) m) (m.registry.layers k) k
      (m.registry.get? k)
      ((Run.final ((engine w n).callScript f args line) m).registry.get? k) := by
  have hblind : Run.Blind ((engine w n).callScript f args line) :=
    (Run.blind_indifferent.closed w).callScript ((Run.blind_indifferent.closed w).engine n) f args
      line
  rw [← hblind.final_toSituation m]
  rcases final_callScript (engine w n) f args line m.watch with hm | hm
  · rw [hm]
    exact ⟨rfl, rfl, rfl, fun k => .refl _⟩
  · have hbody : Run.KeepsCall ((engine w n).force f.body) :=
      ((Run.KeepsCall.closed w).engine n).force f.body
    have hk := (Run.KeepsCall.final_duringCall f args hbody m.watch).2 rfl
    rw [← hm] at hk
    have hs : since m.watch (Run.final ((engine w n).callScript f args line) m.watch) =
        Run.account ((engine w n).callScript f args line) m :=
      Continues.since_eq (List.append_nil _).symm
    rw [hs] at hk
    obtain ⟨hd, hk⟩ := hk hn
    exact ⟨hk.frames.trans (Registry.addLocals_nil _), hk.items, hd, fun k => hk.bindings k id⟩

/-- A machine between `x = 7; y = 1;` and a call of a function with the body `x = 5; y += 1;`, where
`x` was bound by the statement in the body. -/
def shadowingMachine : Machine where
  forest := ⟨#[⟨.block, 0, 1, #[1, 3], .block⟩,
    ⟨.declaration "x", 0, 1, #[2], .declaration "x" [] .assign ⟨[⟨2, [], []⟩], []⟩⟩,
    ⟨.literal (.int 5), 1, 1, #[], .leaf⟩,
    ⟨.declaration "y", 0, 1, #[4], .declaration "y" [] .addAssign ⟨[⟨4, [], []⟩], []⟩⟩,
    ⟨.literal (.int 1), 3, 1, #[], .leaf⟩]⟩
  switches := .allOn
  registry := (Registry.empty.define "x" (.ofVariable (.int 7) (some 1))).define "y"
    (.ofVariable (.int 1) (some 9))
  console := { input := [] }
  baseDir := .empty
  inserting := []
  inserted := .empty
  depth := 0

/-- The call hides `x` and gives it back; `y` is assigned while the caller's binding is visible. -/
theorem callScript_keeps_caller_shadowing :
    (∀ t ∈ Run.account ((engine ⟨.empty, .constant ""⟩ 9).callScript ⟨"f", [], 0⟩ [] 1)
      shadowingMachine, t.event.rebinds = false) ∧
    ∀ k, Preserved
      (Run.account ((engine ⟨.empty, .constant ""⟩ 9).callScript ⟨"f", [], 0⟩ [] 1)
        shadowingMachine)
      (shadowingMachine.registry.layers k) k (shadowingMachine.registry.get? k)
      ((Run.final ((engine ⟨.empty, .constant ""⟩ 9).callScript ⟨"f", [], 0⟩ [] 1)
        shadowingMachine).registry.get? k) := by
  have h : ∀ t ∈ Run.account ((engine ⟨.empty, .constant ""⟩ 9).callScript ⟨"f", [], 0⟩ [] 1)
      shadowingMachine, t.event.rebinds = false := by decide +kernel
  exact ⟨h, (callScript_keeps_caller ⟨.empty, .constant ""⟩ 9 ⟨"f", [], 0⟩ [] 1 shadowingMachine
    h).2.2.2⟩

end TagLang
