import TagLang.Proofs.Evaluation
import TagLang.Proofs.Reloading
import TagLang.Session

/-!
# Machines in lockstep

Two machines in situations that correspond (`Situation.Alike`) do the same: whatever one computes,
the other computes with the corresponding nodes, and both end alike, with the same results or for
the same reason, and again in such situations (`Run.Alike`).  There is one lemma for each function
of the machine; `Machine.exec_lockstep` ties the knot by induction on the bound, and
`Session.runStep_lockstep` says it of a step of a session.

In a row of statements a loose one may stand at different places.  It declares a function, so it
does nothing when it runs, and may be left out on either side (`Engine.skip_left`,
`Engine.skip_right`).

The names of statements that have bound names are compared when such a statement runs again.  They
are names in use: the relation says so (`Binding.Renamed.origin_lt`), and it stays true because a
node that runs as a declaration is in the forest.  For this a relation has a floor, a number of
nodes that the forest is known to have; it may be raised to the size of the forest wherever the
machine looks at its situation (`Lockstep.look_bind`).
-/

namespace TagLang

open Machine

/-! ### Situations that correspond -/

/-- Two situations that correspond, with at least `n` nodes. -/
structure Situation.Alike (κ : Correspondence) (n : Nat) (s t : Situation) : Prop where
  forest : Forest.Alike κ s.forest t.forest
  floor : n ≤ s.forest.size
  switches : ∀ id, t.switches.isOn (κ.node id) = s.switches.isOn id
  registry : Registry.Alike (Binding.Renamed κ.node s.forest.size) s.registry t.registry
  console : t.console = s.console
  baseDir : t.baseDir = s.baseDir
  inserting : t.inserting = s.inserting
  inserted : ∀ path, t.inserted.get? path = (s.inserted.get? path).map κ.node
  depth : t.depth = s.depth

namespace Situation.Alike

variable {κ : Correspondence} {n : Nat} {s t : Situation} (h : Alike κ n s t)
include h

theorem lower {n' : Nat} (hle : n' ≤ n) : Alike κ n' s t :=
  { h with floor := Nat.le_trans hle h.floor }

theorem raise : Alike κ s.forest.size s t :=
  { h with floor := Nat.le_refl _ }

theorem setRegistry {r q : Registry} (hrq : Registry.Alike (Binding.Renamed κ.node n) r q) :
    Alike κ n { s with registry := r } { t with registry := q } :=
  { h with registry := hrq.mono fun _ _ hb => hb.mono h.floor }

theorem onRegistry {f g : Registry → Registry}
    (hf : ∀ {k : Nat} {r q : Registry}, n ≤ k → Registry.Alike (Binding.Renamed κ.node k) r q →
      Registry.Alike (Binding.Renamed κ.node k) (f r) (g q)) :
    Alike κ n (s.onRegistry f) (t.onRegistry g) :=
  { h with registry := hf h.floor h.registry }

theorem switch (id : NodeId) (on : Bool) :
    Alike κ n (s.switch id on) (t.switch (κ.node id) on) := by
  refine { h with switches := fun id' => ?_ }
  show (t.switches.set (κ.node id) on).isOn (κ.node id') = (s.switches.set id on).isOn id'
  simp only [Switches.isOn_set, κ.eq_iff, h.switches]

theorem settle {w v : Workshop} (hw : Workshop.Alike κ n w v) :
    Alike κ n (s.settle w) (t.settle v) := by
  refine { h with
    forest := hw.forest
    floor := hw.floor
    registry := hw.registry
    switches := fun id => ?_ }
  show (t.switches.turnOff v.muted).isOn (κ.node id) = (s.switches.turnOff w.muted).isOn id
  simp only [Switches.isOn_turnOff, h.switches, hw.muted]

end Situation.Alike

/-- Two machines in situations that correspond. -/
def Machine.Alike (κ : Correspondence) (n : Nat) (m m' : Machine) : Prop :=
  Situation.Alike κ n m.toSituation m'.toSituation

/-- Two computations stop for the same reason. -/
inductive Stop.Alike (κ : Correspondence) : Stop → Stop → Prop where
  | failed {e e' : Failure} (h : Failure.Alike κ e e') : Alike κ (.failed e) (.failed e')
  | outOfFuel : Alike κ .outOfFuel .outOfFuel

/-- From machines that correspond two computations end alike. -/
abbrev Run.Alike {γ δ : Type} (κ : Correspondence) (n : Nat) (P : γ → δ → Prop) (x : Run γ)
    (y : Run δ) : Prop :=
  Lockstep (Stop.Alike κ) (Machine.Alike κ n) P x y

/-! ### Steps of a machine -/

namespace Lockstep

variable {κ : Correspondence} {n : Nat} {α β γ δ : Type} {P : γ → δ → Prop}

theorem bind_eq {E : Stop → Stop → Prop} {S : Machine → Machine → Prop} {x y : Run α}
    {k : α → Run γ}
    {l : α → Run δ} (hx : Lockstep E S Eq x y) (hk : ∀ a, Lockstep E S P (k a) (l a)) :
    Lockstep E S P (x >>= k) (y >>= l) := by
  apply hx.bind
  rintro a _ rfl
  exact hk a

theorem fail {line line' : Nat} (hl : κ.line line line') (cause : Cause) :
    Run.Alike κ n P (Run.fail line cause) (Run.fail line' cause) :=
  .throw (.failed ⟨hl, rfl⟩)

theorem orFault {line line' : Nat} (hl : κ.line line line') (cause : Fault → Cause)
    (r : Except Fault α) :
    Run.Alike κ n Eq (Run.orFault line cause r) (Run.orFault line' cause r) := by
  cases r with
  | ok a => exact .pure rfl
  | error fault => exact .fail hl _

theorem orIo {line line' : Nat} (hl : κ.line line line') (r : Except IoError α) :
    Run.Alike κ n Eq (Run.orIo line r) (Run.orIo line' r) := by
  cases r with
  | ok a => exact .pure rfl
  | error error => exact .fail hl _

theorem ofExcept {r : Except Failure γ} {r' : Except Failure δ} (h : κ.Results P r r') :
    Run.Alike κ n P (Run.ofExcept r) (Run.ofExcept r') := by
  cases h with
  | ok h => exact .pure h
  | error h => exact .throw (.failed h)

/-- What is read off the two situations may be used with the floor at the size of the forest. -/
theorem look_bind {g : Situation → α} {g' : Situation → β} {k : α → Run γ} {l : β → Run δ}
    (hk : ∀ m m' : Machine, Machine.Alike κ n m m' →
      Run.Alike κ m.forest.size P (k (g m.toSituation)) (l (g' m'.toSituation))) :
    Run.Alike κ n P (look g >>= k) (look g' >>= l) :=
  fun m m' h => (hk m m' h m m' h.raise).mono (fun _ _ he => he) fun _ _ hs => hs.lower h.floor

/-- What is the same in both situations is read off both. -/
theorem look_bind_eq {g g' : Situation → α} {k : α → Run γ} {l : α → Run δ}
    (hg : ∀ s t, Situation.Alike κ n s t → g' t = g s)
    (hk : ∀ a, Run.Alike κ n P (k a) (l a)) : Run.Alike κ n P (look g >>= k) (look g' >>= l) := by
  intro m m' h
  show EndAlike _ _ P (k (g m.toSituation) m) (l (g' m'.toSituation) m')
  rw [hg _ _ h]
  exact hk _ m m' h

/-- The lines of a node and its counterpart are read off the two situations. -/
theorem look_line (id : NodeId) {k : Nat → Run γ} {l : Nat → Run δ}
    (hk : ∀ {line line' : Nat}, κ.line line line' → Run.Alike κ n P (k line) (l line')) :
    Run.Alike κ n P (look (·.forest.line id) >>= k) (look (·.forest.line (κ.node id)) >>= l) :=
  fun m m' h => hk (h.forest.line id) m m' h

/-- The accounts of the machines may tell different things. -/
theorem note (event event' : Event) :
    Run.Alike κ n Eq (Machine.note event) (Machine.note event') := by
  intro m m' h
  refine .ok rfl ?_
  show Situation.Alike κ n (m.record event).toSituation (m'.record event').toSituation
  rw [toSituation_record, toSituation_record]
  exact h

theorem change {f f' : Situation → Situation}
    (hf : ∀ s t, Situation.Alike κ n s t → Situation.Alike κ n (f s) (f' t)) :
    Run.Alike κ n Eq (Machine.change f) (Machine.change f') :=
  fun _ _ h => .ok rfl (hf _ _ h)

theorem make (made made' : List (String × Binding)) {f f' : Situation → Situation}
    (hf : ∀ s t, Situation.Alike κ n s t → Situation.Alike κ n (f s) (f' t)) :
    Run.Alike κ n Eq (Machine.make made f) (Machine.make made' f') := by
  apply (note _ _).bind_eq
  intro _
  exact change hf

theorem ensuring {x : Run γ} {y : Run δ} (hx : Run.Alike κ n P x y) {f f' : Situation → Situation}
    (hf : ∀ s t, Situation.Alike κ n s t → Situation.Alike κ n (f s) (f' t)) :
    Run.Alike κ n P (Run.ensuring x f) (Run.ensuring y f') := by
  intro m m' h
  unfold Run.ensuring
  have hend := hx m m' h
  generalize x m = xm at hend
  generalize y m' = ym at hend
  cases hend with
  | ok hq hs => exact .ok hq (hf _ _ hs)
  | error he hs => exact .error he (hf _ _ hs)

/-- What computations in lockstep leave behind is related, however they end. -/
theorem final {E : Stop → Stop → Prop} {S : Machine → Machine → Prop} {x : Run γ} {y : Run δ}
    (hx : Lockstep E S P x y) {m m' : Machine} (h : S m m') :
    S (Run.final x m) (Run.final y m') := by
  unfold Run.final
  have hend := hx m m' h
  generalize x m = xm at hend
  generalize y m' = ym at hend
  cases hend with
  | ok _ hs => exact hs
  | error _ hs => exact hs

end Lockstep

namespace Machine

variable {κ : Correspondence} {n : Nat}

theorem write_lockstep {line line' : Nat} (hl : κ.line line line') (text : String) :
    Run.Alike κ n Eq (write line text) (write line' text) := by
  intro m m' h
  unfold write
  rw [h.console]
  exact Lockstep.orIo hl _ _ _ { h with console := rfl }

theorem flush_lockstep {line line' : Nat} (hl : κ.line line line') :
    Run.Alike κ n Eq (flush line) (flush line') := by
  intro m m' h
  unfold flush
  rw [h.console]
  exact Lockstep.orIo hl _ m m' h

theorem readLine_lockstep {line line' : Nat} (hl : κ.line line line') :
    Run.Alike κ n Eq (readLine line) (readLine line') := by
  intro m m' h
  unfold readLine
  rw [h.console]
  exact Lockstep.orIo hl _ _ _ { h with console := rfl }

theorem refuse_lockstep {α β : Type} {P : α → β → Prop} (inserting : Bool) {e e' : Failure}
    (he : Failure.Alike κ e e') : Run.Alike κ n P (refuse inserting e) (refuse inserting e') :=
  (Lockstep.note _ _).bind_eq fun _ => .throw (.failed he)

theorem load_lockstep (inserting : Bool) {root : NodeId} (hbound : κ.bound ≤ root)
    (hroot : root < n) : Run.Alike κ n Eq (load inserting root) (load inserting (κ.node root)) := by
  intro m m' h
  have hstart : Workshop.Alike κ n ⟨m.forest, m.registry, []⟩ ⟨m'.forest, m'.registry, []⟩ :=
    ⟨h.forest, h.floor, h.registry, fun _ => by simp⟩
  have hend := Workshop.Alike.load inserting hbound hroot _ _ hstart
  rw [load_eq, load_eq]
  generalize Workshop.load inserting root ⟨m.forest, m.registry, []⟩ = loaded at hend
  generalize Workshop.load inserting (κ.node root) ⟨m'.forest, m'.registry, []⟩ = loaded' at hend
  cases hend with
  | ok _ hw => exact .ok rfl (Situation.Alike.settle h hw)
  | error he hw => exact refuse_lockstep inserting he _ _ (Situation.Alike.settle h hw)

/-- A source is read and loaded alike by both machines; its root is the node of the same name. -/
theorem prepare_lockstep (inserting : Bool) (source : String) :
    Run.Alike κ n (fun root root' => root' = κ.node root) (prepare inserting source)
      (prepare inserting source) := by
  intro m m' h
  obtain ⟨hforest, hparsed⟩ := h.forest.parse source
  have hsprouts := Forest.parse_sprouts h.forest.source source
  have hle : m.forest.size ≤ (m.forest.parse source).1.size := Nat.le_of_lt hsprouts.size_lt
  -- The floor goes up to the size of the forest with the new tree, so that its root is below it.
  have hread : Machine.Alike κ (m.forest.parse source).1.size
      (m.update fun s => { s with forest := (m.forest.parse source).1 })
      (m'.update fun s => { s with forest := (m'.forest.parse source).1 }) :=
    { h with
      forest := hforest
      floor := Nat.le_refl _
      registry := h.registry.mono fun _ _ hb => hb.mono hle }
  have hlower : ∀ s t, Machine.Alike κ (m.forest.parse source).1.size s t → Machine.Alike κ n s t :=
    fun s t hs => hs.lower (Nat.le_trans h.floor hle)
  rw [prepare_eq, prepare_eq, hparsed]
  cases hroot : (m.forest.parse source).2 with
  | error failure =>
    have hsame : Failure.Alike κ failure failure := ⟨κ.line_self _, rfl⟩
    exact (refuse_lockstep inserting hsame _ _ hread).mono (fun _ _ he => he) hlower
  | ok root =>
    have heq : root = m.forest.size := Forest.parse_root h.forest.source hroot
    have hbound : κ.bound ≤ root := heq ▸ h.forest.bound_le
    have hlt : root < (m.forest.parse source).1.size := heq ▸ hsprouts.size_lt
    have hload : Run.Alike κ (m.forest.parse source).1.size (fun root root' => root' = κ.node root)
        (load inserting root >>= fun _ => pure root)
        (load inserting (κ.node root) >>= fun _ => pure (κ.node root)) :=
      (load_lockstep inserting hbound hlt).bind_eq fun _ => .pure rfl
    exact (hload _ _ hread).mono (fun _ _ he => he) hlower

end Machine

/-! ### Expressions -/

namespace Sequence

section Unwind

variable {κ : Correspondence}

theorem applyTop_alike (op : Operator) {line line' : Nat} (hl : κ.line line line')
    (values : List Value) : κ.Results Eq (applyTop op line values) (applyTop op line' values) := by
  match values with
  | [] => exact .fail hl _
  | [_] => exact .fail hl _
  | rhs :: lhs :: values =>
    simp only [applyTop]
    cases Value.binary op lhs rhs with
    | ok v => exact .ok rfl
    | error fault => exact .fail hl _

theorem unwind_alike (tightness : Nat) (values : List Value)
    {waiting waiting' : List (Operator × Nat)} (h : List.Forall₂ κ.Operators waiting waiting') :
    κ.Results (fun p q => q.1 = p.1 ∧ List.Forall₂ κ.Operators p.2 q.2)
      (unwind tightness values waiting) (unwind tightness values waiting') := by
  induction h generalizing values with
  | nil => exact .ok ⟨rfl, .nil⟩
  | @cons top top' rest rest' htop hrest ih =>
    obtain ⟨op, line⟩ := top
    obtain ⟨op', line'⟩ := top'
    obtain ⟨hop, hl⟩ := htop
    have heq : op' = op := hop
    subst heq
    rw [unwind, unwind]
    split
    · exact .ok ⟨rfl, .cons ⟨rfl, hl⟩ hrest⟩
    · apply (applyTop_alike op' hl values).bind
      rintro values _ rfl
      exact ih values

end Unwind

variable {κ : Correspondence} {n : Nat} {value value' : Operand → Run Value}
  (hvalue : ∀ o, Run.Alike κ n Eq (value o) (value' (o.rename κ.node)))
include hvalue

theorem reduceRest_lockstep {operators operators' : List (Operator × Nat)}
    (h : List.Forall₂ κ.Operators operators operators') (operands : List Operand)
    (values : List Value) {waiting waiting' : List (Operator × Nat)}
    (hw : List.Forall₂ κ.Operators waiting waiting') :
    Run.Alike κ n Eq (reduceRest value (operators.zip operands) values waiting)
      (reduceRest value' (operators'.zip (operands.map (Operand.rename κ.node))) values
        waiting') := by
  have hend : ∀ (values : List Value) {waiting waiting' : List (Operator × Nat)},
      List.Forall₂ κ.Operators waiting waiting' →
        Run.Alike κ n Eq (reduceRest value [] values waiting)
          (reduceRest value' [] values waiting') := by
    intro values waiting waiting' hw
    apply (Lockstep.ofExcept (unwind_alike 0 values hw)).bind
    rintro ⟨values, _⟩ ⟨values', _⟩ ⟨hvalues, _⟩
    have heq : values' = values := hvalues
    subst heq
    cases values' with
    | nil => exact .fail (κ.line_self 0) _
    | cons v rest => exact .pure rfl
  induction h generalizing operands values waiting waiting' with
  | nil => exact hend values hw
  | @cons next next' rest rest' hnext _ ih =>
    cases operands with
    | nil => exact hend values hw
    | cons o operands =>
      obtain ⟨op, line⟩ := next
      obtain ⟨op', line'⟩ := next'
      have heq : op' = op := hnext.operator
      subst heq
      apply (Lockstep.ofExcept (unwind_alike op'.precedence values hw)).bind
      rintro ⟨values, waiting⟩ ⟨values', waiting'⟩ ⟨hvalues, hwaiting⟩
      have heq : values' = values := hvalues
      subst heq
      apply (hvalue o).bind_eq
      intro v
      exact ih operands _ (.cons hnext hwaiting)

theorem reduce_lockstep {s t : Sequence} (h : Sequence.Alike κ s t) :
    Run.Alike κ n Eq (s.reduce value) (t.reduce value') := by
  obtain ⟨operands, operators⟩ := s
  obtain ⟨operands', operators'⟩ := t
  obtain ⟨rfl, hoperators⟩ := h
  cases operands with
  | nil => exact .pure rfl
  | cons first rest =>
    apply (hvalue first).bind_eq
    intro v
    exact reduceRest_lockstep hvalue hoperators rest [v] .nil

end Sequence

/-- Two machines at a smaller depth that run in lockstep. -/
structure Engine.Alike (κ : Correspondence) (e e' : Engine) : Prop where
  execute : ∀ n id, Run.Alike κ n Eq (e.execute id) (e'.execute (κ.node id))
  force : ∀ n id, Run.Alike κ n Eq (e.force id) (e'.force (κ.node id))
  eval : ∀ n {s t}, Sequence.Alike κ s t → Run.Alike κ n Eq (e.eval s) (e'.eval t)
  runBlock : ∀ n {row row'}, κ.Row row row' →
    Run.Alike κ n Eq (e.runBlock row) (e'.runBlock row')

namespace Engine

variable {κ : Correspondence} {n : Nat}

/-! ### Values that need no engine -/

theorem lookup_lockstep (name : String) {line line' : Nat} (hl : κ.line line line') :
    Run.Alike κ n Eq (lookup name line) (lookup name line') := by
  apply Lockstep.look_bind_eq
  · intro s t h
    exact h.registry.value? name
  · intro found
    cases found with
    | none => exact .fail hl _
    | some v => exact .pure rfl

theorem callHost_lockstep (f : HostFunction) (args : List Value) {line line' : Nat}
    (hl : κ.line line line') : Run.Alike κ n Eq (callHost f args line) (callHost f args line') := by
  have hresult : Run.Alike κ n Eq (callHost.result f args line) (callHost.result f args line') := by
    apply (Lockstep.note _ _).bind_eq
    intro _
    cases f.call args with
    | ok v => exact .pure rfl
    | error message => exact .fail hl _
  unfold callHost
  split
  · split
    · exact .fail hl _
    · exact hresult
  · exact hresult

theorem prefixed_lockstep {line line' : Nat} (hl : κ.line line line') (v : Value)
    (ops : List Operator) : Run.Alike κ n Eq (prefixed line v ops) (prefixed line' v ops) := by
  induction ops with
  | nil => exact .pure rfl
  | cons op ops ih =>
    apply ih.bind_eq
    intro v
    apply (Lockstep.note _ _).bind_eq
    intro _
    exact .orFault hl _ _

theorem combined_lockstep (op : Operator) (current rhs : Value) {line line' : Nat}
    (hl : κ.line line line') :
    Run.Alike κ n Eq (combined op current rhs line) (combined op current rhs line') := by
  unfold combined
  split
  · exact .orFault hl _ _
  · exact .pure rfl

theorem combinedElement_lockstep (target : Value) (path : List Value) (op : Operator) (rhs : Value)
    {line line' : Nat} (hl : κ.line line line') :
    Run.Alike κ n Eq (combinedElement target path op rhs line)
      (combinedElement target path op rhs line') := by
  unfold combinedElement
  split
  · apply (Lockstep.orFault hl _ _).bind_eq
    intro current
    exact combined_lockstep op current rhs hl
  · exact .pure rfl

/-! ### Changes of names -/

theorem beginCall_alike (f : Function) {r q : Registry}
    (h : Registry.Alike (Binding.Renamed κ.node n) r q) :
    Registry.Alike (Binding.Renamed κ.node n) (beginCall f r) (beginCall (f.rename κ.node) q) :=
  (h.setResult (Binding.Renamed.lasting _ _) f.name .none).pushFrame f.name

theorem bindLocals_parameters_alike (f : Function) (args : List Value) {r q : Registry}
    (h : Registry.Alike (Binding.Renamed κ.node n) r q) :
    Registry.Alike (Binding.Renamed κ.node n) (r.bindLocals (parameters f args))
      (q.bindLocals (parameters (f.rename κ.node) args)) := by
  show Registry.Alike _ (r.bindLocals ((f.params.zip args).map _))
    (q.bindLocals ((f.params.zip args).map _))
  induction f.params.zip args generalizing r q with
  | nil => exact h
  | cons p rest ih => exact ih (h.bindLocal p.1 (.of_self rfl rfl))

theorem assign_lockstep (name : String) (v : Value) {line line' : Nat} (hl : κ.line line line') :
    Run.Alike κ n Eq (assign name v line) (assign name v line') := by
  apply Lockstep.look_bind
  intro m m' h
  rcases h.registry.assign (Binding.Renamed.lasting _ _) name v with ⟨e, hr, hq⟩ |
    ⟨r, q, hr, hq, hrq⟩
  · simp only [hr, hq]
    cases e with
    | undefined => exact .fail hl _
    | constant => exact .fail hl _
  · simp only [hr, hq]
    apply (Lockstep.note _ _).bind_eq
    intro _
    exact .change fun s t hs => hs.setRegistry hrq

theorem bindNew_lockstep {id : NodeId} (hid : id < n) (name : String) (v : Value) :
    Run.Alike κ n Eq (bindNew id name v) (bindNew (κ.node id) name v) := by
  refine .make _ _ fun s t h => h.onRegistry fun hle hrq => ?_
  have hb := Binding.Renamed.ofVariable (ρ := κ.node) v (Nat.lt_of_lt_of_le hid hle)
  simp only [hrq.inCall]
  split
  · exact hrq.bindLocal name hb
  · exact hrq.define name hb

/-- A statement is the one that has bound a name if its counterpart is. -/
theorem declare_lockstep {id : NodeId} (hid : id < n) (name : String) (v : Value)
    {line line' : Nat} (hl : κ.line line line') :
    Run.Alike κ n Eq (declare id name v line) (declare (κ.node id) name v line') := by
  apply Lockstep.look_bind
  intro m m' h
  have hid' : id < m.forest.size := Nat.lt_of_lt_of_le hid h.floor
  rcases h.registry.get?_cases name with ⟨hr, hq⟩ | ⟨b, c, hr, hq, hb⟩
  · simp only [hr, hq]
    exact bindNew_lockstep hid' name v
  · have horigin : c.origin = some (κ.node id) ↔ b.origin = some id := by
      rw [hb.eq]
      show b.origin.map κ.node = some (κ.node id) ↔ _
      cases b.origin with
      | none => simp
      | some x => simp [κ.eq_iff]
    simp only [hr, hq, horigin, h.registry.inCall, h.registry.isLocal]
    split
    · split
      · exact bindNew_lockstep hid' name v
      · exact assign_lockstep name v hl
    · exact .fail hl _

theorem assignElement_lockstep (name : String) (path : List Value) (op : Operator) (rhs : Value)
    {line line' : Nat} (hl : κ.line line line') : Run.Alike κ n Eq
      (assignElement name path op rhs line) (assignElement name path op rhs line') := by
  apply (lookup_lockstep name hl).bind_eq
  intro target
  apply (combinedElement_lockstep target path op rhs hl).bind_eq
  intro v
  apply (Lockstep.orFault hl _ _).bind_eq
  intro target
  exact assign_lockstep name target hl

theorem answer_lockstep (function : String) (v : Value) :
    Run.Alike κ n Eq (answer function v) (answer function v) := by
  apply (Lockstep.note _ _).bind_eq
  intro _
  apply Lockstep.change
  intro s t h
  exact h.onRegistry fun _ hrq => hrq.setResult (Binding.Renamed.lasting _ _) function v

theorem freeNames_lockstep {line line' : Nat} (hl : κ.line line line') (names : List String) :
    Run.Alike κ n Eq (freeNames line names) (freeNames line' names) := by
  induction names generalizing n with
  | nil => exact .pure rfl
  | cons name rest ih =>
    apply Lockstep.look_bind
    intro m m' h
    rcases h.registry.remove? name with ⟨hr, hq⟩ | ⟨r, q, hr, hq, hrq⟩
    · simp only [hr, hq]
      exact .fail hl _
    · simp only [hr, hq]
      apply Lockstep.bind_eq (.change fun s t hs => hs.setRegistry hrq)
      intro _
      exact ih

theorem runFree_lockstep (names : List String) {line line' : Nat} (hl : κ.line line line') :
    Run.Alike κ n Eq (runFree names line) (runFree names line') :=
  (Lockstep.note _ _).bind_eq fun _ => freeNames_lockstep hl names

theorem runFreeAll_lockstep : Run.Alike κ n Eq runFreeAll runFreeAll := by
  apply Lockstep.bind_eq (.change fun _ _ h => h.onRegistry fun _ hrq => hrq.clear)
  intro _
  exact .note _ _

theorem bindEntries_lockstep (nickname : String) {line line' : Nat} (hl : κ.line line line')
    (entries : List (String × HostEntry)) :
    Run.Alike κ n Eq (bindEntries nickname line entries) (bindEntries nickname line' entries) := by
  induction entries generalizing n with
  | nil => exact .pure rfl
  | cons e rest ih =>
    obtain ⟨member, entry⟩ := e
    have hentry : ∀ k, Binding.Renamed κ.node k (hostBinding entry) (hostBinding entry) := by
      intro k
      cases entry with
      | function f => exact .of_self rfl rfl
      | constant v => exact .of_self rfl rfl
    apply Lockstep.look_bind
    intro m m' h
    -- It is only asked whether some statement has bound the name, not which one.
    have hsome : ((m'.registry.get? (Host.qualified nickname member)).bind (·.origin)).isSome =
        ((m.registry.get? (Host.qualified nickname member)).bind (·.origin)).isSome := by
      rcases h.registry.get?_cases (Host.qualified nickname member) with
        ⟨hr, hq⟩ | ⟨b, c, hr, hq, hb⟩
      · rw [hr, hq]
      · rw [hr, hq, Option.bind_some, Option.bind_some, hb.eq]
        exact Option.isSome_map
    rw [hsome]
    split
    · exact .fail hl _
    · apply Lockstep.bind_eq (.make _ _ fun _ _ hs =>
        hs.onRegistry fun _ hrq => hrq.define _ (hentry _))
      intro _
      exact ih

theorem runExtern_lockstep (w : World) (source nickname : String) {line line' : Nat}
    (hl : κ.line line line') :
    Run.Alike κ n Eq (runExtern w source nickname line) (runExtern w source nickname line') := by
  apply (Lockstep.note _ _).bind_eq
  intro _
  unfold bindModule
  split
  · exact bindEntries_lockstep _ hl _
  · exact .fail hl _

/-! ### Values of nodes -/

section Values

variable {e e' : Engine} (he : Alike κ e e')
include he

theorem evalAll_lockstep {values values' : List Sequence}
    (h : List.Forall₂ (Sequence.Alike κ) values values') :
    Run.Alike κ n Eq (e.evalAll values) (e'.evalAll values') := by
  induction h with
  | nil => exact .pure rfl
  | cons hst _ ih =>
    apply (he.eval n hst).bind_eq
    intro v
    apply ih.bind_eq
    intro vs
    exact .pure rfl

theorem callScript_lockstep (f : Function) (args : List Value) {line line' : Nat}
    (hl : κ.line line line') : Run.Alike κ n Eq (e.callScript f args line)
      (e'.callScript (f.rename κ.node) args line') := by
  have hcall : Run.Alike κ n Eq (duringCall f args (e.force f.body))
      (duringCall (f.rename κ.node) args (e'.force (κ.node f.body))) := by
    apply (Lockstep.note _ _).bind_eq
    intro _
    apply Lockstep.bind_eq (.change fun s t h => ?_)
    · intro _
      apply Lockstep.bind_eq (.make _ _ fun s t h => h.onRegistry fun _ hrq =>
        bindLocals_parameters_alike f args hrq)
      intro _
      refine (he.force n f.body).ensuring fun s t h => ?_
      exact { h with registry := h.registry.popFrame, depth := congrArg (· - 1) h.depth }
    · exact { h with
        registry := beginCall_alike f h.registry
        depth := congrArg (· + 1) h.depth }
  have harity : (f.rename κ.node).arity = f.arity := rfl
  unfold callScript
  rw [harity]
  split
  · exact .fail hl _
  · apply Lockstep.look_bind_eq fun s t h => h.depth
    intro depth
    split
    · exact .fail hl _
    · apply hcall.bind_eq
      intro flow
      cases flow with
      | return_ v => exact .pure rfl
      | completed => exact .pure rfl
      | break_ => exact .pure rfl

theorem invoke_lockstep (name : String) {args args' : List Sequence}
    (hargs : List.Forall₂ (Sequence.Alike κ) args args') {line line' : Nat}
    (hl : κ.line line line') :
    Run.Alike κ n Eq (e.invoke name args line) (e'.invoke name args' line') := by
  apply Lockstep.look_bind
  intro m m' h
  rcases h.registry.get?_cases name with ⟨hr, hq⟩ | ⟨b, c, hr, hq, hb⟩
  · simp only [hr, hq]
    exact .fail hl _
  · have hkind : c.kind = b.kind.rename κ.node := by
      rw [hb.eq]
      rfl
    simp only [hr, hq, hkind]
    cases b.kind with
    | function callee =>
      cases callee with
      | script f =>
        apply (evalAll_lockstep he hargs).bind_eq
        intro values
        exact callScript_lockstep he f values hl
      | host f =>
        apply (evalAll_lockstep he hargs).bind_eq
        intro values
        exact callHost_lockstep f values hl
    | _ => exact .fail hl _

theorem showPrompt_lockstep {prompt prompt' : Sequence} (h : Sequence.Alike κ prompt prompt')
    {line line' : Nat} (hl : κ.line line line') :
    Run.Alike κ n Eq (e.showPrompt prompt line) (e'.showPrompt prompt' line') := by
  unfold showPrompt
  rw [h.isEmpty]
  split
  · exact .pure rfl
  · apply (he.eval n h).bind_eq
    intro v
    apply (Machine.write_lockstep hl _).bind_eq
    intro _
    exact Machine.flush_lockstep hl

theorem input_lockstep {prompt prompt' : Sequence} (h : Sequence.Alike κ prompt prompt')
    {line line' : Nat} (hl : κ.line line line') :
    Run.Alike κ n Eq (e.input prompt line) (e'.input prompt' line') := by
  apply (showPrompt_lockstep he h hl).bind_eq
  intro _
  apply (Machine.readLine_lockstep hl).bind_eq
  intro s
  exact .pure rfl

theorem nodeValue_lockstep (id : NodeId) :
    Run.Alike κ n Eq (e.nodeValue id) (e'.nodeValue (κ.node id)) := by
  apply (Lockstep.note _ _).bind_eq
  intro _
  apply Lockstep.look_bind_eq fun s t h => h.forest.kind id
  intro kind
  apply Lockstep.look_line
  intro line line' hl
  apply Lockstep.look_bind
  intro m m' h
  have hshape := h.forest.shape id
  generalize m.forest.shape id = s at hshape
  generalize m'.forest.shape (κ.node id) = t at hshape
  cases hshape with
  | leaf =>
    cases kind with
    | literal v => exact .pure rfl
    | reference name => exact lookup_lockstep name hl
    | _ => exact .fail hl _
  | groups hvalues =>
    cases hvalues with
    | nil => exact .pure rfl
    | cons hst _ => exact he.eval _ hst
  | array hvalues =>
    apply (evalAll_lockstep he hvalues).bind_eq
    intro vs
    exact .pure rfl
  | call name hargs => exact invoke_lockstep he name hargs hl
  | input hst => exact input_lockstep he hst hl
  | convert target hst =>
    apply (he.eval _ hst).bind_eq
    intro v
    exact .orFault hl _ _
  | _ => exact .fail hl _

theorem subscripted_lockstep {line line' : Nat} (hl : κ.line line line') (v : Value)
    (ids : List NodeId) :
    Run.Alike κ n Eq (e.subscripted line v ids) (e'.subscripted line' v (ids.map κ.node)) := by
  induction ids generalizing v n with
  | nil => exact .pure rfl
  | cons id rest ih =>
    apply Lockstep.look_bind
    intro m m' h
    have hshape := h.forest.shape id
    generalize m.forest.shape id = s at hshape
    generalize m'.forest.shape (κ.node id) = t at hshape
    cases hshape with
    | array hvalues =>
      cases hvalues with
      | nil => exact .fail hl _
      | cons hindex hrest =>
        cases hrest with
        | nil =>
          apply (he.eval _ hindex).bind_eq
          intro i
          apply (Lockstep.orFault hl _ _).bind_eq
          intro element
          exact ih element
        | cons _ _ => exact .fail hl _
    | _ => exact .fail hl _

theorem operand_lockstep (o : Operand) :
    Run.Alike κ n Eq (e.operand o) (e'.operand (o.rename κ.node)) := by
  apply Lockstep.look_line
  intro line line' hl
  apply (nodeValue_lockstep he o.node).bind_eq
  intro v
  apply (subscripted_lockstep he hl v o.subscripts).bind_eq
  intro v
  exact prefixed_lockstep hl v o.prefixes

theorem condition_lockstep (id : NodeId) {line line' : Nat} (hl : κ.line line line') :
    Run.Alike κ n Eq (e.condition id line) (e'.condition (κ.node id) line') := by
  apply (nodeValue_lockstep he id).bind_eq
  intro v
  split
  · exact .pure rfl
  · exact .fail hl _

end Values

/-! ### Statements -/

section Statements

variable {e e' : Engine} (he : Alike κ e e')
include he

/-- A loop goes on in lockstep behind a pass that is completed. -/
theorem pass_lockstep (body : NodeId) {x y : Run Flow} (h : Run.Alike κ n Eq x y) :
    Run.Alike κ n Eq
      (do
        match ← e.force body with
        | .completed => x
        | .break_ => pure .completed
        | .return_ v => pure (.return_ v))
      (do
        match ← e'.force (κ.node body) with
        | .completed => y
        | .break_ => pure .completed
        | .return_ v => pure (.return_ v)) := by
  apply (he.force n body).bind_eq
  intro flow
  cases flow with
  | completed => exact h
  | break_ => exact .pure rfl
  | return_ v => exact .pure rfl

theorem runWhile_lockstep (test body : NodeId) {line line' : Nat} (hl : κ.line line line')
    (passes : Nat) : Run.Alike κ n Eq (e.runWhile test body line passes)
      (e'.runWhile (κ.node test) (κ.node body) line' passes) := by
  induction passes with
  | zero => exact .throw .outOfFuel
  | succ passes ih =>
    apply (condition_lockstep he test hl).bind_eq
    intro holds
    split
    · exact pass_lockstep he body ih
    · exact .pure rfl

theorem runTimes_lockstep (body : NodeId) (times : Nat) :
    Run.Alike κ n Eq (e.runTimes body times) (e'.runTimes (κ.node body) times) := by
  induction times with
  | zero => exact .pure rfl
  | succ times ih => exact pass_lockstep he body ih

theorem runRepeat_lockstep (count body : NodeId) {line line' : Nat} (hl : κ.line line line') :
    Run.Alike κ n Eq (e.runRepeat count body line)
      (e'.runRepeat (κ.node count) (κ.node body) line') := by
  apply (nodeValue_lockstep he count).bind_eq
  intro v
  split
  · exact runTimes_lockstep he body _
  · exact .fail hl _

theorem runItems_lockstep (item : String) (body : NodeId) (values : List Value) :
    Run.Alike κ n Eq (e.runItems item body values) (e'.runItems item (κ.node body) values) := by
  induction values with
  | nil => exact .pure rfl
  | cons v rest ih =>
    apply Lockstep.bind_eq (.make _ _ fun _ _ h =>
      h.onRegistry fun _ hrq => hrq.define item (.of_self rfl rfl))
    intro _
    exact pass_lockstep he body ih

theorem runForeach_lockstep (item : String) {collection collection' : Sequence}
    (h : Sequence.Alike κ collection collection') (body : NodeId) {line line' : Nat}
    (hl : κ.line line line') : Run.Alike κ n Eq (e.runForeach item collection body line)
      (e'.runForeach item collection' (κ.node body) line') := by
  apply (he.eval n h).bind_eq
  intro v
  cases v with
  | array values =>
    apply Lockstep.bind_eq (.make _ _ fun _ _ h =>
      h.onRegistry fun _ hrq => hrq.pushItem (.of_self rfl rfl))
    intro _
    exact (runItems_lockstep he item body values).ensuring fun _ _ h =>
      h.onRegistry fun _ hrq => hrq.popItem
  | _ => exact .fail hl _

omit he in
theorem arm_lockstep (chained : Option NodeId) (on : Bool) :
    Run.Alike κ n Eq (arm chained on) (arm (chained.map κ.node) on) := by
  cases chained with
  | none => exact .pure rfl
  | some next => exact .change fun _ _ h => h.switch next on

theorem runBranch_lockstep (id : NodeId) (opening : Bool) (test body : NodeId)
    (chained : Option NodeId) {line line' : Nat} (hl : κ.line line line') :
    Run.Alike κ n Eq (e.runBranch id opening test body chained line)
      (e'.runBranch (κ.node id) opening (κ.node test) (κ.node body) (chained.map κ.node)
        line') := by
  have hself : (if opening then none else some (κ.node id)) =
      (if opening then none else some id : Option NodeId).map κ.node := by
    cases opening <;> rfl
  unfold runBranch
  rw [hself]
  apply (arm_lockstep _ false).bind_eq
  intro _
  apply (condition_lockstep he test hl).bind_eq
  intro holds
  apply (arm_lockstep chained !holds).bind_eq
  intro _
  cases holds with
  | true => exact he.force n body
  | false => exact .pure rfl

theorem runElse_lockstep (id body : NodeId) :
    Run.Alike κ n Eq (e.runElse id body) (e'.runElse (κ.node id) (κ.node body)) := by
  apply Lockstep.bind_eq (.change fun _ _ h => h.switch id false)
  intro _
  exact he.force n body

theorem runDeclaration_lockstep {id : NodeId} (hid : id < n) (name : String)
    {subscripts subscripts' : List Sequence}
    (hsubscripts : List.Forall₂ (Sequence.Alike κ) subscripts subscripts') (op : Operator)
    {value value' : Sequence} (hvalue : Sequence.Alike κ value value') {line line' : Nat}
    (hl : κ.line line line') : Run.Alike κ n Eq (e.runDeclaration id name subscripts op value line)
      (e'.runDeclaration (κ.node id) name subscripts' op value' line') := by
  have hempty : subscripts'.isEmpty = subscripts.isEmpty := by
    cases hsubscripts <;> rfl
  apply (he.eval n hvalue).bind_eq
  intro rhs
  rw [hempty]
  split
  · apply (evalAll_lockstep he hsubscripts).bind_eq
    intro path
    exact assignElement_lockstep name path op rhs hl
  · split
    · apply (lookup_lockstep name hl).bind_eq
      intro current
      apply (combined_lockstep op current rhs hl).bind_eq
      intro v
      exact assign_lockstep name v hl
    · exact declare_lockstep hid name rhs hl

theorem runReturn_lockstep {value value' : Sequence} (h : Sequence.Alike κ value value') :
    Run.Alike κ n Eq (e.runReturn value) (e'.runReturn value') := by
  apply (he.eval n h).bind_eq
  intro v
  apply Lockstep.look_bind_eq fun s t h => h.registry.currentFunction?
  intro function
  cases function with
  | none => exact .pure rfl
  | some function =>
    apply (answer_lockstep function v).bind_eq
    intro _
    exact .pure rfl

variable (w : World)

omit he in
theorem inserted_lockstep (path : Path) {line line' : Nat} (hl : κ.line line line') :
    Run.Alike κ n (fun root root' => root' = κ.node root) (inserted w path line)
      (inserted w path line') := by
  apply Lockstep.look_bind
  intro m m' h
  rw [h.inserted]
  cases m.inserted.get? path.components with
  | some root => exact .pure rfl
  | none =>
    apply (Lockstep.note _ _).bind_eq
    intro _
    apply (Lockstep.orIo hl _).bind_eq
    intro source
    apply (Machine.prepare_lockstep true source).bind
    rintro root _ rfl
    apply Lockstep.bind_eq (.change fun s t hs => ?_)
    · intro _
      exact .pure rfl
    · refine { hs with inserted := fun path' => ?_ }
      show (t.inserted.insert path.components (κ.node root)).get? path' =
        ((s.inserted.insert path.components root).get? path').map κ.node
      rw [Table.get?_insert, Table.get?_insert, hs.inserted]
      split <;> rfl

theorem runInserted_lockstep (path : Path) {line line' : Nat} (hl : κ.line line line') :
    Run.Alike κ n Eq (e.runInserted w path line) (e'.runInserted w path line') := by
  apply (Lockstep.note _ _).bind_eq
  intro _
  apply (inserted_lockstep w path hl).bind
  rintro root _ rfl
  apply (Lockstep.note _ _).bind_eq
  intro _
  have hfile : Run.Alike κ n Eq (duringFile path (e.execute root))
      (duringFile path (e'.execute (κ.node root))) := by
    apply Lockstep.look_bind_eq fun s t h => h.baseDir
    intro base
    apply Lockstep.bind_eq (.change fun s t h => ?_)
    · intro _
      refine (he.execute n root).ensuring fun s t h => ?_
      exact { h with baseDir := rfl, inserting := congrArg List.tail h.inserting }
    · exact { h with baseDir := rfl, inserting := congrArg (path :: ·) h.inserting }
  apply hfile.bind_eq
  intro _
  exact .pure rfl

theorem runInsert_lockstep {target target' : Sequence} (h : Sequence.Alike κ target target')
    {line line' : Nat} (hl : κ.line line line') :
    Run.Alike κ n Eq (e.runInsert w target line) (e'.runInsert w target' line') := by
  apply (Lockstep.note _ _).bind_eq
  intro _
  apply (he.eval n h).bind_eq
  intro v
  split
  · exact .fail hl _
  · apply Lockstep.look_bind_eq fun s t h => congrArg (w.library.resolve · _) h.baseDir
    intro path
    apply Lockstep.look_bind_eq fun s t h => h.inserting
    intro inserting
    split
    · exact .fail hl _
    · split
      · exact .fail hl _
      · exact runInserted_lockstep he w path hl

omit he in
theorem done_lockstep {x y : Run Unit} (h : Run.Alike κ n Eq x y) :
    Run.Alike κ n Eq (done x) (done y) :=
  h.bind_eq fun _ => .pure rfl

/-- A node and its counterpart run in lockstep. -/
theorem runNode_lockstep (passes : Nat) (id : NodeId) :
    Run.Alike κ n Eq (e.runNode w passes id) (e'.runNode w passes (κ.node id)) := by
  apply (Lockstep.note _ _).bind_eq
  intro _
  apply Lockstep.look_line
  intro line line' hl
  apply Lockstep.look_bind
  intro m m' h
  have hshape := h.forest.shape id
  generalize hs : m.forest.shape id = s at hshape
  generalize m'.forest.shape (κ.node id) = t at hshape
  cases hshape with
  | block =>
    -- The statements are looked up by themselves, in a situation that is only known to be related.
    apply Lockstep.look_bind
    intro m₁ m₁' h₁
    exact he.runBlock _ (h₁.forest.row id)
  | print hst =>
    apply (he.eval _ hst).bind_eq
    intro v
    exact done_lockstep (Machine.write_lockstep hl _)
  | declaration name op hsubscripts hst =>
    -- A node that has a shape is in the forest, so the name that it binds has an origin there.
    have hid : id < m.forest.size := Forest.lt_size_of_shape (hs ▸ Shape.noConfusion)
    exact done_lockstep (runDeclaration_lockstep he hid name hsubscripts op hst hl)
  | branch opening test body chained => exact runBranch_lockstep he id opening test body chained hl
  | else_ body => exact runElse_lockstep he id body
  | while_ test body => exact runWhile_lockstep he test body hl passes
  | repeat_ count body => exact runRepeat_lockstep he count body hl
  | foreach item body hst => exact runForeach_lockstep he item hst body hl
  | break_ => exact .pure rfl
  | return_ hst => exact runReturn_lockstep he hst
  | function f => exact .pure rfl
  | free names => exact done_lockstep (runFree_lockstep names hl)
  | freeAll => exact done_lockstep runFreeAll_lockstep
  | local_ body => exact he.force _ body
  | extern_ source nickname => exact done_lockstep (runExtern_lockstep w source nickname hl)
  | insert hst => exact runInsert_lockstep he w hst hl
  | leaf | groups hvalues | array hvalues | input hst | convert target hst | call name hargs =>
    apply (nodeValue_lockstep he id).bind_eq
    intro _
    exact .pure rfl
  | pair item hst | unloaded =>
    apply Lockstep.look_bind_eq fun s t h => h.forest.kind id
    intro kind
    exact .fail hl _

end Statements

end Engine

/-! ### Rows of statements -/

namespace Engine

/-- To run the declaration of a function changes nothing. -/
def SkipsFunctions (e : Engine) : Prop :=
  ∀ id (m : Machine) fn, m.forest.shape id = .function fn →
    ∃ m', e.execute id m = .ok .completed m' ∧ m'.toSituation = m.toSituation

variable {κ : Correspondence} {n : Nat} {e e' : Engine}
  {row row' : List NodeId}

/-- A loose statement of the first row may be left out. -/
theorem skip_left (he : e.SkipsFunctions) {c : NodeId} (hc : κ.loose c)
    (h : Run.Alike κ n Eq (e.runBlock row) (e'.runBlock row')) :
    Run.Alike κ n Eq (e.runBlock (c :: row)) (e'.runBlock row') := by
  intro m m' hm
  obtain ⟨fn, hfn⟩ := hm.forest.loose c hc
  obtain ⟨m₁, hrun, hsame⟩ := he c m fn hfn
  have hstep : e.runBlock (c :: row) m = e.runBlock row m₁ := Run.bind_of_ok hrun _
  have hm₁ : Machine.Alike κ n m₁ m' := by
    rw [Machine.Alike, hsame]
    exact hm
  rw [hstep]
  exact h m₁ m' hm₁

/-- The counterpart of a loose statement may be left out. -/
theorem skip_right (he' : e'.SkipsFunctions) {c : NodeId} (hc : κ.loose c)
    (h : Run.Alike κ n Eq (e.runBlock row) (e'.runBlock row')) :
    Run.Alike κ n Eq (e.runBlock row) (e'.runBlock (κ.node c :: row')) := by
  intro m m' hm
  obtain ⟨fn, hfn⟩ := hm.forest.loose c hc
  have hshape := hm.forest.shape c
  rw [hfn] at hshape
  obtain ⟨m₁, hrun, hsame⟩ : ∃ m₁, e'.execute (κ.node c) m' = .ok .completed m₁ ∧
      m₁.toSituation = m'.toSituation := by
    generalize hfn' : m'.forest.shape (κ.node c) = t at hshape
    cases hshape with
    | function fn => exact he' _ m' _ hfn'
  have hstep : e'.runBlock (κ.node c :: row') m' = e'.runBlock row' m₁ := Run.bind_of_ok hrun _
  have hm₁ : Machine.Alike κ n m m₁ := by
    rw [Machine.Alike, hsame]
    exact hm
  rw [hstep]
  exact h m m₁ hm₁

section Rows

variable (hexec : ∀ n id, Run.Alike κ n Eq (e.execute id) (e'.execute (κ.node id)))
include hexec

/-- Statements may stand in front of rows that run in lockstep. -/
theorem runBlock_append_lockstep (ids : List NodeId)
    (h : Run.Alike κ n Eq (e.runBlock row) (e'.runBlock row')) :
    Run.Alike κ n Eq (e.runBlock (ids ++ row)) (e'.runBlock (ids.map κ.node ++ row')) := by
  induction ids with
  | nil => exact h
  | cons id rest ih =>
    apply (hexec n id).bind_eq
    intro flow
    cases flow with
    | completed => exact ih
    | break_ => exact .pure rfl
    | return_ v => exact .pure rfl

theorem runBlock_map_lockstep (ids : List NodeId) :
    Run.Alike κ n Eq (e.runBlock ids) (e'.runBlock (ids.map κ.node)) := by
  have hnil : Run.Alike κ n Eq (e.runBlock []) (e'.runBlock []) := .pure rfl
  have hall := runBlock_append_lockstep hexec ids hnil
  rw [List.append_nil, List.append_nil] at hall
  exact hall

/-- It does not matter where in a row a loose statement stands. -/
theorem runBlock_row_lockstep (he : e.SkipsFunctions) (he' : e'.SkipsFunctions)
    (hrow : κ.Row row row') : Run.Alike κ n Eq (e.runBlock row) (e'.runBlock row') := by
  cases hrow with
  | same row => exact runBlock_map_lockstep hexec row
  | @moved a b a' b' c hc h =>
    rw [List.map_append, List.map_cons]
    rcases List.append_eq_append_iff.mp h with ⟨d, rfl, rfl⟩ | ⟨d, rfl, rfl⟩
    · -- The statement stands further behind in the second row.
      rw [List.map_append, List.append_assoc]
      apply runBlock_append_lockstep hexec a
      apply skip_left he hc
      apply runBlock_append_lockstep hexec d
      apply skip_right he' hc
      exact runBlock_map_lockstep hexec b'
    · rw [List.append_assoc, List.map_append]
      apply runBlock_append_lockstep hexec a'
      apply skip_right he' hc
      apply runBlock_append_lockstep hexec d
      apply skip_left he hc
      exact runBlock_map_lockstep hexec b

end Rows

end Engine

theorem Correspondence.Row.any_eq {κ : Correspondence} {row row' : List NodeId} (h : κ.Row row row')
    {p q : NodeId → Bool} (hq : ∀ id, q (κ.node id) = p id) : row'.any q = row.any p := by
  have hmap : ∀ ids : List NodeId, (ids.map κ.node).any q = ids.any p := by
    intro ids
    rw [List.any_map]
    exact congrArg ids.any (funext hq)
  cases h with
  | same row => exact hmap row
  | @moved a b a' b' c hc h =>
    have hany := congrArg (List.any · p) h
    simp only [List.any_append] at hany
    rw [hmap, List.any_append, List.any_append, List.any_cons, List.any_cons, Bool.or_left_comm,
      ← hany, Bool.or_left_comm]

/-! ### The knot -/

namespace Machine

variable {κ : Correspondence} (w : World)

theorem engine_skipsFunctions (fuel : Nat) : (engine w (fuel + 1)).SkipsFunctions := by
  intro id m fn hfn
  have hrun : exec w (fuel + 1) id m = .ok .completed (m.record (.runs id)) := by
    have hfn' : (m.record (.runs id)).forest.shape id = .function fn := by
      rw [toSituation_record]
      exact hfn
    have hnote : note (.runs id) m = .ok () (m.record (.runs id)) := rfl
    rw [exec, Engine.runNode_eq, Run.bind_of_ok hnote, Run.look_bind_of_eq rfl,
      Run.look_bind_of_eq hfn']
    rfl
  cases hon : m.switches.isOn id with
  | true =>
    refine ⟨m.record (.runs id), ?_, toSituation_record ..⟩
    show (look (·.switches.isOn id) >>= _ : Run Flow) m = _
    rw [Run.look_bind_of_eq hon]
    exact hrun
  | false =>
    refine ⟨m, ?_, rfl⟩
    show (look (·.switches.isOn id) >>= _ : Run Flow) m = _
    rw [Run.look_bind_of_eq hon]
    rfl

/-- Without any depth left, a row with a statement that is switched on cannot be run. -/
theorem runBlock_zero (row : List NodeId) (m : Machine) : (engine w 0).runBlock row m =
    if row.any m.switches.isOn then .error .outOfFuel m else .ok .completed m := by
  induction row with
  | nil => rfl
  | cons id rest ih =>
    rw [List.any_cons]
    cases hon : m.switches.isOn id with
    | true =>
      have hrun : (engine w 0).execute id m = .error .outOfFuel m := by
        show (look (·.switches.isOn id) >>= _ : Run Flow) m = _
        rw [Run.look_bind_of_eq hon]
        rfl
      exact Run.bind_of_error hrun _
    | false =>
      have hrun : (engine w 0).execute id m = .ok .completed m := by
        show (look (·.switches.isOn id) >>= _ : Run Flow) m = _
        rw [Run.look_bind_of_eq hon]
        rfl
      have hstep : (engine w 0).runBlock (id :: rest) m = (engine w 0).runBlock rest m :=
        Run.bind_of_ok hrun _
      rw [hstep, ih, Bool.false_or]

theorem runBlock_engine_lockstep (fuel : Nat) {n : Nat}
    (hexec : ∀ n id, Run.Alike κ n Eq ((engine w fuel).execute id)
      ((engine w fuel).execute (κ.node id)))
    {row row' : List NodeId} (hrow : κ.Row row row') :
    Run.Alike κ n Eq ((engine w fuel).runBlock row) ((engine w fuel).runBlock row') := by
  cases fuel with
  | zero =>
    intro m m' h
    rw [runBlock_zero, runBlock_zero, hrow.any_eq h.switches]
    split
    · exact .error .outOfFuel h
    · exact .ok rfl h
  | succ fuel =>
    have hskip := engine_skipsFunctions w fuel
    exact Engine.runBlock_row_lockstep hexec hskip hskip hrow

/-- If nodes and expressions run in lockstep, they do so with the switches looked at. -/
theorem engine_alike_of_exec {fuel : Nat}
    (hrun : ∀ n id, Run.Alike κ n Eq (exec w fuel id) (exec w fuel (κ.node id)))
    (heval : ∀ n {s t}, Sequence.Alike κ s t → Run.Alike κ n Eq (eval w fuel s) (eval w fuel t)) :
    Engine.Alike κ (engine w fuel) (engine w fuel) := by
  have hexec : ∀ n id, Run.Alike κ n Eq ((engine w fuel).execute id)
      ((engine w fuel).execute (κ.node id)) := by
    intro n id
    apply Lockstep.look_bind_eq fun s t h => h.switches id
    intro on
    cases on with
    | true => exact hrun n id
    | false => exact .pure rfl
  constructor
  case execute => exact hexec
  case force =>
    intro n id
    apply Lockstep.look_bind_eq fun s t h => h.switches id
    intro was
    apply Lockstep.bind_eq (.change fun _ _ h => h.switch id true)
    intro _
    exact (hrun n id).ensuring fun _ _ h => h.switch id was
  case eval => exact heval
  case runBlock =>
    intro n row row' hrow
    exact runBlock_engine_lockstep w fuel hexec hrow

/-- Within any bound, nodes and expressions run in lockstep with their counterparts. -/
theorem exec_lockstep (fuel : Nat) :
    (∀ n id, Run.Alike κ n Eq (exec w fuel id) (exec w fuel (κ.node id))) ∧
      ∀ n {s t}, Sequence.Alike κ s t → Run.Alike κ n Eq (eval w fuel s) (eval w fuel t) := by
  induction fuel with
  | zero => exact ⟨fun n id => .throw .outOfFuel, fun n {s t} _ => .throw .outOfFuel⟩
  | succ fuel ih =>
    have he := engine_alike_of_exec w ih.1 ih.2
    constructor
    · intro n id
      exact Engine.runNode_lockstep he w fuel id
    · intro n s t hst
      exact Sequence.reduce_lockstep (Engine.operand_lockstep he) hst

theorem engine_alike (fuel : Nat) : Engine.Alike κ (engine w fuel) (engine w fuel) :=
  engine_alike_of_exec w (exec_lockstep w fuel).1 (exec_lockstep w fuel).2

end Machine

namespace Session

variable {κ : Correspondence} {n : Nat} (w : World) (fuel : Nat)

theorem runSource_lockstep (text : String) :
    Run.Alike κ n Eq (runSource w fuel text) (runSource w fuel text) := by
  apply (Machine.prepare_lockstep false text).bind
  rintro root _ rfl
  apply ((Machine.engine_alike w fuel).execute n root).bind_eq
  intro _
  exact .pure rfl

/-- Machines in situations that correspond make a step in lockstep. -/
theorem runStep_lockstep (s : Step) : Run.Alike κ n Eq (runStep w fuel s) (runStep w fuel s) := by
  cases s with
  | source text => exact runSource_lockstep w fuel text
  | file target =>
    apply (Lockstep.orIo (κ.line_self 0) _).bind_eq
    intro text
    apply Lockstep.bind_eq (.change fun s t h => ?_)
    · intro _
      refine (runSource_lockstep w fuel text).ensuring fun s t h => ?_
      exact { h with inserting := congrArg List.tail h.inserting }
    · exact { h with
        baseDir := congrArg (Option.getD _) h.baseDir
        inserting := congrArg (_ :: ·) h.inserting }

end Session

end TagLang
