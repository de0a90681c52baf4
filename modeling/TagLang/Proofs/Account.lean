import TagLang.Proofs.Closure

/-!
# Accounts of runs

A run can be watched or not, and goes the same way: `Machine.unwatched` forgets the account, and
every computation of a machine commutes with it (`Run.blind_indifferent`).  So what is proved about
the account of a watched run (`Run.account`) is about the run that nobody watches.

An account only grows (`Run.continues_indifferent`): the moments of a part of a run are the moments
by which the account has grown (`Machine.since`).
-/

namespace TagLang

open Machine

/-! ### Ends of computations -/

namespace Run

variable {α β : Type}

/-- The machine that a computation leaves behind, however it ends. -/
def final (x : Run α) (m : Machine) : Machine :=
  match x m with
  | .ok _ m' => m'
  | .error _ m' => m'

/-- The value that a computation gives, if it gives one. -/
def value? (x : Run α) (m : Machine) : Option α :=
  match x m with
  | .ok a _ => some a
  | .error .. => none

theorem ok_of_value? {x : Run α} {m : Machine} {a : α} (h : value? x m = some a) :
    x m = .ok a (final x m) := by
  unfold value? at h
  unfold final
  cases hx : x m with
  | ok b m' =>
    rw [hx, Option.some.injEq] at h
    rw [h]
  | error s m' =>
    rw [hx] at h
    cases h

theorem final_of_ok {x : Run α} {m m' : Machine} {a : α} (h : x m = .ok a m') :
    final x m = m' := by
  rw [final, h]

theorem final_of_error {x : Run α} {m m' : Machine} {s : Stop} (h : x m = .error s m') :
    final x m = m' := by
  rw [final, h]

theorem bind_of_ok {x : Run α} {m m' : Machine} {a : α} (h : x m = .ok a m') (f : α → Run β) :
    (x >>= f) m = f a m' := by
  show EStateM.bind x f m = f a m'
  rw [EStateM.bind, h]

theorem bind_of_error {x : Run α} {m m' : Machine} {s : Stop} (h : x m = .error s m')
    (f : α → Run β) : (x >>= f) m = .error s m' := by
  show EStateM.bind x f m = .error s m'
  rw [EStateM.bind, h]

/-- What is read off the situation is known. -/
theorem look_bind_of_eq {g : Situation → α} {a : α} {m : Machine} (h : g m.toSituation = a)
    (f : α → Run β) : (look g >>= f) m = f a m :=
  h ▸ rfl

theorem final_bind_of_ok {x : Run α} {m m' : Machine} {a : α} (h : x m = .ok a m')
    (f : α → Run β) : final (x >>= f) m = final (f a) m' := by
  rw [final, bind_of_ok h, final]

theorem final_bind_of_error {x : Run α} {m m' : Machine} {s : Stop} (h : x m = .error s m')
    (f : α → Run β) : final (x >>= f) m = m' :=
  final_of_error (bind_of_error h f)

/-- What holds of the machine that a computation leaves behind, and is kept by the one that follows,
holds behind both. -/
theorem final_bind_of {P : Machine → Prop} {x : Run α} {f : α → Run β} {m : Machine}
    (hx : P (final x m)) (hf : ∀ a m', x m = .ok a m' → P m' → P (final (f a) m')) :
    P (final (x >>= f) m) := by
  cases h : x m with
  | ok a m' =>
    rw [final_of_ok h] at hx
    rw [final_bind_of_ok h]
    exact hf a m' h hx
  | error s m' =>
    rw [final_of_error h] at hx
    rw [final_bind_of_error h]
    exact hx

@[simp]
theorem final_look_bind (g : Situation → α) (f : α → Run β) (m : Machine) :
    final (look g >>= f) m = final (f (g m.toSituation)) m :=
  rfl

@[simp]
theorem final_change (f : Situation → Situation) (m : Machine) : final (change f) m = m.update f :=
  rfl

@[simp]
theorem final_change_bind (f : Situation → Situation) (x : Unit → Run β) (m : Machine) :
    final (change f >>= x) m = final (x ()) (m.update f) :=
  rfl

@[simp]
theorem final_note_bind (event : Event) (x : Unit → Run β) (m : Machine) :
    final (note event >>= x) m = final (x ()) (m.record event) :=
  rfl

@[simp]
theorem final_make (made : List (String × Binding)) (f : Situation → Situation) (m : Machine) :
    final (make made f) m = (m.record (.makes made)).update f :=
  rfl

@[simp]
theorem final_make_bind (made : List (String × Binding)) (f : Situation → Situation)
    (x : Unit → Run β) (m : Machine) :
    final (make made f >>= x) m = final (x ()) ((m.record (.makes made)).update f) :=
  rfl

@[simp]
theorem final_ensuring (x : Run α) (after : Situation → Situation) (m : Machine) :
    final (ensuring x after) m = (final x m).update after := by
  unfold final ensuring
  cases x m <;> rfl

theorem final_orIo (line : Nat) (r : Except IoError α) (m : Machine) :
    final (orIo line r) m = m := by
  cases r <;> rfl

@[simp]
theorem final_write (line : Nat) (text : String) (m : Machine) :
    final (write line text) m = m.update fun s => { s with console := (s.console.write text).2 } :=
  final_orIo line _ _

@[simp]
theorem final_flush (line : Nat) (m : Machine) : final (flush line) m = m :=
  final_orIo line _ m

@[simp]
theorem final_readLine (line : Nat) (m : Machine) :
    final (readLine line) m = m.update fun s => { s with console := s.console.readLine.2 } :=
  final_orIo line _ _

end Run

/-! ### Computations that move a machine along a relation -/

/-- The computation leads from every machine to one that is related to it. -/
def Run.Moves (R : Machine → Machine → Prop) ⦃α : Type⦄ (x : Run α) : Prop :=
  ∀ m, R m (Run.final x m)

theorem Run.Moves.bind {α β : Type} {R : Machine → Machine → Prop}
    (trans : ∀ {a b c}, R a b → R b c → R a c) {x : Run α} {f : α → Run β} (hx : Run.Moves R x)
    (hf : ∀ a, Run.Moves R (f a)) : Run.Moves R (x >>= f) :=
  fun m => Run.final_bind_of (hx m) fun a m' _ h => trans h (hf a m')

namespace Machine

/-! ### Unwatched machines -/

/-- The machine without an account. -/
def unwatched (m : Machine) : Machine :=
  { m with watched := false, account := [] }

/-- The machine at the start of an account. -/
def watch (m : Machine) : Machine :=
  { m with watched := true, account := [] }

@[simp]
theorem toSituation_update (m : Machine) (f : Situation → Situation) :
    (m.update f).toSituation = f m.toSituation :=
  rfl

@[simp]
theorem toSituation_record (m : Machine) (event : Event) :
    (m.record event).toSituation = m.toSituation := by
  unfold record
  split <;> rfl

theorem registry_record (m : Machine) (event : Event) :
    (m.record event).registry = m.registry := by
  rw [toSituation_record]

theorem account_record {m : Machine} (hw : m.watched = true) (event : Event) :
    (m.record event).account = ⟨event, m.toSituation⟩ :: m.account := by
  rw [record, if_pos hw]

/-- The moments by which an account has grown. -/
def since (m m' : Machine) : List Moment :=
  m'.account.take (m'.account.length - m.account.length)

end Machine

/-- The end of a computation without the account. -/
def Run.forget {α : Type} : EStateM.Result Stop Machine α → EStateM.Result Stop Machine α
  | .ok a m => .ok a m.unwatched
  | .error s m => .error s m.unwatched

/-- The computation goes the same way whether it is watched or not. -/
def Run.Blind ⦃α : Type⦄ (x : Run α) : Prop :=
  ∀ m, x m.unwatched = Run.forget (x m)

namespace Run.Blind

variable {α β : Type}

theorem pure (a : α) : Run.Blind (Pure.pure a : Run α) := fun _ => rfl

theorem stop (s : Stop) : Run.Blind (throw s : Run α) := fun _ => rfl

theorem look (g : Situation → α) : Run.Blind (look g) := fun _ => rfl

theorem change (f : Situation → Situation) : Run.Blind (change f) := fun _ => rfl

theorem note (event : Event) : Run.Blind (note event) := by
  intro m
  unfold Machine.note Machine.record
  cases m.watched <;> rfl

theorem bind {x : Run α} {f : α → Run β} (hx : Run.Blind x) (hf : ∀ a, Run.Blind (f a)) :
    Run.Blind (x >>= f) := by
  intro m
  have hm := hx m
  cases h : x m with
  | ok a m' =>
    rw [h] at hm
    rw [Run.bind_of_ok h, Run.bind_of_ok hm]
    exact hf a m'
  | error s m' =>
    rw [h] at hm
    rw [Run.bind_of_error h, Run.bind_of_error hm]
    rfl

theorem ensuring {x : Run α} (hx : Run.Blind x) (after : Situation → Situation) :
    Run.Blind (Run.ensuring x after) := by
  intro m
  unfold Run.ensuring
  rw [hx m]
  cases x m <;> rfl

theorem orIo (line : Nat) (r : Except IoError α) : Run.Blind (Run.orIo line r : Run α) := by
  cases r with
  | ok a => exact pure a
  | error e => exact stop _

theorem write (line : Nat) (text : String) : Run.Blind (Machine.write line text) := by
  intro m
  exact orIo line (m.console.write text).1 { m with console := (m.console.write text).2 }

theorem flush (line : Nat) : Run.Blind (Machine.flush line) := fun m =>
  orIo line m.console.flush m

theorem readLine (line : Nat) : Run.Blind (Machine.readLine line) := by
  intro m
  exact orIo line m.console.readLine.1 { m with console := m.console.readLine.2 }

end Run.Blind

/-- Nothing that a machine computes depends on its account. -/
theorem Run.blind_indifferent : Indifferent Run.Blind where
  pure := Run.Blind.pure
  bind := Run.Blind.bind
  stop := Run.Blind.stop
  look := Run.Blind.look
  tell := Run.Blind.note
  change := Run.Blind.change
  ensuring after hx := hx.ensuring after
  write := Run.Blind.write
  flush := Run.Blind.flush
  readLine := Run.Blind.readLine

/-! ### The account of a run -/

namespace Run

variable {α : Type}

/-- The moments of a computation, the latest first. -/
def account (x : Run α) (m : Machine) : List Moment :=
  (final x m.watch).account

theorem Blind.final_unwatched {x : Run α} (hx : Blind x) (m : Machine) :
    final x m.unwatched = (final x m).unwatched := by
  unfold final
  rw [hx m]
  cases x m <;> rfl

/-- A watched run and the same run unwatched end in the same situation. -/
theorem Blind.final_toSituation {x : Run α} (hx : Blind x) (m : Machine) :
    (final x m.watch).toSituation = (final x m).toSituation := by
  have h : (final x m.watch).unwatched = (final x m).unwatched :=
    (hx.final_unwatched m.watch).symm.trans (hx.final_unwatched m)
  have hs : (final x m.watch).unwatched.toSituation = (final x m).unwatched.toSituation := by
    rw [h]
  exact hs

/-- A run ends with the same value, and in the same situation, whether it is watched or not. -/
theorem Blind.ok_watch {x : Run α} (hx : Blind x) {m m' : Machine} {a : α} (h : x m = .ok a m') :
    ∃ m'', x m.watch = .ok a m'' ∧ m''.toSituation = m'.toSituation := by
  have hm : forget (x m.watch) = forget (x m) := (hx m.watch).symm.trans (hx m)
  have hs := hx.final_toSituation m
  rw [final_of_ok h] at hs
  rw [h] at hm
  cases hw : x m.watch with
  | ok b m'' =>
    rw [hw] at hm
    rw [final_of_ok hw] at hs
    obtain ⟨rfl, _⟩ := EStateM.Result.ok.inj hm
    exact ⟨m'', rfl, hs⟩
  | error s m'' =>
    rw [hw] at hm
    cases hm

/-- A run stops for the same reason whether it is watched or not. -/
theorem Blind.error_watch {x : Run α} (hx : Blind x) {m m' : Machine} {s : Stop}
    (h : x m = .error s m') : ∃ m'', x m.watch = .error s m'' := by
  have hm : forget (x m.watch) = forget (x m) := (hx m.watch).symm.trans (hx m)
  rw [h] at hm
  cases hw : x m.watch with
  | ok a m'' =>
    rw [hw] at hm
    cases hm
  | error s' m'' =>
    rw [hw] at hm
    obtain ⟨rfl, _⟩ := EStateM.Result.error.inj hm
    exact ⟨m'', rfl⟩

end Run

/-! ### Accounts grow -/

/-- The second machine is watched like the first one, and its account goes on from there. -/
structure Machine.Continues (m m' : Machine) : Prop where
  watched : m'.watched = m.watched
  account : m.account <:+ m'.account

namespace Machine.Continues

variable {m m₁ m₂ : Machine}

theorem refl (m : Machine) : Continues m m :=
  ⟨rfl, List.suffix_rfl⟩

theorem trans (h₁ : Continues m m₁) (h₂ : Continues m₁ m₂) : Continues m m₂ :=
  ⟨h₂.watched.trans h₁.watched, h₁.account.trans h₂.account⟩

theorem update (m : Machine) (f : Situation → Situation) : Continues m (m.update f) :=
  ⟨rfl, List.suffix_rfl⟩

theorem record (m : Machine) (event : Event) : Continues m (m.record event) := by
  unfold Machine.record
  split
  · exact ⟨rfl, List.suffix_cons _ _⟩
  · exact refl m

theorem account_eq (h : Continues m m₁) : m₁.account = since m m₁ ++ m.account := by
  obtain ⟨new, hnew⟩ := h.account
  rw [since, ← hnew, List.length_append, Nat.add_sub_cancel, List.take_left']
  rfl

theorem since_eq {new : List Moment} (h : m₁.account = new ++ m.account) : since m m₁ = new := by
  rw [since, h, List.length_append, Nat.add_sub_cancel, List.take_left']
  rfl

/-- The moments of two parts of a run are those of the later part before those of the earlier. -/
theorem since_trans (h₁ : Continues m m₁) (h₂ : Continues m₁ m₂) :
    since m m₂ = since m₁ m₂ ++ since m m₁ := by
  apply since_eq
  rw [h₂.account_eq, h₁.account_eq, List.append_assoc]

theorem since_self (m : Machine) : since m m = [] :=
  since_eq rfl

theorem since_update (m : Machine) (f : Situation → Situation) : since m (m.update f) = [] :=
  since_eq rfl

theorem since_record (h : m.watched = true) (event : Event) :
    since m (m.record event) = [⟨event, m.toSituation⟩] := by
  apply since_eq
  rw [Machine.record, if_pos h]
  rfl

/-- The first of the moments behind an event is that of the event. -/
theorem since_of_record (hw : m.watched = true) {event : Event}
    (h : Continues (m.record event) m₁) :
    since m m₁ = since (m.record event) m₁ ++ [⟨event, m.toSituation⟩] := by
  rw [(record m event).since_trans h, since_record hw]

end Machine.Continues

/-! ### Machines at the start of a call -/

namespace Machine

/-- The machine in which the body of a function is run. -/
def entered (f : Function) (args : List Value) (m : Machine) : Machine :=
  (((m.record (.answers f.name)).update fun s =>
    { s with registry := Engine.beginCall f s.registry, depth := s.depth + 1 }).record
      (.makes (Engine.parameters f args))).update
    (Situation.onRegistry fun r => r.bindLocals (Engine.parameters f args))

variable {m : Machine} {f : Function} {args : List Value}

theorem toSituation_entered (f : Function) (args : List Value) (m : Machine) :
    (m.entered f args).toSituation =
      { m.toSituation with
        registry := Engine.enterCall f args m.registry, depth := m.depth + 1 } := by
  rw [entered, toSituation_update, toSituation_record, toSituation_update, toSituation_record]
  rfl

theorem registry_entered (f : Function) (args : List Value) (m : Machine) :
    (m.entered f args).registry = Engine.enterCall f args m.registry := by
  rw [toSituation_entered]

theorem depth_entered (f : Function) (args : List Value) (m : Machine) :
    (m.entered f args).depth = m.depth + 1 := by
  rw [toSituation_entered]

theorem continues_entered : Continues m (m.entered f args) :=
  (((Continues.record m _).trans (.update _ _)).trans (.record _ _)).trans (.update _ _)

/-- Two moments are told of the start of a call: one before it, and one right before the parameters
are bound. -/
theorem account_entered (hw : m.watched = true) :
    (m.entered f args).account =
      ⟨.makes (Engine.parameters f args), { m.toSituation with
        registry := Engine.beginCall f m.registry, depth := m.depth + 1 }⟩ ::
      ⟨.answers f.name, m.toSituation⟩ :: m.account := by
  have hanswers : m.record (.answers f.name) =
      { m with account := ⟨.answers f.name, m.toSituation⟩ :: m.account } := by
    rw [record, if_pos hw]
  rw [entered, hanswers]
  exact account_record (m := update _ { m with account := _ }) hw _

theorem mem_since_entered (hw : m.watched = true) :
    ⟨.answers f.name, m.toSituation⟩ ∈ since m (m.entered f args) := by
  have hrest : Continues (m.record (.answers f.name)) (m.entered f args) :=
    ((Continues.update _ _).trans (.record _ _)).trans (.update _ _)
  rw [Continues.since_of_record hw hrest]
  exact List.mem_append_right _ (List.mem_singleton_self _)

end Machine

theorem Run.final_duringCall (f : Function) (args : List Value) (x : Run Flow) (m : Machine) :
    Run.final (Engine.duringCall f args x) m = (Run.final x (m.entered f args)).update fun s =>
      { s with registry := s.registry.popFrame, depth := s.depth - 1 } :=
  Run.final_ensuring x _ (m.entered f args)

/-- Freeing all names is told of the situation in which none is left. -/
theorem Run.since_runFreeAll {m : Machine} (hw : m.watched = true) :
    since m (Run.final Engine.runFreeAll m) =
      [⟨.clears, m.toSituation.onRegistry Registry.clear⟩] :=
  Continues.since_record (m := m.update (Situation.onRegistry Registry.clear)) hw .clears

/-- Every computation of a machine goes on with the account. -/
theorem Run.continues_indifferent : Indifferent (Run.Moves Continues) where
  pure _ m := .refl m
  bind := Run.Moves.bind .trans
  stop _ m := .refl m
  look _ m := .refl m
  tell event m := .record m event
  change f m := .update m f
  ensuring after hx m := by
    rw [Run.final_ensuring]
    exact (hx m).trans (.update _ after)
  write line text m := by
    rw [Run.final_write]
    exact .update m _
  flush line m := by
    rw [Run.final_flush]
    exact .refl m
  readLine line m := by
    rw [Run.final_readLine]
    exact .update m _

end TagLang
