import TagLang.Proofs.Descent
import TagLang.Proofs.Resting

/-!
# Sessions without `while` terminate

The bound of a machine is on the depth of its nesting.  Without `while` loops a large enough bound
never shows: from some bound on, a step ends in one and the same way (`Session.runStep_terminates`).

Three things make it so.  A node leads only to younger nodes of the forest as it was when the run of
the node began (`Forest.Descending`), so the depth below it is bounded by the size of that forest,
however the forest grows meanwhile.  Calls and inserted files start afresh in the forest that there
is then, but the number of those under way is limited (`Machine.budget`).  And counted loops and
loops over lists know the number of their passes when they start.

`Run.Halts` is the judgement that carries this through; its rules follow the ways to build a
computation.
-/

namespace TagLang

open Machine

/-! ### Machines without `while` -/

/-- Shapes lead forward, and none is a `while` loop. -/
structure Forest.Tame (f : Forest) : Prop where
  descending : f.Descending
  whileFree : f.WhileFree

theorem Forest.tame_empty : Forest.empty.Tame :=
  ⟨descending_empty, whileFree_empty⟩

theorem Workshop.keeps_tame {source : String} (hs : WhileFree source) :
    Keeps Forest.Tame source := by
  intro inserting f r hf hr h
  exact ⟨keeps_descending source inserting hf hr h.descending,
    keeps_whileFree hs inserting hf hr h.whileFree⟩

namespace Machine

/-- A tame machine in the same calls and files as the first one, with a forest that may have
grown. -/
structure Later (m m' : Machine) : Prop where
  sane : m'.Sane Forest.Tame
  grown : m.forest.Grown m'.forest
  depth : m'.depth = m.depth
  inserting : m'.inserting = m.inserting

/-- How many more calls and inserted files can be under way at once. -/
def budget (m : Machine) : Nat :=
  (maxInsertDepth - m.inserting.length) + (maxCallDepth - m.depth)

namespace Later

variable {m m₁ m₂ : Machine}

theorem refl (hm : m.Sane Forest.Tame) : Later m m :=
  ⟨hm, .refl _, rfl, rfl⟩

theorem trans (h₁ : Later m m₁) (h₂ : Later m₁ m₂) : Later m m₂ where
  sane := h₂.sane
  grown := h₁.grown.trans h₂.grown
  depth := h₂.depth.trans h₁.depth
  inserting := h₂.inserting.trans h₁.inserting

theorem of_evolves (h : Evolves Forest.Tame m m₁) (hr : Returns m m₁) : Later m m₁ :=
  ⟨h.sane, h.grown, hr.depth, hr.inserting⟩

theorem budget_eq (h : Later m m₁) : m₁.budget = m.budget := by
  rw [budget, budget, h.inserting, h.depth]

theorem lt_size (h : Later m m₁) {id : NodeId} (hid : id < m.forest.size) : id < m₁.forest.size :=
  Nat.lt_of_lt_of_le hid h.grown.size_le

theorem shape_eq (h : Later m m₁) {id : NodeId} (hid : id < m.forest.size) :
    m₁.forest.shape id = m.forest.shape id :=
  h.grown.shape_eq hid

/-- A node of the forest may be switched. -/
theorem switch (hm : m.Sane Forest.Tame) {id : NodeId} (hid : id < m.forest.size) (on : Bool) :
    Later m (m.update (Situation.switch id on)) := by
  refine ⟨⟨hm.good.switch id on, hm.forest, fun x hx => ?_⟩, .refl _, rfl, rfl⟩
  show (m.switches.set id on).isOn x = true
  rw [Switches.isOn_set, if_neg (Nat.ne_of_lt (Nat.lt_of_lt_of_le hid hx))]
  exact hm.on x hx

end Later

/-- The nodes that a node leads to are younger, and in the forest. -/
theorem Sane.nodes {m : Machine} (hm : m.Sane Forest.Tame) {id : NodeId} :
    ∀ x ∈ (m.forest.shape id).nodes, id + 1 ≤ x ∧ x < m.forest.size :=
  fun x hx => ⟨hm.forest.descending id x hx, hm.good.inForest.shapes id x hx⟩

end Machine

/-! ### The judgement -/

namespace Run

variable {α β : Type}

/-- The result is not that the bound was too small, and the machine left behind has `R`. -/
def EndsWith (R : Machine → Prop) : EStateM.Result Stop Machine α → Prop
  | .ok _ m => R m
  | .error (.failed _) m => R m
  | .error .outOfFuel _ => False

/-- From some bound on, the computation ends on the machine `m` in one way, with `R` behind it. -/
def HaltsWith (x : Nat → Run α) (m : Machine) (R : Machine → Prop) : Prop :=
  ∃ bound r, (∀ n, bound ≤ n → x n m = r) ∧ EndsWith R r

/-- From some bound on, the computation ends on the machine `m` in one way, and is back in the same
calls and files. -/
def Halts (x : Nat → Run α) (m : Machine) : Prop :=
  HaltsWith x m (Later m)

namespace HaltsWith

variable {x : Nat → Run α} {m : Machine} {R R' : Machine → Prop}

theorem of_eq {y : Nat → Run α} {m₁ : Machine} (h : HaltsWith x m₁ R)
    (hy : ∀ n, y n m = x n m₁) : HaltsWith y m R := by
  obtain ⟨bound, r, hx, hr⟩ := h
  exact ⟨bound, r, fun n hn => (hy n).trans (hx n hn), hr⟩

/-- A computation that spends one unit of its bound at the start. -/
theorem succ {y : Nat → Run α} (h : HaltsWith x m R) (hy : ∀ n, y (n + 1) = x n) :
    HaltsWith y m R := by
  obtain ⟨bound, r, hx, hr⟩ := h
  refine ⟨bound + 1, r, fun n hn => ?_, hr⟩
  cases n with
  | zero => omega
  | succ n =>
    rw [hy]
    exact hx n (Nat.le_of_succ_le_succ hn)

theorem mono (h : HaltsWith x m R') (hR : ∀ m', R' m' → R m') : HaltsWith x m R := by
  obtain ⟨bound, r, hx, hr⟩ := h
  refine ⟨bound, r, hx, ?_⟩
  match r with
  | .ok _ m' => exact hR m' hr
  | .error (.failed _) m' => exact hR m' hr
  | .error .outOfFuel _ => exact hr.elim

theorem bind {f : Nat → α → Run β} (hx : HaltsWith x m R') (hR : ∀ m', R' m' → R m')
    (hf : ∀ a m', R' m' → (∃ n, x n m = .ok a m') → HaltsWith (fun n => f n a) m' R) :
    HaltsWith (fun n => x n >>= f n) m R := by
  obtain ⟨bound, r, hx, hr⟩ := hx
  match r with
  | .ok a m' =>
    obtain ⟨bound', r', hf', hr'⟩ := hf a m' hr ⟨bound, hx bound (Nat.le_refl _)⟩
    refine ⟨max bound bound', r', fun n hn => ?_, hr'⟩
    have hfirst := hx n (Nat.le_trans (Nat.le_max_left ..) hn)
    exact (Run.bind_of_ok hfirst _).trans (hf' n (Nat.le_trans (Nat.le_max_right ..) hn))
  | .error (.failed failure) m' =>
    exact ⟨bound, .error (.failed failure) m', fun n hn => Run.bind_of_error (hx n hn) _, hR m' hr⟩
  | .error .outOfFuel _ => exact hr.elim

theorem ensuring (hx : HaltsWith x m R') {after : Situation → Situation}
    (hR : ∀ m', R' m' → R (m'.update after)) :
    HaltsWith (fun n => Run.ensuring (x n) after) m R := by
  obtain ⟨bound, r, hx, hr⟩ := hx
  match r with
  | .ok a m' =>
    refine ⟨bound, .ok a (m'.update after), fun n hn => ?_, hR m' hr⟩
    show Run.ensuring (x n) after m = _
    rw [Run.ensuring, hx n hn]
  | .error (.failed failure) m' =>
    refine ⟨bound, .error (.failed failure) (m'.update after), fun n hn => ?_, hR m' hr⟩
    show Run.ensuring (x n) after m = _
    rw [Run.ensuring, hx n hn]
  | .error .outOfFuel _ => exact hr.elim

end HaltsWith

/-! ### Computations without a bound -/

/-- The computation never stops because a bound was too small. -/
def Unbounded ⦃α : Type⦄ (x : Run α) : Prop :=
  ∀ m m', x m ≠ .error .outOfFuel m'

theorem Unbounded.bind {x : Run α} {f : α → Run β} (hx : Unbounded x)
    (hf : ∀ a, Unbounded (f a)) : Unbounded (x >>= f) := by
  intro m m' h
  cases hr : x m with
  | ok a m₁ =>
    rw [Run.bind_of_ok hr] at h
    exact hf a m₁ m' h
  | error s m₁ =>
    rw [Run.bind_of_error hr] at h
    cases h
    exact hx m m' hr

theorem Unbounded.orIo (line : Nat) (r : Except IoError α) (m : Machine) (m' : Machine) :
    (Run.orIo line r : Run α) m ≠ .error .outOfFuel m' := by
  cases r <;> exact fun h => nomatch h

theorem unbounded_steady : Steady Unbounded where
  pure _ _ _ h := nomatch h
  bind := Unbounded.bind
  failed _ _ _ h := nomatch h
  look _ _ _ h := nomatch h
  note _ _ _ _ h := nomatch h
  change _ _ _ h := nomatch h
  ensuring {α x} after hx m m' h := by
    unfold Run.ensuring at h
    cases hr : x m with
    | ok a m₁ =>
      rw [hr] at h
      cases h
    | error s m₁ =>
      rw [hr] at h
      cases h
      exact hx m _ hr
  write line text m m' := Unbounded.orIo line _ _ m'
  flush line m m' := Unbounded.orIo line _ _ m'
  readLine line m m' := Unbounded.orIo line _ _ m'

/-- The computation runs nothing below it: it has no bound, and moves a machine along in a run. -/
structure Plain ⦃α : Type⦄ (x : Run α) : Prop where
  unbounded : Unbounded x
  evolves : Run.Evolves Forest.Tame x
  returns : Run.Returns x

theorem plain_sequential : Sequential Plain where
  pure a := ⟨unbounded_steady.pure a, .refl fun _ => rfl, fun m => .refl m⟩
  bind hx hf :=
    ⟨hx.unbounded.bind fun a => (hf a).unbounded, hx.evolves.bind fun a => (hf a).evolves,
      hx.returns.bind fun a => (hf a).returns⟩
  failed failure := ⟨unbounded_steady.failed failure, .refl fun _ => rfl, fun m => .refl m⟩
  look g := ⟨unbounded_steady.look g, .look g, .look g⟩
  note event he := ⟨unbounded_steady.note event he, .note event, .note event⟩

theorem plain_elementary {w : World}
    (hw : ∀ path source, w.library.load path = .ok source → WhileFree source) :
    Elementary w Plain := by
  have hu := unbounded_steady.elementary w
  have he : Stepwise w (Run.Evolves Forest.Tame) :=
    Run.Evolves.stepwise fun path source h => Workshop.keeps_tame (hw path source h)
  have hr := Run.Returns.closed w
  exact
    { plain_sequential with
      write := fun line text => ⟨hu.write line text, he.write line text, hr.write line text⟩
      flush := fun line => ⟨hu.flush line, he.flush line, hr.flush line⟩
      readLine := fun line => ⟨hu.readLine line, he.readLine line, hr.readLine line⟩
      assign :=
        fun name v line => ⟨hu.assign name v line, he.assign name v line, hr.assign name v line⟩
      declare := fun id name v line =>
        ⟨hu.declare id name v line, he.declare id name v line, hr.declare id name v line⟩
      answer := fun function v => ⟨hu.answer function v, he.answer function v, hr.answer function v⟩
      runFree :=
        fun names line => ⟨hu.runFree names line, he.runFree names line, hr.runFree names line⟩
      runFreeAll := ⟨hu.runFreeAll, he.runFreeAll, hr.runFreeAll⟩
      runExtern := fun source nickname line => ⟨hu.runExtern source nickname line,
        he.runExtern source nickname line, hr.runExtern source nickname line⟩ }

namespace Halts

variable {x : Nat → Run α} {m m₁ : Machine}

theorem plain {x : Run α} (hx : Plain x) (hm : m.Sane Forest.Tame) : Halts (fun _ => x) m := by
  refine ⟨0, x m, fun _ _ => rfl, ?_⟩
  have hl : Later m (Run.final x m) := .of_evolves (hx.evolves m hm) (hx.returns m)
  match hr : x m with
  | .ok a m' => exact Run.final_of_ok hr ▸ hl
  | .error (.failed failure) m' => exact Run.final_of_error hr ▸ hl
  | .error .outOfFuel m' => exact hx.unbounded m m' hr

theorem pure (hm : m.Sane Forest.Tame) (a : α) : Halts (fun _ => (Pure.pure a : Run α)) m :=
  plain (plain_sequential.pure a) hm

theorem fail (hm : m.Sane Forest.Tame) (line : Nat) (cause : Cause) :
    Halts (fun _ => (Run.fail line cause : Run α)) m :=
  plain (plain_sequential.fail line cause) hm

/-- What comes behind a step may start from there. -/
theorem after {y : Nat → Run α} (hl : Later m m₁) (h : Halts x m₁) (hy : ∀ n, y n m = x n m₁) :
    Halts y m :=
  (HaltsWith.of_eq h hy).mono fun _ => hl.trans

theorem bind {f : Nat → α → Run β} (hx : Halts x m)
    (hf : ∀ a m', Later m m' → Halts (fun n => f n a) m') : Halts (fun n => x n >>= f n) m :=
  HaltsWith.bind hx (fun _ h => h) fun a m' h _ => (hf a m' h).mono fun _ => h.trans

theorem look_bind {g : Situation → α} {f : Nat → α → Run β}
    (hf : Halts (fun n => f n (g m.toSituation)) m) : Halts (fun n => look g >>= f n) m :=
  HaltsWith.of_eq hf fun _ => rfl

theorem note_bind (hm : m.Sane Forest.Tame) (event : Event) {f : Nat → Unit → Run β}
    (hf : ∀ m', Later m m' → m'.toSituation = m.toSituation → Halts (fun n => f n ()) m') :
    Halts (fun n => note event >>= f n) m := by
  have hl : Later m (m.record event) :=
    .of_evolves (.record hm event) (.record m event)
  exact after hl (hf _ hl (toSituation_record m event)) fun _ => rfl

theorem make_bind (hm : m.Sane Forest.Tame) (made : List (String × Binding))
    {g : Registry → Registry} (hg : ∀ {f : Forest} {r : Registry}, r.Fits f → (g r).Fits f)
    {f : Nat → Unit → Run β} (hf : ∀ m', Later m m' → Halts (fun n => f n ()) m') :
    Halts (fun n => make made (Situation.onRegistry g) >>= f n) m := by
  have hl : Later m (m.record (.makes made)) := .of_evolves (.record hm _) (.record m _)
  have hmade : Later m ((m.record (.makes made)).update (Situation.onRegistry g)) :=
    ⟨⟨hl.sane.good.of_eq rfl rfl (hg hl.sane.good.registry), hl.sane.forest, hl.sane.on⟩,
      hl.grown, hl.depth, hl.inserting⟩
  exact after hmade (hf _ hmade) fun _ => rfl

end Halts

end Run

/-! ### Expressions -/

/-- From the node `j` on, all that the engines run halts, in the forest of the machine `m₀` and
whatever it grows into. -/
structure Engine.HaltFrom (e : Nat → Engine) (m₀ : Machine) (j : NodeId) : Prop where
  execute : ∀ id, j ≤ id → id < m₀.forest.size → ∀ m, Later m₀ m →
    Run.Halts (fun n => (e n).execute id) m
  force : ∀ id, j ≤ id → id < m₀.forest.size → ∀ m, Later m₀ m →
    Run.Halts (fun n => (e n).force id) m
  eval : ∀ s : Sequence, (∀ x ∈ s.nodes, j ≤ x ∧ x < m₀.forest.size) → ∀ m, Later m₀ m →
    Run.Halts (fun n => (e n).eval s) m

theorem Engine.HaltFrom.mono {e : Nat → Engine} {m₀ : Machine} {j k : NodeId}
    (h : HaltFrom e m₀ j) (hjk : j ≤ k) : HaltFrom e m₀ k where
  execute id hk := h.execute id (Nat.le_trans hjk hk)
  force id hk := h.force id (Nat.le_trans hjk hk)
  eval s hs := h.eval s fun x hx => ⟨Nat.le_trans hjk (hs x hx).1, (hs x hx).2⟩

/-- Wherever fewer calls and files are left, all that the engines run halts. -/
def Engine.CallsHalt (e : Nat → Engine) (m₀ : Machine) : Prop :=
  ∀ m, m.Sane Forest.Tame → m.budget < m₀.budget → HaltFrom e m 0

namespace Engine

variable {e : Nat → Engine} {m₀ m : Machine} {j : NodeId}

theorem evalAll_halts {values : List Sequence}
    (he : ∀ s ∈ values, ∀ m, Later m₀ m → Run.Halts (fun n => (e n).eval s) m) (hm : Later m₀ m) :
    Run.Halts (fun n => (e n).evalAll values) m := by
  induction values generalizing m with
  | nil => exact .pure hm.sane []
  | cons s rest ih =>
    refine (he s (List.mem_cons_self ..) m hm).bind fun v m₁ h₁ => ?_
    refine (ih (fun t ht => he t (List.mem_cons_of_mem _ ht)) (hm.trans h₁)).bind fun vs m₂ h₂ => ?_
    exact .pure h₂.sane _

section

variable (hc : CallsHalt e m₀)
include hc

/-- A call starts afresh in the forest that there is then, with fewer calls left. -/
theorem duringCall_halts (hm : Later m₀ m) (hd : m.depth < maxCallDepth) {f : Function}
    (hf : f.body < m.forest.size) (args : List Value) :
    Run.Halts (fun n => duringCall f args ((e n).force f.body)) m := by
  let m₁ := m.entered f args
  have hs : m₁.toSituation = _ := toSituation_entered f args m
  have hstart : m.Evolves Forest.Tame m₁ := .entered hm.sane f args
  have hbudget : m₁.budget < m₀.budget := by
    rw [← hm.budget_eq, budget, budget, hs]
    show maxInsertDepth - m.inserting.length + (maxCallDepth - (m.depth + 1)) <
      maxInsertDepth - m.inserting.length + (maxCallDepth - m.depth)
    omega
  have hsize : f.body < m₁.forest.size := Nat.lt_of_lt_of_le hf hstart.grown.size_le
  have hbody :=
    (hc m₁ hstart.sane hbudget).force f.body (Nat.zero_le _) hsize m₁ (.refl hstart.sane)
  have hcall : Run.HaltsWith (fun n => Run.ensuring ((e n).force f.body) fun s =>
      { s with registry := s.registry.popFrame, depth := s.depth - 1 }) m₁ (Later m) := by
    refine Run.HaltsWith.ensuring hbody fun m' h' => ⟨?_, ?_, ?_, ?_⟩
    · exact ⟨h'.sane.good.of_eq rfl rfl h'.sane.good.registry.popFrame, h'.sane.forest, h'.sane.on⟩
    · exact hstart.grown.trans h'.grown
    · show m'.depth - 1 = m.depth
      rw [h'.depth, hs]
      rfl
    · show m'.inserting = m.inserting
      rw [h'.inserting, hs]
  exact hcall.of_eq fun _ => rfl

theorem callScript_halts (hm : Later m₀ m) {f : Function} (hf : f.body < m.forest.size)
    (args : List Value) (line : Nat) : Run.Halts (fun n => (e n).callScript f args line) m := by
  unfold callScript
  split
  · exact .fail hm.sane line _
  · refine .look_bind ?_
    split
    · exact .fail hm.sane line _
    next hd =>
      refine (duringCall_halts hc hm (Nat.lt_of_not_le hd) hf args).bind fun flow m₁ h₁ => ?_
      cases flow <;> exact .pure h₁.sane _

theorem invoke_halts {args : List Sequence}
    (he : ∀ s ∈ args, ∀ m, Later m₀ m → Run.Halts (fun n => (e n).eval s) m) (hm : Later m₀ m)
    (name : String) (line : Nat) : Run.Halts (fun n => (e n).invoke name args line) m := by
  unfold invoke
  refine .look_bind ?_
  cases hb : m.registry.get? name with
  | none => exact .fail hm.sane line _
  | some b =>
    dsimp only
    cases hk : b.kind with
    | function c =>
      cases c with
      | script f =>
        refine (evalAll_halts he hm).bind fun values m₁ h₁ => ?_
        have hbody := (hm.sane.good.registry.bound name b hb f hk).shape_ne
        refine callScript_halts hc (hm.trans h₁) ?_ values line
        exact h₁.lt_size (Forest.lt_size_of_shape hbody)
      | host f =>
        refine (evalAll_halts he hm).bind fun values m₁ h₁ => ?_
        exact .plain (Run.plain_sequential.callHost f values line) h₁.sane
    | «variable» => exact .fail hm.sane line _
    | constant => exact .fail hm.sane line _

end

section

variable {w : World} (hw : ∀ path source, w.library.load path = .ok source → WhileFree source)
include hw

theorem input_halts {prompt : Sequence}
    (he : ∀ m, Later m₀ m → Run.Halts (fun n => (e n).eval prompt) m) (hm : Later m₀ m)
    (line : Nat) : Run.Halts (fun n => (e n).input prompt line) m := by
  have hp := Run.plain_elementary hw
  have hprompt : Run.Halts (fun n => (e n).showPrompt prompt line) m := by
    unfold showPrompt
    split
    · exact .pure hm.sane _
    · refine (he m hm).bind fun v m₁ h₁ => ?_
      exact .plain (hp.bind (hp.write line _) fun _ => hp.flush line) h₁.sane
  refine hprompt.bind fun _ m₁ h₁ => ?_
  exact .plain (hp.bind (hp.readLine line) fun s => hp.pure _) h₁.sane

variable (hm₀ : m₀.Sane Forest.Tame) (hc : CallsHalt e m₀)
include hm₀ hc

/-- The value of a node is found, if all halts behind it. -/
theorem nodeValue_halts (he : HaltFrom e m₀ (j + 1)) {id : NodeId} (hj : j ≤ id)
    (hid : id < m₀.forest.size) (hm : Later m₀ m) : Run.Halts (fun n => (e n).nodeValue id) m := by
  have hnodes : ∀ x ∈ (m₀.forest.shape id).nodes, j + 1 ≤ x ∧ x < m₀.forest.size := fun x hx =>
    ⟨Nat.le_trans (Nat.succ_le_succ hj) (hm₀.nodes x hx).1, (hm₀.nodes x hx).2⟩
  unfold nodeValue
  refine .note_bind hm.sane _ fun m₁ h₁ hs₁ => ?_
  have hm₁ := hm.trans h₁
  refine .look_bind (.look_bind (.look_bind ?_))
  rw [hm₁.shape_eq hid]
  generalize m₁.forest.line id = line
  generalize m₁.forest.kind id = kind
  -- The expressions of the shape name nodes behind this one.
  have heval : ∀ s : Sequence, (∀ x ∈ s.nodes, x ∈ (m₀.forest.shape id).nodes) → ∀ m, Later m₀ m →
      Run.Halts (fun n => (e n).eval s) m := fun s hs m hm =>
    he.eval s (fun x hx => hnodes x (hs x hx)) m hm
  cases hshape : m₀.forest.shape id with
  | leaf =>
    dsimp only
    split
    · exact .pure hm₁.sane _
    · exact .plain (Run.plain_sequential.lookup _ line) hm₁.sane
    · exact .fail hm₁.sane line _
  | groups values =>
    rw [hshape] at heval
    cases values with
    | nil => exact .pure hm₁.sane _
    | cons s rest => exact heval s (fun x hx => List.mem_append_left _ hx) m₁ hm₁
  | array values =>
    rw [hshape] at heval
    refine (evalAll_halts (fun s hs => heval s fun x hx => ?_) hm₁).bind fun vs m₂ h₂ => ?_
    · exact List.mem_flatMap.mpr ⟨s, hs, hx⟩
    · exact .pure h₂.sane _
  | call name args =>
    rw [hshape] at heval
    refine invoke_halts hc (fun s hs => heval s fun x hx => ?_) hm₁ name line
    exact List.mem_flatMap.mpr ⟨s, hs, hx⟩
  | input prompt =>
    rw [hshape] at heval
    exact input_halts hw (heval prompt fun x hx => hx) hm₁ line
  | convert target value =>
    rw [hshape] at heval
    refine (heval value (fun x hx => hx) m₁ hm₁).bind fun v m₂ h₂ => ?_
    exact .plain (Run.plain_sequential.orFault line _ _) h₂.sane
  | _ => exact .fail hm₁.sane line _

theorem condition_halts (he : HaltFrom e m₀ (j + 1)) {id : NodeId} (hj : j ≤ id)
    (hid : id < m₀.forest.size) (hm : Later m₀ m) (line : Nat) :
    Run.Halts (fun n => (e n).condition id line) m := by
  unfold condition
  refine (nodeValue_halts hw hm₀ hc he hj hid hm).bind fun v m₁ h₁ => ?_
  split
  · exact .pure h₁.sane _
  · exact .fail h₁.sane line _

omit hw hc in
theorem subscripted_halts (he : HaltFrom e m₀ (j + 1)) {ids : List NodeId}
    (hids : ∀ x ∈ ids, j ≤ x ∧ x < m₀.forest.size) (hm : Later m₀ m) (line : Nat) (v : Value) :
    Run.Halts (fun n => (e n).subscripted line v ids) m := by
  induction ids generalizing m v with
  | nil => exact .pure hm.sane v
  | cons id rest ih =>
    obtain ⟨hj, hid⟩ := hids id (List.mem_cons_self ..)
    have hrest : ∀ x ∈ rest, j ≤ x ∧ x < m₀.forest.size := fun x hx =>
      hids x (List.mem_cons_of_mem _ hx)
    refine .look_bind ?_
    rw [hm.shape_eq hid]
    split
    next index hs =>
      have hindex : ∀ x ∈ index.nodes, j + 1 ≤ x ∧ x < m₀.forest.size := by
        intro x hx
        have hmem : x ∈ (m₀.forest.shape id).nodes := by
          rw [hs]
          exact List.mem_append_left _ hx
        exact ⟨Nat.le_trans (Nat.succ_le_succ hj) (hm₀.nodes x hmem).1, (hm₀.nodes x hmem).2⟩
      refine (he.eval index hindex m hm).bind fun i m₁ h₁ => ?_
      refine (Run.Halts.plain (Run.plain_sequential.orFault line _ _) h₁.sane).bind
        fun element m₂ h₂ => ?_
      exact ih hrest ((hm.trans h₁).trans h₂) element
    · exact .fail hm.sane line _

theorem operand_halts (he : HaltFrom e m₀ (j + 1)) {o : Operand}
    (ho : ∀ x ∈ o.node :: o.subscripts, j ≤ x ∧ x < m₀.forest.size) (hm : Later m₀ m) :
    Run.Halts (fun n => (e n).operand o) m := by
  obtain ⟨hj, hid⟩ := ho o.node (List.mem_cons_self ..)
  unfold operand
  refine .look_bind ?_
  generalize m.forest.line o.node = line
  refine (nodeValue_halts hw hm₀ hc he hj hid hm).bind fun v m₁ h₁ => ?_
  refine (subscripted_halts hm₀ he (fun x hx => ho x (List.mem_cons_of_mem _ hx)) (hm.trans h₁)
    line v).bind fun v m₂ h₂ => ?_
  exact .plain (Run.plain_sequential.prefixed line v _) h₂.sane

end

end Engine

/-- The rest of an expression is reduced, if its operands are evaluated. -/
theorem Sequence.reduceRest_halts {e : Nat → Engine} {m₀ m : Machine}
    {rest : List ((Operator × Nat) × Operand)}
    (ho : ∀ p ∈ rest, ∀ m, Later m₀ m → Run.Halts (fun n => (e n).operand p.2) m)
    (values : List Value) (waiting : List (Operator × Nat)) (hm : Later m₀ m) :
    Run.Halts (fun n => reduceRest (e n).operand rest values waiting) m := by
  have hp := Run.plain_sequential
  induction rest generalizing values waiting m with
  | nil =>
    refine .plain (hp.bind (hp.ofExcept _) fun ⟨values, _⟩ => ?_) hm.sane
    cases values with
    | nil => exact hp.fail _ _
    | cons v values => exact hp.pure v
  | cons next rest ih =>
    refine (Run.Halts.plain (hp.ofExcept _) hm.sane).bind fun _ m₁ h₁ => ?_
    refine (ho next (List.mem_cons_self ..) m₁ (hm.trans h₁)).bind fun v m₂ h₂ => ?_
    exact ih (fun p hp => ho p (List.mem_cons_of_mem _ hp)) _ _ ((hm.trans h₁).trans h₂)

/-- An expression is reduced, if its operands are evaluated. -/
theorem Sequence.reduce_halts {e : Nat → Engine} {m₀ m : Machine} {s : Sequence}
    (ho : ∀ o ∈ s.operands, ∀ m, Later m₀ m → Run.Halts (fun n => (e n).operand o) m)
    (hm : Later m₀ m) : Run.Halts (fun n => s.reduce (e n).operand) m := by
  unfold reduce
  cases hs : s.operands with
  | nil => exact .pure hm.sane _
  | cons first rest =>
    rw [hs] at ho
    refine (ho first (List.mem_cons_self ..) m hm).bind fun v m₁ h₁ => ?_
    refine reduceRest_halts (fun p hp => ho p.2 (List.mem_cons_of_mem _ ?_)) _ _ (hm.trans h₁)
    exact (List.of_mem_zip hp).2

/-! ### Statements -/

namespace Engine

variable {e : Nat → Engine} {m₀ m : Machine} {id : NodeId}

theorem runBlock_halts (he : HaltFrom e m₀ (id + 1)) {ids : List NodeId}
    (hids : ∀ x ∈ ids, id + 1 ≤ x ∧ x < m₀.forest.size) (hm : Later m₀ m) :
    Run.Halts (fun n => (e n).runBlock ids) m := by
  induction ids generalizing m with
  | nil => exact .pure hm.sane _
  | cons x rest ih =>
    obtain ⟨hj, hx⟩ := hids x (List.mem_cons_self ..)
    refine (he.execute x hj hx m hm).bind fun flow m₁ h₁ => ?_
    cases flow with
    | completed => exact ih (fun y hy => hids y (List.mem_cons_of_mem _ hy)) (hm.trans h₁)
    | break_ => exact .pure h₁.sane _
    | return_ v => exact .pure h₁.sane _

/-- A counted loop makes as many passes as it says. -/
theorem runTimes_halts {body : NodeId}
    (hb : ∀ m, Later m₀ m → Run.Halts (fun n => (e n).force body) m) (times : Nat)
    (hm : Later m₀ m) : Run.Halts (fun n => (e n).runTimes body times) m := by
  induction times generalizing m with
  | zero => exact .pure hm.sane _
  | succ k ih =>
    refine (hb m hm).bind fun flow m₁ h₁ => ?_
    cases flow with
    | completed => exact ih (hm.trans h₁)
    | break_ => exact .pure h₁.sane _
    | return_ v => exact .pure h₁.sane _

/-- A loop over a list makes one pass for each element. -/
theorem runItems_halts {body : NodeId}
    (hb : ∀ m, Later m₀ m → Run.Halts (fun n => (e n).force body) m) (item : String)
    (values : List Value) (hm : Later m₀ m) :
    Run.Halts (fun n => (e n).runItems item body values) m := by
  induction values generalizing m with
  | nil => exact .pure hm.sane _
  | cons v rest ih =>
    refine .make_bind hm.sane _ (fun hr => hr.define item (.ofVariable _ v none)) fun m₁ h₁ => ?_
    refine (hb m₁ (hm.trans h₁)).bind fun flow m₂ h₂ => ?_
    cases flow with
    | completed => exact ih ((hm.trans h₁).trans h₂)
    | break_ => exact .pure h₂.sane _
    | return_ v => exact .pure h₂.sane _

theorem duringLoop_halts {body : NodeId}
    (hb : ∀ m, Later m₀ m → Run.Halts (fun n => (e n).force body) m) (item : String)
    (values : List Value) (hm : Later m₀ m) :
    Run.Halts (fun n => duringLoop item ((e n).runItems item body values)) m := by
  refine .make_bind hm.sane _ (fun hr => hr.pushItem item) fun m₁ h₁ => ?_
  refine Run.HaltsWith.ensuring (runItems_halts hb item values (hm.trans h₁)) fun m' h' => ?_
  exact ⟨⟨h'.sane.good.of_eq rfl rfl h'.sane.good.registry.popItem, h'.sane.forest, h'.sane.on⟩,
    h'.grown, h'.depth, h'.inserting⟩

theorem arm_halts (hm : Later m₀ m) {chained : Option NodeId}
    (hc : ∀ next ∈ chained.toList, next < m₀.forest.size) (on : Bool) :
    Run.Halts (fun _ => arm chained on) m := by
  cases chained with
  | none => exact .pure hm.sane _
  | some next =>
    have hl := Later.switch hm.sane (hm.lt_size (hc next (List.mem_singleton_self _))) on
    exact .after hl (.pure hl.sane ()) fun _ => rfl

section

variable {w : World} (hw : ∀ path source, w.library.load path = .ok source → WhileFree source)
include hw

theorem runDeclaration_halts {value : Sequence} {subscripts : List Sequence}
    (hv : ∀ m, Later m₀ m → Run.Halts (fun n => (e n).eval value) m)
    (hs : ∀ s ∈ subscripts, ∀ m, Later m₀ m → Run.Halts (fun n => (e n).eval s) m)
    (hm : Later m₀ m) (name : String) (op : Operator) (line : Nat) :
    Run.Halts (fun n => (e n).runDeclaration id name subscripts op value line) m := by
  have hp := Run.plain_elementary hw
  unfold runDeclaration
  refine (hv m hm).bind fun rhs m₁ h₁ => ?_
  split
  · refine (evalAll_halts hs (hm.trans h₁)).bind fun path m₂ h₂ => ?_
    exact .plain (hp.assignElement name path op rhs line) h₂.sane
  · split
    · refine .plain (hp.bind (hp.lookup name line) fun current => ?_) h₁.sane
      exact hp.bind (hp.combined op current rhs line) fun v => hp.assign name v line
    · exact .plain (hp.declare id name rhs line) h₁.sane

theorem runReturn_halts {value : Sequence}
    (hv : ∀ m, Later m₀ m → Run.Halts (fun n => (e n).eval value) m) (hm : Later m₀ m) :
    Run.Halts (fun n => (e n).runReturn value) m := by
  have hp := Run.plain_elementary hw
  unfold runReturn
  refine (hv m hm).bind fun v m₁ h₁ => .look_bind ?_
  split
  · exact .plain (hp.bind (hp.answer _ v) fun _ => hp.pure _) h₁.sane
  · exact .plain (hp.bind (hp.pure ()) fun _ => hp.pure _) h₁.sane

/-! ### Inserted files -/

theorem inserted_plain (path : Path) (line : Nat) : Run.Plain (inserted w path line) where
  unbounded := Run.unbounded_steady.toSequential.inserted (fun _ _ h => nomatch h)
    (Run.unbounded_steady.prepare true) (fun _ => Run.unbounded_steady.change _) line
  evolves := .inserted (fun path source h => Workshop.keeps_tame (hw path source h)) path line
  returns := .inserted w path line

omit hw in
/-- What is inserted is in the forest. -/
theorem lt_size_of_inserted (hm : m.Sane Forest.Tame) {path : Path} {line : Nat} {root : NodeId}
    {m' : Machine} (h : inserted w path line m = .ok root m') : root < m'.forest.size := by
  rcases inserted_eq_ok h with ⟨hknown, rfl⟩ | ⟨source, m₁, hprepare, rfl⟩
  · exact Forest.lt_size_of_shape (hm.good.inserted _ _ hknown).isBody.shape_ne
  · have hgood : (m.record (.reads path)).toSituation.Good := by
      rw [toSituation_record]
      exact hm.good
    exact Forest.lt_size_of_shape (isRoot_of_prepare hgood hprepare).2.isBody.shape_ne

variable (hc : CallsHalt e m₀)
include hc

omit hw in
/-- A file starts afresh in the forest that there is then, with fewer files left. -/
theorem duringFile_halts (hm : Later m₀ m) (hi : m.inserting.length < maxInsertDepth) (path : Path)
    {root : NodeId} (hroot : root < m.forest.size) :
    Run.Halts (fun n => duringFile path ((e n).execute root)) m := by
  let m₁ := m.update fun s =>
    { s with baseDir := path.parent?.getD .empty, inserting := path :: s.inserting }
  have hm₁ : m₁.Sane Forest.Tame :=
    ⟨hm.sane.good.of_eq rfl rfl hm.sane.good.registry, hm.sane.forest, hm.sane.on⟩
  have hbudget : m₁.budget < m₀.budget := by
    rw [← hm.budget_eq]
    show maxInsertDepth - (m.inserting.length + 1) + (maxCallDepth - m.depth) <
      maxInsertDepth - m.inserting.length + (maxCallDepth - m.depth)
    omega
  have hfile := (hc m₁ hm₁ hbudget).execute root (Nat.zero_le _) hroot m₁ (.refl hm₁)
  have hrest : Run.HaltsWith (fun n => Run.ensuring ((e n).execute root) fun s =>
      { s with baseDir := m.baseDir, inserting := s.inserting.tail }) m₁ (Later m) := by
    refine Run.HaltsWith.ensuring hfile fun m' h' => ⟨?_, h'.grown, h'.depth, ?_⟩
    · exact ⟨h'.sane.good.of_eq rfl rfl h'.sane.good.registry, h'.sane.forest, h'.sane.on⟩
    · show m'.inserting.tail = m.inserting
      rw [h'.inserting]
      rfl
  exact hrest.of_eq fun _ => rfl

theorem runInsert_halts {target : Sequence}
    (ht : ∀ m, Later m₀ m → Run.Halts (fun n => (e n).eval target) m) (hm : Later m₀ m)
    (line : Nat) : Run.Halts (fun n => (e n).runInsert w target line) m := by
  unfold runInsert runTarget runPath runInserted
  refine .note_bind hm.sane _ fun m₁ h₁ _ => ?_
  refine (ht m₁ (hm.trans h₁)).bind fun v m₂ h₂ => ?_
  have hm₂ := (hm.trans h₁).trans h₂
  cases v.toStr? with
  | none => exact .fail hm₂.sane line _
  | some target =>
    refine .look_bind (.look_bind ?_)
    generalize w.library.resolve m₂.baseDir target = path
    split
    · exact .fail hm₂.sane line _
    · split
      · exact .fail hm₂.sane line _
      next hi =>
        refine .note_bind hm₂.sane _ fun m₃ h₃ _ => ?_
        have hfile := Run.Halts.plain (inserted_plain hw path line) h₃.sane
        refine Run.HaltsWith.bind hfile (fun _ h => h) fun root m₄ h₄ hroot => ?_
        obtain ⟨_, hroot⟩ := hroot
        have hsize := lt_size_of_inserted h₃.sane hroot
        refine Run.HaltsWith.mono ?_ fun _ => h₄.trans
        refine Run.Halts.note_bind h₄.sane _ fun m₅ h₅ _ => ?_
        have hm₅ : Later m₂ m₅ := (h₃.trans h₄).trans h₅
        have hi₅ : m₅.inserting.length < maxInsertDepth := by
          rw [hm₅.inserting]
          exact Nat.lt_of_not_le hi
        have hrun := duringFile_halts hc (hm₂.trans hm₅) hi₅ path (h₅.lt_size hsize)
        exact hrun.bind fun _ m₆ h₆ => .pure h₆.sane _

/-! ### Nodes -/

variable (hm₀ : m₀.Sane Forest.Tame)
include hm₀

theorem runBranch_halts (he : HaltFrom e m₀ (id + 1)) (hid : id < m₀.forest.size)
    {opening : Bool} {test body : NodeId} {chained : Option NodeId}
    (hn : ∀ x ∈ (Shape.branch opening test body chained).nodes, id + 1 ≤ x ∧ x < m₀.forest.size)
    (hm : Later m₀ m) (line : Nat) :
    Run.Halts (fun n => (e n).runBranch id opening test body chained line) m := by
  simp only [Shape.nodes, List.forall_mem_cons] at hn
  obtain ⟨⟨hj, htest⟩, ⟨hb, hbody⟩, hchained⟩ := hn
  have hself : ∀ x ∈ (if opening then none else some id).toList, x < m₀.forest.size := by
    intro x hx
    cases opening with
    | true => cases hx
    | false => exact List.mem_singleton.mp hx ▸ hid
  unfold runBranch
  refine (arm_halts hm hself false).bind fun _ m₁ h₁ => ?_
  have hm₁ := hm.trans h₁
  refine (condition_halts hw hm₀ hc he (Nat.le_of_succ_le hj) htest hm₁ line).bind
    fun holds m₂ h₂ => ?_
  have hm₂ := hm₁.trans h₂
  refine (arm_halts hm₂ (fun x hx => (hchained x hx).2) !holds).bind fun _ m₃ h₃ => ?_
  split
  · exact he.force body hb hbody m₃ (hm₂.trans h₃)
  · exact .pure h₃.sane _

/-- A node halts, if all halts behind it. -/
theorem runNode_halts (he : HaltFrom e m₀ (id + 1)) (hid : id < m₀.forest.size) (hm : Later m₀ m) :
    Run.Halts (fun n => (e n).runNode w n id) m := by
  have hp := Run.plain_elementary hw
  have hnodes : ∀ x ∈ (m₀.forest.shape id).nodes, id + 1 ≤ x ∧ x < m₀.forest.size := hm₀.nodes
  refine .note_bind hm.sane _ fun m₁ h₁ _ => ?_
  have hm₁ := hm.trans h₁
  refine .look_bind (.look_bind ?_)
  rw [hm₁.shape_eq hid]
  generalize m₁.forest.line id = line
  have hvalue : Run.Halts (fun n => (e n).nodeValue id >>= fun _ => pure Flow.completed) m₁ :=
    (nodeValue_halts hw hm₀ hc he (Nat.le_refl _) hid hm₁).bind fun _ m₂ h₂ => .pure h₂.sane _
  have heval : ∀ s : Sequence, (∀ x ∈ s.nodes, x ∈ (m₀.forest.shape id).nodes) → ∀ m, Later m₀ m →
      Run.Halts (fun n => (e n).eval s) m := fun s hs m hm =>
    he.eval s (fun x hx => hnodes x (hs x hx)) m hm
  have hforce : ∀ x ∈ (m₀.forest.shape id).nodes, ∀ m, Later m₀ m →
      Run.Halts (fun n => (e n).force x) m := fun x hx m hm =>
    he.force x (hnodes x hx).1 (hnodes x hx).2 m hm
  have hdone : ∀ {x : Run Unit}, Run.Plain x → ∀ {m}, m.Sane Forest.Tame →
      Run.Halts (fun _ => done x) m := fun hx _ hm => .plain (hp.bind hx fun _ => hp.pure _) hm
  cases hshape : m₀.forest.shape id with
  | block =>
    refine .look_bind (runBlock_halts he (fun x hx => ?_) hm₁)
    have hx : x ∈ m₀.forest.children id := hm₁.grown.children_eq hid ▸ hx
    exact ⟨hm₀.good.forest.wellFormed.lt_of_mem_children hx, hm₀.good.inForest.children id x hx⟩
  | print value =>
    rw [hshape] at heval
    refine (heval value (fun x hx => hx) m₁ hm₁).bind fun v m₂ h₂ => ?_
    exact hdone (hp.write line _) h₂.sane
  | declaration name subscripts op value =>
    rw [hshape] at heval
    have hvalue := heval value fun x hx => List.mem_append_right _ hx
    have hsubscripts : ∀ s ∈ subscripts, ∀ m, Later m₀ m → Run.Halts (fun n => (e n).eval s) m :=
      fun s hs => heval s fun x hx => List.mem_append_left _ (List.mem_flatMap.mpr ⟨s, hs, hx⟩)
    refine (runDeclaration_halts hw hvalue hsubscripts hm₁ name op line).bind fun _ m₂ h₂ => ?_
    exact .pure h₂.sane _
  | branch opening test body chained =>
    rw [hshape] at hnodes
    exact runBranch_halts hw hc hm₀ he hid hnodes hm₁ line
  | else_ body =>
    rw [hshape] at hforce
    have hl := Later.switch hm₁.sane (hm₁.lt_size hid) false
    refine .after hl (hforce body (List.mem_singleton_self _) _ (hm₁.trans hl)) fun _ => rfl
  | while_ test body => exact absurd hshape (hm₀.forest.whileFree.shape_ne hm₀.good.forest.sound)
  | repeat_ count body =>
    rw [hshape] at hnodes hforce
    obtain ⟨hj, hcount⟩ := hnodes count (List.mem_cons_self ..)
    have hbody := hforce body (List.mem_cons_of_mem _ (List.mem_singleton_self _))
    refine (nodeValue_halts hw hm₀ hc he (Nat.le_of_succ_le hj) hcount hm₁).bind fun v m₂ h₂ => ?_
    split
    next times _ => exact runTimes_halts hbody _ (hm₁.trans h₂)
    · exact .fail h₂.sane line _
  | foreach item collection body =>
    rw [hshape] at heval hforce
    refine (heval collection (fun x hx => List.mem_cons_of_mem _ hx) m₁ hm₁).bind fun v m₂ h₂ => ?_
    split
    · exact duringLoop_halts (hforce body (List.mem_cons_self ..)) item _ (hm₁.trans h₂)
    · exact .fail h₂.sane line _
  | break_ => exact .pure hm₁.sane _
  | return_ value =>
    rw [hshape] at heval
    exact runReturn_halts hw (heval value fun x hx => hx) hm₁
  | function f => exact .pure hm₁.sane _
  | free names => exact hdone (hp.runFree names line) hm₁.sane
  | freeAll => exact hdone hp.runFreeAll hm₁.sane
  | local_ body =>
    rw [hshape] at hforce
    exact hforce body (List.mem_singleton_self _) m₁ hm₁
  | extern_ source nickname => exact hdone (hp.runExtern source nickname line) hm₁.sane
  | insert target =>
    rw [hshape] at heval
    exact runInsert_halts hw hc (heval target fun x hx => hx) hm₁ line
  | leaf | groups values | array values | input prompt | convert target value | call name args =>
    exact hvalue
  | pair item collection | unloaded => exact .look_bind (.fail hm₁.sane line _)

end

end Engine

/-! ### The machine -/

namespace Machine

variable {w : World} {m : Machine}

theorem ifSwitchedOn_halts {id : NodeId} (h : Run.Halts (fun n => exec w n id) m)
    (hm : m.Sane Forest.Tame) : Run.Halts (fun n => ifSwitchedOn (exec w n) id) m := by
  refine .look_bind ?_
  split
  · exact h
  · exact .pure hm _

theorem switchingOn_halts {id : NodeId} (hid : id < m.forest.size) (hm : m.Sane Forest.Tame)
    (h : ∀ m₁, Later m m₁ → Run.Halts (fun n => exec w n id) m₁) :
    Run.Halts (fun n => switchingOn (exec w n) id) m := by
  have hl := Later.switch hm hid true
  have hrun : Run.HaltsWith (fun n => Run.ensuring (exec w n id)
      (Situation.switch id (m.switches.isOn id))) (m.update (Situation.switch id true))
      (Later m) := by
    refine Run.HaltsWith.ensuring (h _ hl) fun m' h' => ?_
    have hm' := hl.trans h'
    exact hm'.trans (.switch hm'.sane (hm'.lt_size hid) _)
  exact hrun.of_eq fun _ => rfl

section

variable (hw : ∀ path source, w.library.load path = .ok source → WhileFree source)
include hw

/-- All nodes of the forest halt, if they do wherever fewer calls and files are left. -/
theorem haltFrom_of_callsHalt (hm : m.Sane Forest.Tame)
    (hc : Engine.CallsHalt (fun n => engine w n) m) (j : NodeId) :
    Engine.HaltFrom (fun n => engine w n) m j := by
  -- The induction is on the number of nodes from `j` on.
  obtain ⟨rest, hrest⟩ : ∃ rest, m.forest.size ≤ j + rest := ⟨m.forest.size, Nat.le_add_left ..⟩
  induction rest generalizing j with
  | zero =>
    refine ⟨fun id hj hid => ?_, fun id hj hid => ?_, fun s hs m₁ h₁ => ?_⟩
    · exact absurd (Nat.le_trans hrest hj) (Nat.not_le_of_lt hid)
    · exact absurd (Nat.le_trans hrest hj) (Nat.not_le_of_lt hid)
    · refine Run.HaltsWith.succ (Sequence.reduce_halts (fun o ho => ?_) h₁) fun n => rfl
      obtain ⟨hj, hid⟩ := hs o.node (List.mem_flatMap.mpr ⟨o, ho, List.mem_cons_self ..⟩)
      exact absurd (Nat.le_trans hrest hj) (Nat.not_le_of_lt hid)
  | succ rest ih =>
    have he := ih (j + 1) (by omega)
    have hexec : ∀ id, j ≤ id → id < m.forest.size → ∀ m₁, Later m m₁ →
        Run.Halts (fun n => exec w n id) m₁ := by
      intro id hj hid m₁ h₁
      have hbehind := he.mono (Nat.succ_le_succ hj)
      exact Run.HaltsWith.succ (Engine.runNode_halts hw hc hm hbehind hid h₁) fun n => rfl
    refine ⟨fun id hj hid m₁ h₁ => ?_, fun id hj hid m₁ h₁ => ?_, fun s hs m₁ h₁ => ?_⟩
    · exact ifSwitchedOn_halts (hexec id hj hid m₁ h₁) h₁.sane
    · exact switchingOn_halts (h₁.lt_size hid) h₁.sane fun m₂ h₂ => hexec id hj hid m₂ (h₁.trans h₂)
    · refine Run.HaltsWith.succ (Sequence.reduce_halts (fun o ho => ?_) h₁) fun n => rfl
      exact fun m₂ h₂ => Engine.operand_halts hw hm hc he
        (fun x hx => hs x (List.mem_flatMap.mpr ⟨o, ho, hx⟩)) h₂

/-- Every tame machine halts on every node of its forest. -/
theorem haltFrom (hm : m.Sane Forest.Tame) : Engine.HaltFrom (fun n => engine w n) m 0 := by
  induction hb : m.budget using Nat.strongRecOn generalizing m with
  | _ b ih =>
    refine haltFrom_of_callsHalt hw hm (fun m₁ hm₁ hlt => ?_) 0
    exact ih m₁.budget (hb ▸ hlt) hm₁ rfl

end

end Machine

/-! ### Sessions -/

/-- The source of the step, if it has one of its own, is without `while`. -/
def Step.WhileFree : Step → Prop
  | .source text => TagLang.WhileFree text
  | .file _ => True

namespace Session

/-- The machines that a session can leave behind whose steps are without `while`. -/
inductive ReachableWhileFree (w : World) : Machine → Prop
  | fresh (console : Console) (baseDir : Path) :
    ReachableWhileFree w (Machine.fresh console baseDir)
  | step {m : Machine} (n : Nat) {s : Step} (hs : s.WhileFree) (h : ReachableWhileFree w m) :
    ReachableWhileFree w (Run.final (runStep w n s) m)

section

variable {w : World} (hw : ∀ path source, w.library.load path = .ok source → WhileFree source)
include hw

theorem ReachableWhileFree.sane {m : Machine} (h : ReachableWhileFree w m) :
    m.Sane Forest.Tame := by
  induction h with
  | fresh console baseDir => exact fresh_sane Forest.tame_empty console baseDir
  | @step m n s hs _ ih =>
    have hstep : Run.Evolves Forest.Tame (runStep w n s) := by
      refine runStep_evolves (fun path source h => Workshop.keeps_tame (hw path source h)) n ?_
      rintro text rfl
      exact Workshop.keeps_tame hs
    exact (hstep m ih).sane

theorem runSource_halts {m : Machine} (hm : m.Sane Forest.Tame) {text : String}
    (ht : WhileFree text) : Run.Halts (fun n => runSource w n text) m := by
  have hprepare : Run.Plain (prepare false text) :=
    ⟨Run.unbounded_steady.prepare false text, .prepare false (Workshop.keeps_tame ht),
      .prepare false text⟩
  refine Run.HaltsWith.bind (Run.Halts.plain hprepare hm) (fun _ h => h) fun root m₁ h₁ hroot => ?_
  obtain ⟨_, hroot⟩ := hroot
  have hlt : root < m₁.forest.size :=
    Forest.lt_size_of_shape (isRoot_of_prepare hm.good hroot).2.isBody.shape_ne
  have hrun := (haltFrom hw h₁.sane).execute root (Nat.zero_le _) hlt m₁ (.refl h₁.sane)
  exact (hrun.bind fun _ m₂ h₂ => .pure h₂.sane ()).mono fun _ => h₁.trans

theorem runStep_halts {m : Machine} (hm : m.Sane Forest.Tame) {s : Step} (hs : s.WhileFree) :
    Run.HaltsWith (fun n => runStep w n s) m fun _ => True := by
  cases s with
  | source text => exact (runSource_halts hw hm hs).mono fun _ _ => trivial
  | file target =>
    unfold runStep runFile
    dsimp only
    cases hload : w.library.load (w.library.resolve .empty target) with
    | error io => exact (Run.Halts.fail hm 0 (.io io)).mono fun _ _ => trivial
    | ok text =>
      let path := w.library.resolve .empty target
      let m₁ := m.update fun s =>
        { s with baseDir := path.parent?.getD s.baseDir, inserting := path :: s.inserting }
      have hm₁ : m₁.Sane Forest.Tame :=
        ⟨hm.good.of_eq rfl rfl hm.good.registry, hm.forest, hm.on⟩
      have hrun : Run.HaltsWith (fun n => Run.ensuring (runSource w n text) fun s =>
          { s with inserting := s.inserting.tail }) m₁ fun _ => True :=
        .ensuring (runSource_halts hw hm₁ (hw _ text hload)) fun _ _ => trivial
      exact hrun.of_eq fun _ => rfl

end

/-- Every step of a session terminates, if neither the steps nor the files of the library contain
the keyword `while`: from some bound on, the step ends in one and the same way, and not because the
bound was too small. -/
theorem runStep_terminates (w : World)
    (hw : ∀ path source, w.library.load path = .ok source → WhileFree source) {m : Machine}
    (hm : ReachableWhileFree w m) (s : Step) (hs : s.WhileFree) :
    ∃ bound r, (∀ n, bound ≤ n → runStep w n s m = r) ∧ ∀ m', r ≠ .error .outOfFuel m' := by
  obtain ⟨bound, r, hr, hends⟩ := runStep_halts hw (hm.sane hw) hs
  refine ⟨bound, r, hr, ?_⟩
  rintro m' rfl
  exact hends

/-- A file that inserts itself. -/
def selfInserting : String := "insert \"a\";"

/-- A function that calls itself twice and for ever, in a session whose first step has failed in a
file that inserts itself. -/
theorem runStep_terminates_recursion :
    let w : World := ⟨.empty, .constant selfInserting⟩
    let m := Run.final (runStep w 40 (.file "a")) (Machine.fresh { input := [] } .empty)
    let s : Step := .source "fun f(n) { repeat (2) { call f(n + 1); } } call f(0);"
    (match runStep w 40 (.file "a") (Machine.fresh { input := [] } .empty) with
      | .error (.failed ⟨1, .alreadyInserting "a"⟩) _ => true
      | _ => false) = true ∧
    ∃ bound r, (∀ n, bound ≤ n → runStep w n s m = r) ∧ ∀ m', r ≠ .error .outOfFuel m' := by
  intro w m s
  have hw : ∀ path source, w.library.load path = .ok source → WhileFree source := by
    intro path source h
    cases h
    decide +kernel
  have hm : ReachableWhileFree w m := .step 40 (s := .file "a") trivial (.fresh _ _)
  have hs : WhileFree "fun f(n) { repeat (2) { call f(n + 1); } } call f(0);" := by
    decide +kernel
  exact ⟨by decide +kernel, runStep_terminates w hw hm s hs⟩

end Session

end TagLang
