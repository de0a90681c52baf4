import TagLang.Proofs.ControlFlow

/-!
# What holds in every session

A session starts on a fresh machine and makes one step after the other, however they end
(`Session.Reachable`).  Between two steps the machine is in a good situation with its switches at
rest (`Session.Reachable.ready`), so every step does what the same step of the structured
interpreter does (`Session.runStep_steps`).

* `execute_eq_structured`: the switches implement structured control flow.
* `runStep_structurally_sound`: loaded programs never go structurally wrong.
-/

namespace TagLang

open Machine

/-! ### Outcomes -/

namespace Run

variable {α : Type} {m m' : Machine}

/-- The result of a computation and the situation that it leaves behind, but for the switches. -/
def outcome (x : Run α) (m : Machine) : Except Stop α × Situation :=
  match x m with
  | .ok a m₁ => (.ok a, m₁.plain)
  | .error s m₁ => (.error s, m₁.plain)

theorem outcome_of_ok {x : Run α} {a : α} (h : x m = .ok a m') :
    outcome x m = (.ok a, m'.plain) := by
  rw [outcome, h]

theorem outcome_of_error {x : Run α} {s : Stop} (h : x m = .error s m') :
    outcome x m = (.error s, m'.plain) := by
  rw [outcome, h]

theorem Matches.outcome_eq {x y : Run α} (h : Run.Agrees x y m m') :
    outcome x m = outcome y m' := by
  cases h with
  | ok hx hy _ hr hq => rw [outcome_of_ok hx, outcome_of_ok hy, hr.plain, hq]
  | error hx hy _ hr _ => rw [outcome_of_error hx, outcome_of_error hy, hr.plain]

theorem Matches.advances {β : Type} {x : Run α} {y : Run β} {Q : α → β → Machine → Prop}
    (h : Run.Matches x y m m' Q) :
    Advances m (final x m) ∧ Ready (final x m) (final y m') := by
  cases h with
  | ok hx hy ha hr _ =>
    rw [final_of_ok hx, final_of_ok hy]
    exact ⟨ha, hr⟩
  | error hx hy ha hr _ =>
    rw [final_of_error hx, final_of_error hy]
    exact ⟨ha, hr⟩

/-- The computation and its counterpart stop because the source of a step is refused, and nothing
else happens. -/
structure Refused (x y : Run Unit) (m m' : Machine) (failure : Failure) (m₁ m₁' : Machine) :
    Prop where
  left : x m = .error (.failed failure) m₁
  right : y m' = .error (.failed failure) m₁'
  advances : Advances m m₁
  ready : Ready m₁ m₁'
  regular : failure.cause.isStructural = false
  since_eq : m.watched = true → ∃ s, since m m₁ = [⟨.refuses false failure, s⟩]

namespace Refused

variable {x y : Run Unit} {failure : Failure} {m₁ m₁' : Machine}

/-- What comes behind a silent advance may start from there. -/
theorem after {m₀ m₀' : Machine} (ha : Advances m₀ m) (hnew : since m₀ m = [])
    (h : Refused x y m m' failure m₁ m₁') {x' y' : Run Unit} (hx : x' m₀ = x m)
    (hy : y' m₀' = y m') : Refused x' y' m₀ m₀' failure m₁ m₁' where
  left := hx.trans h.left
  right := hy.trans h.right
  advances := ha.trans h.advances
  ready := h.ready
  regular := h.regular
  since_eq hw := by
    rw [ha.continues.since_trans h.advances.continues, hnew, List.append_nil]
    exact h.since_eq (ha.continues.watched.trans hw)

theorem ensuring (h : Refused x y m m' failure m₁ m₁') {after : Situation → Situation}
    (hf : Situation.Aside after) (hg : (after m₁.toSituation).Good) :
    Refused (Run.ensuring x after) (Run.ensuring y after) m m' failure (m₁.update after)
      (m₁'.update after) := by
  have ha : Advances m₁ (m₁.update after) := by
    refine .update ?_
    rw [hf.forest]
    exact .refl _
  refine ⟨?_, ?_, h.advances.trans ha, h.ready.update hf hg, h.regular, fun hw => ?_⟩
  · rw [Run.ensuring, h.left]
  · rw [Run.ensuring, h.right]
  · rw [h.advances.continues.since_trans ha.continues, Continues.since_update]
    exact h.since_eq hw

end Refused

/-- The source of a step is refused, or the step matches. -/
def Steps (x y : Run Unit) (m m' : Machine) : Prop :=
  (∃ failure m₁ m₁', Refused x y m m' failure m₁ m₁') ∨ Run.Agrees x y m m'

theorem Steps.outcome_eq {x y : Run Unit} (h : Steps x y m m') : outcome x m = outcome y m' := by
  rcases h with ⟨failure, m₁, m₁', h⟩ | h
  · rw [outcome_of_error h.left, outcome_of_error h.right, h.ready.plain]
  · exact h.outcome_eq

theorem Steps.advances {x y : Run Unit} (h : Steps x y m m') :
    Advances m (final x m) ∧ Ready (final x m) (final y m') := by
  rcases h with ⟨failure, m₁, m₁', h⟩ | h
  · rw [final_of_error h.left, final_of_error h.right]
    exact ⟨h.advances, h.ready⟩
  · exact h.advances

end Run

/-! ### Steps -/

namespace Session

variable {m m' : Machine}

theorem runSource_steps (w : World) (n : Nat) (text : String) (hm : Ready m m') :
    Run.Steps (runSource w n text) (Structured.runSource w n text) m m' := by
  have hp := prepare_prepared hm false text
  unfold runSource Structured.runSource
  generalize hx : prepare false text m = r at hp
  generalize hy : prepare false text m' = r' at hp
  cases hp with
  | @ok root m₁ m₁' ha hr _ hroot =>
    refine .inr (.after ha ?_ (Run.bind_of_ok hx _) (Run.bind_of_ok hy _))
    refine ((engine_mirrors w n).matches.execute m₁ m₁' hr root hroot).bind ?_
    exact fun _ _ m₂ m₂' _ hr₂ _ => .pure hr₂ rfl
  | error ha hr hs hnew =>
    exact .inl ⟨_, _, _, Run.bind_of_error hx _, Run.bind_of_error hy _, ha, hr, hs, hnew⟩

theorem runFile_steps (w : World) (n : Nat) (target : String) (hm : Ready m m') :
    Run.Steps (runFile w n target) (Structured.runFile w n target) m m' := by
  unfold runFile Structured.runFile
  dsimp only
  cases w.library.load (w.library.resolve .empty target) with
  | error io => exact .inr (.fail hm rfl Category.noConfusion)
  | ok text =>
    have hgood : ∀ {s : Situation} {base : Path} {inserting : List Path}, s.Good →
        Situation.Good { s with baseDir := base, inserting } :=
      fun h => h.of_eq rfl rfl h.registry
    have hr := hm.update (f := fun s =>
      { s with
        baseDir := (w.library.resolve .empty target).parent?.getD s.baseDir
        inserting := w.library.resolve .empty target :: s.inserting })
      ⟨fun _ => rfl, fun _ => rfl, fun _ => rfl⟩ (hgood hm.good)
    have ha : Advances m (m.update fun s =>
      { s with
        baseDir := (w.library.resolve .empty target).parent?.getD s.baseDir
        inserting := w.library.resolve .empty target :: s.inserting }) := .update (.refl _)
    rcases runSource_steps w n text hr with ⟨failure, m₁, m₁', h⟩ | h
    · refine .inl ⟨failure, _, _, .after ha (Continues.since_update ..) (h.ensuring ?_ ?_) rfl rfl⟩
      · exact ⟨fun _ => rfl, fun _ => rfl, fun _ => rfl⟩
      · exact hgood h.ready.good
    · refine .inr (.after ha (h.ensuring ?_ fun m₁ m₁' _ hr₁ => hgood hr₁.good) rfl rfl)
      exact ⟨fun _ => rfl, fun _ => rfl, fun _ => rfl⟩

/-- A step and the same step of the structured interpreter. -/
theorem runStep_steps (w : World) (n : Nat) (s : Step) (hm : Ready m m') :
    Run.Steps (runStep w n s) (Structured.runStep w n s) m m' := by
  cases s with
  | source text => exact runSource_steps w n text hm
  | file target => exact runFile_steps w n target hm

/-! ### Reachable machines -/

/-- The machines that a session can leave behind, from the start or from such a machine by one more
step, however the step ends. -/
inductive Reachable (w : World) : Machine → Prop
  | fresh (console : Console) (baseDir : Path) : Reachable w (Machine.fresh console baseDir)
  | step {m : Machine} (n : Nat) (s : Step) (h : Reachable w m) :
    Reachable w (Run.final (runStep w n s) m)

theorem fresh_ready (console : Console) (baseDir : Path) :
    Ready (Machine.fresh console baseDir) (Machine.fresh console baseDir) := by
  have hshape : ∀ id, (Machine.fresh console baseDir).forest.shape id = .unloaded :=
    fun id => Forest.shape_of_size_le (Nat.zero_le id)
  have hpass : ∀ id, ¬ (Machine.fresh console baseDir).forest.IsPassedOver id :=
    fun id hp => nomatch (hshape id).symm.trans hp.2
  have hempty : Registry.empty.Fits .empty :=
    ⟨fun k b hb => (nomatch hb), fun s hs => (nomatch hs)⟩
  refine ⟨⟨⟨.empty, fun id => ?_, fun id hid => absurd (hshape id) hid⟩, ?_, ?_⟩, ⟨?_, ?_, ?_⟩, rfl⟩
  · rw [hshape]
    trivial
  · exact hempty.define "π" fun g hg => nomatch hg
  · exact fun path root hr => nomatch hr
  · exact fun id hp => absurd hp (hpass id)
  · exact fun id _ hl => absurd (hshape id) hl
  · exact fun id _ _ _ => rfl

/-- Between two steps the machine is in a good situation with its switches at rest. -/
theorem Reachable.ready {w : World} (h : Reachable w m) : Ready m m := by
  induction h with
  | fresh console baseDir => exact fresh_ready console baseDir
  | step n s _ ih =>
    have hr := (runStep_steps w n s ih).advances.2
    exact ⟨hr.good, hr.rest, rfl⟩

/-- The switches implement structured control flow.  Any tree that has been loaded, and any step of
a session, ends in the structured interpreter with the same result and in the same situation,
whatever the switches are there. -/
theorem execute_eq_structured (w : World) {m : Machine} (hm : Reachable w m) (n : Nat)
    (switches : Switches) :
    (∀ root, m.forest.shape root = .block → m.forest.parent root = root →
      Run.outcome ((engine w n).execute root) m =
        Run.outcome ((Structured.level w n).flow root) { m with switches }) ∧
    ∀ s, Run.outcome (runStep w n s) m =
      Run.outcome (Structured.runStep w n s) { m with switches } := by
  have hr : Ready m { m with switches } := ⟨hm.ready.good, hm.ready.rest, rfl⟩
  refine ⟨fun root hs hp => ?_, fun s => (runStep_steps w n s hr).outcome_eq⟩
  have hfit := hr.good.forest.sound root
  rw [hs] at hfit
  exact ((engine_mirrors w n).matches.execute m _ hr root ⟨⟨hfit.1, hs⟩, hp⟩).outcome_eq

/-- A function with a chain whose second condition runs the same chain again. -/
def recursiveChain : Step :=
  .source <|
    "fun f(n) {if (n == 0) {return 1;} elif (call f(n - 1) == 1) {return 2;} else {return 3;}} " ++
    "print call f(2);"

/-- A chain is run while one of its own conditions is evaluated, in a session that a failed step has
left behind; the `else` branch of the outer run is taken. -/
theorem execute_eq_structured_recursion :
    let w : World := ⟨.empty, .constant ""⟩
    let m := Run.final (runStep w 40 (.source "print 1 / 0;")) (fresh { input := [] } .empty)
    (Run.final (runStep w 40 recursiveChain) m).console.output.toList = "3\n".toUTF8.toList ∧
    ∀ switches, Run.outcome (runStep w 40 recursiveChain) m =
      Run.outcome (Structured.runStep w 40 recursiveChain) { m with switches } := by
  refine ⟨by decide +kernel, fun switches => ?_⟩
  exact (execute_eq_structured _ (.step 40 _ (.fresh _ _)) 40 switches).2 _

/-- A step has a property that every change has, if it is one of running a tree. -/
theorem runStep_of_execute {P : ⦃α : Type⦄ → Run α → Prop} (h : Steady P) {w : World} {n : Nat}
    (hrun : ∀ root, P ((engine w n).execute root)) (s : Step) : P (runStep w n s) := by
  have hsource : ∀ text, P (runSource w n text) := fun text =>
    h.bind (h.prepare _ _) fun root => h.bind (hrun root) fun _ => h.pure _
  cases s with
  | source text => exact hsource text
  | file target =>
    exact h.bind (h.orIo _ _) fun text => h.bind (h.change _) fun _ =>
      h.ensuring _ (hsource text)

theorem runStep_indifferent {P : ⦃α : Type⦄ → Run α → Prop} (h : Indifferent P) (w : World)
    (n : Nat) (s : Step) : P (runStep w n s) :=
  runStep_of_execute h.toSteady ((h.closed w).engine n).execute s

/-- At every moment of every step of a session, all nodes that anything leads to are in the forest;
only nodes that can be run are run, and only nodes that have a value are asked for it, none of them
passed over or below a node that is; only `-` and `!` are applied in front of an operand; and a
function of the host that takes a number of arguments gets that many.  A step does not fail for a
missing or misplaced operand or operator.  If it fails for the spelling, its own source was refused
and nothing else happened, or a file that it inserts was refused. -/
theorem runStep_structurally_sound (w : World) {m : Machine} (hm : Reachable w m) (n : Nat)
    (s : Step) :
    (∀ t ∈ Run.account (runStep w n s) m, t.Sound) ∧
    (Run.final (runStep w n s) m).InForest ∧
    ∀ failure m', runStep w n s m = .error (.failed failure) m' →
      failure.cause.isStructural = false ∧
      (failure.cause.category = .spelling →
        (∃ t, Run.account (runStep w n s) m = [t] ∧ t.event = .refuses false failure) ∨
        ∃ t ∈ Run.account (runStep w n s) m, t.event = .refuses true failure) := by
  have hblind : Run.Blind (runStep w n s) := runStep_indifferent Run.blind_indifferent w n s
  have hr : Ready m.watch m.watch := hm.ready.of_toSituation_eq rfl rfl
  have hsteps := runStep_steps w n s hr
  have hsince : ∀ {m'}, since m.watch m' = m'.account := Continues.since_eq (List.append_nil _).symm
  refine ⟨fun t ht => hsteps.advances.1.sound t (hsince ▸ ht), ?_, fun failure m' hx => ?_⟩
  · rw [← hblind.final_toSituation]
    exact hsteps.advances.2.good.inForest
  · obtain ⟨m'', hw⟩ := hblind.error_watch hx
    rw [Run.account, Run.final_of_error hw, ← hsince]
    rcases hsteps with ⟨failure', m₁, m₁', h⟩ | h
    · have hleft := h.left
      rw [hw] at hleft
      cases hleft
      obtain ⟨situation, hnew⟩ := h.since_eq rfl
      exact ⟨h.regular, fun _ => .inl ⟨_, hnew, rfl⟩⟩
    · cases h with
      | ok hx' => cases hw.symm.trans hx'
      | error hx' _ _ _ he =>
        cases hw.symm.trans hx'
        obtain ⟨hs, hspell⟩ := he failure rfl
        exact ⟨hs, fun hc => .inr (hspell rfl hc)⟩

/-- A machine behind a source that was refused and has left a half-finished tree. -/
def refusedMachine : Machine :=
  Run.final (runStep ⟨.empty, .constant "if"⟩ 20 (.source "x = 1; if x == \x7b y = 2;"))
    (Machine.fresh { input := [] } .empty)

/-- A step that inserts a file with an error in it, on a forest with a half-finished tree. -/
theorem runStep_structurally_sound_insert :
    Reachable ⟨.empty, .constant "if"⟩ refusedMachine ∧ refusedMachine.forest.size = 11 ∧
    (Run.account (runStep ⟨.empty, .constant "if"⟩ 20 (.source "insert \"a\";"))
      refusedMachine).length = 7 ∧
    ∀ t ∈ Run.account (runStep ⟨.empty, .constant "if"⟩ 20 (.source "insert \"a\";"))
      refusedMachine, t.Sound := by
  have h : Reachable ⟨.empty, .constant "if"⟩ refusedMachine := .step 20 _ (.fresh _ _)
  exact ⟨h, by decide +kernel, by decide +kernel, (runStep_structurally_sound _ h 20 _).1⟩

end Session

end TagLang
