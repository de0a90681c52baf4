import TagLang.Proofs.Evaluation

/-!
# Switches implement structured control flow

The machine keeps apart the branches of a chain and lets one arm the next by its switch.  The
structured interpreter knows no switches.  At every depth the one mirrors the other
(`Machine.engine_mirrors`).

* `Run.Flows`: a statement of the machine matches one that may jump.
* `Engine.Mirrors`: the machine at a smaller depth matches the structured interpreter there.
* `runStatements_flows`: the invariant of a block.  Between two statements no branch is armed but
  the one that comes next, and an armed branch stands for the rest of its chain.
-/

namespace TagLang

open Machine Structured

/-! ### Statements that match -/

/-- The loop that is left by a `break` ends normally. -/
def Jumps.caught : Except Jump Unit → Except Jump Unit
  | .error .break_ => .ok ()
  | jumped => jumped

/-- The statement and its counterpart end alike. -/
abbrev Run.Flows (x : Run Flow) (y : Jumps Unit) (m m' : Machine) : Prop :=
  Run.Matches x y.run m m' fun flow jumped _ => flow = .ofJump jumped

/-- The loop and its counterpart end alike, once the latter is left by a `break`. -/
abbrev Run.Loops (x : Run Flow) (y : Jumps Unit) (m m' : Machine) : Prop :=
  Run.Matches x y.run m m' fun flow jumped _ => flow = .ofJump (Jumps.caught jumped)

/-- A statement and what comes behind it, unless the statement ends with a jump.  `ends` tells how
the counterpart of both has ended. -/
theorem Run.Flows.bind_of {m m' : Machine} {x : Run Flow} {y : Jumps Unit} {k : Flow → Run Flow}
    {k' : Unit → Jumps Unit} {ends : Except Jump Unit → Flow} (hx : Run.Flows x y m m')
    (hjump : ∀ jump, k (.ofJump (.error jump)) = pure (ends (.error jump)))
    (hk : ∀ m₁ m₁', Advances m m₁ → Ready m₁ m₁' →
      Run.Matches (k .completed) (k' ()).run m₁ m₁' fun flow jumped _ => flow = ends jumped) :
    Run.Matches (x >>= k) (y >>= k').run m m' fun flow jumped _ => flow = ends jumped := by
  rw [ExceptT.run_bind]
  refine hx.bind fun flow jumped m₁ m₁' ha hr hflow => ?_
  subst hflow
  cases jumped with
  | ok _ => exact hk m₁ m₁' ha hr
  | error jump =>
    rw [hjump]
    exact .pure hr rfl

namespace Run.Flows

variable {α β : Type} {m m' : Machine} {x : Run Flow} {y : Jumps Unit}

theorem completed (h : Ready m m') : Run.Flows (pure .completed) (pure ()) m m' :=
  .pure h rfl

theorem fail (h : Ready m m') {line : Nat} {cause : Cause} (hs : cause.isStructural = false)
    (hc : cause.category ≠ .spelling) :
    Run.Flows (Run.fail line cause) (ExceptT.lift (Run.fail line cause)) m m' := by
  rw [Run.Flows, ExceptT.run_lift]
  exact .fail h hs hc

theorem lift_bind {x : Run α} {z : Run β} {Q : α → β → Machine → Prop} {k : α → Run Flow}
    {k' : β → Jumps Unit} (hx : Run.Matches x z m m' Q)
    (hk : ∀ a b m₁ m₁', Advances m m₁ → Ready m₁ m₁' → Q a b m₁ → Run.Flows (k a) (k' b) m₁ m₁') :
    Run.Flows (x >>= k) (ExceptT.lift z >>= k') m m' := by
  rw [Run.Flows, ExceptT.run_bind_lift]
  exact hx.bind hk

theorem look_bind {armed : Option NodeId} (h : Poised armed m m') {g : Situation → α}
    (hg : ∀ s, g s = g s.plain) {k : α → Run Flow} {k' : α → Jumps Unit}
    (hk : Run.Flows (k (g m.toSituation)) (k' (g m.toSituation)) m m') :
    Run.Flows (look g >>= k) (ExceptT.lift (look g) >>= k') m m' := by
  rw [Run.Flows, ExceptT.run_bind_lift]
  exact .look_bind h hg hk

theorem look_right {g : Situation → α} {k' : α → Jumps Unit}
    (hk : Run.Flows x (k' (g m'.toSituation)) m m') :
    Run.Flows x (ExceptT.lift (look g) >>= k') m m' := by
  rw [Run.Flows, ExceptT.run_bind_lift]
  exact .after (.refl m) hk rfl rfl

/-- A statement that always ends normally. -/
theorem lift {x : Run α} {z : Run Unit} {Q : α → Unit → Machine → Prop}
    (hx : Run.Matches x z m m' Q) :
    Run.Flows (x >>= fun _ => pure .completed) (ExceptT.lift z) m m' := by
  have h : Run.Flows (x >>= fun _ => pure .completed) (ExceptT.lift z >>= fun _ => pure ()) m m' :=
    lift_bind hx fun _ _ _ _ _ hr _ => completed hr
  rwa [bind_pure_unit] at h

/-- What ends a statement early ends the block. -/
theorem andThen {k : Flow → Run Flow} {k' : Unit → Jumps Unit} (hx : Run.Flows x y m m')
    (hbreak : k .break_ = pure .break_) (hreturn : ∀ v, k (.return_ v) = pure (.return_ v))
    (hk : ∀ m₁ m₁', Advances m m₁ → Ready m₁ m₁' → Run.Flows (k .completed) (k' ()) m₁ m₁') :
    Run.Flows (x >>= k) (y >>= k') m m' := by
  refine hx.bind_of (fun jump => ?_) hk
  cases jump with
  | break_ => exact hbreak
  | return_ v => exact hreturn v

/-- A statement to the end or to its jump. -/
theorem agrees {l : Level} {id : NodeId} (h : Run.Flows x (l.run id []) m m') :
    Run.Agrees x (l.flow id) m m' := by
  rw [← bind_pure x]
  refine h.bind fun flow jumped m₁ m₁' _ hr hflow => ?_
  exact .pure hr hflow

end Run.Flows

namespace Run.Loops

variable {α β : Type} {m m' : Machine} {x : Run Flow} {y : Jumps Unit}

theorem completed (h : Ready m m') : Run.Loops (pure .completed) (pure ()) m m' :=
  .pure h rfl

theorem lift_bind {x : Run α} {z : Run β} {Q : α → β → Machine → Prop} {k : α → Run Flow}
    {k' : β → Jumps Unit} (hx : Run.Matches x z m m' Q)
    (hk : ∀ a b m₁ m₁', Advances m m₁ → Ready m₁ m₁' → Q a b m₁ → Run.Loops (k a) (k' b) m₁ m₁') :
    Run.Loops (x >>= k) (ExceptT.lift z >>= k') m m' := by
  rw [Run.Loops, ExceptT.run_bind_lift]
  exact hx.bind hk

/-- One pass of a loop. -/
theorem andThen {k : Flow → Run Flow} {k' : Unit → Jumps Unit} (hx : Run.Flows x y m m')
    (hbreak : k .break_ = pure .completed) (hreturn : ∀ v, k (.return_ v) = pure (.return_ v))
    (hk : ∀ m₁ m₁', Advances m m₁ → Ready m₁ m₁' → Run.Loops (k .completed) (k' ()) m₁ m₁') :
    Run.Loops (x >>= k) (y >>= k') m m' := by
  refine hx.bind_of (fun jump => ?_) hk
  cases jump with
  | break_ => exact hbreak
  | return_ v => exact hreturn v

/-- A loop as a statement. -/
theorem untilBreak (h : Run.Loops x y m m') : Run.Flows x (Jumps.untilBreak y) m m' := by
  rw [← bind_pure x]
  refine h.bind fun flow jumped m₁ m₁' _ hr hflow => ?_
  cases jumped with
  | ok _ => exact .pure hr hflow
  | error jump =>
    cases jump with
    | break_ => exact .pure hr hflow
    | return_ v => exact .pure hr hflow

end Run.Loops

/-! ### Loops -/

/-- The machine at a smaller depth matches the structured interpreter there. -/
structure Engine.Mirrors (e : Engine) (l : Level) : Prop where
  execute : ∀ m m' : Machine, Ready m m' → ∀ id, m.forest.IsRoot id →
    Run.Flows (e.execute id) (l.run id []) m m'
  force : ∀ m m' : Machine, Ready m m' → ∀ id, m.forest.IsBody id →
    Run.Flows (e.force id) (l.run id []) m m'
  eval : ∀ m m' : Machine, Ready m m' → ∀ s : Sequence, s.Fits m.forest →
    Run.Agrees (e.eval s) (l.eval s) m m'
  block : ∀ m m' : Machine, Ready m m' → ∀ id, m.forest.IsBody id →
    Run.Flows (e.runBlock (m.forest.children id))
      (l.runAll (m.forest.statements (m.forest.children id))) m m'

namespace Engine

variable {w : World} {e : Engine} {l : Level} {m m' : Machine} (h : e.Mirrors l)
include h

theorem Mirrors.matches : e.Matches l.engine where
  execute m m' hm id hid := (h.execute m m' hm id hid).agrees
  force m m' hm id hid := (h.force m m' hm id hid).agrees
  eval := h.eval

theorem runWhile_loops (hm : Ready m m') {test body : NodeId} (ht : m.forest.HasValue test)
    (hb : m.forest.IsBody body) (line passes : Nat) :
    Run.Loops (e.runWhile test body line passes) (l.whileLoop test body line passes) m m' := by
  induction passes generalizing m m' with
  | zero => exact .outOfFuel hm
  | succ passes ih =>
    rw [runWhile, Level.whileLoop]
    refine .lift_bind (condition_matches h.matches hm ht line) ?_
    rintro holds _ m₁ m₁' ha₁ hr₁ rfl
    cases holds with
    | false => exact .completed hr₁
    | true =>
      refine .andThen (h.force m₁ m₁' hr₁ body (ha₁.le.isBody hb)) rfl (fun _ => rfl) ?_
      intro m₂ m₂' ha₂ hr₂
      have hle := (ha₁.trans ha₂).le
      exact ih hr₂ (hle.hasValue ht) (hle.isBody hb)

theorem runTimes_loops (hm : Ready m m') {body : NodeId} (hb : m.forest.IsBody body) (n : Nat) :
    Run.Loops (e.runTimes body n) (Jumps.times (l.run body []) n) m m' := by
  induction n generalizing m m' with
  | zero => exact .completed hm
  | succ n ih =>
    rw [runTimes, Jumps.times]
    refine .andThen (h.force m m' hm body hb) rfl (fun _ => rfl) fun m₁ m₁' ha hr => ?_
    exact ih hr (ha.le.isBody hb)

theorem runItems_loops (hm : Ready m m') (item : String) {body : NodeId}
    (hb : m.forest.IsBody body) (values : List Value) :
    Run.Loops (e.runItems item body values) (l.forItems item body values) m m' := by
  induction values generalizing m m' with
  | nil => exact .completed hm
  | cons v rest ih =>
    rw [runItems, Level.forItems]
    -- Only the machine tells of the item.
    have hdefine : Run.Agrees (make [(item, .ofVariable v none)] _) _ m m' :=
      .note_left ⟨hm.good.inForest, trivial⟩ fun m₀ _ hs =>
        .change (hm.of_toSituation_eq hs rfl)
          (.onRegistry fun r => r.define item (.ofVariable v none))
          (hs ▸ hm.good.onRegistry (hm.good.registry.define item (.ofVariable _ v none)))
    refine .lift_bind hdefine fun _ _ m₁ m₁' ha₁ hr₁ _ => ?_
    refine .andThen (h.force m₁ m₁' hr₁ body (ha₁.le.isBody hb)) rfl (fun _ => rfl) ?_
    exact fun m₂ m₂' ha₂ hr₂ => ih hr₂ ((ha₁.trans ha₂).le.isBody hb)

omit h in
theorem duringLoop_flows (hm : Ready m m') (item : String) {x : Run Flow} {y : Jumps Unit}
    (hxy : ∀ m₁ m₁', Advances m m₁ → Ready m₁ m₁' → Run.Flows x y m₁ m₁') :
    Run.Flows (duringLoop item x) (ExceptT.mk (duringLoop item y.run)) m m' := by
  unfold duringLoop
  refine .make_bind hm _ (.onRegistry _) (hm.good.onRegistry (hm.good.registry.pushItem item)) ?_
  intro m₁ m₁' ha₁ hr₁
  refine (hxy m₁ m₁' ha₁ hr₁).ensuring (.onRegistry _) fun m₂ m₂' _ hr₂ => ?_
  exact hr₂.good.onRegistry hr₂.good.registry.popItem

theorem runRepeat_flows (hm : Ready m m') {count body : NodeId} (hc : m.forest.HasValue count)
    (hb : m.forest.IsBody body) (line : Nat) :
    Run.Flows (e.runRepeat count body line) (do
      let v ← ExceptT.lift (l.engine.nodeValue count)
      match v.toInt? with
      | some n => Jumps.untilBreak (Jumps.times (l.run body []) n.toInt.toNat)
      | none => ExceptT.lift (Run.fail line (.repeatKind v.kind))) m m' := by
  unfold runRepeat
  refine .lift_bind (nodeValue_matches h.matches hm hc) ?_
  rintro v _ m₁ m₁' ha hr rfl
  cases v.toInt? with
  | some n => exact (runTimes_loops h hr (ha.le.isBody hb) n.toInt.toNat).untilBreak
  | none => exact .fail hr rfl Category.noConfusion

theorem runForeach_flows (hm : Ready m m') (item : String) {collection : Sequence}
    (hs : collection.Fits m.forest) {body : NodeId} (hb : m.forest.IsBody body) (line : Nat) :
    Run.Flows (e.runForeach item collection body line) (do
      match ← ExceptT.lift (l.eval collection) with
      | .array values =>
        ExceptT.mk (duringLoop item (Jumps.untilBreak (l.forItems item body values)).run)
      | v => ExceptT.lift (Run.fail line (.notIterable v.kind))) m m' := by
  unfold runForeach
  refine .lift_bind (h.eval m m' hm collection hs) ?_
  rintro v _ m₁ m₁' ha₁ hr₁ rfl
  cases v with
  | array values =>
    refine duringLoop_flows hr₁ item fun m₂ m₂' ha₂ hr₂ => Run.Loops.untilBreak ?_
    exact runItems_loops h hr₂ item ((ha₁.trans ha₂).le.isBody hb) values
  | _ => exact .fail hr₁ rfl Category.noConfusion

/-! ### Statements -/

theorem runReturn_flows (hm : Ready m m') {value : Sequence} (hs : value.Fits m.forest) :
    Run.Flows (e.runReturn value) (do
      let v ← ExceptT.lift (l.eval value)
      match ← ExceptT.lift (look (·.registry.currentFunction?)) with
      | some function => ExceptT.lift (answer function v)
      | none => pure ()
      throw (.return_ v)) m m' := by
  unfold runReturn
  refine .lift_bind (h.eval m m' hm value hs) ?_
  rintro v _ m₁ m₁' _ hr₁ rfl
  refine .look_bind hr₁ (fun _ => rfl) ?_
  dsimp only
  cases m₁.registry.currentFunction? with
  | none => exact .pure hr₁ rfl
  | some function =>
    refine .lift_bind (answer_matches hr₁ function v) fun _ _ m₂ m₂' _ hr₂ _ => ?_
    exact .pure hr₂ rfl

theorem runInsert_flows (hm : Ready m m') {target : Sequence} (hs : target.Fits m.forest)
    (line : Nat) : Run.Flows (e.runInsert w target line) (do
      let _ ← ExceptT.lift (l.engine.runInsert w target line)) m m' := by
  rw [← bind_pure (e.runInsert w target line)]
  refine .lift_bind (runInsert_matches h.matches hm hs line) ?_
  rintro flow _ m₁ m₁' _ hr ⟨rfl, rfl⟩
  exact .completed hr

omit h in
theorem isStatement_of_isBody {f : Forest} {id : NodeId} (hb : f.IsBody id) : f.IsStatement id := by
  rw [Forest.IsStatement, hb.2]
  trivial

/-- A statement that is not a branch, if what is below it matches. -/
theorem runNode_flows (hm : Ready m m') {id : NodeId} (hid : m.forest.IsStatement id)
    (hb : (m.forest.shape id).isBranch = false) (passes : Nat) (further : List NodeId) :
    Run.Flows (e.runNode w passes id) (l.runStatement w passes id further) m m' := by
  have he := h.matches
  unfold runNode Level.runStatement
  refine .note_left (hm.good.runs hid) fun m₁ ha₁ hs₁ => ?_
  have hr₁ : Ready m₁ m' := hm.of_toSituation_eq hs₁ rfl
  rw [← hs₁] at hid hb
  have hfit := hr₁.good.forest.sound id
  have hvalue : m₁.forest.HasValue id → Run.Flows (e.nodeValue id >>= fun _ => pure .completed)
      (ExceptT.lift (l.engine.nodeValue id) >>= fun _ => pure ()) m₁ m' :=
    fun hv => .lift_bind (nodeValue_matches he hr₁ hv) fun _ _ _ _ _ hr _ => .completed hr
  refine Run.Flows.look_bind hr₁ (fun _ => rfl) ?_
  refine Run.Flows.look_bind hr₁ (fun _ => rfl) ?_
  unfold Forest.IsStatement at hid
  -- What `Fits` says of each shape is what the lemma about it asks for.
  cases hshape : m₁.forest.shape id with
  | branch opening test body chained | else_ body =>
    rw [hshape] at hb
    cases hb
  | unloaded | pair item collection =>
    rw [hshape] at hid
    cases hid
  | leaf =>
    rw [hshape] at hid
    exact hvalue (by rw [Forest.HasValue, hshape]; exact hid)
  | groups values | array values | input prompt | convert target value | call name args =>
    -- A value that stands as a statement is evaluated and dropped.
    exact hvalue (by rw [Forest.HasValue, hshape]; trivial)
  | block =>
    rw [hshape] at hfit
    refine .after (.refl m₁) (h.block m₁ m' hr₁ id ⟨hfit.1, hshape⟩) rfl ?_
    rw [← hr₁.look (g := fun s => s.forest.statements (s.forest.children id)) fun _ => rfl]
    rfl
  | print value =>
    rw [hshape] at hfit
    refine .lift_bind (h.eval m₁ m' hr₁ value hfit.2) ?_
    rintro v _ m₂ m₂' _ hr₂ rfl
    exact .lift (.write hr₂ _ _)
  | declaration name subscripts op value =>
    rw [hshape] at hfit
    exact .lift (runDeclaration_matches he hr₁ id name hfit.2.1 op hfit.2.2.2 _)
  | while_ test body =>
    rw [hshape] at hfit
    exact (runWhile_loops h hr₁ hfit.2.1 hfit.2.2.2 _ passes).untilBreak
  | repeat_ count body =>
    rw [hshape] at hfit
    exact runRepeat_flows h hr₁ hfit.2.1 hfit.2.2.2 _
  | foreach item collection body =>
    rw [hshape] at hfit
    exact runForeach_flows h hr₁ item hfit.2.1 hfit.2.2.2 _
  | break_ => exact .pure hr₁ rfl
  | return_ value =>
    rw [hshape] at hfit
    exact runReturn_flows h hr₁ hfit.2
  | function g => exact .completed hr₁
  | free names => exact .lift (runFree_matches hr₁ names _)
  | freeAll => exact .lift (runFreeAll_matches hr₁)
  | local_ body =>
    rw [hshape] at hfit
    exact h.force m₁ m' hr₁ body hfit.2.2
  | extern_ source nickname => exact .lift (runExtern_matches w hr₁ source nickname _)
  | insert target =>
    rw [hshape] at hfit
    exact runInsert_flows h hr₁ hfit.2 _

end Engine

/-! ### Chains of branches -/

namespace Forest

variable {f : Forest}

theorem isSuppressed_iff {id : NodeId} : f.isSuppressed id = true ↔ f.IsPassedOver id := by
  unfold isSuppressed IsPassedOver
  split
  next hk hs => simp [hk, hs]
  next h => exact ⟨fun hc => (nomatch hc), fun hp => (h hp.1 hp.2).elim⟩

theorem lt_size_of_isFurther {id : NodeId} (h : (f.kind id).isFurther = true) : id < f.size := by
  refine Nat.lt_of_not_le fun hle => ?_
  rw [kind, node_of_size_le hle] at h
  cases h

theorem chains_further {id : NodeId} (h : (f.kind id).isFurther = true) (rest : List NodeId) :
    f.chains (id :: rest) = (id :: (f.chains rest).1, (f.chains rest).2) := by
  rw [chains]
  exact if_pos h

theorem chains_statement {id : NodeId} (h : (f.kind id).isFurther = false) (rest : List NodeId) :
    f.chains (id :: rest) = ([], (id, (f.chains rest).1) :: (f.chains rest).2) := by
  rw [chains]
  exact if_neg (Bool.eq_false_iff.mp h)

theorem statements_further {id : NodeId} (h : (f.kind id).isFurther = true) (rest : List NodeId) :
    f.statements (id :: rest) = f.statements rest := by
  rw [statements, chains_further h, statements]

theorem statements_cons {id : NodeId} (h : (f.kind id).isFurther = false) (rest : List NodeId) :
    f.statements (id :: rest) =
      if f.isSuppressed id then f.statements rest
      else (id, (f.chains rest).1) :: f.statements rest := by
  rw [statements, chains_statement h, List.filter_cons]
  cases f.isSuppressed id <;> rfl

theorem head?_chains (f : Forest) (ids : List NodeId) :
    (f.chains ids).1.head? = ids.head?.filter fun id => (f.kind id).isFurther := by
  cases ids with
  | nil => rfl
  | cons id rest =>
    cases h : (f.kind id).isFurther with
    | true => rw [chains_further h, List.head?_cons, List.head?_cons, Option.filter, if_pos h]
    | false =>
      rw [chains_statement h, List.head?_cons, Option.filter, if_neg (Bool.eq_false_iff.mp h)]
      rfl

/-- A branch is chained to the first one of the further branches behind it. -/
theorem chained_eq_head? (hf : f.WellFormed) {block id : NodeId} {pre rest : List NodeId}
    (hc : f.children block = pre ++ id :: rest) : f.chained id = (f.chains rest).1.head? := by
  rw [chained, siblings_eq hf hc, head?_chains]
  rfl

end Forest

namespace Engine

variable {w : World} {e : Engine} {l : Level} {m m' : Machine} (h : e.Mirrors l)
include h

omit h in
theorem arm_left {α β : Type} {chained : Option NodeId} {on : Bool} {k : Unit → Run α} {y : Run β}
    {Q : α → β → Machine → Prop} (hm : Ready m m')
    (hc : ∀ next, chained = some next → (m.forest.kind next).isFurther = true)
    (hk : ∀ m₁, Advances m m₁ → Poised (if on then chained else none) m₁ m' →
      Run.Matches (k ()) y m₁ m' Q) : Run.Matches (arm chained on >>= k) y m m' Q := by
  cases chained with
  | none =>
    refine .after (.refl m) (hk m (.refl m) ?_) rfl rfl
    cases on <;> exact hm
  | some next =>
    refine .switch_left fun m₁ ha hs => hk m₁ ha ?_
    exact hm.switch_further (hc next rfl) (fun _ hx => nomatch hx) hs

/-- A branch with a condition and the statements behind it.  A further branch disarms itself; then
either its body runs and no branch is armed, or the next branch is armed. -/
theorem runBranch_flows {id test body : NodeId} {opening : Bool} {further : List NodeId}
    {line : Nat} {k : Flow → Run Flow} {k' : Unit → Jumps Unit}
    (hm : Poised (if opening then none else some id) m m')
    (hs : m.forest.shape id = .branch opening test body further.head?)
    (hnext : ∀ next, further.head? = some next → (m.forest.kind next).isFurther = true)
    (hbreak : k .break_ = pure .break_) (hreturn : ∀ v, k (.return_ v) = pure (.return_ v))
    (hdone : ∀ m₁ m₁', Advances m m₁ → Ready m₁ m₁' → Run.Flows (k .completed) (k' ()) m₁ m₁')
    (harmed : ∀ m₁ m₁', Advances m m₁ → Poised further.head? m₁ m₁' →
      Run.Flows (k .completed) (l.runChain further >>= k') m₁ m₁') :
    Run.Flows (e.runBranch id opening test body further.head? line >>= k)
      ((ExceptT.lift (l.engine.condition test line) >>= fun holds =>
        if holds then l.run body [] else l.runChain further) >>= k') m m' := by
  have hfit := hm.good.forest.sound id
  rw [hs] at hfit
  obtain ⟨hkind, htest, ⟨_, hbody⟩, _, _⟩ := hfit
  -- Behind the first step no branch is armed.
  have hself : ∀ {x : Unit → Run Flow} {y : Jumps Unit},
      (∀ m₁, Advances m m₁ → Ready m₁ m' → Run.Flows (x ()) y m₁ m') →
      Run.Flows (arm (if opening then none else some id) false >>= x) y m m' := by
    intro x y hx
    cases opening with
    | true => exact .after (.refl m) (hx m (.refl m) hm) rfl rfl
    | false =>
      refine .switch_left fun m₁ ha hs₁ => hx m₁ ha ?_
      refine hm.switch_further ?_ (fun _ hx => (Option.some.inj hx).symm) hs₁
      rw [hkind]
      rfl
  unfold runBranch
  simp only [bind_assoc]
  refine hself fun m₁ ha₁ hr₁ => ?_
  refine .lift_bind (condition_matches h.matches hr₁ (ha₁.le.hasValue htest) line) ?_
  rintro holds _ m₂ m₂' ha₂ hr₂ rfl
  have ha := ha₁.trans ha₂
  have hnext₂ : ∀ next, further.head? = some next → (m₂.forest.kind next).isFurther = true := by
    intro next hn
    have hk := hnext next hn
    rw [ha.le.kind_eq next (Forest.lt_size_of_isFurther hk)]
    exact hk
  refine arm_left hr₂ hnext₂ fun m₃ ha₃ hp₃ => ?_
  cases holds with
  | true =>
    refine Run.Flows.andThen (h.force m₃ m₂' hp₃ body ((ha.trans ha₃).le.isBody hbody)) hbreak
      hreturn fun m₄ m₄' ha₄ hr₄ => ?_
    exact hdone m₄ m₄' ((ha.trans ha₃).trans ha₄) hr₄
  | false => exact .after (.refl m₃) (harmed m₃ m₂' (ha.trans ha₃) hp₃) rfl rfl

/-- The last branch of a chain and the statements behind it. -/
theorem runElse_flows {id body : NodeId} {k : Flow → Run Flow} {k' : Unit → Jumps Unit}
    (hm : Poised (some id) m m') (hs : m.forest.shape id = .else_ body)
    (hbreak : k .break_ = pure .break_) (hreturn : ∀ v, k (.return_ v) = pure (.return_ v))
    (hdone : ∀ m₁ m₁', Advances m m₁ → Ready m₁ m₁' → Run.Flows (k .completed) (k' ()) m₁ m₁') :
    Run.Flows (e.runElse id body >>= k) (l.run body [] >>= k') m m' := by
  have hfit := hm.good.forest.sound id
  rw [hs] at hfit
  obtain ⟨hkind, ⟨_, hbody⟩, _⟩ := hfit
  unfold runElse
  rw [bind_assoc]
  refine .switch_left fun m₁ ha₁ hs₁ => ?_
  have hr₁ : Ready m₁ m' := by
    refine hm.switch_further ?_ (fun _ hx => (Option.some.inj hx).symm) hs₁
    rw [hkind]
    rfl
  refine Run.Flows.andThen (h.force m₁ m' hr₁ body (ha₁.le.isBody hbody)) hbreak hreturn ?_
  exact fun m₂ m₂' ha₂ hr₂ => hdone m₂ m₂' (ha₁.trans ha₂) hr₂

/-! ### Blocks -/

omit h in
theorem ifSwitchedOn_eq (run : NodeId → Run Flow) (id : NodeId) (m : Machine) :
    ifSwitchedOn run id m = if m.switches.isOn id then run id m else .ok .completed m := by
  show (if m.switches.isOn id then run id else pure .completed : Run Flow) m = _
  split <;> rfl

omit h in
/-- What comes behind a statement of a block. -/
def behind (e : Engine) (rest : List NodeId) : Flow → Run Flow
  | .completed => e.runBlock rest
  | flow => pure flow

omit h in
theorem runBlock_cons (e : Engine) (id : NodeId) (rest : List NodeId) :
    e.runBlock (id :: rest) = e.execute id >>= e.behind rest := by
  rw [runBlock]
  exact bind_congr fun flow => by cases flow <;> rfl

section

variable {run : NodeId → Run Flow} {e₁ : Engine} (he₁ : e₁.execute = ifSwitchedOn run)
  {α : Type} {y : Run α} {Q : Flow → α → Machine → Prop} {id : NodeId} {rest : List NodeId}
include he₁

omit h in
theorem runBlock_off (hoff : m.switches.isOn id = false)
    (hk : Run.Matches (e₁.runBlock rest) y m m' Q) :
    Run.Matches (e₁.runBlock (id :: rest)) y m m' Q := by
  have hrun : e₁.execute id m = .ok .completed m := by
    rw [he₁, ifSwitchedOn_eq, hoff]
    rfl
  refine .after (.refl m) hk ?_ rfl
  rw [runBlock_cons, Run.bind_of_ok hrun, behind]

omit h in
theorem runBlock_on (hon : m.switches.isOn id = true)
    (hk : Run.Matches (run id >>= e₁.behind rest) y m m' Q) :
    Run.Matches (e₁.runBlock (id :: rest)) y m m' Q := by
  have hrun : e₁.execute id m = run id m := by rw [he₁, ifSwitchedOn_eq, hon, if_pos rfl]
  refine .after (.refl m) hk ?_ rfl
  rw [runBlock_cons]
  cases hx : run id m with
  | ok flow m₁ => rw [Run.bind_of_ok hx, Run.bind_of_ok (hrun.trans hx)]
  | error s m₁ => rw [Run.bind_of_error hx, Run.bind_of_error (hrun.trans hx)]

end

end Engine

/-! #### The switch of a statement -/

namespace Machine.Poised

variable {m m' : Machine} {armed : Option NodeId} {f : Forest} {block id : NodeId}

/-- A further branch of a block is off, unless it is armed. -/
theorem isOn_further (hm : Poised armed m m') (hle : f.Le m.forest)
    (hk : (f.kind id).isFurther = true) (hl : f.shape id ≠ .unloaded) :
    m.switches.isOn id = decide (armed = some id) := by
  refine hm.rest.further id ?_ ?_
  · rw [hle.kind_eq id (Forest.lt_size_of_shape hl)]
    exact hk
  · rw [hle.shape_eq id hl]
    exact hl

/-- A statement that is neither a further branch nor passed over is on. -/
theorem isOn_statement (hm : Poised armed m m') (hle : f.Le m.forest) (hf : f.WellFormed)
    (hb : f.kind block = .block) (hc : id ∈ f.children block)
    (hk : (f.kind id).isFurther = false) (hs : f.IsStatement id) :
    m.switches.isOn id = true := by
  obtain ⟨hlt, _, hparent⟩ := (hf.mem_children block id).mp hc
  have hkind := hle.kind_eq id hlt
  refine hm.rest.on id ?_ ?_ fun k hkey => ?_
  · rw [hkind]
    exact hk
  · exact (hle.isStatement hs).not_isPassedOver
  · rw [hle.parent_eq id hlt, hparent, hle.kind_eq block (hparent ▸ hf.parent_lt_size hlt),
      hb] at hkey
    cases hkey

end Machine.Poised

namespace Engine

variable {w : World} {e : Engine} {l : Level} (h : e.Mirrors l) {n : Nat}
include h

/-- A branch that is armed, and the statements behind it. -/
theorem runNode_further_flows {m m' : Machine} {id : NodeId} {further : List NodeId}
    {k : Flow → Run Flow} {k' : Unit → Jumps Unit} (hm : Poised (some id) m m')
    (hid : m.forest.IsStatement id) (hk : (m.forest.kind id).isFurther = true)
    (hchained : m.forest.chained id = further.head?)
    (hbreak : k .break_ = pure .break_) (hreturn : ∀ v, k (.return_ v) = pure (.return_ v))
    (hdone : ∀ m₁ m₁', Advances m m₁ → Ready m₁ m₁' → Run.Flows (k .completed) (k' ()) m₁ m₁')
    (harmed : ∀ m₁ m₁', Advances m m₁ → Poised further.head? m₁ m₁' →
      Run.Flows (k .completed) (l.runChain further >>= k') m₁ m₁') :
    Run.Flows (e.runNode w n id >>= k) (l.runChain (id :: further) >>= k') m m' := by
  unfold runNode
  rw [Level.runChain]
  simp only [bind_assoc]
  refine .note_left (hm.good.runs hid) fun m₁ ha₁ hs₁ => ?_
  have hm₁ : Poised (some id) m₁ m' := hm.of_toSituation_eq hs₁ rfl
  rw [← hs₁] at hid hk hchained
  refine Run.Flows.look_bind hm₁ (fun _ => rfl) ?_
  refine Run.Flows.look_bind hm₁ (fun _ => rfl) ?_
  rcases (hm₁.good.forest.sound id).of_isFurther hid.shape_ne hk with
    ⟨test, body, hs⟩ | ⟨body, hs⟩
  · rw [hs, hchained]
    rw [hchained] at hs
    refine runBranch_flows h hm₁ hs ?_ hbreak hreturn
      (fun m₂ m₂' ha₂ => hdone m₂ m₂' (ha₁.trans ha₂))
      fun m₂ m₂' ha₂ => harmed m₂ m₂' (ha₁.trans ha₂)
    exact fun next hn => (Forest.chained_eq_some (hchained.trans hn)).1
  · rw [hs]
    exact runElse_flows h hm₁ hs hbreak hreturn fun m₂ m₂' ha₂ => hdone m₂ m₂' (ha₁.trans ha₂)

/-- A branch that opens a chain, and the statements behind the chain. -/
theorem runNode_opening_flows {m m' : Machine} {id test body : NodeId} {chained : Option NodeId}
    {further : List NodeId} {k : Flow → Run Flow} {k' : Unit → Jumps Unit} (hm : Ready m m')
    (hs : m.forest.shape id = .branch true test body chained)
    (hchained : m.forest.chained id = further.head?)
    (hbreak : k .break_ = pure .break_) (hreturn : ∀ v, k (.return_ v) = pure (.return_ v))
    (hdone : ∀ m₁ m₁', Advances m m₁ → Ready m₁ m₁' → Run.Flows (k .completed) (k' ()) m₁ m₁')
    (harmed : ∀ m₁ m₁', Advances m m₁ → Poised further.head? m₁ m₁' →
      Run.Flows (k .completed) (l.runChain further >>= k') m₁ m₁') :
    Run.Flows (e.runNode w n id >>= k) (l.runStatement w n id further >>= k') m m' := by
  have hfit := hm.good.forest.sound id
  rw [hs] at hfit
  obtain ⟨_, _, _, rfl, _⟩ := hfit
  have hid : m.forest.IsStatement id := by
    rw [Forest.IsStatement, hs]
    trivial
  have hline : m'.forest.line id = m.forest.line id :=
    hm.look (g := fun s => s.forest.line id) fun _ => rfl
  have hs' : m'.forest.shape id = .branch true test body (m.forest.chained id) :=
    (hm.look (g := fun s => s.forest.shape id) fun _ => rfl).trans hs
  unfold runNode Level.runStatement
  simp only [bind_assoc]
  refine .note_left (hm.good.runs hid) fun m₁ ha₁ hs₁ => ?_
  have hm₁ : Ready m₁ m' := hm.of_toSituation_eq hs₁ rfl
  rw [← hs₁] at hs hs' hline hchained
  refine Run.Flows.look_bind hm₁ (fun _ => rfl) ?_
  refine Run.Flows.look_bind hm₁ (fun _ => rfl) ?_
  rw [hs, Level.runChain]
  simp only [bind_assoc]
  refine Run.Flows.look_right (Run.Flows.look_right ?_)
  rw [hs', hline, hchained]
  rw [hchained] at hs
  refine runBranch_flows h hm₁ hs ?_ hbreak hreturn (fun m₂ m₂' ha₂ => hdone m₂ m₂' (ha₁.trans ha₂))
    fun m₂ m₂' ha₂ => harmed m₂ m₂' (ha₁.trans ha₂)
  exact fun next hn => (Forest.chained_eq_some (hchained.trans hn)).1

/-- A statement of a block that is not a further branch, and what is behind it. -/
theorem runNode_statement_flows {m m' : Machine} {id : NodeId} {further : List NodeId}
    {k : Flow → Run Flow} {k' : Unit → Jumps Unit} (hm : Ready m m')
    (hid : m.forest.IsStatement id) (hk : (m.forest.kind id).isFurther = false)
    (hchained : m.forest.chained id = further.head?)
    (hbreak : k .break_ = pure .break_) (hreturn : ∀ v, k (.return_ v) = pure (.return_ v))
    (hdone : ∀ m₁ m₁', Advances m m₁ → Ready m₁ m₁' → Run.Flows (k .completed) (k' ()) m₁ m₁')
    (harmed : ∀ m₁ m₁', Advances m m₁ → Poised further.head? m₁ m₁' →
      Run.Flows (k .completed) (l.runChain further >>= k') m₁ m₁') :
    Run.Flows (e.runNode w n id >>= k) (l.runStatement w n id further >>= k') m m' := by
  cases hb : (m.forest.shape id).isBranch with
  | false => exact (runNode_flows h hm hid hb n further).andThen hbreak hreturn hdone
  | true =>
    have hfit := hm.good.forest.sound id
    cases hs : m.forest.shape id with
    | branch opening test body chained =>
      rw [hs] at hfit
      cases opening with
      | true => exact runNode_opening_flows h hm hs hchained hbreak hreturn hdone harmed
      | false =>
        rw [hfit.1] at hk
        cases hk
    | else_ body =>
      rw [hs] at hfit
      rw [hfit.1] at hk
      cases hk
    | _ =>
      rw [hs] at hb
      cases hb

/-- The statements of a block from any place on.  With no branch armed, the further branches at that
place are skipped; if the first one is armed, they are the rest of a chain. -/
theorem runStatements_flows {f : Forest} (hf : f.Good) {block : NodeId} (hb : f.IsBody block)
    {e₁ : Engine} (he₁ : e₁.execute = ifSwitchedOn (e.runNode w n)) {l₁ : Level}
    (hl₁ : l₁.run = l.runStatement w n) {pre ids : List NodeId}
    (hc : f.children block = pre ++ ids) :
    (∀ m m', f.Le m.forest → Ready m m' →
      Run.Flows (e₁.runBlock ids) (l₁.runAll (f.statements ids)) m m') ∧
    ∀ m m', f.Le m.forest → Poised (f.chains ids).1.head? m m' →
      Run.Flows (e₁.runBlock ids)
        (l.runChain (f.chains ids).1 >>= fun _ => l₁.runAll (f.statements ids)) m m' := by
  -- Both halves at once: behind a branch that was not taken the second one goes on, behind all
  -- other statements the first.
  induction ids generalizing pre with
  | nil => exact ⟨fun m m' _ hm => .completed hm, fun m m' _ hm => .completed hm⟩
  | cons id rest ih =>
    have hmem : id ∈ f.children block := hc ▸ List.mem_append_right _ (List.mem_cons_self ..)
    have hlt : id < f.size := ((hf.wellFormed.mem_children block id).mp hmem).1
    have hfit := hf.sound block
    rw [hb.2] at hfit
    have hchained : ∀ m : Machine, f.Le m.forest →
        m.forest.chained id = (f.chains rest).1.head? := fun m hle =>
      (hle.chained hf.wellFormed hlt).trans (Forest.chained_eq_head? hf.wellFormed hc)
    have hkind : ∀ m : Machine, f.Le m.forest → m.forest.kind id = f.kind id :=
      fun m hle => hle.kind_eq id hlt
    have hrest : f.children block = (pre ++ [id]) ++ rest := by rw [hc, List.append_cons]
    obtain ⟨ihready, iharmed⟩ := ih hrest
    have hdone : ∀ m : Machine, f.Le m.forest → ∀ m₁ m₁', Advances m m₁ → Ready m₁ m₁' →
        Run.Flows (e₁.runBlock rest) (l₁.runAll (f.statements rest)) m₁ m₁' :=
      fun m hle m₁ m₁' ha => ihready m₁ m₁' (hle.trans ha.le)
    have harmed : ∀ m : Machine, f.Le m.forest → ∀ m₁ m₁', Advances m m₁ →
        Poised (f.chains rest).1.head? m₁ m₁' → Run.Flows (e₁.runBlock rest)
          (l.runChain (f.chains rest).1 >>= fun _ => l₁.runAll (f.statements rest)) m₁ m₁' :=
      fun m hle m₁ m₁' ha => iharmed m₁ m₁' (hle.trans ha.le)
    cases hk : (f.kind id).isFurther with
    | true =>
      have hid : f.IsStatement id := (hfit.2 id hmem).resolve_right
        (Forest.not_isPassedOver_of_isFurther hk)
      rw [Forest.chains_further hk, Forest.statements_further hk]
      refine ⟨fun m m' hle hm => ?_, fun m m' hle hm => ?_⟩
      · exact runBlock_off he₁ (hm.isOn_further hle hk hid.shape_ne) (ihready m m' hle hm)
      · have hon : m.switches.isOn id = true := by
          rw [hm.isOn_further hle hk hid.shape_ne]
          exact decide_eq_true rfl
        refine runBlock_on he₁ hon ?_
        exact runNode_further_flows h hm (hle.isStatement hid) (by rw [hkind m hle, hk])
          (hchained m hle) rfl (fun _ => rfl) (hdone m hle) (harmed m hle)
    | false =>
      have hready : ∀ m m', f.Le m.forest → Ready m m' →
          Run.Flows (e₁.runBlock (id :: rest)) (l₁.runAll (f.statements (id :: rest))) m m' := by
        intro m m' hle hm
        rw [Forest.statements_cons hk]
        rcases hfit.2 id hmem with hid | hpass
        · have hon := hm.isOn_statement hle hf.wellFormed hb.1 hmem hk hid
          rw [if_neg (mt Forest.isSuppressed_iff.mp hid.not_isPassedOver), Level.runAll, hl₁]
          refine runBlock_on he₁ hon ?_
          exact runNode_statement_flows h hm (hle.isStatement hid) (by rw [hkind m hle, hk])
            (hchained m hle) rfl (fun _ => rfl) (hdone m hle) (harmed m hle)
        · rw [if_pos (Forest.isSuppressed_iff.mpr hpass)]
          have hoff := hm.rest.passedOver id (hle.isPassedOver hpass)
          exact runBlock_off he₁ hoff (ihready m m' hle hm)
      refine ⟨hready, fun m m' hle hm => ?_⟩
      -- The statement ends any chain before it, so no branch is armed in front of it.
      rw [Forest.chains_statement hk] at hm ⊢
      exact hready m m' hle hm

end Engine

/-! ### The machine within a bound -/

namespace Machine

variable {m m' : Machine} {run : NodeId → Run Flow} {id : NodeId} {y : Jumps Unit}

theorem ifSwitchedOn_flows (hm : Ready m m') (hid : m.forest.IsRoot id)
    (hrun : Run.Flows (run id) y m m') : Run.Flows (ifSwitchedOn run id) y m m' := by
  have hk := hid.isBody.1
  have hon : m.switches.isOn id = true := by
    refine hm.rest.on id (by rw [hk]; rfl) (Forest.not_isPassedOver_of_kind hk) fun k hkey => ?_
    rw [hid.parent_eq, hk] at hkey
    cases hkey
  refine .after (.refl m) hrun ?_ rfl
  rw [Engine.ifSwitchedOn_eq, hon, if_pos rfl]

/-- A body is switched on and back again, which no statement notices. -/
theorem switchingOn_flows (hm : Ready m m') (hid : m.forest.IsBody id)
    (hrun : ∀ m₁, Advances m m₁ → Ready m₁ m' → Run.Flows (run id) y m₁ m') :
    Run.Flows (switchingOn run id) y m m' := by
  unfold switchingOn
  refine .look_left (.switch_left fun m₁ ha₁ hs₁ => ?_)
  have hr₁ : Ready m₁ m' := hm.switch_block hid.1 (fun _ => rfl) hs₁
  have hlt := Forest.lt_size_of_shape hid.shape_ne
  -- The switch that comes back is on wherever it has to be.
  have hback : ∀ m₂ m₂' : Machine, Advances m₁ m₂ → Ready m₂ m₂' →
      Ready (m₂.update (Situation.switch id (m.switches.isOn id))) m₂' := by
    intro m₂ m₂' ha₂ hr₂
    have hle := (ha₁.trans ha₂).le
    refine hr₂.switch_block ((hle.kind_eq id hlt).trans hid.1) (fun hpar => ?_) rfl
    refine hm.rest.on id (by rw [hid.1]; rfl) (Forest.not_isPassedOver_of_kind hid.1)
      fun k hkey => ?_
    refine hpar k ?_
    rw [hle.parent_eq id hlt, hle.kind_eq _ (hm.good.forest.wellFormed.parent_lt_size hlt), hkey]
  exact (hrun m₁ ha₁ hr₁).ensuring_left (fun _ => rfl) hback

/-- Without fuel a block gets as far as its first statement that is on. -/
theorem runBlock_outOfFuel {e : Engine} {l : Level} {f : Forest} (hf : f.Good) {block : NodeId}
    (hb : f.IsBody block) (he : e.execute = ifSwitchedOn fun _ => throw .outOfFuel)
    (hl : l.run = fun _ _ => ExceptT.lift (throw .outOfFuel)) {ids : List NodeId}
    (hc : ∀ id ∈ ids, id ∈ f.children block) (hle : f.Le m.forest) (hm : Ready m m') :
    Run.Flows (e.runBlock ids) (l.runAll (f.statements ids)) m m' := by
  induction ids with
  | nil => exact .completed hm
  | cons id rest ih =>
    have hmem := hc id (List.mem_cons_self ..)
    have hfit := hf.sound block
    rw [hb.2] at hfit
    have hrest := ih fun x hx => hc x (List.mem_cons_of_mem _ hx)
    cases hk : (f.kind id).isFurther with
    | true =>
      have hid : f.IsStatement id := (hfit.2 id hmem).resolve_right
        (Forest.not_isPassedOver_of_isFurther hk)
      rw [Forest.statements_further hk]
      exact Engine.runBlock_off he (hm.isOn_further hle hk hid.shape_ne) hrest
    | false =>
      rw [Forest.statements_cons hk]
      rcases hfit.2 id hmem with hid | hpass
      · rw [if_neg (mt Forest.isSuppressed_iff.mp hid.not_isPassedOver), Level.runAll, hl]
        refine Engine.runBlock_on he (hm.isOn_statement hle hf.wellFormed hb.1 hmem hk hid) ?_
        exact .outOfFuel hm
      · rw [if_pos (Forest.isSuppressed_iff.mpr hpass)]
        exact Engine.runBlock_off he (hm.rest.passedOver id (hle.isPassedOver hpass)) hrest

/-- A body or a root, if what is below it matches. -/
theorem runNode_body_flows {w : World} {e : Engine} {l : Level} (h : e.Mirrors l) {n : Nat}
    (hm : Ready m m') (hid : m.forest.IsBody id) :
    Run.Flows (e.runNode w n id) (l.runStatement w n id []) m m' :=
  Engine.runNode_flows h hm (Engine.isStatement_of_isBody hid) (by rw [hid.2]; rfl) n []

/-- The machine and the structured interpreter match within every bound. -/
theorem engine_mirrors (w : World) (n : Nat) : (engine w n).Mirrors (level w n) := by
  induction n with
  | zero =>
    refine ⟨fun m m' hm id hid => ?_, fun m m' hm id hid => ?_, fun m m' hm s _ => ?_,
      fun m m' hm id hid => ?_⟩
    · exact ifSwitchedOn_flows hm hid (.outOfFuel hm)
    · exact switchingOn_flows hm hid fun m₁ _ hr₁ => .outOfFuel hr₁
    · exact .outOfFuel hm
    · exact runBlock_outOfFuel hm.good.forest hid rfl rfl (fun _ hc => hc) (.refl _) hm
  | succ n ih =>
    refine ⟨fun m m' hm id hid => ?_, fun m m' hm id hid => ?_, fun m m' hm s hs => ?_,
      fun m m' hm id hid => ?_⟩
    · exact ifSwitchedOn_flows hm hid (runNode_body_flows ih hm hid.isBody)
    · exact switchingOn_flows hm hid fun m₁ ha₁ hr₁ =>
        runNode_body_flows ih hr₁ (ha₁.le.isBody hid)
    · exact Sequence.reduce_matches
        (fun m m' hm o ho => Engine.operand_matches ih.matches hm ho) hm hs
    · exact (Engine.runStatements_flows ih hm.good.forest hid rfl rfl (List.nil_append _).symm).1
        m m' (.refl _) hm

end Machine

end TagLang
