import TagLang.Proofs.Matching

/-!
# What is built on engines that match

`Engine.Matches` relates the machine at a smaller depth to its counterpart.  What both build on it
in the same way matches: expressions, calls and the values of nodes, assignments, names, and
inserted files (`..._matches`).
-/

namespace TagLang

open Machine

/-! ### Reducing expressions -/

namespace Sequence

variable {operand operand' : Operand → Run Value}
  (ho : ∀ m m' : Machine, Ready m m' → ∀ o : Operand, o.Fits m.forest →
    Run.Agrees (operand o) (operand' o) m m')
include ho

theorem reduceRest_matches {rest : List ((Operator × Nat) × Operand)} {values : List Value}
    {waiting : List (Operator × Nat)} {m m' : Machine} (hm : Ready m m')
    (hrest : ∀ p ∈ rest, p.1.1.isBinary = true ∧ p.2.Fits m.forest)
    (hb : Balanced values waiting) :
    Run.Agrees (reduceRest operand rest values waiting) (reduceRest operand' rest values waiting)
      m m' := by
  induction rest generalizing values waiting m m' with
  | nil =>
    rw [reduceRest, reduceRest]
    refine (Run.Matches.ofExcept hm (unwind_applies 0 hb)).bind ?_
    rintro ⟨values, _⟩ _ m₁ m₁' ha hr ⟨rfl, hbal⟩
    cases values with
    | nil => exact absurd hbal.1 (by simp)
    | cons v rest => exact .pure hr rfl
  | cons next rest ih =>
    obtain ⟨⟨op, line⟩, o⟩ := next
    obtain ⟨hop, hfit⟩ := hrest _ (List.mem_cons_self ..)
    rw [reduceRest, reduceRest]
    refine (Run.Matches.ofExcept hm (unwind_applies op.precedence hb)).bind ?_
    rintro ⟨values, waiting⟩ _ m₁ m₁' ha₁ hr₁ ⟨rfl, hbal⟩
    refine (ho m₁ m₁' hr₁ o (ha₁.le.operand hfit)).bind ?_
    rintro v _ m₂ m₂' ha₂ hr₂ rfl
    refine ih hr₂ (fun p hp => ?_) ⟨?_, fun p hp => ?_⟩
    · obtain ⟨hp₁, hp₂⟩ := hrest p (List.mem_cons_of_mem _ hp)
      exact ⟨hp₁, (ha₁.trans ha₂).le.operand hp₂⟩
    · exact congrArg (· + 1) hbal.1
    · rcases List.mem_cons.mp hp with rfl | hp
      · exact hop
      · exact hbal.2 p hp

/-- A well-formed expression is reduced without missing or misplaced operands and operators. -/
theorem reduce_matches {s : Sequence} {m m' : Machine} (hm : Ready m m') (hs : s.Fits m.forest) :
    Run.Agrees (s.reduce operand) (s.reduce operand') m m' := by
  unfold reduce
  split
  · exact .pure hm rfl
  next first rest hops =>
    have hfit : ∀ o ∈ first :: rest, o.Fits m.forest := hops ▸ hs.operands
    refine (ho m m' hm first (hfit first (List.mem_cons_self ..))).bind ?_
    rintro v _ m₁ m₁' ha hr rfl
    refine reduceRest_matches ho hr (fun p hp => ?_) ⟨rfl, fun p hp => by cases hp⟩
    obtain ⟨h₁, h₂⟩ := List.of_mem_zip hp
    exact ⟨hs.operators p.1 h₁, ha.le.operand (hfit p.2 (List.mem_cons_of_mem _ h₂))⟩

end Sequence

/-! ### Calls and nodes -/

/-- The machine at a smaller depth and its counterpart match where they are used. -/
structure Engine.Matches (e e' : Engine) : Prop where
  execute : ∀ m m' : Machine, Ready m m' → ∀ id, m.forest.IsRoot id →
    Run.Agrees (e.execute id) (e'.execute id) m m'
  force : ∀ m m' : Machine, Ready m m' → ∀ id, m.forest.IsBody id →
    Run.Agrees (e.force id) (e'.force id) m m'
  eval : ∀ m m' : Machine, Ready m m' → ∀ s : Sequence, s.Fits m.forest →
    Run.Agrees (e.eval s) (e'.eval s) m m'

namespace Engine

variable {e e' : Engine} {m m' : Machine}

theorem lookup_matches (hm : Ready m m') (name : String) (line : Nat) :
    Run.Agrees (lookup name line) (lookup name line) m m' := by
  unfold lookup
  refine .look_bind hm (fun _ => rfl) ?_
  split
  · exact .pure hm rfl
  · exact .fail hm rfl Category.noConfusion

theorem prefixed_matches (hm : Ready m m') (line : Nat) (v : Value) {ops : List Operator}
    (ho : ∀ op ∈ ops, op.isPrefix = true) :
    Run.Agrees (prefixed line v ops) (prefixed line v ops) m m' := by
  induction ops with
  | nil => exact .pure hm rfl
  | cons op ops ih =>
    rw [prefixed]
    refine (ih fun o h => ho o (List.mem_cons_of_mem _ h)).bind ?_
    rintro v _ m₁ m₁' ha hr rfl
    have hop : op = .sub ∨ op = .not := by
      have h := ho op (List.mem_cons_self ..)
      cases op <;> first | exact .inl rfl | exact .inr rfl | cases h
    have hsound : Moment.Sound ⟨.applies op, m₁.toSituation⟩ := ⟨hr.good.inForest, hop⟩
    exact .note_bind hr hsound fun m₂ m₂' ha' hr' _ => .orFault hr' (.unary op v)

theorem callHost_matches (hm : Ready m m') (f : HostFunction) (args : List Value) (line : Nat) :
    Run.Agrees (callHost f args line) (callHost f args line) m m' := by
  have hresult (hargs : ∀ n, f.arity = some n → args.length = n) :
      Run.Agrees (callHost.result f args line) (callHost.result f args line) m m' := by
    unfold callHost.result
    have hsound : Moment.Sound ⟨.asks f args, m.toSituation⟩ := ⟨hm.good.inForest, hargs⟩
    refine .note_bind hm hsound fun m₁ m₁' ha hr _ => ?_
    split
    · exact .pure hr rfl
    · exact .fail hr rfl Category.noConfusion
  unfold callHost
  split
  next n hn =>
    split
    · exact .fail hm rfl Category.noConfusion
    next hlen =>
      refine hresult fun k hk => ?_
      rw [hn] at hk
      cases hk
      exact (Decidable.not_not.mp hlen).symm
  next hn =>
    refine hresult fun k hk => ?_
    rw [hn] at hk
    cases hk

theorem beginCall_fits {f : Forest} {r : Registry} (h : r.Fits f) (g : Function) :
    (beginCall g r).Fits f :=
  (h.setResult _ _).pushFrame _

theorem parameters_fits {f : Forest} {r : Registry} (h : r.Fits f) (g : Function)
    (args : List Value) : (r.bindLocals (parameters g args)).Fits f := by
  refine parameters_induct (P := Registry.Fits f) g args h ?_
  exact fun r param arg hr => hr.bindLocal param (.ofVariable f arg none)

theorem enterCall_fits {f : Forest} {r : Registry} (h : r.Fits f) (g : Function)
    (args : List Value) : (enterCall g args r).Fits f :=
  parameters_fits (beginCall_fits h g) g args

theorem duringCall_matches (hm : Ready m m') (f : Function) (args : List Value) {x y : Run Flow}
    (hxy : ∀ m₁ m₁', Advances m m₁ → Ready m₁ m₁' → Run.Agrees x y m₁ m₁') :
    Run.Agrees (duringCall f args x) (duringCall f args y) m m' := by
  unfold duringCall
  refine .note_bind hm ⟨hm.good.inForest, trivial⟩ fun m₁ m₁' ha₁ hr₁ _ => ?_
  refine .change_bind hr₁ (by exact ⟨fun _ => rfl, fun _ => rfl, fun _ => rfl⟩)
    (hr₁.good.of_eq rfl rfl (beginCall_fits hr₁.good.registry f)) fun m₂ m₂' ha₂ hr₂ => ?_
  refine .make_bind hr₂ _ (.onRegistry _)
    (hr₂.good.onRegistry (parameters_fits hr₂.good.registry f args)) fun m₃ m₃' ha₃ hr₃ => ?_
  have ha : Advances m m₃ := (ha₁.trans ha₂).trans ha₃
  refine (hxy m₃ m₃' ha hr₃).ensuring ⟨fun _ => rfl, fun _ => rfl, fun _ => rfl⟩ ?_
  exact fun m₄ m₄' _ hr₄ => hr₄.good.of_eq rfl rfl hr₄.good.registry.popFrame

variable (he : e.Matches e')
include he

theorem evalAll_matches (hm : Ready m m') {values : List Sequence}
    (hs : ∀ s ∈ values, s.Fits m.forest) :
    Run.Agrees (e.evalAll values) (e'.evalAll values) m m' := by
  induction values generalizing m m' with
  | nil => exact .pure hm rfl
  | cons s rest ih =>
    rw [evalAll, evalAll]
    refine (he.eval m m' hm s (hs s (List.mem_cons_self ..))).bind ?_
    rintro v _ m₁ m₁' ha hr rfl
    refine (ih hr fun t ht => ha.le.sequence (hs t (List.mem_cons_of_mem _ ht))).bind ?_
    rintro vs _ m₂ m₂' _ hr₂ rfl
    exact .pure hr₂ rfl

theorem input_matches (hm : Ready m m') {prompt : Sequence} (hs : prompt.Fits m.forest)
    (line : Nat) : Run.Agrees (e.input prompt line) (e'.input prompt line) m m' := by
  have hprompt : Run.Agrees (e.showPrompt prompt line) (e'.showPrompt prompt line) m m' := by
    unfold showPrompt
    split
    · exact .pure hm rfl
    · refine (he.eval m m' hm prompt hs).bind ?_
      rintro v _ m₁ m₁' _ hr₁ rfl
      exact (Run.Matches.write hr₁ line _).bind fun _ _ m₂ m₂' _ hr₂ _ => .flush hr₂ line
  unfold input
  refine hprompt.bind fun _ _ m₁ m₁' _ hr₁ _ => (Run.Matches.readLine hr₁ line).bind ?_
  rintro s _ m₂ m₂' _ hr₂ rfl
  exact .pure hr₂ rfl

theorem callScript_matches (hm : Ready m m') {f : Function} (hf : m.forest.IsBody f.body)
    (args : List Value) (line : Nat) :
    Run.Agrees (e.callScript f args line) (e'.callScript f args line) m m' := by
  unfold callScript
  split
  · exact .fail hm rfl Category.noConfusion
  · refine .look_bind hm (fun _ => rfl) ?_
    split
    · exact .fail hm rfl Category.noConfusion
    · refine (duringCall_matches hm f args fun m₁ m₁' ha hr =>
        he.force m₁ m₁' hr _ (ha.le.isBody hf)).bind ?_
      rintro flow _ m₁ m₁' _ hr rfl
      cases flow with
      | completed => exact .pure hr rfl
      | break_ => exact .pure hr rfl
      | return_ v => exact .pure hr rfl

theorem invoke_matches (hm : Ready m m') (name : String) {args : List Sequence}
    (hs : ∀ s ∈ args, s.Fits m.forest) (line : Nat) :
    Run.Agrees (e.invoke name args line) (e'.invoke name args line) m m' := by
  unfold invoke
  refine .look_bind hm (fun _ => rfl) ?_
  split
  · exact .fail hm rfl Category.noConfusion
  next b hb =>
    split
    next f hk =>
      have hf : m.forest.IsBody f.body := hm.good.registry.bound name b hb f hk
      refine (evalAll_matches he hm hs).bind ?_
      rintro values _ m₁ m₁' ha hr rfl
      exact callScript_matches he hr (ha.le.isBody hf) values line
    next f _ =>
      refine (evalAll_matches he hm hs).bind ?_
      rintro values _ m₁ m₁' _ hr rfl
      exact callHost_matches hr f values line
    · exact .fail hm rfl Category.noConfusion

/-- A node that has a value is asked for it. -/
theorem nodeValue_matches (hm : Ready m m') {id : NodeId} (hid : m.forest.HasValue id) :
    Run.Agrees (e.nodeValue id) (e'.nodeValue id) m m' := by
  unfold nodeValue
  refine .note_bind hm (hm.good.evaluates hid) fun m₁ m₁' ha hr _ => ?_
  refine .look_bind hr (fun _ => rfl)
    (.look_bind hr (fun _ => rfl) (.look_bind hr (fun _ => rfl) ?_))
  have hid' : m₁.forest.HasValue id := ha.le.hasValue hid
  have hfit := hr.good.forest.sound id
  unfold Forest.HasValue at hid'
  generalize m₁.forest.shape id = shape at hid' hfit ⊢
  cases shape with
  | leaf =>
    dsimp only at hid' ⊢
    generalize m₁.forest.kind id = kind at hid' ⊢
    cases kind with
    | literal v => exact .pure hr rfl
    | reference name => exact lookup_matches hr name _
    | _ => cases hid'
  | groups values =>
    cases values with
    | nil => exact .pure hr rfl
    | cons s rest => exact he.eval m₁ m₁' hr s (hfit.2 s (List.mem_cons_self ..))
  | array values =>
    refine (evalAll_matches he hr hfit.2).bind ?_
    rintro vs _ m₂ m₂' _ hr₂ rfl
    exact .pure hr₂ rfl
  | call name args => exact invoke_matches he hr name hfit.2 _
  | input prompt => exact input_matches he hr hfit.2 _
  | convert target value =>
    refine (he.eval m₁ m₁' hr value hfit.2).bind ?_
    rintro v _ m₂ m₂' _ hr₂ rfl
    exact .orFault hr₂ (.convert target v)
  | _ => cases hid'

theorem subscripted_matches (hm : Ready m m') (line : Nat) (v : Value) {ids : List NodeId}
    (hs : ∀ id ∈ ids, ∃ index, m.forest.shape id = .array [index]) :
    Run.Agrees (e.subscripted line v ids) (e'.subscripted line v ids) m m' := by
  induction ids generalizing m m' v with
  | nil => exact .pure hm rfl
  | cons id rest ih =>
    obtain ⟨index, hi⟩ := hs id (List.mem_cons_self ..)
    have hfit := hm.good.forest.sound id
    rw [hi] at hfit
    rw [subscripted, subscripted]
    refine .look_bind hm (fun _ => rfl) ?_
    rw [hi]
    refine (he.eval m m' hm index (hfit.2 index (List.mem_singleton_self _))).bind ?_
    rintro i _ m₁ m₁' ha₁ hr₁ rfl
    refine (Run.Matches.orElement hr₁ line _).bind ?_
    rintro element _ m₂ m₂' ha₂ hr₂ rfl
    refine ih hr₂ element fun x hx => ?_
    obtain ⟨index', hx'⟩ := hs x (List.mem_cons_of_mem _ hx)
    refine ⟨index', ?_⟩
    rw [(ha₁.trans ha₂).le.shape_eq x (by rw [hx']; exact Shape.noConfusion), hx']

theorem operand_matches (hm : Ready m m') {o : Operand} (ho : o.Fits m.forest) :
    Run.Agrees (e.operand o) (e'.operand o) m m' := by
  unfold operand
  refine .look_bind hm (fun _ => rfl) ?_
  refine (nodeValue_matches he hm ho.node).bind ?_
  rintro v _ m₁ m₁' ha₁ hr₁ rfl
  refine (subscripted_matches he hr₁ _ v (ha₁.le.operand ho).subscripts).bind ?_
  rintro v _ m₂ m₂' _ hr₂ rfl
  exact prefixed_matches hr₂ _ v ho.prefixes

theorem condition_matches (hm : Ready m m') {id : NodeId} (hid : m.forest.HasValue id)
    (line : Nat) : Run.Agrees (e.condition id line) (e'.condition id line) m m' := by
  unfold condition
  refine (nodeValue_matches he hm hid).bind ?_
  rintro v _ m₁ m₁' _ hr rfl
  split
  · exact .pure hr rfl
  · exact .fail hr rfl Category.noConfusion

/-! ### Assignments -/

omit he in
theorem assign_matches (hm : Ready m m') (name : String) (v : Value) (line : Nat) :
    Run.Agrees (assign name v line) (assign name v line) m m' := by
  unfold assign
  refine .look_bind hm (fun _ => rfl) ?_
  split
  next r hr =>
    refine .note_bind hm ⟨hm.good.inForest, trivial⟩ fun m₁ m₁' _ hr₁ hs₁ => ?_
    have hfit : r.Fits m₁.forest := by
      rw [hs₁]
      exact hm.good.registry.assign hr
    exact .change hr₁ ⟨fun _ => rfl, fun _ => rfl, fun _ => rfl⟩ (hr₁.good.of_eq rfl rfl hfit)
  · exact .fail hm rfl Category.noConfusion
  · exact .fail hm rfl Category.noConfusion

omit he in
theorem bindNew_matches (hm : Ready m m') (id : NodeId) (name : String) (v : Value) :
    Run.Agrees (bindNew id name v) (bindNew id name v) m m' := by
  unfold bindNew
  refine .make hm _ (.onRegistry _) (hm.good.onRegistry ?_)
  split
  · exact hm.good.registry.bindLocal name (.ofVariable _ v _)
  · exact hm.good.registry.define name (.ofVariable _ v _)

omit he in
theorem declare_matches (hm : Ready m m') (id : NodeId) (name : String) (v : Value) (line : Nat) :
    Run.Agrees (declare id name v line) (declare id name v line) m m' := by
  unfold declare
  refine .look_bind hm (fun _ => rfl) ?_
  split
  · exact bindNew_matches hm id name v
  · split
    · split
      · exact bindNew_matches hm id name v
      · exact assign_matches hm name v line
    · exact .fail hm rfl Category.noConfusion

omit he in
theorem combined_matches (hm : Ready m m') (op : Operator) (current rhs : Value) (line : Nat) :
    Run.Agrees (combined op current rhs line) (combined op current rhs line) m m' := by
  unfold combined
  split
  next arithmetic h => exact .orFault hm (.binary (Operator.isBinary_of_compound h) current rhs)
  · exact .pure hm rfl

omit he in
theorem combinedElement_matches (hm : Ready m m') (target : Value) (path : List Value)
    (op : Operator) (rhs : Value) (line : Nat) :
    Run.Agrees (combinedElement target path op rhs line) (combinedElement target path op rhs line)
      m m' := by
  unfold combinedElement
  split
  · refine (Run.Matches.orElement hm line _).bind ?_
    rintro current _ m₁ m₁' _ hr rfl
    exact combined_matches hr op current rhs line
  · exact .pure hm rfl

omit he in
theorem assignElement_matches (hm : Ready m m') (name : String) (path : List Value) (op : Operator)
    (rhs : Value) (line : Nat) :
    Run.Agrees (assignElement name path op rhs line)
      (assignElement name path op rhs line) m m' := by
  unfold assignElement
  refine (lookup_matches hm name line).bind ?_
  rintro target _ m₁ m₁' _ hr₁ rfl
  refine (combinedElement_matches hr₁ target path op rhs line).bind ?_
  rintro v _ m₂ m₂' _ hr₂ rfl
  refine (Run.Matches.orElement hr₂ line _).bind ?_
  rintro target _ m₃ m₃' _ hr₃ rfl
  exact assign_matches hr₃ name target line

theorem runDeclaration_matches (hm : Ready m m') (id : NodeId) (name : String)
    {subscripts : List Sequence} (hsub : ∀ s ∈ subscripts, s.Fits m.forest) (op : Operator)
    {value : Sequence} (hval : value.Fits m.forest) (line : Nat) :
    Run.Agrees (e.runDeclaration id name subscripts op value line)
      (e'.runDeclaration id name subscripts op value line) m m' := by
  unfold runDeclaration
  refine (he.eval m m' hm value hval).bind ?_
  rintro rhs _ m₁ m₁' ha₁ hr₁ rfl
  split
  · refine (evalAll_matches he hr₁ (ha₁.le.sequences hsub)).bind ?_
    rintro path _ m₂ m₂' _ hr₂ rfl
    exact assignElement_matches hr₂ name path op rhs line
  · split
    · refine (lookup_matches hr₁ name line).bind ?_
      rintro current _ m₂ m₂' _ hr₂ rfl
      refine (combined_matches hr₂ op current rhs line).bind ?_
      rintro v _ m₃ m₃' _ hr₃ rfl
      exact assign_matches hr₃ name v line
    · exact declare_matches hr₁ id name rhs line

/-! ### Names -/

omit he in
theorem answer_matches (hm : Ready m m') (function : String) (v : Value) :
    Run.Agrees (answer function v) (answer function v) m m' := by
  unfold answer
  refine .note_bind hm ⟨hm.good.inForest, trivial⟩ fun m₁ m₁' _ hr₁ _ => ?_
  exact .change hr₁ (.onRegistry _)
    (hr₁.good.onRegistry (hr₁.good.registry.setResult function v))

omit he in
theorem freeNames_matches (hm : Ready m m') (line : Nat) (names : List String) :
    Run.Agrees (freeNames line names) (freeNames line names) m m' := by
  induction names generalizing m m' with
  | nil => exact .pure hm rfl
  | cons name rest ih =>
    rw [freeNames]
    refine .look_bind hm (fun _ => rfl) ?_
    split
    next r hr =>
      refine .change_bind hm (by exact ⟨fun _ => rfl, fun _ => rfl, fun _ => rfl⟩)
        (hm.good.of_eq rfl rfl (hm.good.registry.remove? hr)) fun m₁ m₁' _ hr₁ => ?_
      exact ih hr₁
    · exact .fail hm rfl Category.noConfusion

omit he in
theorem runFree_matches (hm : Ready m m') (names : List String) (line : Nat) :
    Run.Agrees (runFree names line) (runFree names line) m m' :=
  .note_bind hm ⟨hm.good.inForest, trivial⟩ fun _ _ _ hr₁ _ => freeNames_matches hr₁ line names

omit he in
theorem runFreeAll_matches (hm : Ready m m') : Run.Agrees runFreeAll runFreeAll m m' :=
  .change_bind hm (.onRegistry _) (hm.good.onRegistry hm.good.registry.clear) fun _ _ _ hr₁ =>
    .note hr₁ ⟨hr₁.good.inForest, trivial⟩

omit he in
theorem hostBinding_fits (f : Forest) (entry : HostEntry) : (hostBinding entry).Fits f := by
  intro g hg
  cases entry <;> cases hg

omit he in
theorem bindEntries_matches (hm : Ready m m') (nickname : String) (line : Nat)
    (entries : List (String × HostEntry)) :
    Run.Agrees (bindEntries nickname line entries) (bindEntries nickname line entries) m m' := by
  induction entries generalizing m m' with
  | nil => exact .pure hm rfl
  | cons entry rest ih =>
    rw [bindEntries]
    refine .look_bind hm (fun _ => rfl) ?_
    split
    · exact .fail hm rfl Category.noConfusion
    · refine .make_bind hm _ (.onRegistry _)
        (hm.good.onRegistry (hm.good.registry.define _ (hostBinding_fits _ entry.2)))
        fun m₁ m₁' _ hr₁ => ?_
      exact ih hr₁

omit he in
theorem runExtern_matches (w : World) (hm : Ready m m') (source nickname : String) (line : Nat) :
    Run.Agrees (runExtern w source nickname line) (runExtern w source nickname line) m m' := by
  unfold runExtern
  refine .note_bind hm ⟨hm.good.inForest, trivial⟩ fun m₁ m₁' _ hr₁ _ => ?_
  unfold bindModule
  split
  · exact bindEntries_matches hr₁ nickname line _
  · exact .fail hr₁ rfl Category.noConfusion

end Engine

/-! ### Sources -/

/-- What loading makes of a good situation is good. -/
theorem Situation.Good.settle {s : Situation} (h : s.Good) {f : Forest} (hs : s.forest.Sprouts f)
    {inserting : Bool} {seen : List NodeId} {w : Workshop}
    (hl : w.Loads f inserting s.forest.size seen) : (s.settle w).Good := by
  have hle : s.forest.Le w.forest := .trans (.of_sprouts hs) hl.le
  exact ⟨hl.good h.forest hs, hl.registry, fun path root hp => hle.isRoot (h.inserted path root hp)⟩

theorem Machine.Poised.settle {m m' : Machine} (h : Ready m m') {f : Forest}
    (hs : m.forest.Sprouts f) {inserting : Bool} {seen : List NodeId} {w : Workshop}
    (hl : w.Loads f inserting m.forest.size seen) :
    Ready (m.update (Situation.settle w)) (m'.update (Situation.settle w)) where
  good := h.good.settle hs hl
  rest := h.rest.settle h.good hs hl
  plain := congrArg (fun s => (s.settle w).plain) h.plain

theorem Cause.isStructural_of_isOfSource {c : Cause} (h : c.isOfSource = true) :
    c.isStructural = false := by
  cases c with
  | missingOperand _ => cases h
  | emptyExpression => cases h
  | fault fault => cases h
  | _ => rfl

theorem Builder.refusal?_isOfSource {b : Builder} {token : Token} {cause : Cause}
    (h : b.refusal? token = some cause) : cause.isOfSource = true := by
  unfold refusal? at h
  split at h
  · split at h
    · cases h; rfl
    · cases h
  · split at h
    · cases h; rfl
    · cases h
  · cases h

theorem Builder.consumeAll_isOfSource {b : Builder} {tokens : List Token} {failure : Failure}
    (h : (b.consumeAll tokens).2 = some failure) : failure.cause.isOfSource = true := by
  induction tokens generalizing b with
  | nil => cases h
  | cons token rest ih =>
    rw [consumeAll] at h
    split at h
    next cause hc =>
      cases h
      exact refusal?_isOfSource hc
    · exact ih h

theorem Builder.unfinished?_isOfSource {b : Builder} {stop : Option Malformed} {last : Nat}
    {failure : Failure} (h : b.unfinished? stop last = some failure) :
    failure.cause.isOfSource = true := by
  unfold unfinished? at h
  split at h
  · cases h; rfl
  · cases h; rfl
  · cases h

/-- A source is itself to blame for not being read. -/
theorem Forest.parse_isOfSource {f : Forest} {source : String} {failure : Failure}
    (h : (f.parse source).2 = .error failure) : failure.cause.isOfSource = true := by
  unfold parse at h
  dsimp only at h
  split at h
  next failure' hf =>
    cases h
    rcases Option.or_eq_some_iff.mp hf with hf | ⟨_, hf⟩
    · exact Builder.consumeAll_isOfSource hf
    · exact Builder.unfinished?_isOfSource hf
  · cases h

/-- How reading and loading a source ends: with the root of a loaded tree and nothing on the
account, or with a refusal and nothing else on the account. -/
inductive Prepared (inserting : Bool) (m : Machine) :
    EStateM.Result Stop Machine NodeId → EStateM.Result Stop Machine NodeId → Prop
  | ok {root : NodeId} {m₁ m₁' : Machine} (ha : Advances m m₁) (hr : Ready m₁ m₁')
    (hnew : since m m₁ = []) (hroot : m₁.forest.IsRoot root) :
    Prepared inserting m (.ok root m₁) (.ok root m₁')
  | error {failure : Failure} {m₁ m₁' : Machine} (ha : Advances m m₁) (hr : Ready m₁ m₁')
    (hs : failure.cause.isStructural = false)
    (hnew : m.watched = true → ∃ s, since m m₁ = [⟨.refuses inserting failure, s⟩]) :
    Prepared inserting m (.error (.failed failure) m₁) (.error (.failed failure) m₁')

namespace Machine

theorem refuse_prepared {m m₁ m₁' : Machine} (ha : Advances m m₁) (hr : Ready m₁ m₁')
    (hnew : since m m₁ = []) (inserting : Bool) {failure : Failure}
    (hs : failure.cause.isOfSource = true) :
    Prepared inserting m (refuse inserting failure m₁) (refuse inserting failure m₁') := by
  have ha' : Advances m₁ (m₁.record (.refuses inserting failure)) :=
    .record ⟨hr.good.inForest, trivial⟩
  refine .error (ha.trans ha') (hr.record _) (Cause.isStructural_of_isOfSource hs) fun hw => ?_
  refine ⟨m₁.toSituation, ?_⟩
  rw [ha.continues.since_trans ha'.continues, hnew,
    Continues.since_record (ha.continues.watched.trans hw)]
  rfl

theorem load_eq (inserting : Bool) (root : NodeId) (m : Machine) :
    load inserting root m =
      match Workshop.load inserting root ⟨m.forest, m.registry, []⟩ with
      | .ok _ w => .ok () (m.update (Situation.settle w))
      | .error failure w => refuse inserting failure (m.update (Situation.settle w)) := by
  show (match Workshop.load inserting root ⟨m.forest, m.registry, []⟩ with
    | .ok _ w => change (Situation.settle w)
    | .error failure w => do
      change (Situation.settle w)
      refuse inserting failure : Run Unit) m = _
  cases Workshop.load inserting root ⟨m.forest, m.registry, []⟩ <;> rfl

theorem prepare_eq (inserting : Bool) (source : String) (m : Machine) :
    prepare inserting source m =
      match (m.forest.parse source).2 with
      | .error failure =>
        refuse inserting failure (m.update fun s => { s with forest := (m.forest.parse source).1 })
      | .ok root => (load inserting root >>= fun _ => pure root)
        (m.update fun s => { s with forest := (m.forest.parse source).1 }) := by
  show (match (m.forest.parse source).2 with
    | .error failure => refuse inserting failure
    | .ok root => load inserting root >>= fun _ => pure root : Run NodeId)
      (m.update fun s => { s with forest := (m.forest.parse source).1 }) = _
  cases (m.forest.parse source).2 <;> rfl

/-- Loading the tree that a source has grown ends in a good situation. -/
theorem load_prepared {m m' : Machine} (hm : Ready m m') {f : Forest} (hs : m.forest.Sprouts f)
    (inserting : Bool) :
    Prepared inserting m
      ((load inserting m.forest.size >>= fun _ => pure m.forest.size)
        (m.update fun s => { s with forest := f }))
      ((load inserting m.forest.size >>= fun _ => pure m.forest.size)
        (m'.update fun s => { s with forest := f })) := by
  have hl := Workshop.load_loads hm.good.forest hs hm.good.registry inserting
  -- Loading reads the forest and the registry, in which the machines agree.
  have hregistry : m'.registry = m.registry := hm.look fun _ => rfl
  have hload : ∀ k : Machine, k.registry = m.registry →
      load inserting m.forest.size (k.update fun s => { s with forest := f }) =
        match Workshop.load inserting m.forest.size ⟨f, m.registry, []⟩ with
        | .ok _ w => .ok () (k.update (Situation.settle w))
        | .error failure w => refuse inserting failure (k.update (Situation.settle w)) := by
    intro k hk
    rw [← hk]
    exact load_eq inserting m.forest.size (k.update fun s => { s with forest := f })
  have hsettle : ∀ {seen : List NodeId} {w : Workshop},
      w.Loads f inserting m.forest.size seen → Advances m (m.update (Situation.settle w)) :=
    fun h => .update (.trans (.of_sprouts hs) h.le)
  have hm₁ := hload m rfl
  have hm₁' := hload m' hregistry
  cases hw : Workshop.load inserting m.forest.size ⟨f, m.registry, []⟩ with
  | ok _ w =>
    rw [hw] at hl hm₁ hm₁'
    obtain ⟨seen, hseen, hroot⟩ := hl
    rw [Run.bind_of_ok hm₁, Run.bind_of_ok hm₁']
    refine .ok (hsettle hseen) (hm.settle hs hseen) (Continues.since_update ..) ⟨?_, ?_⟩
    · refine Forest.isBody_of_kind hseen.sound ((hseen.loaded _ (Nat.le_refl _)).mpr hroot) ?_
      exact (hseen.kind_eq _).trans hs.kind_root
    · exact (hseen.parent_eq _).trans hs.parent_root
  | error failure w =>
    rw [hw] at hl hm₁ hm₁'
    obtain ⟨⟨seen, hseen⟩, hfail⟩ := hl
    have hrefuse := refuse_prepared (hsettle hseen) (hm.settle hs hseen)
      (Continues.since_update ..) inserting hfail
    rw [Run.bind_of_error hm₁, Run.bind_of_error hm₁']
    exact hrefuse

/-- A source is read and loaded from any good situation. -/
theorem prepare_prepared {m m' : Machine} (hm : Ready m m') (inserting : Bool) (source : String) :
    Prepared inserting m (prepare inserting source m) (prepare inserting source m') := by
  have hs := Forest.parse_sprouts hm.good.forest.wellFormed source
  have hstart := Workshop.Loads.start inserting hm.good.forest hs hm.good.registry
  have hsprout : Advances m (m.update fun s => { s with forest := (m.forest.parse source).1 }) :=
    .update (.of_sprouts hs)
  have hforest : m'.forest = m.forest := hm.look fun _ => rfl
  rw [prepare_eq, prepare_eq, hforest]
  cases hp : (m.forest.parse source).2 with
  | error failure =>
    have hready := hm.settle hs hstart
    refine refuse_prepared hsprout ⟨hready.good, hready.rest, ?_⟩ (Continues.since_update ..)
      inserting (Forest.parse_isOfSource hp)
    exact congrArg (fun s => Situation.plain { s with forest := (m.forest.parse source).1 })
      hm.plain
  | ok root =>
    rw [Forest.parse_root hm.good.forest.wellFormed hp]
    exact load_prepared hm hs inserting

theorem prepare_matches {m m' : Machine} (hm : Ready m m') (source : String) :
    Run.Matches (prepare true source) (prepare true source) m m'
      fun a b m₁ => a = b ∧ m₁.forest.IsRoot a := by
  have h := prepare_prepared hm true source
  generalize hx : prepare true source m = r at h
  generalize hy : prepare true source m' = r' at h
  cases h with
  | ok ha hr _ hroot => exact .ok hx hy ha hr ⟨rfl, hroot⟩
  | error ha hr hs hnew =>
    refine .error hx hy ha hr fun failure hf => ?_
    cases hf
    refine ⟨hs, fun hw _ => ?_⟩
    obtain ⟨s, hsince⟩ := hnew hw
    exact ⟨_, hsince ▸ List.mem_singleton_self _, rfl⟩

end Machine

/-! ### Inserted files -/

namespace Engine

variable {w : World} {e e' : Engine} {m m' : Machine}

theorem inserted_matches (hm : Ready m m') (path : Path) (line : Nat) :
    Run.Matches (inserted w path line) (inserted w path line) m m'
      fun a b m₁ => a = b ∧ m₁.forest.IsRoot a := by
  unfold inserted
  refine .look_bind hm (fun _ => rfl) ?_
  split
  next root hr => exact .pure hm ⟨rfl, hm.good.inserted _ root hr⟩
  · refine .note_bind hm ⟨hm.good.inForest, trivial⟩ fun m₀ m₀' _ hr₀ _ => ?_
    refine (Run.Matches.orIo hr₀ line _).bind ?_
    rintro source _ m₁ m₁' _ hr₁ rfl
    refine (prepare_matches hr₁ source).bind ?_
    rintro root _ m₂ m₂' _ hr₂ ⟨rfl, hroot⟩
    have hgood : Situation.Good
        { m₂.toSituation with inserted := m₂.inserted.insert path.components root } := by
      refine { hr₂.good with inserted := fun p r hp => ?_ }
      rw [Table.get?_insert] at hp
      split at hp
      · cases hp
        exact hroot
      · exact hr₂.good.inserted p r hp
    refine .change_bind hr₂ (by exact ⟨fun _ => rfl, fun _ => rfl, fun _ => rfl⟩) hgood ?_
    exact fun m₃ m₃' ha₃ hr₃ => .pure hr₃ ⟨rfl, ha₃.le.isRoot hroot⟩

theorem duringFile_matches (hm : Ready m m') (path : Path) {x y : Run Flow}
    (hxy : ∀ m₁ m₁', Advances m m₁ → Ready m₁ m₁' → Run.Agrees x y m₁ m₁') :
    Run.Agrees (duringFile path x) (duringFile path y) m m' := by
  unfold duringFile
  refine .look_bind hm (fun _ => rfl) ?_
  refine .change_bind hm (by exact ⟨fun _ => rfl, fun _ => rfl, fun _ => rfl⟩)
    (hm.good.of_eq rfl rfl hm.good.registry) fun m₁ m₁' ha₁ hr₁ => ?_
  refine (hxy m₁ m₁' ha₁ hr₁).ensuring ⟨fun _ => rfl, fun _ => rfl, fun _ => rfl⟩ ?_
  exact fun m₂ m₂' _ hr₂ => hr₂.good.of_eq rfl rfl hr₂.good.registry

variable (he : e.Matches e')
include he

theorem runInserted_matches (hm : Ready m m') (path : Path) (line : Nat) :
    Run.Matches (e.runInserted w path line) (e'.runInserted w path line) m m'
      fun a b _ => a = b ∧ a = .completed := by
  unfold runInserted
  refine .note_bind hm ⟨hm.good.inForest, trivial⟩ fun m₁ m₁' _ hr₁ _ => ?_
  refine (inserted_matches hr₁ path line).bind ?_
  rintro root _ m₂ m₂' _ hr₂ ⟨rfl, hroot⟩
  refine .note_bind hr₂ ⟨hr₂.good.inForest, trivial⟩ fun m₃ m₃' ha₃ hr₃ _ => ?_
  refine (duringFile_matches hr₃ path fun m₄ m₄' ha₄ hr₄ =>
    he.execute m₄ m₄' hr₄ root ((ha₃.trans ha₄).le.isRoot hroot)).bind ?_
  exact fun _ _ m₅ m₅' _ hr₅ _ => .pure hr₅ ⟨rfl, rfl⟩

theorem runInsert_matches (hm : Ready m m') {target : Sequence} (hs : target.Fits m.forest)
    (line : Nat) :
    Run.Matches (e.runInsert w target line) (e'.runInsert w target line) m m'
      fun a b _ => a = b ∧ a = .completed := by
  unfold runInsert
  refine .note_bind hm ⟨hm.good.inForest, trivial⟩ fun m₁ m₁' ha₁ hr₁ _ => ?_
  unfold runTarget
  refine (he.eval m₁ m₁' hr₁ target (ha₁.le.sequence hs)).bind ?_
  rintro v _ m₂ m₂' _ hr₂ rfl
  split
  · exact .fail hr₂ rfl Category.noConfusion
  · refine .look_bind hr₂ (fun _ => rfl) ?_
    unfold runPath
    refine .look_bind hr₂ (fun _ => rfl) ?_
    split
    · exact .fail hr₂ rfl Category.noConfusion
    · split
      · exact .fail hr₂ rfl Category.noConfusion
      · exact runInserted_matches he hr₂ _ line

end Engine

end TagLang
