import TagLang.Proofs.Copies

/-!
# What a function gave last

A function's binding has room for one value, which is what its name reads as.  A call empties it
when it begins, and a return statement puts its value there, each by way of what the name stands for
at that moment.  The value of the call itself does not go that way, so the two may differ: a
parameter or a loop item can hide the name from the return statement, and a call without a return
statement leaves what calls and assignments inside it have put there.

* `Run.Delivers`: what a body returns was put under the function's name at the last moment of the
  body.
* `Function.EmptiedLast`: what was put in the slot last is no value, by a call that begins.
* `Session.slot_holds_result`: after a call, the name reads as the value of the call if it stood for
  the function when that value was returned, and as no value if the slot was emptied last.
* `Session.parameter_hides_slot`: a call whose name does not read as its value.
-/

namespace TagLang

open Machine

/-! ### Return statements -/

theorem Registry.currentFunction?_eq (r : Registry) : r.currentFunction? = r.functions.head? := by
  rw [functions, List.head?_map]
  rfl

theorem Machine.Passes.currentFunction?_eq {w : World} {m m' : Machine} (h : m.Passes w m') :
    m'.registry.currentFunction? = m.registry.currentFunction? := by
  rw [Registry.currentFunction?_eq, h.functions, Registry.currentFunction?_eq]

/-- On the way from the first machine to the second a value is kept under the name of a function, as
what it gave, and nothing is told after that. -/
def Machine.Delivered (w : World) (function : String) (v : Value) (m m' : Machine) : Prop :=
  ∃ k : Machine, m.Passes w k ∧
    Leads w (k.move (.told (.answers function))
      (k.toSituation.onRegistry fun r => r.setResult function v)) m' ∧
    m'.account = ⟨.answers function, k.toSituation⟩ :: k.account

namespace Machine.Delivered

variable {w : World} {function : String} {v : Value} {m m₁ m' : Machine}

theorem after (h : m.Passes w m₁) (ha : Delivered w function v m₁ m') :
    Delivered w function v m m' := by
  obtain ⟨k, hk, hleads, haccount⟩ := ha
  exact ⟨k, h.trans hk, hleads, haccount⟩

theorem change (ha : Delivered w function v m m') {f : Situation → Situation}
    (hf : Situation.Change w .silent m'.toSituation (f m'.toSituation)) :
    Delivered w function v m (m'.update f) := by
  obtain ⟨k, hk, hleads, haccount⟩ := ha
  exact ⟨k, hk, hleads.trans (.change hf), haccount⟩

end Machine.Delivered

/-- The statement returns from no call. -/
def Run.Stays (x : Run Flow) : Prop :=
  ∀ m v m', x m ≠ .ok (.return_ v) m'

theorem Run.Stays.bind {α : Type} (x : Run α) {k : α → Run Flow} (hk : ∀ a, Stays (k a)) :
    Stays (x >>= k) := by
  intro m v m' h
  cases hx : x m with
  | ok a m₁ =>
    rw [bind_of_ok hx] at h
    exact hk a m₁ v m' h
  | error s m₁ =>
    rw [bind_of_error hx] at h
    cases h

theorem Run.Stays.stop (s : Stop) : Stays (throw s) := fun _ _ _ h => by cases h

theorem Run.Stays.completed : Stays (pure .completed) := fun _ _ _ h => by cases h

/-- What the statement returns is kept under the name of the function that it returns from, and that
is the last that is told of it. -/
def Run.Delivers (w : World) (x : Run Flow) : Prop :=
  ∀ ⦃m m' : Machine⦄ ⦃v : Value⦄ ⦃function : String⦄, m.watched = true →
    m.registry.currentFunction? = some function → x m = .ok (.return_ v) m' →
    m.Delivered w function v m'

namespace Run.Delivers

variable {w : World} {α : Type}

theorem of_stays {x : Run Flow} (h : Stays x) : Delivers w x :=
  fun m m' v _ _ _ hx => absurd hx (h m v m')

theorem completed : Delivers w (pure .completed) :=
  of_stays .completed

theorem break_ : Delivers w (pure .break_) :=
  of_stays fun _ _ _ h => by cases h

theorem stop (s : Stop) : Delivers w (throw s) :=
  of_stays (.stop s)

theorem after {x : Run α} {k : α → Run Flow} (hx : Run.Passes w x) (hk : ∀ a, Delivers w (k a)) :
    Delivers w (x >>= k) := by
  intro m m' v function hw hf h
  cases hm : x m with
  | ok a m₁ =>
    rw [bind_of_ok hm] at h
    have hpasses := hx m
    rw [final_of_ok hm] at hpasses
    have hf₁ := hpasses.currentFunction?_eq.trans hf
    exact .after hpasses (hk a (hpasses.leads.continues.watched.trans hw) hf₁ h)
  | error s m₁ =>
    rw [bind_of_error hm] at h
    cases h

/-- What comes behind a statement is not run if the statement returns. -/
theorem andThen {x : Run Flow} {k : Flow → Run Flow} (hp : Run.Passes w x) (hx : Delivers w x)
    (hreturn : ∀ v, k (.return_ v) = pure (.return_ v)) (hcompleted : Delivers w (k .completed))
    (hbreak : Delivers w (k .break_)) : Delivers w (x >>= k) := by
  intro m m' v function hw hf h
  have hpasses := hp m
  cases hm : x m with
  | error s m₁ =>
    rw [bind_of_error hm] at h
    cases h
  | ok flow m₁ =>
    rw [final_of_ok hm] at hpasses
    have hw₁ := hpasses.leads.continues.watched.trans hw
    have hf₁ := hpasses.currentFunction?_eq.trans hf
    rw [bind_of_ok hm] at h
    cases flow with
    | completed => exact .after hpasses (hcompleted hw₁ hf₁ h)
    | break_ => exact .after hpasses (hbreak hw₁ hf₁ h)
    | return_ given =>
      rw [hreturn] at h
      cases h
      exact hx hw hf hm

theorem ensuring {x : Run Flow} (hx : Delivers w x) {after : Situation → Situation}
    (hafter : ∀ s, Situation.Change w .silent s (after s)) : Delivers w (Run.ensuring x after) := by
  intro m m' v function hw hf h
  unfold Run.ensuring at h
  cases hm : x m with
  | error s m₁ =>
    rw [hm] at h
    cases h
  | ok flow m₁ =>
    rw [hm] at h
    cases h
    exact (hx hw hf hm).change (hafter _)

end Run.Delivers

/-! ### Statements -/

/-- What the statements of an engine return is kept under the name of the function. -/
structure Engine.Delivers (w : World) (e : Engine) : Prop where
  passes : e.Within (Run.Passes w)
  execute : ∀ id, Run.Delivers w (e.execute id)
  force : ∀ id, Run.Delivers w (e.force id)

namespace Engine.Delivers

variable {w : World} {e : Engine} (he : e.Delivers w)
include he

theorem runReturn (value : Sequence) : Run.Delivers w (e.runReturn value) := by
  refine .after (he.passes.eval value) fun v m m' given function hw hf h => ?_
  rw [Run.look_bind_of_eq hf] at h
  cases h
  refine ⟨m, .refl m, ?_, ?_⟩
  · rw [update_record]
    exact .refl _
  · exact account_record hw _

theorem runBlock (ids : List NodeId) : Run.Delivers w (e.runBlock ids) := by
  induction ids with
  | nil => exact .completed
  | cons id rest ih =>
    rw [Engine.runBlock]
    exact .andThen (he.passes.execute id) (he.execute id) (fun _ => rfl) ih .break_

theorem condition (test : NodeId) (line : Nat) : Run.Passes w (e.condition test line) :=
  (Run.Passes.closed w).condition ((Run.Passes.closed w).values he.passes) test line

theorem nodeValue (id : NodeId) : Run.Passes w (e.nodeValue id) :=
  (Run.Passes.closed w).nodeValue ((Run.Passes.closed w).values he.passes) id

theorem runWhile (test body : NodeId) (line passes : Nat) :
    Run.Delivers w (e.runWhile test body line passes) := by
  induction passes with
  | zero => exact .stop _
  | succ n ih =>
    rw [Engine.runWhile]
    refine .after (he.condition test line) fun holds => ?_
    split
    · exact .andThen (he.passes.force body) (he.force body) (fun _ => rfl) ih .completed
    · exact .completed

theorem runRepeat (count body : NodeId) (line : Nat) :
    Run.Delivers w (e.runRepeat count body line) := by
  have htimes : ∀ times, Run.Delivers w (e.runTimes body times) := by
    intro times
    induction times with
    | zero => exact .completed
    | succ n ih =>
      rw [Engine.runTimes]
      exact .andThen (he.passes.force body) (he.force body) (fun _ => rfl) ih .completed
  unfold Engine.runRepeat
  refine .after (he.nodeValue count) fun v => ?_
  split
  · exact htimes _
  · exact .stop _

theorem runForeach (item : String) (collection : Sequence) (body : NodeId) (line : Nat) :
    Run.Delivers w (e.runForeach item collection body line) := by
  have hitems : ∀ values, Run.Delivers w (e.runItems item body values) := by
    intro values
    induction values with
    | nil => exact .completed
    | cons v rest ih =>
      rw [Engine.runItems]
      have hitem : Run.Passes w (make [(item, .ofVariable v none)] (Situation.onRegistry fun r =>
          r.define item (.ofVariable v none))) := fun m => .changeTelling (.nextItem item v) rfl
      exact .after hitem fun _ =>
        .andThen (he.passes.force body) (he.force body) (fun _ => rfl) ih .completed
  unfold Engine.runForeach
  refine .after (he.passes.eval collection) fun v => ?_
  split
  next values =>
    have hbegin : Run.Passes w (make [(item, .ofVariable .none none)]
        (Situation.onRegistry fun r => r.pushItem item)) :=
      fun m => .changeTelling (.beginLoop item) rfl
    exact .after hbegin fun _ => .ensuring (hitems values) fun s => .endLoop
  · exact .stop _

theorem runBranch (id : NodeId) (opening : Bool) (test body : NodeId) (chained : Option NodeId)
    (line : Nat) : Run.Delivers w (e.runBranch id opening test body chained line) := by
  have harm : ∀ chained on, Run.Passes w (arm chained on) := (Run.Passes.closed w).arm
  unfold Engine.runBranch
  refine .after (harm _ _) fun _ => .after (he.condition test line) fun holds =>
    .after (harm _ _) fun _ => ?_
  split
  · exact he.force body
  · exact .completed

omit he in
/-- What ends a file early ends nothing else. -/
theorem runInsert_stays (target : Sequence) (line : Nat) :
    Run.Stays (e.runInsert w target line) := by
  refine .bind _ fun _ => .bind _ fun v => ?_
  split
  · exact .stop _
  · refine .bind _ fun path => .bind _ fun inserting => ?_
    split
    · exact .stop _
    · split
      · exact .stop _
      · exact .bind _ fun _ => .bind _ fun root => .bind _ fun _ => .bind _ fun _ => .completed

theorem runShape (passes : Nat) (id : NodeId) (line : Nat) (shape : Shape) :
    Run.Delivers w (e.runShape w passes id line shape) := by
  -- Most statements have no statements below them, and do not return.
  have hdone : ∀ x : Run Unit, Run.Delivers w (done x) :=
    fun x => .of_stays (.bind x fun _ => .completed)
  cases shape with
  | block => exact .after (.look _) he.runBlock
  | branch opening test body chained => exact he.runBranch id opening test body chained line
  | else_ body => exact .after ((Run.Passes.closed w).switch id false) fun _ => he.force body
  | while_ test body => exact he.runWhile test body line passes
  | repeat_ count body => exact he.runRepeat count body line
  | foreach item collection body => exact he.runForeach item collection body line
  | return_ value => exact he.runReturn value
  | local_ body => exact he.force body
  | insert target => exact .of_stays (runInsert_stays target line)
  | print value => exact .after (he.passes.eval value) fun v => hdone _
  | declaration | free | freeAll | extern_ => exact hdone _
  | break_ => exact .break_
  | function => exact .completed
  | leaf | groups | array | input | convert | call =>
    exact .after (he.nodeValue id) fun _ => .completed
  | pair | unloaded => exact .after (.look _) fun _ => .stop _

theorem runNode (passes : Nat) (id : NodeId) : Run.Delivers w (e.runNode w passes id) := by
  rw [Engine.runNode_eq]
  exact .after (.note rfl) fun _ => .after (.look _) fun line =>
    .after (.look _) fun shape => he.runShape passes id line shape

end Engine.Delivers

theorem Machine.engine_delivers (w : World) (n : Nat) : (engine w n).Delivers w := by
  have hpasses := (Run.Passes.closed w).engine
  -- A node may be run whether it is switched on or not.
  have hengine : ∀ n, (∀ id, Run.Delivers w (exec w n id)) → (engine w n).Delivers w := by
    intro n hexec
    refine ⟨hpasses n, fun id => .after (.look _) fun on => ?_, fun id => ?_⟩
    · split
      · exact hexec id
      · exact .completed
    · exact .after (.look _) fun was => .after ((Run.Passes.closed w).switch id true) fun _ =>
        .ensuring (hexec id) fun s => .switch id was
  refine hengine n ?_
  induction n with
  | zero => exact fun _ => .stop _
  | succ n ih => exact fun id => (hengine n ih).runNode n id

/-! ### Calls -/

/-- The value of a call whose body ends so. -/
def Flow.value : Flow → Value
  | .return_ v => v
  | .completed | .break_ => .none

/-- A call that comes to an end has run the body of the function. -/
theorem Engine.callScript_eq_ok {e : Engine} {f : Function} {args : List Value} {line : Nat}
    {m m' : Machine} {v : Value} (h : e.callScript f args line m = .ok v m') :
    m.depth < maxCallDepth ∧
      ∃ flow, duringCall f args (e.force f.body) m = .ok flow m' ∧ v = flow.value := by
  unfold callScript at h
  split at h
  · cases h
  · change (if maxCallDepth ≤ m.depth then Run.fail line (.callDepth f.name) else
      duringCall f args (e.force f.body) >>= fun flow => match flow with
        | .return_ v => pure v
        | .completed | .break_ => pure .none : Run Value) m = _ at h
    split at h
    · cases h
    next hdepth =>
      refine ⟨Nat.lt_of_not_le hdepth, ?_⟩
      cases hm : duringCall f args (e.force f.body) m with
      | error s m₁ =>
        rw [Run.bind_of_error hm] at h
        cases h
      | ok flow m₁ =>
        rw [Run.bind_of_ok hm] at h
        cases flow <;> cases h <;> exact ⟨_, rfl, rfl⟩

theorem Engine.duringCall_eq_ok {f : Function} {args : List Value} {x : Run Flow} {m m' : Machine}
    {flow : Flow} (h : duringCall f args x m = .ok flow m') :
    ∃ k, x (m.entered f args) = .ok flow k ∧ m' = k.update fun s =>
      { s with registry := s.registry.popFrame, depth := s.depth - 1 } := by
  change Run.ensuring x _ (m.entered f args) = _ at h
  unfold Run.ensuring at h
  cases hx : x (m.entered f args) with
  | error s k =>
    rw [hx] at h
    cases h
  | ok flow' k =>
    rw [hx] at h
    cases h
    exact ⟨k, rfl, rfl⟩

/-! ### Accounts of calls -/

/-- A call is told of when it begins, and what is told next is one call deeper. -/
theorem Machine.account_of_call {w : World} {n : Nat} {f : Function} {args : List Value}
    {m m' : Machine} {flow : Flow} (hw : m.watched = true)
    (h : Engine.duringCall f args ((engine w n).force f.body) m = .ok flow m') :
    ∃ later u, m'.account = later ++ u :: ⟨.answers f.name, m.toSituation⟩ :: m.account ∧
      u.situation.depth = m.depth + 1 := by
  obtain ⟨k, hbody, rfl⟩ := Engine.duringCall_eq_ok h
  have hcontinues := ((Run.continues_indifferent.closed w).engine n).force f.body (m.entered f args)
  rw [Run.final_of_ok hbody] at hcontinues
  obtain ⟨later, hlater⟩ := hcontinues.account
  rw [account_entered hw] at hlater
  exact ⟨later, _, hlater.symm, rfl⟩

namespace Machine.Leads

variable {w : World} {m m' : Machine}

/-- What is told on the way is told of a change that is made there. -/
theorem split (h : Leads w m m') (hw : m.watched = true) {later earlier : List Moment} {t : Moment}
    (hs : since m m' = later ++ t :: earlier) :
    ∃ k s, Leads w m k ∧ k.toSituation = t.situation ∧ since m k = earlier ∧
      Situation.Change w (.told t.event) k.toSituation s ∧
      Leads w (k.move (.told t.event) s) m' ∧ since (k.move (.told t.event) s) m' = later := by
  induction h generalizing later with
  | refl =>
    rw [Continues.since_self] at hs
    simp at hs
  | @step k label s h hchange hl ih =>
    have htrans : ∀ {k₀ : Machine}, Continues k₀ k →
        since k₀ (k.move label s) = since k (k.move label s) ++ since k₀ k :=
      fun hc => hc.since_trans (continues_move k label s)
    rw [htrans h.continues] at hs
    cases label with
    | start => exact absurd rfl hl
    | silent =>
      have hnil : since k (k.move .silent s) = [] := Continues.since_update k _
      rw [hnil, List.nil_append] at hs
      obtain ⟨k₀, s₀, hbefore, hk₀, hearlier, hchange₀, hafter, hlater⟩ := ih hs
      refine ⟨k₀, s₀, hbefore, hk₀, hearlier, hchange₀, hafter.step hchange hl, ?_⟩
      rw [htrans hafter.continues, hnil, hlater, List.nil_append]
    | told event =>
      have hone : since k (k.move (.told event) s) = [⟨event, k.toSituation⟩] :=
        Continues.since_record (h.continues.watched.trans hw) event
      rw [hone, List.singleton_append] at hs
      cases later with
      | nil =>
        obtain ⟨rfl, rfl⟩ := List.cons.inj hs
        exact ⟨k, s, h, rfl, rfl, hchange, .refl _, Continues.since_self _⟩
      | cons x later =>
        obtain ⟨rfl, hrest⟩ := List.cons.inj hs
        obtain ⟨k₀, s₀, hbefore, hk₀, hearlier, hchange₀, hafter, hlater⟩ := ih hrest
        refine ⟨k₀, s₀, hbefore, hk₀, hearlier, hchange₀, hafter.step hchange hl, ?_⟩
        rw [htrans hafter.continues, hone, hlater, List.singleton_append]

/-- Where nothing is told, no call begins. -/
theorem depth_le (h : Leads w m m') (hw : m.watched = true) (hs : since m m' = []) :
    m'.depth ≤ m.depth := by
  induction h with
  | refl => exact Nat.le_refl _
  | @step k label s h hchange hl ih =>
    rw [h.continues.since_trans (continues_move k label s)] at hs
    obtain ⟨hlast, hbefore⟩ := List.append_eq_nil_iff.mp hs
    refine Nat.le_trans ?_ (ih hbefore)
    rw [toSituation_move]
    cases label with
    | start => exact absurd rfl hl
    | told event =>
      have hone : since k (k.move (.told event) s) = [⟨event, k.toSituation⟩] :=
        Continues.since_record (h.continues.watched.trans hw) event
      rw [hone] at hlast
      cases hlast
    | silent =>
      cases hchange with
      | endCall => exact Nat.sub_le _ _
      | _ => exact Nat.le_refl _

end Machine.Leads

/-! ### Slots -/

theorem Situation.Good.body_lt {s : Situation} (hs : s.Good) {f : Function}
    (hf : s.registry.binds f = true) : f.body < s.forest.size := by
  obtain ⟨b, hb, hof⟩ := Registry.binds_iff.mp hf
  exact Forest.lt_size_of_shape (hs.registry.bound _ b hb f (Binding.isOf_iff.mp hof)).shape_ne

/-- The name of a function reads as the value that all its bindings had. -/
theorem Registry.value?_of_copies {r r' : Registry} {f : Function} {v : Value}
    (hsub : (r'.copies f).Subperm (r.copies f)) (hv : ∀ b ∈ r.copies f, b.value = v)
    (hf : r'.binds f = true) : r'.value? f.name = some v := by
  obtain ⟨b, hb, hof⟩ := binds_iff.mp hf
  rw [value?, hb, Option.map_some, hv b (hsub.subset (mem_copies_of_get? hb hof))]

/-- The last that is put in the slot of a function is no value, by a call that begins: the moment
behind it is one call deeper, and nothing is put there from then on. -/
def Function.EmptiedLast (f : Function) (account : List Moment) : Prop :=
  ∃ later u t earlier, account = later ++ u :: t :: earlier ∧ t.Fills f ∧
    u.situation.depth = t.situation.depth + 1 ∧ ∀ t ∈ later ++ [u], ¬ t.Fills f

section

variable {w : World} {n : Nat} {f : Function} {args : List Value} {flow : Flow} {v : Value}
  {m m' : Machine}

/-- What a change puts in the slot stays there while nothing else is put there. -/
theorem Machine.Leads.value?_of_change {event : Event} {s : Situation} (hw : m.watched = true)
    (hm : m.Good) (hbinds : m.registry.binds f = true)
    (hs : Situation.Change w (.told event) m.toSituation s)
    (hv : ∀ b ∈ s.registry.copies f, b.value = v) (h : Leads w (m.move (.told event) s) m')
    (hn : ∀ t ∈ since (m.move (.told event) s) m', ¬ t.Fills f) (hf : m'.registry.binds f = true) :
    m'.registry.value? f.name = some v := by
  obtain ⟨hgood, hgrown⟩ := hs.good hm
  have hbody : f.body < s.forest.size := Nat.lt_of_lt_of_le (hm.body_lt hbinds) hgrown.size_le
  have hsub := h.copies_subperm ((continues_move m _ _).watched.trans hw) hgood hbody hn
  exact Registry.value?_of_copies hsub hv hf

/-- What is returned while the name stands for the function stays in its slot. -/
theorem Machine.Delivered.value? (h : Delivered w f.name v m m') (hw : m.watched = true)
    (hm : m.Tidy) (hf : m'.registry.binds f = true) :
    ∃ t earlier, m'.account = t :: earlier ∧ t.event = .answers f.name ∧
      (t.situation.registry.binds f = true → m'.registry.value? f.name = some v) := by
  obtain ⟨k, hpasses, hleads, haccount⟩ := h
  refine ⟨_, _, haccount, rfl, fun hbinds => ?_⟩
  have hk : k.Tidy := (hpasses.leads.keeps Situation.Change.tidy hm).1
  have hwatched : k.watched = true := hpasses.leads.continues.watched.trans hw
  refine hleads.value?_of_change hwatched hk.good hbinds (.answer f.name v)
    (fun b hb => Registry.value_of_mem_copies_setResult hbinds (hk.single f) hb) ?_ hf
  -- Nothing is told behind the return statement.
  have hsilent : since (k.move (.told (.answers f.name))
      (k.toSituation.onRegistry fun r => r.setResult f.name v)) m' = [] :=
    Continues.since_eq (haccount.trans (account_record hwatched _).symm)
  rw [hsilent]
  exact fun _ => nofun

/-- A change that fills a slot and goes one call deeper is the beginning of a call, and empties
it. -/
theorem Situation.Change.empties {event : Event} {s s' : Situation}
    (h : Change w (.told event) s s')
    (hs : s.Tidy) (hfills : Moment.Fills f ⟨event, s⟩) (hdepth : s.depth < s'.depth) :
    ∀ b ∈ s'.registry.copies f, b.value = .none := by
  obtain ⟨hit, hbinds⟩ := hfills
  cases h with
  | beginCall g hg =>
    intro b hb
    have hname : g.name = f.name := hit.1
    have hmem : b ∈ (s.registry.setResult g.name .none).copies f := hb
    rw [hname] at hmem
    exact Registry.value_of_mem_copies_setResult hbinds (hs.single f) hmem
  | _ => exact absurd hdepth (Nat.lt_irrefl _)

theorem Machine.Leads.value?_of_emptied (h : Leads w m m') (hw : m.watched = true) (hm : m.Tidy)
    (he : f.EmptiedLast (since m m')) (hf : m'.registry.binds f = true) :
    m'.registry.value? f.name = some .none := by
  obtain ⟨later, u, ⟨event, s⟩, earlier, haccount, hfills, hdepth, hn⟩ := he
  have hsplit : since m m' = (later ++ [u]) ++ ⟨event, s⟩ :: earlier := by simp [haccount]
  obtain ⟨k, s', hbefore, rfl, _, hchange, hafter, hlater⟩ := h.split hw hsplit
  have hk : k.Tidy := (hbefore.keeps Situation.Change.tidy hm).1
  have hwatched : k.watched = true := hbefore.continues.watched.trans hw
  have hmoved : (k.move (.told event) s').watched = true :=
    (continues_move k _ _).watched.trans hwatched
  -- No call begins between the change and the next moment.
  have hnext : u.situation.depth ≤ s'.depth := by
    obtain ⟨k₁, _, hto, hk₁, hsilent, _⟩ := hafter.split hmoved hlater
    rw [← hk₁]
    exact hto.depth_le hmoved hsilent
  refine hafter.value?_of_change hwatched hk.good hfills.2 hchange ?_ (hlater ▸ hn) hf
  refine hchange.empties hk hfills (Nat.lt_of_lt_of_le ?_ hnext)
  rw [hdepth]
  exact Nat.lt_succ_self _

/-- A call that returns ends with the moment at which the value is kept under the name. -/
theorem Machine.value?_of_return (hw : m.watched = true) (hm : m.Tidy)
    (hdepth : m.depth < maxCallDepth)
    (h : Engine.duringCall f args ((engine w n).force f.body) m = .ok (.return_ v) m')
    (hf : m'.registry.binds f = true) :
    ∃ t earlier, m'.account = t :: earlier ∧ t.event = .answers f.name ∧
      (t.situation.registry.binds f = true → m'.registry.value? f.name = some v) := by
  have henter : Leads w m (m.entered f args) := .entered args hdepth
  have hwatched : (m.entered f args).watched = true := henter.continues.watched.trans hw
  have hfunction : (m.entered f args).registry.currentFunction? = some f.name := by
    rw [registry_entered, Registry.currentFunction?_eq, Registry.functions_enterCall]
    rfl
  obtain ⟨k, hbody, rfl⟩ := Engine.duringCall_eq_ok h
  have hdelivered := (engine_delivers w n).force f.body hwatched hfunction hbody
  have hleave : Situation.Change w .silent k.toSituation
    { k.toSituation with registry := k.registry.popFrame, depth := k.depth - 1 } := .endCall
  exact (hdelivered.change hleave).value? hwatched (henter.keeps Situation.Change.tidy hm).1 hf

/-- A call empties the slot when it begins, if the name stands for the function. -/
theorem Machine.emptiedLast_of_call (hw : m.watched = true) (hbinds : m.registry.binds f = true)
    (h : Engine.duringCall f args ((engine w n).force f.body) m = .ok flow m')
    (hn : ∀ t ∈ (since m m').dropLast, ¬ t.Fills f) : f.EmptiedLast (since m m') := by
  obtain ⟨later, u, haccount, hdeeper⟩ := account_of_call hw h
  obtain ⟨b, hb, hof⟩ := Registry.binds_iff.mp hbinds
  have hbegins : Moment.Hits ⟨.answers f.name, m.toSituation⟩ f.name :=
    ⟨rfl, b, hb, Binding.isFunction_of_isOf hof⟩
  have hsince : since m m' = (later ++ [u]) ++ [⟨.answers f.name, m.toSituation⟩] := by
    apply Continues.since_eq
    simp [haccount]
  rw [hsince, List.dropLast_concat] at hn
  exact ⟨later, u, _, [], by simp [hsince], ⟨hbegins, hbinds⟩, hdeeper, hn⟩

end

theorem Engine.lookup_of_value? {m : Machine} {name : String} {v : Value}
    (h : m.registry.value? name = some v) (line : Nat) : lookup name line m = .ok v m := by
  rw [lookup, Run.look_bind_of_eq h]
  rfl

/-! ### Sessions -/

namespace Session

theorem fresh_tidy (w : World) (console : Console) (baseDir : Path) :
    (Machine.fresh console baseDir).Tidy := by
  refine ⟨(Reachable.fresh (w := w) console baseDir).ready.good, fun f => ?_⟩
  have hsub : ((Machine.fresh console baseDir).registry.copies f).Subperm
      (Registry.empty.copies f) := Registry.copies_define _ fun _ => rfl
  exact Nat.le_trans hsub.length_le (Nat.zero_le 1)

/-- In every situation of a session, and whatever the function and its arguments: a call that comes
to an end, with its name standing for the function, ran the body, and its value is what the body
returned or no value.

If the body returned, the last moment of the call is the one at which the value is kept under the
name, and if the name stands for the function at that moment, it reads as the value of the call
afterwards.  If what was put in the slot last is no value, because a call began, the name reads as
no value afterwards, which is the value of a call that does not return; this call is such a call as
well, if the name stands for the function when it begins and nothing is put there from then on. -/
theorem slot_holds_result (w : World) (console : Console) (baseDir : Path)
    (steps : List (Nat × Step)) {m : Machine}
    (hm : m.toSituation ∈ course w steps (Machine.fresh console baseDir)) {n line : Nat}
    {f : Function} {args : List Value} {v : Value} {m' : Machine}
    (hcall : (engine w n).callScript f args line m = .ok v m') (hf : m'.registry.binds f = true) :
    let account := Run.account ((engine w n).callScript f args line) m
    ∃ flow, Engine.duringCall f args ((engine w n).force f.body) m = .ok flow m' ∧
      (match flow with
      | .return_ given => v = given ∧ ∃ t earlier, account = t :: earlier ∧
          t.event = .answers f.name ∧
          (t.situation.registry.binds f = true → ∀ line, Engine.lookup f.name line m' = .ok v m')
      | .completed | .break_ => v = .none) ∧
      (m.registry.binds f = true → (∀ t ∈ account.dropLast, ¬ t.Fills f) →
        f.EmptiedLast account) ∧
      (f.EmptiedLast account → ∀ line, Engine.lookup f.name line m' = .ok .none m') := by
  intro account
  have htidy : m.Tidy := course_keeps Situation.Change.tidy (.fresh console baseDir)
    (fresh_tidy w console baseDir) steps _ hm
  have hclosed := Run.Passes.closed w
  have hblind := Run.blind_indifferent.closed w
  obtain ⟨_, flow, hflow, hv⟩ := Engine.callScript_eq_ok hcall
  -- The account is kept by a watched machine, which ends in the same way.
  obtain ⟨m₁, hcall₁, hsame⟩ := (hblind.callScript (hblind.engine n) f args line).ok_watch hcall
  obtain ⟨hdepth, flow₁, hflow₁, _⟩ := Engine.callScript_eq_ok hcall₁
  obtain ⟨m₂, hflow₂, _⟩ :=
    (Run.blind_indifferent.duringCall f args ((hblind.engine n).force f.body)).ok_watch hflow
  obtain ⟨rfl, rfl⟩ := EStateM.Result.ok.inj (hflow₁.symm.trans hflow₂)
  have haccount : account = m₁.account := by
    show Run.account _ m = _
    rw [Run.account, Run.final_of_ok hcall₁]
  have hwatched : m.watch.watched = true := rfl
  have hsince : since m.watch m₁ = account :=
    Continues.since_eq (haccount.symm.trans (List.append_nil _).symm)
  have hf₁ : m₁.registry.binds f = true := by
    rw [hsame]
    exact hf
  have hread : ∀ {given}, m₁.registry.value? f.name = some given →
      ∀ line, Engine.lookup f.name line m' = .ok given m' := by
    intro given hvalue
    rw [hsame] at hvalue
    exact Engine.lookup_of_value? hvalue
  refine ⟨flow₁, hflow, ?_, ?_, fun hemptied => hread ?_⟩
  · cases flow₁ with
    | completed | break_ => exact hv
    | return_ given =>
      obtain rfl : v = given := hv
      obtain ⟨t, earlier, ht, hevent, hvalue⟩ := value?_of_return hwatched htidy hdepth hflow₁ hf₁
      exact ⟨rfl, t, earlier, haccount.trans ht, hevent, fun hbinds => hread (hvalue hbinds)⟩
  · rw [← hsince]
    exact fun hbinds hn => emptiedLast_of_call hwatched hbinds hflow₁ hn
  · have hleads := (hclosed.callScript (hclosed.engine n) f args line m.watch).leads
    rw [Run.final_of_ok hcall₁] at hleads
    exact hleads.value?_of_emptied hwatched htidy (hsince ▸ hemptied) hf₁

/-- A machine with a function that calls itself and then returns its argument. -/
def countdownMachine : Machine :=
  Run.final (runStep ⟨.empty, .constant ""⟩ 40
      (.source "fun f(n) { if (n > 0) { call f(n - 1); return n; } }"))
    (Machine.fresh { input := [] } .empty)

theorem callScript_countdown :
    (match (engine ⟨.empty, .constant ""⟩ 40).callScript ⟨"f", ["n"], 5⟩ [.int 2] 1
        countdownMachine with
      | .ok (.int v) m' => v == 2 && m'.registry.binds ⟨"f", ["n"], 5⟩
      | _ => false) = true := by
  decide +kernel

theorem duringCall_countdown :
    (match Engine.duringCall ⟨"f", ["n"], 5⟩ [.int 2] ((engine ⟨.empty, .constant ""⟩ 40).force 5)
        countdownMachine with
      | .ok (.return_ _) _ => true
      | _ => false) = true := by
  decide +kernel

/-- The calls inside put other values in the slot, but the return statement of the call comes
last. -/
theorem slot_holds_result_recursion :
    ∃ m', (engine ⟨.empty, .constant ""⟩ 40).callScript ⟨"f", ["n"], 5⟩ [.int 2] 1
        countdownMachine = .ok (.int 2) m' ∧
      m'.registry.binds ⟨"f", ["n"], 5⟩ = true ∧
      ∀ line, Engine.lookup "f" line m' = .ok (.int 2) m' := by
  let w : World := ⟨.empty, .constant ""⟩
  let f : Function := ⟨"f", ["n"], 5⟩
  have hm : countdownMachine.toSituation ∈ course w
      [(40, .source "fun f(n) { if (n > 0) { call f(n - 1); return n; } }")]
      (Machine.fresh { input := [] } .empty) :=
    List.mem_append_right _ (List.mem_singleton_self _)
  have hlast : ((Run.account ((engine w 40).callScript f [.int 2] 1) countdownMachine).head?.any
      fun t => t.situation.registry.binds f) = true := by decide +kernel
  have hends := callScript_countdown
  have hreturns := duringCall_countdown
  cases hcall : (engine w 40).callScript f [.int 2] 1 countdownMachine with
  | error s m' =>
    rw [hcall] at hends
    cases hends
  | ok v m' =>
    rw [hcall] at hends
    cases v with
    | int v =>
      obtain ⟨hv, hbinds⟩ := Bool.and_eq_true_iff.mp hends
      obtain rfl : v = 2 := eq_of_beq hv
      refine ⟨m', rfl, hbinds, ?_⟩
      obtain ⟨flow, hflow, hvalue, _⟩ :=
        slot_holds_result w { input := [] } .empty _ hm hcall hbinds
      rw [hflow] at hreturns
      cases flow with
      | return_ given =>
        obtain ⟨_, t, earlier, haccount, _, hread⟩ := hvalue
        rw [haccount] at hlast
        exact hread hlast
      | completed | break_ => cases hreturns
    | _ => cases hends

/-- The parameter is named like the function, so the return statement finds a variable under the
name and puts nothing in the slot.  The call gives its argument, and the name reads as no value. -/
theorem parameter_hides_slot :
    let w : World := ⟨.empty, .constant ""⟩
    let m := Run.final (runStep w 40 (.source "fun f(f) { return f; }"))
      (Machine.fresh { input := [] } .empty)
    let f : Function := ⟨"f", ["f"], 5⟩
    m.registry.binds f = true ∧
    (match (engine w 40).callScript f [.int 3] 1 m with
      | .ok (.int v) m' => v == 3 && m'.registry.binds f &&
          match m'.registry.value? f.name with
          | some .none => true
          | _ => false
      | _ => false) = true := by
  decide +kernel

end Session

end TagLang
