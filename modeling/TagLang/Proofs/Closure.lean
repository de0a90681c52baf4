import TagLang.Machine.Execution

/-!
# Properties of all computations of a machine

A property of computations that is kept by sequencing, and that the few steps which touch the
machine have, is a property of everything a machine runs (`Closed.exec`, `Closed.eval`,
`Closed.callScript`).  The induction over nodes, expressions, calls and loops is made here once; a
theorem about runs is then a `Closed` structure, whose fields are about single steps.
-/

namespace TagLang

open Machine

/-! ### Nodes by their shapes -/

/-- The node switches branches of a chain when it is run. -/
def Shape.isBranch : Shape → Bool
  | branch .. | else_ _ => true
  | _ => false

/-- The event is the run of a node. -/
def Event.isRun : Event → Bool
  | runs _ => true
  | _ => false

/-- The event is about the file of an insertion. -/
def Event.isFile : Event → Bool
  | finds _ | reads _ | enters .. => true
  | _ => false

/-- The event is neither the run of a node nor about the file of an insertion. -/
def Event.isPlain (event : Event) : Bool :=
  !event.isRun && !event.isFile

theorem Event.isRun_of_isPlain {event : Event} (h : event.isPlain = true) :
    event.isRun = false := by
  simp only [isPlain, Bool.and_eq_true, Bool.not_eq_true'] at h
  exact h.1

theorem Event.isFile_of_isPlain {event : Event} (h : event.isPlain = true) :
    event.isFile = false := by
  simp only [isPlain, Bool.and_eq_true, Bool.not_eq_true'] at h
  exact h.2

/-- The node runs no other nodes but in calls. -/
def Shape.isSimple : Shape → Bool
  | block | branch .. | else_ _ | while_ .. | repeat_ .. | foreach .. | local_ _ | insert _ => false
  | _ => true

/-- What a node does whose line and shape are known. -/
def Engine.runShape (w : World) (e : Engine) (passes : Nat) (id : NodeId) (line : Nat) :
    Shape → Run Flow
  | .block => look (·.forest.children id) >>= e.runBlock
  | .print value => e.eval value >>= fun v => done (write line (v.text ++ "\n"))
  | .declaration name subscripts op value =>
    done (e.runDeclaration id name subscripts op value line)
  | .branch opening test body chained => e.runBranch id opening test body chained line
  | .else_ body => e.runElse id body
  | .while_ test body => e.runWhile test body line passes
  | .repeat_ count body => e.runRepeat count body line
  | .foreach item collection body => e.runForeach item collection body line
  | .break_ => pure .break_
  | .return_ value => e.runReturn value
  | .function _ => pure .completed
  | .free names => done (runFree names line)
  | .freeAll => done runFreeAll
  | .local_ body => e.force body
  | .extern_ source nickname => done (runExtern w source nickname line)
  | .insert target => e.runInsert w target line
  | .leaf | .groups _ | .array _ | .input _ | .convert .. | .call .. =>
    e.nodeValue id >>= fun _ => pure .completed
  | .pair .. | .unloaded =>
    look (·.forest.kind id) >>= fun kind => Run.fail line (.notExecutable kind)

theorem Engine.runNode_eq (w : World) (e : Engine) (passes : Nat) (id : NodeId) :
    e.runNode w passes id = note (.runs id) >>= fun _ => look (·.forest.line id) >>= fun line =>
      look (·.forest.shape id) >>= e.runShape w passes id line :=
  rfl

/-- The registry at the start of a function's body. -/
def Engine.enterCall (f : Function) (args : List Value) (r : Registry) : Registry :=
  (beginCall f r).bindLocals (parameters f args)

/-- What holds before the parameters are bound, and binding a parameter keeps, holds when they are
bound. -/
theorem Engine.parameters_induct {P : Registry → Prop} (f : Function) (args : List Value)
    {r : Registry} (hstart : P r)
    (hbind : ∀ r param arg, P r → P (r.bindLocal param (.ofVariable arg none))) :
    P (r.bindLocals (parameters f args)) := by
  refine List.foldlRecOn _ _ hstart fun r hr p hp => ?_
  obtain ⟨q, _, rfl⟩ := List.mem_map.mp hp
  exact hbind r q.1 q.2 hr

theorem Engine.enterCall_induct {P : Registry → Prop} (f : Function) (args : List Value)
    {r : Registry} (hstart : P ((r.setResult f.name .none).pushFrame f.name))
    (hbind : ∀ r param arg, P r → P (r.bindLocal param (.ofVariable arg none))) :
    P (Engine.enterCall f args r) :=
  parameters_induct f args hstart hbind

/-! ### Properties that sequencing keeps -/

/-- A property that sequencing keeps and that failures and steps have which leave the situation as
it is and neither run a node nor have to do with the file of an insertion. -/
structure Sequential (P : ⦃α : Type⦄ → Run α → Prop) : Prop where
  pure : ∀ {α : Type} (a : α), P (Pure.pure a : Run α)
  bind : ∀ {α β : Type} {x : Run α} {f : α → Run β}, P x → (∀ a, P (f a)) → P (x >>= f)
  failed : ∀ {α : Type} (failure : Failure), P (throw (.failed failure) : Run α)
  look : ∀ {α : Type} (g : Situation → α), P (look g)
  note : ∀ event, event.isPlain = true → P (note event)

/-- A property that sequencing keeps and that the steps have which run nothing below them. -/
structure Elementary (w : World) (P : ⦃α : Type⦄ → Run α → Prop) : Prop extends Sequential P where
  write : ∀ line text, P (write line text)
  flush : ∀ line, P (flush line)
  readLine : ∀ line, P (readLine line)
  assign : ∀ name v line, P (Engine.assign name v line)
  declare : ∀ id name v line, P (Engine.declare id name v line)
  answer : ∀ function v, P (Engine.answer function v)
  runFree : ∀ names line, P (Engine.runFree names line)
  runFreeAll : P Engine.runFreeAll
  runExtern : ∀ source nickname line, P (Engine.runExtern w source nickname line)

/-- A property that sequencing keeps and that all steps of a machine have, but perhaps not those
that switch nodes. -/
structure Stepwise (w : World) (P : ⦃α : Type⦄ → Run α → Prop) : Prop extends Elementary w P where
  stop : ∀ {α : Type} (s : Stop), P (throw s : Run α)
  failed _ := stop _
  call : ∀ (e : Engine) f args line, P (e.force f.body) → P (e.callScript f args line)
  duringLoop : ∀ (e : Engine) item body values, P (e.force body) →
    P (Engine.duringLoop item (e.runItems item body values))
  runInsert : ∀ (e : Engine) target line, P (e.eval target) → (∀ root, P (e.execute root)) →
    P (e.runInsert w target line)

/-- A property that sequencing keeps and that all steps of a machine have, but perhaps not the note
that a node is run. -/
structure Switched (w : World) (P : ⦃α : Type⦄ → Run α → Prop) : Prop extends Stepwise w P where
  switch : ∀ id on, P (change (Situation.switch id on))
  switchingOn : ∀ {run : NodeId → Run Flow} {id}, P (run id) → P (switchingOn run id)

/-- A property that sequencing keeps and that all steps of a machine have. -/
structure Closed (w : World) (P : ⦃α : Type⦄ → Run α → Prop) : Prop extends Switched w P where
  run : ∀ id, P (Machine.note (.runs id))

/-- All that an engine runs has the property. -/
structure Engine.Within (P : ⦃α : Type⦄ → Run α → Prop) (e : Engine) : Prop where
  execute : ∀ id, P (e.execute id)
  force : ∀ id, P (e.force id)
  eval : ∀ s, P (e.eval s)

/-- All expressions that an engine evaluates have the property, and all calls that it makes. -/
structure Engine.Values (P : ⦃α : Type⦄ → Run α → Prop) (e : Engine) : Prop where
  eval : ∀ s, P (e.eval s)
  call : ∀ f args line, P (e.callScript f args line)

namespace Sequential

variable {P : ⦃α : Type⦄ → Run α → Prop} (h : Sequential P)
include h

/-! ### Results of value operations -/

theorem fail {α : Type} (line : Nat) (cause : Cause) : P (Run.fail line cause : Run α) :=
  h.failed _

theorem ofExcept {α : Type} (r : Except Failure α) : P (Run.ofExcept r : Run α) := by
  cases r with
  | ok a => exact h.pure a
  | error failure => exact h.failed _

theorem orFault {α : Type} (line : Nat) (cause : Fault → Cause) (r : Except Fault α) :
    P (Run.orFault line cause r : Run α) := by
  cases r with
  | ok a => exact h.pure a
  | error fault => exact h.fail _ _

theorem orIo {α : Type} (line : Nat) (r : Except IoError α) : P (Run.orIo line r : Run α) := by
  cases r with
  | ok a => exact h.pure a
  | error e => exact h.fail _ _

theorem lookup (name : String) (line : Nat) : P (Engine.lookup name line) := by
  unfold Engine.lookup
  refine h.bind (h.look _) fun v => ?_
  split
  · exact h.pure _
  · exact h.fail _ _

theorem callHost (f : HostFunction) (args : List Value) (line : Nat) :
    P (Engine.callHost f args line) := by
  have hr : P (Engine.callHost.result f args line) := by
    unfold Engine.callHost.result
    refine h.bind (h.note _ rfl) fun _ => ?_
    split
    · exact h.pure _
    · exact h.fail _ _
  unfold Engine.callHost
  split
  · split
    · exact h.fail _ _
    · exact hr
  · exact hr

theorem prefixed (line : Nat) (v : Value) (ops : List Operator) :
    P (Engine.prefixed line v ops) := by
  induction ops with
  | nil => exact h.pure _
  | cons op ops ih =>
    rw [Engine.prefixed]
    exact h.bind ih fun v => h.bind (h.note _ rfl) fun _ => h.orFault _ _ _

theorem combined (op : Operator) (current rhs : Value) (line : Nat) :
    P (Engine.combined op current rhs line) := by
  unfold Engine.combined
  split
  · exact h.orFault _ _ _
  · exact h.pure _

/-! ### Steps that are made of others -/

/-- Binding something new has the property if the change has it that does so. -/
theorem make {made : List (String × Binding)} {f : Situation → Situation} (hf : P (change f)) :
    P (make made f) :=
  h.bind (h.note _ rfl) fun _ => hf

/-- A loop has the property if its body has it, and setting the item. -/
theorem runItems {e : Engine} {item : String} {body : NodeId}
    (hset : ∀ v, P (change (Situation.onRegistry fun r => r.define item (.ofVariable v none))))
    (hb : P (e.force body)) (values : List Value) : P (e.runItems item body values) := by
  induction values with
  | nil => exact h.pure _
  | cons v rest ih =>
    rw [Engine.runItems]
    refine h.bind (h.make (hset v)) fun _ => h.bind hb fun flow => ?_
    split
    · exact ih
    · exact h.pure _
    · exact h.pure _

/-- Bringing in a module has the property if binding one of its members has it. -/
theorem bindModule {w : World} {nickname : String}
    (hbind : ∀ member entry, P (change (Situation.onRegistry fun r =>
      r.define (Host.qualified nickname member) (Engine.hostBinding entry))))
    (source : String) (line : Nat) : P (Engine.bindModule w source nickname line) := by
  have hentries : ∀ entries, P (Engine.bindEntries nickname line entries) := by
    intro entries
    induction entries with
    | nil => exact h.pure _
    | cons entry rest ih =>
      rw [Engine.bindEntries]
      refine h.bind (h.look _) fun b => ?_
      split
      · exact h.fail _ _
      · exact h.bind (h.make (hbind entry.1 entry.2)) fun _ => ih
  unfold Engine.bindModule
  split
  · exact hentries _
  · exact h.fail _ _

/-- Finding the tree of a file has the property if loading the file has it, and remembering its
tree. -/
theorem inserted {w : World} {path : Path} (hreads : P (Machine.note (.reads path)))
    (hprepare : ∀ source, P (prepare true source))
    (hremember : ∀ root, P (change fun s =>
      { s with inserted := s.inserted.insert path.components root }))
    (line : Nat) : P (Engine.inserted w path line) := by
  unfold Engine.inserted
  refine h.bind (h.look _) fun root => ?_
  split
  · exact h.pure _
  · exact h.bind hreads fun _ => h.bind (h.orIo _ _) fun source =>
      h.bind (hprepare source) fun root => h.bind (hremember root) fun _ => h.pure _

/-- Inserting a file has the property if it has it where the insertion is not refused. -/
theorem runTarget {w : World} {e : Engine} {target : Sequence} {line : Nat} (ht : P (e.eval target))
    (hrun : ∀ path, P (e.runInserted w path line)) : P (e.runTarget w target line) := by
  have hpath : ∀ path, P (e.runPath w path line) := by
    intro path
    unfold Engine.runPath
    refine h.bind (h.look _) fun inserting => ?_
    split
    · exact h.fail _ _
    · split
      · exact h.fail _ _
      · exact hrun path
  unfold Engine.runTarget
  refine h.bind ht fun v => ?_
  split
  · exact h.fail _ _
  · exact h.bind (h.look _) fun path => hpath path

/-- Running a file has the property if finding its tree has it, and running this. -/
theorem runInserted {w : World} {e : Engine} {path : Path} {line : Nat}
    (hfinds : P (Machine.note (.finds path))) (hinserted : P (Engine.inserted w path line))
    (henters : ∀ root, P (Machine.note (.enters path root)))
    (hfile : ∀ root, P (Engine.duringFile path (e.execute root))) :
    P (e.runInserted w path line) :=
  h.bind hfinds fun _ => h.bind hinserted fun root => h.bind (henters root) fun _ =>
    h.bind (hfile root) fun _ => h.pure _

/-- A call has the property if it has it where it is not refused. -/
theorem callScript {e : Engine} {f : Function} {args : List Value}
    (hx : P (Engine.duringCall f args (e.force f.body))) (line : Nat) :
    P (e.callScript f args line) := by
  unfold Engine.callScript
  split
  · exact h.fail _ _
  · refine h.bind (h.look _) fun depth => ?_
    split
    · exact h.fail _ _
    · refine h.bind hx fun flow => ?_
      split <;> exact h.pure _

/-! ### Changes of the registry -/

section Registry

variable (hr : ∀ f, P (change (Situation.onRegistry f)))
include hr

/-- Assigning has a property that every change of the registry has. -/
theorem assign (name : String) (v : Value) (line : Nat) : P (Engine.assign name v line) := by
  unfold Engine.assign
  refine h.bind (h.look _) fun r => ?_
  split
  · exact h.bind (h.note _ rfl) fun _ => hr fun _ => _
  · exact h.fail _ _
  · exact h.fail _ _

theorem declare (id : NodeId) (name : String) (v : Value) (line : Nat) :
    P (Engine.declare id name v line) := by
  unfold Engine.declare
  refine h.bind (h.look _) fun r => ?_
  split
  · exact h.make (hr _)
  · split
    · split
      · exact h.make (hr _)
      · exact h.assign hr _ _ _
    · exact h.fail _ _

theorem freeNames (line : Nat) (names : List String) : P (Engine.freeNames line names) := by
  induction names with
  | nil => exact h.pure _
  | cons name rest ih =>
    rw [Engine.freeNames]
    refine h.bind (h.look _) fun r => ?_
    split
    · exact h.bind (hr fun _ => _) fun _ => ih
    · exact h.fail _ _

end Registry

end Sequential

namespace Elementary

variable {w : World} {P : ⦃α : Type⦄ → Run α → Prop} (h : Elementary w P)
include h

theorem assignElement (name : String) (path : List Value) (op : Operator) (rhs : Value)
    (line : Nat) : P (Engine.assignElement name path op rhs line) := by
  have hc : ∀ target, P (Engine.combinedElement target path op rhs line) := by
    intro target
    unfold Engine.combinedElement
    split
    · exact h.bind (h.orFault _ _ _) fun current => h.combined _ _ _ _
    · exact h.pure _
  unfold Engine.assignElement
  exact h.bind (h.lookup _ _) fun target => h.bind (hc _) fun v =>
    h.bind (h.orFault _ _ _) fun target => h.assign _ _ _

/-! ### Expressions -/

theorem reduceRest {operand : Operand → Run Value} (ho : ∀ o, P (operand o))
    (rest : List ((Operator × Nat) × Operand)) (values : List Value)
    (waiting : List (Operator × Nat)) :
    P (Sequence.reduceRest operand rest values waiting) := by
  induction rest generalizing values waiting with
  | nil =>
    rw [Sequence.reduceRest]
    refine h.bind (h.ofExcept _) fun ⟨values, _⟩ => ?_
    cases values with
    | nil => exact h.fail _ _
    | cons v rest => exact h.pure _
  | cons next rest ih =>
    rw [Sequence.reduceRest]
    exact h.bind (h.ofExcept _) fun r => h.bind (ho _) fun v => ih _ _

theorem reduce {operand : Operand → Run Value} (ho : ∀ o, P (operand o)) (s : Sequence) :
    P (s.reduce operand) := by
  unfold Sequence.reduce
  split
  · exact h.pure _
  · exact h.bind (ho _) fun v => h.reduceRest ho _ _ _

variable {e : Engine} (he : e.Values P)
include he

theorem evalAll (values : List Sequence) : P (e.evalAll values) := by
  induction values with
  | nil => exact h.pure _
  | cons s rest ih =>
    rw [Engine.evalAll]
    exact h.bind (he.eval s) fun v => h.bind ih fun vs => h.pure _

theorem invoke (name : String) (args : List Sequence) (line : Nat) :
    P (e.invoke name args line) := by
  unfold Engine.invoke
  refine h.bind (h.look _) fun b => ?_
  split
  · exact h.fail _ _
  · split
    · exact h.bind (h.evalAll he _) fun values => he.call _ _ _
    · exact h.bind (h.evalAll he _) fun values => h.callHost _ _ _
    · exact h.fail _ _

theorem input (prompt : Sequence) (line : Nat) : P (e.input prompt line) := by
  have hp : P (e.showPrompt prompt line) := by
    unfold Engine.showPrompt
    split
    · exact h.pure _
    · exact h.bind (he.eval _) fun v => h.bind (h.write _ _) fun _ => h.flush _
  unfold Engine.input
  exact h.bind hp fun _ => h.bind (h.readLine _) fun s => h.pure _

theorem nodeValue (id : NodeId) : P (e.nodeValue id) := by
  unfold Engine.nodeValue
  refine h.bind (h.note _ rfl) fun _ => h.bind (h.look _) fun kind => h.bind (h.look _) fun line =>
    h.bind (h.look _) fun shape => ?_
  split
  · split
    · exact h.pure _
    · exact h.lookup _ _
    · exact h.fail _ _
  · exact h.pure _
  · exact he.eval _
  · exact h.bind (h.evalAll he _) fun vs => h.pure _
  · exact h.invoke he _ _ _
  · exact h.input he _ _
  · exact h.bind (he.eval _) fun v => h.orFault _ _ _
  · exact h.fail _ _

theorem subscripted (line : Nat) (v : Value) (ids : List NodeId) :
    P (e.subscripted line v ids) := by
  induction ids generalizing v with
  | nil => exact h.pure _
  | cons id rest ih =>
    rw [Engine.subscripted]
    refine h.bind (h.look _) fun shape => ?_
    split
    · exact h.bind (he.eval _) fun i => h.bind (h.orFault _ _ _) fun element => ih element
    · exact h.fail _ _

theorem operand (o : Operand) : P (e.operand o) := by
  unfold Engine.operand
  exact h.bind (h.look _) fun line => h.bind (h.nodeValue he _) fun v =>
    h.bind (h.subscripted he _ _ _) fun v => h.prefixed _ _ _

theorem condition (id : NodeId) (line : Nat) : P (e.condition id line) := by
  unfold Engine.condition
  refine h.bind (h.nodeValue he _) fun v => ?_
  split
  · exact h.pure _
  · exact h.fail _ _

/-! ### Statements that are one expression -/

theorem runDeclaration (id : NodeId) (name : String) (subscripts : List Sequence) (op : Operator)
    (value : Sequence) (line : Nat) : P (e.runDeclaration id name subscripts op value line) := by
  unfold Engine.runDeclaration
  refine h.bind (he.eval _) fun rhs => ?_
  split
  · exact h.bind (h.evalAll he _) fun path => h.assignElement _ _ _ _ _
  · split
    · exact h.bind (h.lookup _ _) fun current => h.bind (h.combined _ _ _ _) fun v =>
        h.assign _ _ _
    · exact h.declare _ _ _ _

theorem runReturn (value : Sequence) : P (e.runReturn value) := by
  unfold Engine.runReturn
  refine h.bind (he.eval _) fun v => h.bind (h.look _) fun function => ?_
  split
  · exact h.bind (h.answer _ _) fun _ => h.pure _
  · exact h.bind (h.pure _) fun _ => h.pure _

omit he in
theorem done {x : Run Unit} (hx : P x) : P (Engine.done x) :=
  h.bind hx fun _ => h.pure _

/-- A node that runs no other nodes but in calls does what its shape says. -/
theorem runShape (passes : Nat) (id : NodeId) (line : Nat) {shape : Shape}
    (hs : shape.isSimple = true) : P (e.runShape w passes id line shape) := by
  cases shape with
  | block | branch | else_ | while_ | repeat_ | foreach | local_ | insert => cases hs
  | print value => exact h.bind (he.eval _) fun v => h.done (h.write _ _)
  | declaration name subscripts op value => exact h.done (h.runDeclaration he _ _ _ _ _ _)
  | break_ => exact h.pure _
  | return_ value => exact h.runReturn he _
  | function f => exact h.pure _
  | free names => exact h.done (h.runFree _ _)
  | freeAll => exact h.done h.runFreeAll
  | extern_ source nickname => exact h.done (h.runExtern _ _ _)
  | leaf | groups values | array values | input prompt | convert target value | call name args =>
    exact h.bind (h.nodeValue he _) fun _ => h.pure _
  | pair item collection | unloaded => exact h.bind (h.look _) fun kind => h.fail _ _

end Elementary

namespace Stepwise

variable {w : World} {P : ⦃α : Type⦄ → Run α → Prop} (h : Stepwise w P)
include h

variable {e : Engine} (he : e.Within P)
include he

theorem values : e.Values P :=
  ⟨he.eval, fun f args line => h.call e f args line (he.force _)⟩

theorem callScript (f : Function) (args : List Value) (line : Nat) :
    P (e.callScript f args line) :=
  h.call e f args line (he.force _)

/-! ### Blocks, loops and branches -/

theorem runBlock (ids : List NodeId) : P (e.runBlock ids) := by
  induction ids with
  | nil => exact h.pure _
  | cons id rest ih =>
    rw [Engine.runBlock]
    refine h.bind (he.execute _) fun flow => ?_
    split
    · exact ih
    · exact h.pure _

theorem runWhile (test body : NodeId) (line passes : Nat) :
    P (e.runWhile test body line passes) := by
  induction passes with
  | zero => exact h.stop _
  | succ n ih =>
    rw [Engine.runWhile]
    refine h.bind (h.condition (h.values he) _ _) fun holds => ?_
    split
    · refine h.bind (he.force _) fun flow => ?_
      split
      · exact ih
      · exact h.pure _
      · exact h.pure _
    · exact h.pure _

theorem runTimes (body : NodeId) (times : Nat) : P (e.runTimes body times) := by
  induction times with
  | zero => exact h.pure _
  | succ n ih =>
    rw [Engine.runTimes]
    refine h.bind (he.force _) fun flow => ?_
    split
    · exact ih
    · exact h.pure _
    · exact h.pure _

theorem runRepeat (count body : NodeId) (line : Nat) : P (e.runRepeat count body line) := by
  unfold Engine.runRepeat
  refine h.bind (h.nodeValue (h.values he) _) fun v => ?_
  split
  · exact h.runTimes he _ _
  · exact h.fail _ _

theorem runForeach (item : String) (collection : Sequence) (body : NodeId) (line : Nat) :
    P (e.runForeach item collection body line) := by
  unfold Engine.runForeach
  refine h.bind (he.eval _) fun v => ?_
  split
  · exact h.duringLoop e _ _ _ (he.force _)
  · exact h.fail _ _

/-- A node that is no branch does what its shape says. -/
theorem runShape (passes : Nat) (id : NodeId) (line : Nat) {shape : Shape}
    (hs : shape.isBranch = false) : P (e.runShape w passes id line shape) := by
  cases shape with
  | branch opening test body chained => cases hs
  | else_ body => cases hs
  | block => exact h.bind (h.look _) fun statements => h.runBlock he _
  | while_ test body => exact h.runWhile he _ _ _ _
  | repeat_ count body => exact h.runRepeat he _ _ _
  | foreach item collection body => exact h.runForeach he _ _ _ _
  | local_ body => exact he.force _
  | insert target => exact h.runInsert e _ _ (he.eval _) he.execute
  | _ => exact h.toElementary.runShape (h.values he) passes id line rfl

omit he

/-! ### The machine -/

theorem ifSwitchedOn {run : NodeId → Run Flow} (hr : ∀ id, P (run id)) (id : NodeId) :
    P (ifSwitchedOn run id) := by
  unfold Machine.ifSwitchedOn
  refine h.bind (h.look _) fun on => ?_
  split
  · exact hr id
  · exact h.pure _

/-- Everything that a machine runs within a bound has the property, if a node has it that is run by
an engine that has it, and if it may be run whether it is switched on or not. -/
theorem engine_of_runNode
    (hnode : ∀ (e : Engine) passes id, e.Within P → P (e.runNode w passes id))
    (hforce : ∀ n id, P (exec w n id) → P (switchingOn (exec w n) id)) (n : Nat) :
    (Machine.engine w n).Within P := by
  have step : (∀ id, P (exec w n id)) ∧ (∀ s, P (eval w n s)) := by
    induction n with
    | zero => exact ⟨fun _ => h.stop _, fun _ => h.stop _⟩
    | succ n ih =>
      have he : (Machine.engine w n).Within P :=
        ⟨h.ifSwitchedOn ih.1, fun id => hforce n id (ih.1 id), ih.2⟩
      exact ⟨fun id => hnode _ n id he, fun s => h.reduce (h.operand (h.values he)) s⟩
  exact ⟨h.ifSwitchedOn step.1, fun id => hforce n id (step.1 id), step.2⟩

end Stepwise

namespace Switched

variable {w : World} {P : ⦃α : Type⦄ → Run α → Prop} (h : Switched w P)
include h

/-! ### Branches -/

theorem arm (chained : Option NodeId) (on : Bool) : P (Engine.arm chained on) := by
  unfold Engine.arm
  split
  · exact h.switch _ _
  · exact h.pure _

variable {e : Engine} (he : e.Within P)
include he

theorem runBranch (id : NodeId) (opening : Bool) (test body : NodeId) (chained : Option NodeId)
    (line : Nat) : P (e.runBranch id opening test body chained line) := by
  unfold Engine.runBranch
  refine h.bind (h.arm _ _) fun _ => h.bind (h.condition (h.values he) _ _) fun holds =>
    h.bind (h.arm _ _) fun _ => ?_
  split
  · exact he.force _
  · exact h.pure _

theorem runElse (id body : NodeId) : P (e.runElse id body) := by
  unfold Engine.runElse
  exact h.bind (h.switch _ _) fun _ => he.force _

/-- A node does what its shape says. -/
theorem runAnyShape (passes : Nat) (id : NodeId) (line : Nat) (shape : Shape) :
    P (e.runShape w passes id line shape) := by
  cases hs : shape.isBranch with
  | false => exact h.runShape he passes id line hs
  | true =>
    cases shape with
    | branch opening test body chained => exact h.runBranch he _ _ _ _ _ _
    | else_ body => exact h.runElse he _ _
    | _ => cases hs

end Switched

namespace Closed

variable {w : World} {P : ⦃α : Type⦄ → Run α → Prop} (h : Closed w P)
include h

theorem runNode {e : Engine} (he : e.Within P) (passes : Nat) (id : NodeId) :
    P (e.runNode w passes id) := by
  rw [Engine.runNode_eq]
  exact h.bind (h.run id) fun _ => h.bind (h.look _) fun line => h.bind (h.look _) fun shape =>
    h.runAnyShape he passes id line shape

/-- Everything that a machine runs within a bound has the property. -/
theorem engine (n : Nat) : (Machine.engine w n).Within P :=
  h.engine_of_runNode (fun _ passes id he => h.runNode he passes id) (fun _ _ => h.switchingOn) n

end Closed

/-! ### Properties that every change of the situation has -/

/-- A property that sequencing keeps and that every change of the situation has, on its own or
behind another computation. -/
structure Steady (P : ⦃α : Type⦄ → Run α → Prop) : Prop extends Sequential P where
  change : ∀ f, P (change f)
  ensuring : ∀ {α : Type} {x : Run α} (after : Situation → Situation), P x →
    P (Run.ensuring x after)
  write : ∀ line text, P (write line text)
  flush : ∀ line, P (flush line)
  readLine : ∀ line, P (readLine line)

/-- Such a property that every note has too, and that computations have also where the bound on them
is too small. -/
structure Indifferent (P : ⦃α : Type⦄ → Run α → Prop) : Prop extends Steady P where
  tell : ∀ event, P (Machine.note event)
  note event _ := tell event
  stop : ∀ {α : Type} (s : Stop), P (throw s : Run α)
  failed _ := stop _

namespace Steady

variable {P : ⦃α : Type⦄ → Run α → Prop} (h : Steady P)
include h

theorem duringCall (f : Function) (args : List Value) {x : Run Flow} (hx : P x) :
    P (Engine.duringCall f args x) := by
  exact h.bind (h.note _ rfl) fun _ => h.bind (h.change _) fun _ =>
    h.bind (h.make (h.change _)) fun _ => h.ensuring _ hx

theorem runItems (e : Engine) (item : String) (body : NodeId) (values : List Value)
    (hb : P (e.force body)) : P (e.runItems item body values) :=
  h.toSequential.runItems (fun _ => h.change _) hb values

theorem freeNames (line : Nat) (names : List String) : P (Engine.freeNames line names) :=
  h.toSequential.freeNames (fun _ => h.change _) line names

theorem refuse {α : Type} (inserting : Bool) (failure : Failure) :
    P (refuse inserting failure : Run α) := by
  unfold Machine.refuse
  exact h.bind (h.note _ rfl) fun _ => h.failed _

theorem prepare (inserting : Bool) (source : String) : P (prepare inserting source) := by
  have hl : ∀ root, P (load inserting root) := by
    intro root
    unfold Machine.load
    refine h.bind (h.look _) fun w => ?_
    split
    · exact h.change _
    · exact h.bind (h.change _) fun _ => h.refuse _ _
  unfold Machine.prepare
  refine h.bind (h.look _) fun ⟨forest, parsed⟩ => h.bind (h.change _) fun _ => ?_
  cases parsed with
  | error failure => exact h.refuse _ _
  | ok root => exact h.bind (hl root) fun _ => h.pure _

theorem duringFile (path : Path) {x : Run Flow} (hx : P x) : P (Engine.duringFile path x) :=
  h.bind (h.look _) fun _ => h.bind (h.change _) fun _ => h.ensuring _ hx

theorem bindModule (w : World) (source nickname : String) (line : Nat) :
    P (Engine.bindModule w source nickname line) :=
  h.toSequential.bindModule (fun _ _ => h.change _) source line

theorem elementary (w : World) : Elementary w P where
  toSequential := h.toSequential
  write := h.write
  flush := h.flush
  readLine := h.readLine
  assign := h.toSequential.assign fun _ => h.change _
  declare := h.toSequential.declare fun _ => h.change _
  answer _ _ := h.bind (h.note _ rfl) fun _ => h.change _
  runFree names line := h.bind (h.note _ rfl) fun _ => h.freeNames line names
  runFreeAll := h.bind (h.change _) fun _ => h.note _ rfl
  runExtern source nickname line :=
    h.bind (h.note _ rfl) fun _ => h.bindModule w source nickname line

/-- A property that every change has is a property of all steps of a machine, if it is one of
running a file. -/
theorem switched {w : World} (hstop : ∀ {α : Type} (s : Stop), P (throw s : Run α))
    (hfile : ∀ (e : Engine) path line, (∀ root, P (e.execute root)) →
      P (e.runInserted w path line)) : Switched w P where
  toElementary := h.elementary w
  stop := hstop
  switch _ _ := h.change _
  switchingOn hr := h.bind (h.look _) fun _ => h.bind (h.change _) fun _ => h.ensuring _ hr
  call _ f args line hx := h.toSequential.callScript (h.duringCall f args hx) line
  duringLoop e item body values hb :=
    h.bind (h.make (h.change _)) fun _ => h.ensuring _ (h.runItems e item body values hb)
  runInsert e _ line ht he := h.bind (h.note _ rfl) fun _ =>
    h.toSequential.runTarget ht fun path => hfile e path line he

end Steady

namespace Indifferent

variable {P : ⦃α : Type⦄ → Run α → Prop} (h : Indifferent P) (w : World)
include h

theorem runInserted (e : Engine) (path : Path) (line : Nat) (he : ∀ root, P (e.execute root)) :
    P (e.runInserted w path line) :=
  have hinserted := h.toSequential.inserted (h.tell _) (h.prepare true) (fun _ => h.change _) line
  h.toSequential.runInserted (h.tell _) hinserted (fun _ => h.tell _)
    fun root => h.duringFile path (he root)

theorem runTarget (e : Engine) (target : Sequence) (line : Nat) (ht : P (e.eval target))
    (he : ∀ root, P (e.execute root)) : P (e.runTarget w target line) :=
  h.toSequential.runTarget ht fun path => h.runInserted w e path line he

/-- A property that every change has is a property of all computations of a machine. -/
theorem closed : Closed w P where
  toSwitched := h.switched h.stop (h.runInserted w)
  run id := h.tell (.runs id)

end Indifferent

end TagLang
