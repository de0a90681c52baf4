import TagLang.Proofs.Lockstep
import TagLang.Proofs.Resting

/-!
# Steps that leave nothing but nodes

A source that cannot be read stays in the forest as far as it was read, and all nodes that come
later get other names.  Nothing else of it is left: behind the refused source the machine is the
same up to the names of nodes (`Session.Reachable.alike_refused`), where the names from the end of
the old forest on are moved up (`shift`).

Machines that are the same up to the names of nodes give the same answers to all steps
(`Session.answers_eq`), so a session can do without the step.
-/

namespace TagLang

open Machine

/-! ### Names that stay -/

section Fixed

variable {ρ : NodeId → NodeId}

theorem Sequence.rename_eq_self {s : Sequence} (h : ∀ x ∈ s.nodes, ρ x = x) : s.rename ρ = s := by
  obtain ⟨operands, operators⟩ := s
  have hall : ∀ o ∈ operands, o.rename ρ = o := by
    intro o ho
    have hnames : ∀ x ∈ o.node :: o.subscripts, ρ x = x :=
      fun x hx => h x (List.mem_flatMap.mpr ⟨o, ho, hx⟩)
    have hsubscripts : o.subscripts.map ρ = o.subscripts :=
      (List.map_congr_left fun x hx => hnames x (List.mem_cons_of_mem _ hx)).trans (List.map_id' _)
    simp only [Operand.rename, hnames o.node (List.mem_cons_self ..), hsubscripts]
  have hoperands : operands.map (Operand.rename ρ) = operands :=
    (List.map_congr_left hall).trans (List.map_id' _)
  simp only [Sequence.rename, hoperands]

theorem Sequence.map_rename_eq_self {values : List Sequence}
    (h : ∀ x ∈ values.flatMap Sequence.nodes, ρ x = x) : values.map (Sequence.rename ρ) = values :=
  (List.map_congr_left fun s hs => Sequence.rename_eq_self fun x hx =>
    h x (List.mem_flatMap.mpr ⟨s, hs, hx⟩)).trans (List.map_id' _)

/-- A shape is as it was if the names in it are. -/
theorem Shape.rename_eq_self {s : Shape} (h : ∀ x ∈ s.nodes, ρ x = x) : s.rename ρ = s := by
  cases s with
  | groups values => exact congrArg groups (Sequence.map_rename_eq_self h)
  | pair item collection => exact congrArg (pair item) (Sequence.rename_eq_self h)
  | array values => exact congrArg array (Sequence.map_rename_eq_self h)
  | print value => exact congrArg print (Sequence.rename_eq_self h)
  | input prompt => exact congrArg input (Sequence.rename_eq_self h)
  | return_ value => exact congrArg return_ (Sequence.rename_eq_self h)
  | convert target value => exact congrArg (convert target) (Sequence.rename_eq_self h)
  | insert target => exact congrArg insert (Sequence.rename_eq_self h)
  | call name arguments => exact congrArg (call name) (Sequence.map_rename_eq_self h)
  | declaration name subscripts op value =>
    obtain ⟨hsubscripts, hvalue⟩ := List.forall_mem_append.mp h
    simp only [Shape.rename, Sequence.map_rename_eq_self hsubscripts,
      Sequence.rename_eq_self hvalue]
  | branch opening test body chained =>
    have hchained : chained.map ρ = chained := by
      cases chained with
      | none => rfl
      | some next => exact congrArg some (h next (by simp [Shape.nodes]))
    simp only [Shape.rename, h test (by simp [Shape.nodes]), h body (by simp [Shape.nodes]),
      hchained]
  | foreach item collection body =>
    obtain ⟨hbody, hcollection⟩ := List.forall_mem_cons.mp h
    simp only [Shape.rename, hbody, Sequence.rename_eq_self hcollection]
  | while_ test body | repeat_ count body =>
    obtain ⟨hhead, hbody⟩ := List.forall_mem_cons.mp h
    simp only [Shape.rename, hhead, hbody body (List.mem_singleton_self _)]
  | else_ body | local_ body =>
    simp only [Shape.rename, h body (List.mem_singleton_self _)]
  | function f =>
    simp only [Shape.rename, Function.rename, h f.body (List.mem_singleton_self _)]
  | _ => rfl

theorem Binding.rename_eq_self {b : Binding}
    (hbody : ∀ f, b.kind = .function (.script f) → ρ f.body = f.body)
    (horigin : ∀ id, b.origin = some id → ρ id = id) : b.rename ρ = b := by
  obtain ⟨value, kind, origin⟩ := b
  have hkind : kind.rename ρ = kind := by
    cases kind with
    | function callee =>
      cases callee with
      | script f => simp only [BindingKind.rename, Callable.rename, Function.rename, hbody f rfl]
      | host f => rfl
    | _ => rfl
  have hsame : origin.map ρ = origin := by
    cases origin with
    | none => rfl
    | some id => exact congrArg some (horigin id rfl)
  simp only [Binding.rename, hkind, hsame]

end Fixed

/-! ### A gap in the names -/

/-- The names from `n` on are moved up by `k`. -/
def shift (n k id : Nat) : Nat :=
  if id < n then id else id + k

theorem shift_of_lt {n id : Nat} (h : id < n) (k : Nat) : shift n k id = id :=
  if_pos h

theorem shift_of_le {n id : Nat} (h : n ≤ id) (k : Nat) : shift n k id = id + k :=
  if_neg (Nat.not_lt.mpr h)

theorem shift_injective (n k a b : Nat) (h : shift n k a = shift n k b) : a = b := by
  unfold shift at h
  split at h <;> split at h <;> omega

/-- The correspondence that moves the names from `n` on up by `k`. -/
def Correspondence.shifted (n k : Nat) : Correspondence :=
  .ofNames (shift n k) (shift_injective n k)

/-- The nodes of a forest are those of the forest with a tree more; the gap in their names is as
wide as the tree. -/
theorem Forest.Sprouts.renamed {f g : Forest} (h : f.Sprouts g) (hf : f.WellFormed)
    (hshapes : ∀ id, ∀ x ∈ (f.shape id).nodes, x < f.size) :
    Forest.Renamed (shift f.size (g.size - f.size)) f g where
  injective := shift_injective _ _
  fresh i := by
    have hlt := h.size_lt
    rw [shift_of_le (Nat.le_add_right _ i)]
    show (f.size + i + (g.size - f.size) : Nat) = g.size + i
    omega
  node id := by
    have hlt := h.size_lt
    rcases Nat.lt_or_ge id f.size with hid | hid
    · -- All that an old node refers to stands before the gap, so nothing in it is renamed.
      have hparent : f.parent id < f.size := hf.parent_lt_size hid
      have hchildren : (f.node id).children.map (shift f.size (g.size - f.size)) =
          (f.node id).children := by
        apply Array.toList_inj.mp
        rw [Array.toList_map]
        refine (List.map_congr_left fun c hc => ?_).trans (List.map_id' _)
        exact shift_of_lt ((hf.mem_children id c).mp hc).1 _
      have hshape : (f.node id).shape.rename (shift f.size (g.size - f.size)) = (f.node id).shape :=
        Shape.rename_eq_self fun x hx => shift_of_lt (hshapes id x hx) _
      rw [shift_of_lt hid, h.old id hid, Node.rename, hchildren, hshape]
      show f.node id = { f.node id with parent := shift f.size (g.size - f.size) (f.parent id) }
      rw [shift_of_lt hparent]
      rfl
    · have hbeyond : g.size ≤ id + (g.size - f.size) := by omega
      rw [shift_of_le hid, node_of_size_le hid, node_of_size_le hbeyond]
      simp [Node.rename, Shape.rename, shift_of_le hid]
  source := hf
  target := h.wellFormed

/-- A registry without calls and loops under way is like itself if every binding is. -/
theorem Registry.Alike.of_self {R : Binding → Binding → Prop} {r : Registry}
    (hnodup : r.bindings.keys.Nodup) (hframes : r.frames = []) (hitems : r.items = [])
    (hbound : ∀ key b, r.get? key = some b → R b b) : Registry.Alike R r r where
  nodup := ⟨hnodup, hnodup⟩
  get? key := by
    have hkey := hbound key
    generalize r.get? key = found at hkey
    cases found with
    | none => exact .none
    | some b => exact .some (hkey b rfl)
  frames := by
    rw [hframes]
    exact .nil
  items := by
    rw [hitems]
    exact .nil

/-! ### Refused sources -/

namespace Session

variable {w : World} {m m' : Machine}

theorem fresh_alike_self (console : Console) (baseDir : Path) :
    Machine.Alike (.shifted 0 0) 0 (fresh console baseDir) (fresh console baseDir) where
  forest := by
    have hempty : Forest.Renamed (shift 0 0) .empty .empty := by
      have hself := Forest.renamed_empty .empty
      have hshift : shift 0 0 = (Forest.empty.size + ·) :=
        funext fun id => Nat.add_comm id 0
      rw [hshift]
      exact hself
    exact hempty.alike
  floor := Nat.zero_le _
  switches _ := rfl
  registry := by
    refine .of_self (List.pairwise_singleton _ _) rfl rfl fun key b hb => ?_
    rw [Machine.fresh, Registry.get?, Registry.define, Table.get?_insert] at hb
    split at hb
    · cases hb
      exact .of_self rfl rfl
    · cases hb
  console := rfl
  baseDir := rfl
  inserting := rfl
  inserted _ := rfl
  depth := rfl

/-- A session can be compared with itself. -/
theorem Reachable.alike_self (h : Reachable w m) : Machine.Alike (.shifted 0 0) 0 m m := by
  induction h with
  | fresh console baseDir => exact fresh_alike_self console baseDir
  | step n s _ ih => exact (runStep_lockstep w n s).final ih

/-- The statements that have bound the names of a reachable machine are in its forest. -/
theorem Reachable.origin_lt (h : Reachable w m) {key : String} {b : Binding}
    (hb : m.registry.get? key = some b) {id : NodeId} (hid : b.origin = some id) :
    id < m.forest.size := by
  rcases h.alike_self.registry.get?_cases key with ⟨hnone, _⟩ | ⟨c, _, hc, _, hrenamed⟩
  · rw [hb] at hnone
    cases hnone
  · rw [hb] at hc
    cases hc
    exact hrenamed.origin_lt id hid

/-- What is bound is the same under other names, if the nodes of the forest keep theirs. -/
theorem Reachable.registry_alike_self (h : Reachable w m) {ρ : NodeId → NodeId}
    (hρ : ∀ id, id < m.forest.size → ρ id = id) {n : Nat} (hn : m.forest.size ≤ n) :
    Registry.Alike (Binding.Renamed ρ n) m.registry m.registry := by
  apply Registry.Alike.of_self h.alike_self.registry.nodup.1 h.idle.frames h.idle.items
  intro key b hb
  have horigin : ∀ id, b.origin = some id → id < m.forest.size := fun id hid => h.origin_lt hb hid
  have hbody : ∀ f, b.kind = .function (.script f) → f.body < m.forest.size :=
    fun f hf => h.ready.good.inForest.bound key b f hb hf
  constructor
  · exact (Binding.rename_eq_self (fun f hf => hρ _ (hbody f hf))
      fun id hid => hρ _ (horigin id hid)).symm
  · exact fun id hid => Nat.lt_of_lt_of_le (horigin id hid) hn

/-- With the tree of a source in the forest and nothing of it loaded, the machine is the same up to
the names of nodes. -/
theorem Reachable.alike_refused (h : Reachable w m) (text : String) :
    Situation.Alike (.shifted m.forest.size ((m.forest.parse text).1.size - m.forest.size)) 0
      m.toSituation { m.toSituation with forest := (m.forest.parse text).1 } := by
  obtain ⟨_, _, hevolves⟩ := h.evolves
  have hgood := hevolves.sane.good
  have hforest := hgood.inForest
  refine {
    forest := ((Forest.parse_sprouts hgood.forest.wellFormed text).renamed hgood.forest.wellFormed
      hforest.shapes).alike
    floor := Nat.zero_le _
    switches := fun id => ?_
    registry := h.registry_alike_self (fun _ hid => shift_of_lt hid _) (Nat.le_refl _)
    console := rfl
    baseDir := rfl
    inserting := rfl
    inserted := fun path => ?_
    depth := rfl }
  · show m.switches.isOn (shift m.forest.size _ id) = m.switches.isOn id
    rcases Nat.lt_or_ge id m.forest.size with hid | hid
    · rw [shift_of_lt hid]
    · -- Names beyond the old forest are those of nodes that nothing has switched yet.
      rw [shift_of_le hid, hevolves.sane.on id hid]
      exact hevolves.sane.on _ (Nat.le_add_right_of_le hid)
  · show m.inserted.get? path = (m.inserted.get? path).map _
    cases hroot : m.inserted.get? path with
    | none => rfl
    | some root => exact congrArg some (shift_of_lt (hforest.inserted path root hroot) _).symm

end Session

/-! ### Answers -/

/-- The binding as it is seen from outside, where nodes have no names. -/
def Binding.anonymous (b : Binding) : Binding :=
  b.rename fun _ => 0

theorem Binding.anonymous_rename (ρ : NodeId → NodeId) (b : Binding) :
    (b.rename ρ).anonymous = b.anonymous := by
  obtain ⟨value, kind, origin⟩ := b
  have hkind : (kind.rename ρ).rename (fun _ => 0) = kind.rename fun _ => 0 := by
    cases kind with
    | function callee => cases callee <;> rfl
    | _ => rfl
  simp only [Binding.anonymous, Binding.rename, hkind, Option.map_map]
  rfl

/-- Registries that correspond look the same from outside. -/
theorem Registry.Alike.visible_eq {ρ : NodeId → NodeId} {n : Nat} {r q : Registry}
    (h : Registry.Alike (Binding.Renamed ρ n) r q) (name : String) :
    (q.get? name).map Binding.anonymous = (r.get? name).map Binding.anonymous := by
  rcases h.get?_cases name with ⟨hr, hq⟩ | ⟨b, c, hr, hq, hb⟩
  · rw [hr, hq]
  · rw [hr, hq, hb.eq]
    exact congrArg some (Binding.anonymous_rename ρ b)

namespace Session

variable (w : World) {m m' : Machine}

/-- What a session tells behind a step. -/
structure Answer where
  outcome : Outcome
  /-- The bytes that the step has written. -/
  output : List UInt8
  /-- The number of bound names. -/
  bound : Nat
  /-- What each name stands for. -/
  visible : String → Option Binding

/-- The answer to a step within a bound. -/
def answer (fuel : Nat) (m : Machine) (s : Step) : Answer :=
  let (outcome, next) := stepWithin w fuel m s
  { outcome
    output :=
      (next.console.output.extract m.console.output.size next.console.output.size).toList
    bound := next.registry.size
    visible := fun name => (next.registry.get? name).map Binding.anonymous }

/-- The answers to the steps of a session, one after the other, each within a bound of its own. -/
def answers : Machine → List (Nat × Step) → List Answer
  | _, [] => []
  | m, (fuel, s) :: rest => answer w fuel m s :: answers (stepWithin w fuel m s).2 rest

section Alike

variable {ρ : NodeId → NodeId} {hρ : ∀ a b, ρ a = ρ b → a = b} {n : Nat}

theorem stepWithin_alike (h : Machine.Alike (.ofNames ρ hρ) n m m') (fuel : Nat) (s : Step) :
    (stepWithin w fuel m' s).1 = (stepWithin w fuel m s).1 ∧
      Machine.Alike (.ofNames ρ hρ) n (stepWithin w fuel m s).2 (stepWithin w fuel m' s).2 := by
  have hend := runStep_lockstep w fuel s m m' h
  unfold stepWithin
  generalize runStep w fuel s m = x at hend
  generalize runStep w fuel s m' = y at hend
  cases hend with
  | ok _ hs => exact ⟨rfl, hs⟩
  | error he hs =>
    cases he with
    | outOfFuel => exact ⟨rfl, hs⟩
    | @failed e e' he =>
      -- Lines are the same too, so the failures are.
      obtain ⟨line, cause⟩ := e
      obtain ⟨line', cause'⟩ := e'
      obtain ⟨hline, hcause⟩ := he
      have heq : line = line' := hline
      have heq' : cause' = cause := hcause
      subst heq heq'
      exact ⟨rfl, hs⟩

theorem answer_eq (h : Machine.Alike (.ofNames ρ hρ) n m m') (fuel : Nat) (s : Step) :
    answer w fuel m' s = answer w fuel m s := by
  obtain ⟨houtcome, hnext⟩ := stepWithin_alike w h fuel s
  simp only [answer, houtcome, hnext.console, h.console, hnext.registry.size_eq,
    hnext.registry.visible_eq]

/-- Machines that are the same up to the names of nodes give the same answers. -/
theorem answers_eq (h : Machine.Alike (.ofNames ρ hρ) n m m') (steps : List (Nat × Step)) :
    answers w m' steps = answers w m steps := by
  induction steps generalizing m m' with
  | nil => rfl
  | cons step rest ih =>
    obtain ⟨fuel, s⟩ := step
    rw [answers, answers, answer_eq w h, ih (stepWithin_alike w h fuel s).2]

end Alike

theorem Reachable.stepWithin_snd {w : World} (h : Reachable w m) (fuel : Nat) (s : Step) :
    Reachable w (stepWithin w fuel m s).2 := by
  have hfinal : (stepWithin w fuel m s).2 = Run.final (runStep w fuel s) m := by
    unfold stepWithin Run.final
    cases runStep w fuel s m with
    | ok _ _ => rfl
    | error e _ => cases e <;> rfl
  rw [hfinal]
  exact .step fuel s h

/-- Behind a refused source the session goes on as if there had been none. -/
theorem Reachable.answers_refused {w : World} (h : Reachable w m) {text : String}
    {failure : Failure} (hp : (Forest.empty.parse text).2 = .error failure) (fuel : Nat)
    (after : List (Nat × Step)) :
    (answer w fuel m (.source text)).outcome = .failed failure ∧
      answers w (stepWithin w fuel m (.source text)).2 after = answers w m after := by
  have hwell : m.forest.WellFormed := h.ready.good.forest.wellFormed
  obtain ⟨m', hrun, hm'⟩ := runSource_refused w fuel (Forest.parse_error hwell hp)
  have hstep : stepWithin w fuel m (.source text) = (.failed failure, m') := by
    rw [stepWithin, runStep, hrun]
  have halike := h.alike_refused text
  rw [← hm'] at halike
  refine ⟨congrArg Prod.fst hstep, ?_⟩
  rw [hstep]
  exact answers_eq w halike after

/-- A source that cannot be read leaves no trace in a session: without the step, all other steps
have the same answers, whatever the bounds on the steps are.  They end alike, with the same failures
on the same lines, they write the same, and they leave the same number of names bound, each to the
same value, constant or function. -/
theorem answers_eraseIdx_refused (console : Console) (baseDir : Path)
    (before after : List (Nat × Step)) (fuel : Nat) {text : String} {failure : Failure}
    (h : (Forest.empty.parse text).2 = .error failure) :
    let told := answers w (fresh console baseDir) (before ++ (fuel, .source text) :: after)
    told[before.length]?.map Answer.outcome = some (.failed failure) ∧
      told.eraseIdx before.length = answers w (fresh console baseDir) (before ++ after) := by
  have hm : Reachable w (fresh console baseDir) := .fresh console baseDir
  generalize fresh console baseDir = m at hm
  -- The steps before are the same in both sessions, and lead to the same machine.
  induction before generalizing m with
  | nil =>
    obtain ⟨houtcome, hafter⟩ := hm.answers_refused h fuel after
    exact ⟨congrArg some houtcome, hafter⟩
  | cons step rest ih =>
    obtain ⟨n, s⟩ := step
    obtain ⟨houtcome, hrest⟩ := ih (stepWithin w n m s).2 (hm.stepWithin_snd n s)
    exact ⟨houtcome, congrArg (answer w n m s :: ·) hrest⟩

/-- A bracket too many between two steps, of which seven nodes are left.  The step behind it runs a
statement again that has bound a name, and calls a function that the step before has declared. -/
theorem answers_eraseIdx_refused_bracket :
    let w : World := ⟨.empty, .constant ""⟩
    let before : List (Nat × Step) := [(patience, .source "fun f(n) { return n + 1; }")]
    let after : List (Nat × Step) :=
      [(patience, .source "repeat (2) { x = call f(1); print x; }")]
    let told := answers w (fresh { input := [] } .empty)
      (before ++ (60, .source "y = [1, 2]];") :: after)
    (Forest.empty.parse "y = [1, 2]];").1.size = 7 ∧
      told.map (·.output) = [[], [], "2\n2\n".toUTF8.toList] ∧
      told[1]?.map Answer.outcome = some (.failed ⟨1, .unbalancedIndex⟩) ∧
      told.eraseIdx 1 = answers w (fresh { input := [] } .empty) (before ++ after) := by
  have hrefused : (Forest.empty.parse "y = [1, 2]];").2 = .error ⟨1, .unbalancedIndex⟩ := by
    with_unfolding_all rfl
  exact ⟨by decide +kernel, by decide +kernel, answers_eraseIdx_refused _ _ _ _ _ _ hrefused⟩

end Session

end TagLang
