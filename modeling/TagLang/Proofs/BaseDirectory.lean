import TagLang.Proofs.Resting

/-!
# The directory that targets are seen from

A relative target is seen from the base directory, and the base directory goes with the files that
are under way, not with the node that asks for the target.  Whenever a node is run, the base
directory is that of the innermost file under way, and as long as this file has made no call, the
node is in its tree (`Session.runStep_sees_from_innermost`).  In a call the node is in the tree of
the function that is called, while the base directory is still that of the file which has made the
call: a function that was brought in from another directory sees its targets from the wrong one
(`Session.call_sees_from_caller`).

What happens between two machines of a run is told by the moments between them (`Machine.Tells`).  A
statement tells only of nodes below it, and an expression of none, except in calls and in files that
are inserted meanwhile.
-/

/-! ### A general fact about lists -/

/-- What is a suffix of two lists in a row ends in the first one or is a suffix of the second. -/
theorem List.cons_suffix_append_cases {α : Type} {a : α} {l first second : List α}
    (h : a :: l <:+ first ++ second) :
    (∃ l', a :: l' <:+ first ∧ l = l' ++ second) ∨ a :: l <:+ second := by
  rcases List.suffix_or_suffix_of_suffix h (List.suffix_append first second) with h' | ⟨c, hc⟩
  · exact .inr h'
  · cases c with
    | nil => exact .inr ⟨[], hc.symm⟩
    | cons b l' =>
      obtain ⟨rfl, rfl⟩ := List.cons.inj hc
      obtain ⟨d, hd⟩ := h
      refine .inl ⟨l', ⟨d, ?_⟩, rfl⟩
      apply List.append_cancel_right
      simpa using hd

namespace TagLang

open Machine Forest

/-! ### Places -/

/-- Where a machine is: the base directory, the files under way and the number of calls. -/
def Situation.place (s : Situation) : Path × List Path × Nat :=
  (s.baseDir, s.inserting, s.depth)

namespace Machine

/-- Between the machines no node is run, and everything happens in one place. -/
structure Quiet (m m' : Machine) : Prop where
  continues : Continues m m'
  place : m'.place = m.place
  moments : ∀ t ∈ since m m', t.event.isRun = false ∧ t.situation.place = m.place

namespace Quiet

variable {m m₁ m₂ : Machine}

theorem trans (h₁ : Quiet m m₁) (h₂ : Quiet m₁ m₂) : Quiet m m₂ where
  continues := h₁.continues.trans h₂.continues
  place := h₂.place.trans h₁.place
  moments t ht := by
    rw [Continues.since_trans h₁.continues h₂.continues] at ht
    rcases List.mem_append.mp ht with ht | ht
    · exact ⟨(h₂.moments t ht).1, (h₂.moments t ht).2.trans h₁.place⟩
    · exact h₁.moments t ht

theorem update (m : Machine) {f : Situation → Situation} (h : ∀ s, (f s).place = s.place) :
    Quiet m (m.update f) where
  continues := .update m f
  place := h m.toSituation
  moments t ht := by
    rw [Continues.since_update] at ht
    cases ht

theorem refl (m : Machine) : Quiet m m :=
  update m fun _ => rfl

theorem record (m : Machine) {event : Event} (h : event.isRun = false) :
    Quiet m (m.record event) where
  continues := .record m event
  place := by rw [toSituation_record]
  moments t ht := by
    cases hw : m.watched with
    | true =>
      rw [Continues.since_record hw] at ht
      rw [List.mem_singleton.mp ht]
      exact ⟨h, rfl⟩
    | false =>
      have hsame : m.record event = m := by simp [Machine.record, hw]
      rw [hsame, Continues.since_self] at ht
      cases ht

end Quiet

end Machine

/-- The computation runs no node and stays in its place. -/
def Run.Quiet ⦃α : Type⦄ (x : Run α) : Prop :=
  Run.Moves Machine.Quiet x

namespace Run.Quiet

variable {α β : Type}

theorem bind {x : Run α} {f : α → Run β} (hx : Run.Quiet x) (hf : ∀ a, Run.Quiet (f a)) :
    Run.Quiet (x >>= f) :=
  Run.Moves.bind .trans hx hf

theorem pure (a : α) : Run.Quiet (Pure.pure a : Run α) := fun m => .refl m

theorem stop (s : Stop) : Run.Quiet (throw s : Run α) := fun m => .refl m

theorem look (g : Situation → α) : Run.Quiet (look g) := fun m => .refl m

theorem note {event : Event} (h : event.isRun = false) :
    Run.Quiet (note event) := fun m => .record m h

theorem change {f : Situation → Situation} (h : ∀ s, (f s).place = s.place) :
    Run.Quiet (change f) :=
  fun m => .update m h

theorem sequential : Sequential Run.Quiet where
  pure := pure
  bind := bind
  failed _ := stop _
  look := look
  note _ h := note (Event.isRun_of_isPlain h)

/-- The steps that run nothing below them are quiet. -/
theorem elementary (w : World) : Elementary w Run.Quiet where
  toSequential := sequential
  write line text m := by
    rw [Run.final_write]
    exact .update m fun _ => rfl
  flush line m := by
    rw [Run.final_flush]
    exact .refl m
  readLine line m := by
    rw [Run.final_readLine]
    exact .update m fun _ => rfl
  assign := sequential.assign fun _ => change fun _ => rfl
  declare := sequential.declare fun _ => change fun _ => rfl
  answer _ _ := (note rfl).bind fun _ => change fun _ => rfl
  runFree names line := (note rfl).bind fun _ =>
    sequential.freeNames (fun _ => change fun _ => rfl) line names
  runFreeAll := bind (change fun _ => rfl) fun _ => note rfl
  runExtern source nickname line := (note rfl).bind fun _ =>
    sequential.bindModule (fun _ _ => change fun _ => rfl) source line

/-- Reading and loading a file is quiet, also when the file is refused. -/
theorem prepare (inserting : Bool) (source : String) : Run.Quiet (prepare inserting source) := by
  have hrefuse : ∀ failure, Run.Quiet (refuse inserting failure : Run NodeId) :=
    fun failure => (note rfl).bind fun _ => stop _
  intro m
  have hsettle : ∀ w, Machine.Quiet m (m.update (Situation.settle w)) :=
    fun w => .update m fun _ => rfl
  rw [Run.final, prepare_eq_workshop]
  cases Workshop.prepare inserting source m.forest m.registry with
  | ok root w => exact hsettle w
  | error failure w => exact (hsettle w).trans (hrefuse failure _)

theorem inserted (w : World) (path : Path) (line : Nat) :
    Run.Quiet (Engine.inserted w path line) :=
  sequential.inserted (note rfl) (prepare true) (fun _ => change fun _ => rfl) line

end Run.Quiet

/-! ### Files under way -/

/-- In the account `past`, the latest moment first, the moment `t` is in the file whose tree `root`
began to run at the moment `start`: nothing has happened outside of the file since.  The base
directory is the one that the file began with, and as long as the file has made no call that is
still under way, the nodes that are run are nodes of its tree. -/
structure Underway (f : Forest) (past : List Moment) (t start : Moment) (root : NodeId) : Prop where
  past_eq : ∃ between before, past = between ++ start :: before ∧
    ∀ b ∈ between, t.situation.inserting <:+ b.situation.inserting
  runs : start.event = .runs root
  inserting : start.situation.inserting = t.situation.inserting
  baseDir : start.situation.baseDir = t.situation.baseDir
  depth : start.situation.depth ≤ t.situation.depth
  home : start.situation.depth = t.situation.depth → ∀ id, t.event = .runs id → root ∈ f.lineage id

/-- The moment begins the run of an inserted file: its tree is the one known by its path, and the
base directory is its own. -/
def Moment.BeginsFile (t : Moment) (root : NodeId) : Prop :=
  ∃ path rest, t.situation.inserting = path :: rest ∧
    t.situation.inserted.get? path.components = some root ∧
    t.situation.baseDir = path.parent?.getD .empty

theorem Forest.Grown.mem_lineage {f g : Forest} (h : f.Grown g) (hf : f.WellFormed)
    (hg : g.WellFormed) {a x : NodeId} (ha : a ∈ f.lineage x) : a ∈ g.lineage x := by
  by_cases hx : x < f.size
  · rw [h.le.lineage hf hg hx]
    exact ha
  · -- Beyond the forest a node has no one above it.
    rcases (mem_lineage_iff hf).mp ha with rfl | ⟨hp, _⟩
    · exact mem_lineage_self hg _
    · refine absurd ?_ hp
      rw [parent, node_of_size_le (Nat.le_of_not_lt hx)]

namespace Underway

variable {f g : Forest} {past : List Moment} {t start : Moment} {root : NodeId}

theorem mono (h : Underway f past t start root) (hle : f.Grown g) (hf : f.WellFormed)
    (hg : g.WellFormed) : Underway g past t start root :=
  { h with home := fun hd id hid => hle.mem_lineage hf hg (h.home hd id hid) }

theorem append (h : Underway f past t start root) (older : List Moment) :
    Underway f (past ++ older) t start root := by
  obtain ⟨between, before, hpast, hbetween⟩ := h.past_eq
  refine { h with past_eq := ⟨between, before ++ older, ?_, hbetween⟩ }
  rw [hpast, List.append_assoc, List.cons_append]

end Underway

namespace Machine

/-- What the moments between two machines of a run tell: what happens in the same files as before
happens in the same directory, and the nodes that are run in the same calls are below one of the
nodes `tops`; what happens in other files happens in files inserted meanwhile. -/
structure Tells (tops : List NodeId) (m m' : Machine) : Prop where
  continues : Continues m m'
  inside : ∀ t ∈ since m m', m.inserting <:+ t.situation.inserting
  home : ∀ t ∈ since m m', t.situation.inserting = m.inserting →
    t.situation.baseDir = m.baseDir ∧ m.depth ≤ t.situation.depth ∧
      (m.depth = t.situation.depth → ∀ id, t.event = .runs id →
        ∃ top ∈ tops, top ∈ m'.forest.lineage id)
  files : ∀ t earlier, t :: earlier <:+ since m m' → t.situation.inserting ≠ m.inserting →
    ∃ start root, Underway m'.forest (t :: earlier) t start root ∧ start.BeginsFile root

/-- The second machine comes later in a run than the first one, in the same calls, loops and
files. -/
structure Ran (tops : List NodeId) (m m' : Machine) : Prop where
  evolves : m.Evolves Filled m'
  returns : m.Returns m'
  tells : m.Tells tops m'

namespace Tells

variable {tops : List NodeId} {m m₁ m₂ : Machine}

theorem mono (h : Tells tops m m₁) {tops' : List NodeId} (hsub : tops ⊆ tops') :
    Tells tops' m m₁ where
  continues := h.continues
  inside := h.inside
  home t ht hi := by
    obtain ⟨hbase, hdepth, hrun⟩ := h.home t ht hi
    refine ⟨hbase, hdepth, fun hd id hid => ?_⟩
    obtain ⟨top, htop, hmem⟩ := hrun hd id hid
    exact ⟨top, hsub htop, hmem⟩
  files := h.files

theorem of_quiet (h : Quiet m m₁) : Tells tops m m₁ where
  continues := h.continues
  inside t ht := by
    have hplace := (h.moments t ht).2
    simp only [Situation.place, Prod.mk.injEq] at hplace
    exact hplace.2.1.symm ▸ List.suffix_rfl
  home t ht hi := by
    obtain ⟨hevent, hplace⟩ := h.moments t ht
    simp only [Situation.place, Prod.mk.injEq] at hplace
    obtain ⟨hbase, _, hdepth⟩ := hplace
    refine ⟨hbase, Nat.le_of_eq hdepth.symm, fun _ id hid => ?_⟩
    rw [hid] at hevent
    cases hevent
  files t earlier ht hi := by
    have hplace := (h.moments t (ht.subset (List.mem_cons_self ..))).2
    simp only [Situation.place, Prod.mk.injEq] at hplace
    exact absurd hplace.2.1 hi

/-- Two parts of a run, of which the first one ends where it began. -/
theorem trans (h₁ : Tells tops m m₁) (h₂ : Tells tops m₁ m₂) (hplace : m₁.place = m.place)
    (hgrown : m₁.forest.Grown m₂.forest) (hwf₁ : m₁.forest.WellFormed)
    (hwf₂ : m₂.forest.WellFormed) : Tells tops m m₂ := by
  have hsince := Continues.since_trans h₁.continues h₂.continues
  simp only [Situation.place, Prod.mk.injEq] at hplace
  obtain ⟨hbase, hinserting, hdepth⟩ := hplace
  constructor
  · exact h₁.continues.trans h₂.continues
  · intro t ht
    rw [hsince] at ht
    rcases List.mem_append.mp ht with ht | ht
    · exact hinserting ▸ h₂.inside t ht
    · exact h₁.inside t ht
  · intro t ht hi
    rw [hsince] at ht
    rcases List.mem_append.mp ht with ht | ht
    · have hhome := h₂.home t ht (hi.trans hinserting.symm)
      rw [hbase, hdepth] at hhome
      exact hhome
    · -- What was below a node is below it still.
      obtain ⟨hsame, hdeep, hrun⟩ := h₁.home t ht hi
      refine ⟨hsame, hdeep, fun hd id hid => ?_⟩
      obtain ⟨top, htop, hmem⟩ := hrun hd id hid
      exact ⟨top, htop, hgrown.mem_lineage hwf₁ hwf₂ hmem⟩
  · intro t earlier ht hi
    rw [hsince] at ht
    rcases List.cons_suffix_append_cases ht with ⟨newer, hnew, rfl⟩ | ht
    · rw [← hinserting] at hi
      obtain ⟨start, root, hunder, hbegins⟩ := h₂.files t newer hnew hi
      exact ⟨start, root, hunder.append _, hbegins⟩
    · obtain ⟨start, root, hunder, hbegins⟩ := h₁.files t earlier ht hi
      exact ⟨start, root, hunder.mono hgrown hwf₁ hwf₂, hbegins⟩

/-- A moment of a machine may come first. -/
theorem of_record {event : Event} (he : event.isRun = false) (h : Tells tops (m.record event) m₁)
    (hgrown : m.forest.Grown m₁.forest) (hwf : m.forest.WellFormed) (hwf₁ : m₁.forest.WellFormed) :
    Tells tops m m₁ := by
  have hrecord : Quiet m (m.record event) := .record m he
  have hsame : (m.record event).forest = m.forest := by rw [toSituation_record]
  exact (of_quiet hrecord).trans h hrecord.place (hsame ▸ hgrown) (hsame ▸ hwf) hwf₁

/-- What is told does not depend on what the machines have besides. -/
theorem congr {k k₁ : Machine} (h : Tells tops m m₁) (hm : k.place = m.place)
    (ha : k.account = m.account) (hw : k.watched = m.watched) (hf : k₁.forest = m₁.forest)
    (ha₁ : k₁.account = m₁.account) (hw₁ : k₁.watched = m₁.watched) : Tells tops k k₁ := by
  have hsince : since k k₁ = since m m₁ := by rw [since, since, ha, ha₁]
  simp only [Situation.place, Prod.mk.injEq] at hm
  obtain ⟨hbase, hinserting, hdepth⟩ := hm
  constructor
  · exact ⟨by rw [hw, hw₁, h.continues.watched], by rw [ha, ha₁]; exact h.continues.account⟩
  · rw [hsince, hinserting]
    exact h.inside
  · rw [hsince, hinserting, hbase, hdepth, hf]
    exact h.home
  · rw [hsince, hinserting, hf]
    exact h.files

end Tells

namespace Ran

variable {tops : List NodeId} {m m₁ m₂ : Machine}

theorem mono (h : Ran tops m m₁) {tops' : List NodeId} (hsub : tops ⊆ tops') : Ran tops' m m₁ :=
  { h with tells := h.tells.mono hsub }

theorem wellFormed (h : Ran tops m m₁) : m₁.forest.WellFormed :=
  h.evolves.sane.good.forest.wellFormed

theorem watched (h : Ran tops m m₁) (hw : m.watched = true) : m₁.watched = true :=
  h.tells.continues.watched.trans hw

theorem refl (hm : m.Sane Filled) : Ran tops m m :=
  ⟨.refl hm, .refl m, .of_quiet (.refl m)⟩

theorem place (h : Ran tops m m₁) : m₁.place = m.place := by
  rw [Situation.place, Situation.place, h.returns.baseDir, h.returns.inserting, h.returns.depth]

theorem trans (hm : m.Sane Filled) (h₁ : Ran tops m m₁) (h₂ : Ran tops m₁ m₂) : Ran tops m m₂ where
  evolves := h₁.evolves.trans hm h₂.evolves
  returns := h₁.returns.trans h₂.returns
  tells := h₁.tells.trans h₂.tells h₁.place h₂.evolves.grown h₁.wellFormed h₂.wellFormed

/-- What is below nodes that are below a node is below that node. -/
theorem below (hm : m.Sane Filled) (h : Ran tops m m₁) {id : NodeId}
    (hid : ∀ top ∈ tops, id ∈ m.forest.lineage top) : Ran [id] m m₁ := by
  have hwf := hm.good.forest.wellFormed
  refine { h with tells := { h.tells with home := fun t ht hi => ?_ } }
  obtain ⟨hbase, hdepth, hrun⟩ := h.tells.home t ht hi
  refine ⟨hbase, hdepth, fun hd x hx => ?_⟩
  obtain ⟨top, htop, hmem⟩ := hrun hd x hx
  have hup := h.evolves.grown.mem_lineage hwf h.wellFormed (hid top htop)
  exact ⟨id, List.mem_singleton_self id, mem_lineage_trans h.wellFormed hup hmem⟩

end Ran

end Machine

/-- The computation leads on in a run, and runs nothing but what is below the nodes `tops`, except
in calls and in inserted files. -/
def Run.Ran (tops : List NodeId) ⦃α : Type⦄ (x : Run α) : Prop :=
  Run.Moves (fun m m' => m.Sane Filled → m.watched = true → m.Ran tops m') x

namespace Run.Ran

variable {tops : List NodeId} {α β : Type}

/-- A computation and one that follows it, on a machine on which the first one is known. -/
theorem bind_of {x : Run α} {f : α → Run β} {m : Machine} (hm : m.Sane Filled)
    (hx : m.Ran tops (Run.final x m))
    (hf : ∀ a m', x m = .ok a m' → m.Ran tops m' → m'.Ran tops (Run.final (f a) m')) :
    m.Ran tops (Run.final (x >>= f) m) :=
  Run.final_bind_of hx fun a m' h h' => h'.trans hm (hf a m' h h')

theorem bind {x : Run α} {f : α → Run β} (hx : Run.Ran tops x) (hf : ∀ a, Run.Ran tops (f a)) :
    Run.Ran tops (x >>= f) :=
  fun m hm hw => bind_of hm (hx m hm hw) fun a m' _ h => hf a m' h.evolves.sane (h.watched hw)

theorem mono {x : Run α} (hx : Run.Ran tops x) {tops' : List NodeId} (hsub : tops ⊆ tops') :
    Run.Ran tops' x :=
  fun m hm hw => (hx m hm hw).mono hsub

/-- A quiet computation runs nothing at all. -/
theorem of_quiet {x : Run α} (he : Run.Evolves Filled x) (hr : Run.Returns x) (hq : Run.Quiet x) :
    Run.Ran tops x :=
  fun m hm _ => ⟨he m hm, hr m, .of_quiet (hq m)⟩

theorem look (g : Situation → α) : Run.Ran tops (look g) :=
  of_quiet (.look g) (.look g) (.look g)

theorem pure (a : α) : Run.Ran tops (Pure.pure a : Run α) :=
  of_quiet (.refl fun _ => rfl) (fun m => .refl m) (.pure a)

theorem stop (s : Stop) : Run.Ran tops (throw s : Run α) :=
  of_quiet (.refl fun _ => rfl) (fun m => .refl m) (.stop s)

theorem evolves_stepwise (w : World) : Stepwise w (Run.Evolves Filled) :=
  Run.Evolves.stepwise fun _ source _ => Workshop.keeps_filled source

theorem sequential : Sequential (Run.Ran tops) where
  pure := pure
  bind := bind
  failed _ := stop _
  look := look
  note event h := of_quiet (.note event) (.note event) (.note (Event.isRun_of_isPlain h))

/-- The steps that run nothing below them. -/
theorem elementary (w : World) : Elementary w (Run.Ran tops) :=
  have he := evolves_stepwise w
  have hr := Run.Returns.closed w
  have hq := Run.Quiet.elementary w
  { toSequential := sequential
    write := fun _ _ => of_quiet (he.write _ _) (hr.write _ _) (hq.write _ _)
    flush := fun _ => of_quiet (he.flush _) (hr.flush _) (hq.flush _)
    readLine := fun _ => of_quiet (he.readLine _) (hr.readLine _) (hq.readLine _)
    assign := fun _ _ _ => of_quiet (he.assign _ _ _) (hr.assign _ _ _) (hq.assign _ _ _)
    declare := fun _ _ _ _ =>
      of_quiet (he.declare _ _ _ _) (hr.declare _ _ _ _) (hq.declare _ _ _ _)
    answer := fun _ _ => of_quiet (he.answer _ _) (hr.answer _ _) (hq.answer _ _)
    runFree := fun _ _ => of_quiet (he.runFree _ _) (hr.runFree _ _) (hq.runFree _ _)
    runFreeAll := of_quiet he.runFreeAll hr.runFreeAll hq.runFreeAll
    runExtern := fun _ _ _ =>
      of_quiet (he.runExtern _ _ _) (hr.runExtern _ _ _) (hq.runExtern _ _ _) }

/-! ### Calls, loops and files -/

/-- In a call there is one call more under way, so nothing in it is on the level of the caller. -/
theorem duringCall (f : Function) (args : List Value) {x : Run Flow} (he : Run.Evolves Filled x)
    (hr : Run.Returns x) (hx : Run.Ran tops x) : Run.Ran [] (Engine.duringCall f args x) := by
  intro m hm hw
  have hevolves := Run.Evolves.duringCall f args he m hm
  refine ⟨hevolves, Run.Returns.duringCall f args hr m, ?_⟩
  -- The machine with the call on its account, in the call, with the parameters bound, and behind
  -- the body.
  let k := m.record (.answers f.name)
  let k₁ := k.update fun s =>
    { s with registry := Engine.beginCall f s.registry, depth := s.depth + 1 }
  let k₂ := m.entered f args
  let k₃ := Run.final x k₂
  have hk₂ : k₂.Sane Filled := (Evolves.entered hm f args).sane
  have hparams : Machine.Quiet k₁ k₂ := (Machine.Quiet.record k₁ rfl).trans (.update _ fun _ => rfl)
  have hbody : k₂.Ran tops k₃ := hx k₂ hk₂ (continues_entered.watched.trans hw)
  have hinside : Tells tops k₁ k₃ := (Tells.of_quiet hparams).trans hbody.tells hparams.place
    hbody.evolves.grown hk₂.good.forest.wellFormed hbody.wellFormed
  have hcall : Tells [] k (k₃.update fun s =>
      { s with registry := s.registry.popFrame, depth := s.depth - 1 }) := by
    constructor
    · exact ⟨hinside.continues.watched, hinside.continues.account⟩
    · exact hinside.inside
    · intro t ht hi
      obtain ⟨hbase, hdepth, _⟩ := hinside.home t ht hi
      have hdeeper : k.depth + 1 ≤ t.situation.depth := hdepth
      refine ⟨hbase, by omega, fun hd => ?_⟩
      omega
    · exact hinside.files
  rw [Run.final_duringCall] at hevolves ⊢
  exact hcall.of_record rfl hevolves.grown hm.good.forest.wellFormed
    hevolves.sane.good.forest.wellFormed

/-- A loop over a list is in one place, and runs what its body runs. -/
theorem duringLoop (e : Engine) (item : String) (body : NodeId) (values : List Value)
    (he : Run.Evolves Filled (e.force body)) (hr : Run.Returns (e.force body))
    (hb : Run.Ran [body] (e.force body)) :
    Run.Ran [body] (Engine.duringLoop item (e.runItems item body values)) := by
  intro m hm hw
  have hevolves := Run.Evolves.duringLoop e item body values he m hm
  refine ⟨hevolves, Run.Returns.duringLoop e item body values hr m, ?_⟩
  have hitems : ∀ values, Run.Ran [body] (e.runItems item body values) := by
    intro values
    induction values with
    | nil => exact pure _
    | cons v rest ih =>
      rw [Engine.runItems]
      refine bind (sequential.make (of_quiet ?_ ?_ (.change fun _ => rfl))) fun _ =>
        hb.bind fun flow => ?_
      · exact .onRegistry fun {f r} hr => hr.define item (.ofVariable f v none)
      · exact fun m => .of_keys rfl rfl rfl
      · split
        · exact ih
        · exact pure _
        · exact pure _
  let k := m.record (.makes [(item, .ofVariable .none none)])
  let k₁ := k.update (Situation.onRegistry fun r => r.pushItem item)
  have hk : k.Sane Filled := (Evolves.record hm _).sane
  have hpush : k.Evolves Filled k₁ := .aside hk rfl rfl rfl (hk.good.registry.pushItem item)
  have hw₁ : k₁.watched = true := (Continues.record m _).watched.trans hw
  rw [Engine.duringLoop, Run.final_make_bind, Run.final_ensuring] at hevolves ⊢
  have hloop : Tells [body] k ((Run.final (e.runItems item body values) k₁).update
      (Situation.onRegistry Registry.popItem)) :=
    (hitems values k₁ hpush.sane hw₁).tells.congr rfl rfl rfl rfl rfl rfl
  exact hloop.of_record rfl hevolves.grown hm.good.forest.wellFormed
    hevolves.sane.good.forest.wellFormed

end Run.Ran

/-! ### Nodes -/

/-- The engine runs with a statement only what is below it, and with an expression nothing; the
first thing that happens with a statement is that it is run. -/
structure Engine.KeepsHome (e : Engine) : Prop where
  evolves : e.Within (Run.Evolves Filled)
  returns : e.Within Run.Returns
  execute : ∀ id, Run.Ran [id] (e.execute id)
  force : ∀ id, Run.Ran [id] (e.force id)
  eval : ∀ s, Run.Ran [] (e.eval s)
  first : ∀ id (m : Machine), m.Sane Filled → m.watched = true → ∀ (t : Moment) earlier,
    t :: earlier <:+ since m (Run.final (e.execute id) m) →
    ∃ between, t :: earlier = between ++ [⟨.runs id, m.toSituation⟩]

namespace Engine.KeepsHome

variable {w : World} {e : Engine} (he : e.KeepsHome)
include he

theorem values : e.Values (Run.Ran []) :=
  ⟨he.eval, fun f args line => Run.Ran.sequential.callScript
    (.duringCall f args (he.evolves.force _) (he.returns.force _) (he.force _)) line⟩

/-- While a tree is run, what happens in the same files happens in the run that began with its
root. -/
theorem underway (root : NodeId) {m : Machine} (hm : m.Sane Filled) (hw : m.watched = true)
    {t : Moment} {earlier : List Moment}
    (ht : t :: earlier <:+ since m (Run.final (e.execute root) m))
    (hi : t.situation.inserting = m.inserting) :
    Underway (Run.final (e.execute root) m).forest (t :: earlier) t ⟨.runs root, m.toSituation⟩
      root := by
  have htells := (he.execute root m hm hw).tells
  obtain ⟨between, hpast⟩ := he.first root m hm hw t earlier ht
  obtain ⟨hbase, hdepth, hrun⟩ := htells.home t (ht.subset (List.mem_cons_self ..)) hi
  constructor
  · refine ⟨between, [], hpast, fun b hb => ?_⟩
    have hb' : b ∈ t :: earlier := hpast ▸ List.mem_append_left _ hb
    rw [hi]
    exact htells.inside b (ht.subset hb')
  · rfl
  · exact hi.symm
  · exact hbase.symm
  · exact hdepth
  · intro hd id hid
    obtain ⟨top, htop, hlineage⟩ := hrun hd id hid
    rw [List.mem_singleton.mp htop] at hlineage
    exact hlineage

/-- A file that is inserted runs in its own directory. -/
theorem duringFile (path : Path) (root : NodeId) {m : Machine} (hm : m.Sane Filled)
    (hw : m.watched = true) (hroot : m.inserted.get? path.components = some root) :
    m.Ran [] (Run.final (Engine.duringFile path (e.execute root)) m) := by
  have hevolves := Run.Evolves.duringFile path (he.evolves.execute root) m hm
  refine ⟨hevolves, Run.Returns.duringFile path (he.returns.execute root) m, ?_⟩
  let m₁ := m.update fun s =>
    { s with baseDir := path.parent?.getD .empty, inserting := path :: s.inserting }
  have henter : m.Evolves Filled m₁ := .aside hm rfl rfl rfl hm.good.registry
  have hfile := (he.execute root m₁ henter.sane hw).tells
  have hinside : ∀ t ∈ since m₁ (Run.final (e.execute root) m₁),
      path :: m.inserting <:+ t.situation.inserting := hfile.inside
  -- Inside the file the list of files is longer, so nothing happens where the statement stands.
  have hlonger : ∀ t ∈ since m₁ (Run.final (e.execute root) m₁),
      t.situation.inserting ≠ m.inserting := by
    intro t ht hi
    have hlen := (hinside t ht).length_le
    rw [hi, List.length_cons] at hlen
    omega
  rw [Engine.duringFile, Run.final_look_bind, Run.final_change_bind, Run.final_ensuring]
  constructor
  · exact ⟨hfile.continues.watched, hfile.continues.account⟩
  · intro t ht
    exact (List.suffix_cons path m.inserting).trans (hinside t ht)
  · intro t ht hi
    exact absurd hi (hlonger t ht)
  · intro t earlier ht _
    by_cases hi : t.situation.inserting = m₁.inserting
    · exact ⟨_, root, he.underway root henter.sane hw ht hi, path, m.inserting, rfl, hroot, rfl⟩
    · exact hfile.files t earlier ht hi

theorem runInsert (target : Sequence) (line : Nat) : Run.Ran [] (e.runInsert w target line) := by
  have hnote : ∀ event : Event, event.isRun = false → Run.Ran [] (Machine.note event) :=
    fun event h => .of_quiet (.note event) (.note event) (.note h)
  apply (hnote .inserts rfl).bind
  intro _
  refine Run.Ran.sequential.runTarget (he.eval target) fun path => ?_
  apply (hnote (.finds path) rfl).bind
  intro _ m hm hw
  have hinserted : Run.Ran [] (Engine.inserted w path line) :=
    .of_quiet (.inserted (fun _ source _ => Workshop.keeps_filled source) path line)
      (.inserted w path line) (.inserted w path line)
  refine Run.Ran.bind_of hm (hinserted m hm hw) fun root m₁ hroot h₁ => ?_
  have hw₁ : m₁.watched = true := h₁.watched hw
  have henters := hnote (.enters path root) rfl m₁ h₁.evolves.sane hw₁
  refine Run.Ran.bind_of h₁.evolves.sane henters fun _ m₂ hm₂ h₂ => ?_
  refine Run.Ran.bind_of h₂.evolves.sane ?_ fun _ m₃ _ h₃ => .refl h₃.evolves.sane
  refine he.duringFile path root h₂.evolves.sane (h₂.watched hw₁) ?_
  cases hm₂
  rw [toSituation_record]
  exact Engine.get?_of_inserted hroot

/-! #### Blocks and loops -/

theorem runBlock (ids : List NodeId) : Run.Ran ids (e.runBlock ids) := by
  induction ids with
  | nil => exact .pure _
  | cons id rest ih =>
    rw [Engine.runBlock]
    refine ((he.execute id).mono (by simp)).bind fun flow => ?_
    split
    · exact ih.mono (List.subset_cons_self id rest)
    · exact .pure _

section

variable (w)
include w

theorem nodeValue (id : NodeId) {tops : List NodeId} : Run.Ran tops (e.nodeValue id) :=
  ((Run.Ran.elementary w).nodeValue he.values id).mono (List.nil_subset _)

theorem condition (id : NodeId) (line : Nat) {tops : List NodeId} :
    Run.Ran tops (e.condition id line) :=
  ((Run.Ran.elementary w).condition he.values id line).mono (List.nil_subset _)

theorem runWhile (test body : NodeId) (line passes : Nat) :
    Run.Ran [body] (e.runWhile test body line passes) := by
  induction passes with
  | zero => exact .stop _
  | succ n ih =>
    rw [Engine.runWhile]
    apply (he.condition w test line).bind
    intro holds
    split
    · refine (he.force body).bind fun flow => ?_
      split
      · exact ih
      · exact .pure _
      · exact .pure _
    · exact .pure _

theorem runRepeat (count body : NodeId) (line : Nat) :
    Run.Ran [body] (e.runRepeat count body line) := by
  have htimes : ∀ times, Run.Ran [body] (e.runTimes body times) := by
    intro times
    induction times with
    | zero => exact .pure _
    | succ n ih =>
      rw [Engine.runTimes]
      refine (he.force body).bind fun flow => ?_
      split
      · exact ih
      · exact .pure _
      · exact .pure _
  unfold Engine.runRepeat
  apply (he.nodeValue w count).bind
  intro v
  split
  · exact htimes _
  · exact .stop _

end

theorem runForeach (item : String) (collection : Sequence) (body : NodeId) (line : Nat) :
    Run.Ran [body] (e.runForeach item collection body line) := by
  unfold Engine.runForeach
  apply ((he.eval collection).mono (List.nil_subset _)).bind
  intro v
  split
  · exact .duringLoop e item body _ (he.evolves.force body) (he.returns.force body) (he.force body)
  · exact .stop _

/-! #### Branches -/

omit he in
/-- Arming a branch that may be switched runs nothing. -/
theorem arm {m : Machine} (hm : m.Sane Filled) {chained : Option NodeId}
    (hc : ∀ next, chained = some next → m.forest.Armable next) (on : Bool) {tops : List NodeId} :
    m.Ran tops (Run.final (Engine.arm chained on) m) := by
  have hevolves := Run.Evolves.arm hm hc on
  cases chained with
  | none => exact .refl hm
  | some next => exact ⟨hevolves, .of_keys rfl rfl rfl, .of_quiet (.update m fun _ => rfl)⟩

theorem runBranch (w : World) {m : Machine} (hm : m.Sane Filled) (hw : m.watched = true)
    {id : NodeId} {opening : Bool} {test body : NodeId} {chained : Option NodeId} (line : Nat)
    (hs : m.forest.shape id = .branch opening test body chained) :
    m.Ran [body] (Run.final (e.runBranch id opening test body chained line) m) := by
  obtain ⟨hself, hnext⟩ := hm.good.forest.armable_of_branch hs
  unfold Engine.runBranch
  refine Run.Ran.bind_of hm (arm hm hself false) fun _ m₁ _ h₁ => ?_
  have hw₁ := h₁.watched hw
  refine Run.Ran.bind_of h₁.evolves.sane (he.condition w test line m₁ h₁.evolves.sane hw₁)
    fun holds m₂ _ h₂ => ?_
  have h₁₂ := h₁.evolves.trans hm h₂.evolves
  have hnext₂ : ∀ next, chained = some next → m₂.forest.Armable next :=
    fun next hn => h₁₂.armable hm (hnext next hn)
  refine Run.Ran.bind_of h₂.evolves.sane (arm h₂.evolves.sane hnext₂ !holds) fun _ m₃ _ h₃ => ?_
  split
  · exact he.force body m₃ h₃.evolves.sane (h₃.watched (h₂.watched hw₁))
  · exact .refl h₃.evolves.sane

theorem runElse {m : Machine} (hm : m.Sane Filled) (hw : m.watched = true) {id body : NodeId}
    (hs : m.forest.shape id = .else_ body) : m.Ran [body] (Run.final (e.runElse id body) m) := by
  have harm := hm.good.forest.armable_of_else hs
  have hself : ∀ next, some id = some next → m.forest.Armable next := by
    intro next hn
    cases hn
    exact harm
  unfold Engine.runElse
  refine Run.Ran.bind_of hm (arm hm hself false) fun _ m₁ _ h₁ => ?_
  exact he.force body m₁ h₁.evolves.sane (h₁.watched hw)

/-! #### All nodes -/

theorem runShape (w : World) (passes : Nat) {m : Machine} (hm : m.Sane Filled)
    (hw : m.watched = true) (id : NodeId) (line : Nat) :
    m.Ran [id] (Run.final (e.runShape w passes id line (m.forest.shape id)) m) := by
  have hwf := hm.good.forest.wellFormed
  -- What is run below a child is run below the node.
  have hchild : ∀ c ∈ m.forest.children id, id ∈ m.forest.lineage c := by
    intro c hc
    obtain ⟨_, hne, hparent⟩ := (hwf.mem_children id c).mp hc
    refine (mem_lineage_iff hwf).mpr (.inr ⟨?_, ?_⟩)
    · rw [hparent]
      exact Ne.symm hne
    · rw [hparent]
      exact mem_lineage_self hwf id
  have hbody : ∀ {body m'}, body ∈ m.forest.children id → m.Ran [body] m' → m.Ran [id] m' := by
    intro body m' hb h
    refine h.below hm fun top htop => ?_
    rw [List.mem_singleton.mp htop]
    exact hchild body hb
  have hfit := hm.good.forest.sound id
  cases hs : m.forest.shape id with
  | block =>
    show m.Ran [id] (Run.final (e.runBlock (m.forest.children id)) m)
    exact (he.runBlock (m.forest.children id) m hm hw).below hm hchild
  | branch opening test body chained =>
    rw [hs] at hfit
    exact hbody hfit.2.2.1.1 (he.runBranch w hm hw line hs)
  | else_ body =>
    rw [hs] at hfit
    exact hbody hfit.2.1.1 (he.runElse hm hw hs)
  | while_ test body =>
    rw [hs] at hfit
    exact hbody hfit.2.2.1 (he.runWhile w test body line passes m hm hw)
  | repeat_ count body =>
    rw [hs] at hfit
    exact hbody hfit.2.2.1 (he.runRepeat w count body line m hm hw)
  | foreach item collection body =>
    rw [hs] at hfit
    exact hbody hfit.2.2.1 (he.runForeach item collection body line m hm hw)
  | local_ body =>
    rw [hs] at hfit
    exact hbody hfit.2.1 (he.force body m hm hw)
  | insert target => exact (he.runInsert target line m hm hw).mono (List.nil_subset _)
  | _ =>
    exact ((Run.Ran.elementary w).runShape he.values passes id line rfl m hm hw).mono
      (List.nil_subset _)

omit he in
theorem record (id : NodeId) {m : Machine} (hm : m.Sane Filled) (hw : m.watched = true) :
    m.Ran [id] (m.record (.runs id)) := by
  refine ⟨.record hm _, .record m _, ?_⟩
  have hsince := Continues.since_record hw (.runs id)
  constructor
  · exact .record m _
  · rw [hsince]
    intro t ht
    exact List.mem_singleton.mp ht ▸ List.suffix_rfl
  · rw [hsince]
    intro t ht _
    rw [List.mem_singleton.mp ht]
    refine ⟨rfl, Nat.le_refl _, fun _ x hx => ⟨id, List.mem_singleton_self id, ?_⟩⟩
    cases hx
    rw [toSituation_record]
    exact mem_lineage_self hm.good.forest.wellFormed id
  · rw [hsince]
    intro t earlier ht hi
    have hmem := ht.subset (List.mem_cons_self ..)
    rw [List.mem_singleton.mp hmem] at hi
    exact absurd rfl hi

/-- A node runs nothing but what is below it, and itself first. -/
theorem runNode (w : World) (passes : Nat) (id : NodeId) {m : Machine} (hm : m.Sane Filled)
    (hw : m.watched = true) :
    m.Ran [id] (Run.final (e.runNode w passes id) m) ∧
      ∀ (t : Moment) earlier, t :: earlier <:+ since m (Run.final (e.runNode w passes id) m) →
        ∃ between, t :: earlier = between ++ [⟨.runs id, m.toSituation⟩] := by
  have hstart := record id hm hw
  rw [Engine.runNode_eq, Run.final_note_bind, Run.final_look_bind, Run.final_look_bind]
  have hrest := he.runShape w passes hstart.evolves.sane (hstart.watched hw) id
    ((m.record (.runs id)).forest.line id)
  refine ⟨hstart.trans hm hrest, fun t earlier ht => ?_⟩
  rw [Continues.since_trans hstart.tells.continues hrest.tells.continues,
    Continues.since_record hw] at ht
  rcases List.cons_suffix_append_cases ht with ⟨newer, _, rfl⟩ | ht
  · exact ⟨t :: newer, rfl⟩
  · obtain ⟨before, hbefore⟩ := ht
    cases before with
    | nil => exact ⟨[], hbefore⟩
    | cons b before => simp at hbefore

end Engine.KeepsHome

/-! ### The machine -/

/-- Everything that a machine runs keeps home. -/
theorem Machine.engine_keepsHome (w : World) (n : Nat) : (engine w n).KeepsHome := by
  have hreturns := Run.Returns.closed w
  have hevolves : ∀ n, (engine w n).Within (Run.Evolves Filled) :=
    Run.Evolves.engine fun _ source _ => Workshop.keeps_filled source
  -- From running and evaluating within a bound to the engine with this bound.
  have hengine : ∀ n, (∀ id, Run.Ran [id] (exec w n id)) → (∀ s, Run.Ran [] (eval w n s)) →
      (∀ id (m : Machine), m.Sane Filled → m.watched = true → ∀ (t : Moment) earlier,
        t :: earlier <:+ since m (Run.final (exec w n id) m) →
        ∃ between, t :: earlier = between ++ [⟨.runs id, m.toSituation⟩]) →
      (engine w n).KeepsHome := by
    intro n hexec heval hfirst
    constructor
    · exact hevolves n
    · exact hreturns.engine n
    · intro id
      show Run.Ran [id] (ifSwitchedOn (exec w n) id)
      unfold ifSwitchedOn
      apply (Run.Ran.look _).bind
      intro on
      split
      · exact hexec id
      · exact .pure _
    · intro id m hm hw
      refine ⟨(hevolves n).force id m hm, (hreturns.engine n).force id m, ?_⟩
      have hbody := hexec id (m.update (Situation.switch id true)) (hm.switchOn id) hw
      show m.Tells [id] (Run.final (switchingOn (exec w n) id) m)
      rw [switchingOn, Run.final_look_bind, Run.final_change_bind, Run.final_ensuring]
      exact hbody.tells.congr rfl rfl rfl rfl rfl rfl
    · exact heval
    · intro id m hm hw t earlier ht
      have hfinal : Run.final ((engine w n).execute id) m =
          Run.final (if m.switches.isOn id then exec w n id else pure .completed) m :=
        rfl
      rw [hfinal] at ht
      split at ht
      · exact hfirst id m hm hw t earlier ht
      · have hnone : since m (Run.final (pure .completed : Run Flow) m) = [] :=
          Continues.since_self m
        rw [hnone] at ht
        simp at ht
  induction n with
  | zero =>
    refine hengine 0 (fun _ => .stop _) (fun _ => .stop _) fun id m _ _ t earlier ht => ?_
    have hnone : since m (Run.final (exec w 0 id) m) = [] := Continues.since_self m
    rw [hnone] at ht
    simp at ht
  | succ n ih =>
    refine hengine (n + 1) ?_ ?_ ?_
    · exact fun id m hm hw => (ih.runNode w n id hm hw).1
    · intro s
      exact (Run.Ran.elementary w).reduce ((Run.Ran.elementary w).operand ih.values) s
    · exact fun id m hm hw => (ih.runNode w n id hm hw).2

/-- Evaluating a target does not change the directory from which it is seen. -/
theorem Engine.runTarget_of_eval {w : World} {e : Engine} {target : Sequence} {line : Nat}
    (he : Run.Returns (e.eval target)) {m m' : Machine} {text : String}
    (h : e.eval target m = .ok (.str text) m') :
    e.runTarget w target line m = e.runPath w (w.library.resolve m.baseDir text) line m' := by
  have hreturns := he m
  rw [Run.final_of_ok h] at hreturns
  rw [Engine.runTarget, Run.bind_of_ok h, ← hreturns.baseDir]
  rfl

namespace Session

/-- The files under way when a step begins to run. -/
def filesDuring (w : World) : Step → List Path
  | .source _ => []
  | .file target => [w.library.resolve .empty target]

/-- What is run with a source is run in its own tree, in the place where the source was given, or in
a file that has been inserted. -/
theorem runSource_underway (w : World) (n : Nat) (text : String) {m : Machine}
    (hm : m.Sane Filled) (hw : m.watched = true) {t : Moment} {earlier : List Moment}
    (ht : t :: earlier <:+ since m (Run.final (runSource w n text) m))
    (hrun : t.event.isRun = true) :
    ∃ start root, Underway (Run.final (runSource w n text) m).forest (t :: earlier) t start root ∧
      (start.BeginsFile root ∨ root = m.forest.size ∧ start.situation.place = m.place) := by
  have hquiet := Run.Quiet.prepare false text m
  have hevolves := Run.Evolves.prepare (Q := Filled) false (Workshop.keeps_filled text) m hm
  cases hprepare : prepare false text m with
  | error s m₁ =>
    -- A source that is refused runs nothing.
    rw [Run.final_of_error hprepare] at hquiet
    rw [runSource, Run.final_bind_of_error hprepare] at ht
    have hnone := (hquiet.moments t (ht.subset (List.mem_cons_self ..))).1
    rw [hrun] at hnone
    cases hnone
  | ok root m₁ =>
    rw [Run.final_of_ok hprepare] at hquiet hevolves
    have hw₁ : m₁.watched = true := hquiet.continues.watched.trans hw
    have hroot : root = m.forest.size := (isRoot_of_prepare hm.good hprepare).1
    have he := engine_keepsHome w n
    have htells := (he.execute root m₁ hevolves.sane hw₁).tells
    have hfinal : Run.final (runSource w n text) m = Run.final ((engine w n).execute root) m₁ := by
      rw [runSource, Run.final_bind_of_ok hprepare]
      cases hexecute : (engine w n).execute root m₁ with
      | ok flow m₂ =>
        rw [Run.final_bind_of_ok hexecute, Run.final_of_ok hexecute]
        rfl
      | error s m₂ => rw [Run.final_bind_of_error hexecute, Run.final_of_error hexecute]
    rw [hfinal, Continues.since_trans hquiet.continues htells.continues] at ht
    rw [hfinal]
    rcases List.cons_suffix_append_cases ht with ⟨newer, hnew, rfl⟩ | ht
    · by_cases hi : t.situation.inserting = m₁.inserting
      · have hunder := he.underway root hevolves.sane hw₁ hnew hi
        exact ⟨_, root, hunder.append _, .inr ⟨hroot, hquiet.place⟩⟩
      · obtain ⟨start, root', hunder, hbegins⟩ := htells.files t newer hnew hi
        exact ⟨start, root', hunder.append _, .inl hbegins⟩
    · have hnone := (hquiet.moments t (ht.subset (List.mem_cons_self ..))).1
      rw [hrun] at hnone
      cases hnone

/-- The same of a step that runs a file: the source of the step is that file. -/
theorem runFile_underway (w : World) (n : Nat) {target text : String}
    (hload : w.library.load (w.library.resolve .empty target) = .ok text) {m : Machine}
    (hm : m.Sane Filled) (hw : m.watched = true) {t : Moment} {earlier : List Moment}
    (ht : t :: earlier <:+ since m (Run.final (runFile w n target) m))
    (hrun : t.event.isRun = true) :
    let path := w.library.resolve .empty target
    ∃ start root, Underway (Run.final (runFile w n target) m).forest (t :: earlier) t start root ∧
      (start.BeginsFile root ∨ root = m.forest.size ∧ start.situation.place =
        (path.parent?.getD m.baseDir, path :: m.inserting, m.depth)) := by
  intro path
  let m₁ := m.update fun s =>
    { s with baseDir := path.parent?.getD s.baseDir, inserting := path :: s.inserting }
  have henter : m.Evolves Filled m₁ := .aside hm rfl rfl rfl hm.good.registry
  have hfinal : Run.final (runFile w n target) m = (Run.final (runSource w n text) m₁).update
      fun s => { s with inserting := s.inserting.tail } := by
    rw [runFile, hload]
    exact Run.final_ensuring ..
  -- Entering and leaving the file puts nothing on the account.
  have hsince : since m (Run.final (runFile w n target) m) =
      since m₁ (Run.final (runSource w n text) m₁) := by
    rw [hfinal]
    rfl
  rw [hsince] at ht
  rw [hfinal]
  exact runSource_underway w n text henter.sane hw ht hrun

/-- Whenever a step runs a node, the base directory is that of the innermost file under way: an
inserted file, whose run began with its own tree in its own directory, or the source of the step.
If this file has made no call that is still under way, the node is in its tree.  A target that
evaluates to a text is seen from the base directory at the moment when its statement is run. -/
theorem runStep_sees_from_innermost (w : World) {m : Machine} (hm : Reachable w m) (n : Nat)
    (s : Step) :
    (∀ t earlier id, t :: earlier <:+ Run.account (runStep w n s) m → t.event = .runs id →
      ∃ start root,
        Underway (Run.final (runStep w n s) m).forest (t :: earlier) t start root ∧
        (start.BeginsFile root ∨
          root = m.forest.size ∧ start.situation.depth = 0 ∧
            start.situation.inserting = filesDuring w s ∧
            start.situation.baseDir = directoryAfter w m.baseDir s)) ∧
    ∀ k k' target line text, (engine w n).eval target k = .ok (.str text) k' →
      (engine w n).runTarget w target line k =
        (engine w n).runPath w (w.library.resolve k.baseDir text) line k' := by
  refine ⟨fun t earlier id ht hid => ?_, fun k k' target line text h => ?_⟩
  · obtain ⟨console, baseDir, hevolves⟩ := hm.evolves
    have hsane : m.watch.Sane Filled := ⟨hevolves.sane.good, hevolves.sane.forest, hevolves.sane.on⟩
    have hidle := hm.idle
    have hrun : t.event.isRun = true := by rw [hid]; rfl
    have hblind : Run.Blind (runStep w n s) := runStep_indifferent Run.blind_indifferent w n s
    rw [← hblind.final_toSituation]
    cases s with
    | source text =>
      have hsince : since m.watch (Run.final (runSource w n text) m.watch) =
          Run.account (runStep w n (.source text)) m :=
        Continues.since_eq (List.append_nil _).symm
      rw [← hsince] at ht
      obtain ⟨start, root, hunder, hbegins⟩ := runSource_underway w n text hsane rfl ht hrun
      refine ⟨start, root, hunder, hbegins.imp_right fun hstart => ?_⟩
      simp only [Situation.place, Prod.mk.injEq] at hstart
      obtain ⟨hroot, hbase, hinserting, hdepth⟩ := hstart
      exact ⟨hroot, hdepth.trans hidle.depth, hinserting.trans hidle.inserting, hbase⟩
    | file target =>
      cases hload : w.library.load (w.library.resolve .empty target) with
      | error io =>
        have hfinal : Run.final (runStep w n (.file target)) m.watch = m.watch := by
          rw [runStep, runFile, hload]
          rfl
        rw [Run.account, hfinal] at ht
        exact absurd (ht.subset (List.mem_cons_self ..)) List.not_mem_nil
      | ok text =>
        have hsince : since m.watch (Run.final (runFile w n target) m.watch) =
            Run.account (runStep w n (.file target)) m :=
          Continues.since_eq (List.append_nil _).symm
        rw [← hsince] at ht
        obtain ⟨start, root, hunder, hbegins⟩ := runFile_underway w n hload hsane rfl ht hrun
        refine ⟨start, root, hunder, hbegins.imp_right fun hstart => ?_⟩
        simp only [Situation.place, Prod.mk.injEq] at hstart
        obtain ⟨hroot, hbase, hinserting, hdepth⟩ := hstart
        refine ⟨hroot, hdepth.trans hidle.depth, ?_, ?_⟩
        · rw [hinserting]
          show w.library.resolve .empty target :: m.inserting = _
          rw [hidle.inserting]
          rfl
        · rw [hbase, directoryAfter, hload]
          rfl
  · exact Engine.runTarget_of_eval (((Run.Returns.closed w).engine n).eval target) h

/-- A file that inserts another one and calls a function of it, which inserts a third one; there are
two files of that name. -/
def twoDirectories : Library :=
  .ofTable (.ofList [
    (["main.tag"], "insert \"lib/a.tag\"; call f();"),
    (["lib", "a.tag"], r#"fun f() { insert "b.tag"; }"#),
    (["lib", "b.tag"], "print 1;"),
    (["b.tag"], "print 2;")])

/-- Nine nodes are run, in three files and in a call. -/
theorem runStep_sees_from_innermost_nested :
    let w : World := ⟨.empty, twoDirectories⟩
    let m := Machine.fresh { input := [] } .empty
    let s : Step := .file "main.tag"
    Reachable w m ∧
    ((Run.account (runStep w 60 s) m).filter (·.event.isRun)).length = 9 ∧
    ∀ t earlier id, t :: earlier <:+ Run.account (runStep w 60 s) m → t.event = .runs id →
      ∃ start root, Underway (Run.final (runStep w 60 s) m).forest (t :: earlier) t start root ∧
        (start.BeginsFile root ∨
          root = m.forest.size ∧ start.situation.depth = 0 ∧
            start.situation.inserting = filesDuring w s ∧
            start.situation.baseDir = directoryAfter w m.baseDir s) := by
  intro w m s
  have hm : Reachable w m := .fresh _ _
  exact ⟨hm, by decide +kernel, (runStep_sees_from_innermost w hm 60 s).1⟩

/-- The function inserts a file from the directory of the file that calls it, although the statement
is in a file of another directory, which has a file of that name as well. -/
theorem call_sees_from_caller :
    let w : World := ⟨.empty, twoDirectories⟩
    let m := Machine.fresh { input := [] } .empty
    let m' := Run.final (runStep w 60 (.file "main.tag")) m
    (w.library.load (w.library.resolve ⟨"lib"⟩ "b.tag")).toOption = some "print 1;" ∧
    m'.inserted.get? ["lib", "a.tag"] = some 6 ∧
    (Run.account (runStep w 60 (.file "main.tag")) m).any (fun t =>
      match t.event with
      | .runs id =>
        (t.situation.forest.kind id).isKeyword .insert &&
          (t.situation.forest.lineage id).contains 6 && t.situation.baseDir == .empty
      | _ => false) = true ∧
    m'.console.output.toList = "2\n".toUTF8.toList := by
  decide +kernel

end Session

end TagLang
