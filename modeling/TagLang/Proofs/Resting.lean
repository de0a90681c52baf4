import TagLang.Proofs.Evolution
import TagLang.Proofs.Sessions

/-!
# Steps leave the machine at rest

Behind every step of a session, however it ends, no call, loop or file is under way
(`Machine.Idle`), and every node of every tree that has been loaded is on or off as it was right
behind its loading.  The second part has two sources: nodes that are no further branches are never
switched for good (`Machine.Evolves`), and further branches are off between two steps
(`Session.Reachable.ready`).
-/

namespace TagLang

open Machine

/-! ### What is under way -/

/-- No call, no loop over a list and no file is under way. -/
structure Machine.Idle (m : Machine) : Prop where
  frames : m.registry.frames = []
  items : m.registry.items = []
  inserting : m.inserting = []
  depth : m.depth = 0

theorem Machine.Returns.idle {m m' : Machine} (h : Returns m m') (hm : m.Idle) : m'.Idle where
  frames := by
    obtain ⟨added, hl⟩ := h.locals
    have hnone : m.registry.localKeys = [] := by rw [Registry.localKeys, hm.frames]; rfl
    rw [hnone] at hl
    exact List.map_eq_nil_iff.mp hl
  items := by
    have hi := h.items
    have hnone : m.registry.itemKeys = [] := by rw [Registry.itemKeys, hm.items]; rfl
    rw [hnone] at hi
    exact List.map_eq_nil_iff.mp hi
  inserting := h.inserting.trans hm.inserting
  depth := h.depth.trans hm.depth

namespace Session

variable {w : World} {m : Machine}

/-- The base directory behind a step: that of the file, if the step runs one that can be read. -/
def directoryAfter (w : World) (base : Path) : Step → Path
  | .source _ => base
  | .file target =>
    match w.library.load (w.library.resolve .empty target) with
    | .ok _ => (w.library.resolve .empty target).parent?.getD base
    | .error _ => base

theorem runSource_returns (w : World) (n : Nat) (text : String) :
    Run.Returns (runSource w n text) :=
  (Run.Returns.prepare false text).bind fun root =>
    (((Run.Returns.closed w).engine n).execute root).bind fun _ m => .refl m

theorem runStep_idle (w : World) (n : Nat) (s : Step) (hm : m.Idle) :
    (Run.final (runStep w n s) m).Idle ∧
      (Run.final (runStep w n s) m).baseDir = directoryAfter w m.baseDir s := by
  cases s with
  | source text =>
    have h : Returns m (Run.final (runSource w n text) m) := runSource_returns w n text m
    exact ⟨h.idle hm, h.baseDir⟩
  | file target =>
    unfold runStep runFile directoryAfter
    dsimp only
    cases w.library.load (w.library.resolve .empty target) with
    | error io => exact ⟨hm, rfl⟩
    | ok text =>
      let path := w.library.resolve .empty target
      let m₁ := m.update fun s =>
        { s with baseDir := path.parent?.getD s.baseDir, inserting := path :: s.inserting }
      have h : Returns m₁ (Run.final (runSource w n text) m₁) := runSource_returns w n text m₁
      have hfinal : Run.final (do
          let text ← Run.orIo 0 (.ok text)
          change fun s =>
            { s with baseDir := path.parent?.getD s.baseDir, inserting := path :: s.inserting }
          Run.ensuring (runSource w n text) fun s => { s with inserting := s.inserting.tail }) m =
          (Run.final (runSource w n text) m₁).update
            fun s => { s with inserting := s.inserting.tail } :=
        Run.final_ensuring ..
      rw [hfinal]
      -- But for the file itself, the step starts and ends on an idle machine.
      have hidle : Idle { m₁ with inserting := [] } := ⟨hm.frames, hm.items, rfl, hm.depth⟩
      have hend : Returns { m₁ with inserting := [] }
          { Run.final (runSource w n text) m₁ with inserting := [] } :=
        ⟨h.locals, h.items, h.depth, rfl, h.baseDir⟩
      refine ⟨⟨(hend.idle hidle).frames, (hend.idle hidle).items, ?_, (hend.idle hidle).depth⟩,
        h.baseDir⟩
      show (Run.final (runSource w n text) m₁).inserting.tail = []
      rw [h.inserting]
      exact hm.inserting

theorem Reachable.idle (h : Reachable w m) : m.Idle := by
  induction h with
  | fresh console baseDir => exact ⟨rfl, rfl, rfl, rfl⟩
  | step n s _ ih => exact (runStep_idle w n s ih).1

/-! ### Refused sources -/

/-- A source that cannot be read leaves its nodes in the forest, and nothing else. -/
theorem runSource_refused (w : World) (n : Nat) {text : String} {failure : Failure}
    (h : (m.forest.parse text).2 = .error failure) :
    ∃ m', runSource w n text m = .error (.failed failure) m' ∧
      m'.toSituation = { m.toSituation with forest := (m.forest.parse text).1 } := by
  have hprepare : prepare false text m =
      refuse false failure (m.update fun s => { s with forest := (m.forest.parse text).1 }) := by
    rw [prepare_eq, h]
  exact ⟨_, Run.bind_of_error (hprepare.trans rfl) _, toSituation_record _ _⟩

/-! ### Switches -/

/-- A step moves the machine along in a run, if its source and those of the library keep what is
known of the forest. -/
theorem runStep_evolves {Q : Forest → Prop}
    (hQ : ∀ path source, w.library.load path = .ok source → Workshop.Keeps Q source) (n : Nat)
    {s : Step} (hs : ∀ text, s = .source text → Workshop.Keeps Q text) :
    Run.Evolves Q (runStep w n s) := by
  have hsource : ∀ text, Workshop.Keeps Q text → Run.Evolves Q (runSource w n text) :=
    fun text ht => (Run.Evolves.prepare false ht).bind fun root =>
      ((Run.Evolves.engine hQ n).execute root).bind fun _ => .refl fun _ => rfl
  cases s with
  | source text => exact hsource text (hs text rfl)
  | file target =>
    unfold runStep runFile
    dsimp only
    cases hload : w.library.load (w.library.resolve .empty target) with
    | error io => exact .refl fun _ => rfl
    | ok text =>
      have henter : ∀ path : Path, Run.Evolves Q (change fun s =>
          { s with baseDir := path.parent?.getD s.baseDir, inserting := path :: s.inserting }) :=
        fun path m hm => .aside hm rfl rfl rfl hm.good.registry
      intro m hm
      refine Run.Evolves.bind_of hm (.refl hm) fun _ _ hio _ => ?_
      cases hio
      refine (henter _).bind (fun _ => ?_) m hm
      exact (hsource text (hQ _ text hload)).ensuring (fun _ => rfl) (fun _ => rfl) (fun _ => rfl)
        fun s hs => hs.registry

theorem fresh_sane {Q : Forest → Prop} (hQ : Q .empty) (console : Console) (baseDir : Path) :
    (Machine.fresh console baseDir).Sane Q :=
  ⟨(fresh_ready console baseDir).good, hQ, fun _ _ => rfl⟩

theorem filled_empty : Forest.empty.Filled :=
  fun id hid => absurd (Forest.shape_of_size_le (Nat.zero_le id)) hid

theorem Reachable.evolves (h : Reachable w m) :
    ∃ console baseDir, (Machine.fresh console baseDir).Evolves Forest.Filled m := by
  induction h with
  | fresh console baseDir => exact ⟨console, baseDir, .refl (fresh_sane filled_empty _ _)⟩
  | step n s _ ih =>
    obtain ⟨console, baseDir, ih⟩ := ih
    have hstep : Run.Evolves Forest.Filled (runStep w n s) :=
      runStep_evolves (fun _ source _ => Workshop.keeps_filled source) n
        fun text _ => Workshop.keeps_filled text
    exact ⟨console, baseDir, ih.trans (fresh_sane filled_empty _ _) (hstep _ ih.sane)⟩

/-- The machine is one right behind the loading of the tree under `root`, where the forest has
become `f` since. -/
def JustLoaded (root : NodeId) (f : Forest) (m : Machine) : Prop :=
  ∃ inserting source m₀, m₀.Sane Forest.Filled ∧ prepare inserting source m₀ = .ok root m ∧
    m.forest.Grown f

/-- Between two steps the nodes of a loaded tree are off that are muted, and no others. -/
theorem Reachable.isOn_iff (h : Reachable w m) {root id : NodeId} (hroot : m.forest.IsRoot root)
    (hid : root ∈ m.forest.lineage id) :
    m.switches.isOn id = false ↔ m.forest.IsMuted id := by
  obtain ⟨console, baseDir, he⟩ := h.evolves
  have hwf := he.sane.good.forest.wellFormed
  by_cases ha : m.forest.Armable id
  · -- A further branch that has been loaded is off, and mutes itself.
    have hloaded := Forest.Filled.shape_ne he.sane.forest hwf hroot.isBody.shape_ne hid ha.2
    have hoff : m.switches.isOn id = false := h.ready.rest.further id ha.1 hloaded
    have hmuted : id ∈ (m.forest.shape id).muted id :=
      (he.sane.good.forest.sound id).mem_muted hloaded ha.1
    exact ⟨fun _ => .inr (.inl hmuted), fun _ => hoff⟩
  · exact he.settled id (Nat.zero_le id) ha

/-- The nodes of a loaded tree are on or off as they were right behind its loading. -/
theorem Reachable.isOn_eq (h : Reachable w m) {root : NodeId} (hroot : m.forest.IsRoot root)
    {m₁ : Machine} (hl : JustLoaded root m.forest m₁) {id : NodeId}
    (hid : root ∈ m.forest.lineage id) : m.switches.isOn id = m₁.switches.isOn id := by
  obtain ⟨inserting, source, m₀, hm₀, hp, hgrown⟩ := hl
  obtain ⟨hfirst, hroot₁⟩ := isRoot_of_prepare hm₀.good hp
  have hm₁ : Run.final (prepare inserting source) m₀ = m₁ := Run.final_of_ok hp
  have hwf₁ : m₁.forest.WellFormed :=
    hm₁ ▸ (Evolves.prepare hm₀ inserting (Workshop.keeps_filled source)).sane.good.forest.wellFormed
  have hwf := h.ready.good.forest.wellFormed
  -- The node was there when the tree had been loaded: later nodes are in other trees.
  have hle : m₀.forest.size ≤ id := hfirst ▸ Forest.le_of_mem_lineage hwf hid
  have hlt : id < m₁.forest.size := by
    refine Nat.lt_of_not_le fun hc => ?_
    have hnew := hgrown.le_of_mem_lineage hwf hc hid
    exact Nat.not_lt_of_le hnew (Forest.lt_size_of_shape hroot₁.isBody.shape_ne)
  have hiff : m.switches.isOn id = false ↔ m₁.switches.isOn id = false := by
    have hthen := isOn_final_prepare hm₀ inserting source hle
    rw [hm₁] at hthen
    rw [h.isOn_iff hroot hid, hthen]
    exact hgrown.isMuted_iff hwf₁ hlt
  cases hon : m.switches.isOn id with
  | false => exact (hiff.mp hon).symm
  | true =>
    cases hon₁ : m₁.switches.isOn id with
    | true => rfl
    | false => exact absurd (hiff.mpr hon₁) (by simp [hon])

/-- Every step leaves the machine at rest, however it ends: no call, no loop and no file is under
way, the base directory is the one from before or that of the file, and in every tree that has been
loaded by then, every node is on or off as it was right behind the loading of the tree. -/
theorem runStep_leaves_rest (w : World) {m : Machine} (hm : Reachable w m) (n : Nat) (s : Step) :
    let m' := Run.final (runStep w n s) m
    m'.registry.frames = [] ∧ m'.registry.items = [] ∧ m'.inserting = [] ∧ m'.depth = 0 ∧
      m'.baseDir = directoryAfter w m.baseDir s ∧
      (∀ text root m₁, s = .source text → prepare false text m = .ok root m₁ →
        JustLoaded root m'.forest m₁) ∧
      ∀ root, m'.forest.IsRoot root → (∃ m₁, JustLoaded root m'.forest m₁) ∧
        ∀ m₁, JustLoaded root m'.forest m₁ → ∀ id, root ∈ m'.forest.lineage id →
          m'.switches.isOn id = m₁.switches.isOn id := by
  intro m'
  have hm' : Reachable w m' := .step n s hm
  obtain ⟨hidle, hbase⟩ := runStep_idle w n s hm.idle
  refine ⟨hidle.frames, hidle.items, hidle.inserting, hidle.depth, hbase, ?_, ?_⟩
  · rintro text root m₁ rfl hp
    obtain ⟨console, baseDir, he⟩ := hm.evolves
    have hbehind : Run.Evolves Forest.Filled
        ((engine w n).execute root >>= fun _ => (pure () : Run Unit)) :=
      ((Run.Evolves.engine (fun _ source _ => Workshop.keeps_filled source) n).execute root).bind
        fun _ => .refl fun _ => rfl
    have hm₁ : m₁.Sane Forest.Filled := by
      rw [← Run.final_of_ok hp]
      exact (Evolves.prepare he.sane false (Workshop.keeps_filled text)).sane
    have hrest : m' = Run.final ((engine w n).execute root >>= fun _ => (pure () : Run Unit)) m₁ :=
      Run.final_bind_of_ok hp _
    exact ⟨false, text, m, he.sane, hp, hrest ▸ (hbehind m₁ hm₁).grown⟩
  · intro root hroot
    obtain ⟨console, baseDir, he⟩ := hm'.evolves
    obtain ⟨inserting, source, m₀, m₁, hm₀, hp, hg⟩ := he.loaded root (Nat.zero_le root) hroot
    exact ⟨⟨m₁, inserting, source, m₀, hm₀, hp, hg⟩, fun m₁ hl id hid => hm'.isOn_eq hroot hl hid⟩

/-- A file with a loop, in whose second pass the `else` branch of a chain fails. -/
def failingFile : String :=
  "repeat (x : [1, 2]) { if (x == 1) { print x; } else { print 1 / 0; } }"

/-- A branch in a function inserts a file. -/
def insertingStep : Step :=
  .source r#"fun f(a) { if (a) { insert "b"; } } call f(true);"#

/-- A step fails in a branch of a loop of a file that a branch of a call inserts; both trees have
been loaded, and the machine is at rest. -/
theorem runStep_leaves_rest_failing :
    let w : World := ⟨.empty, .constant failingFile⟩
    let m := Machine.fresh { input := [] } .empty
    let m' := Run.final (runStep w 40 insertingStep) m
    (match runStep w 40 insertingStep m with
      | .error (.failed ⟨1, .fault .divisionByZero⟩) m₁ => m₁.forest.size == 40
      | _ => false) = true ∧
    m'.forest.IsRoot 16 ∧ m'.registry.frames = [] ∧ m'.registry.items = [] ∧ m'.inserting = [] ∧
      ∃ m₁, JustLoaded 16 m'.forest m₁ ∧ ∀ id, 16 ∈ m'.forest.lineage id →
        m'.switches.isOn id = m₁.switches.isOn id := by
  intro w m m'
  obtain ⟨hframes, hitems, hinserting, _, _, _, htrees⟩ :=
    runStep_leaves_rest w (.fresh { input := [] } .empty) 40 insertingStep
  have hblock : (match m'.forest.shape 16 with
      | .block => true
      | _ => false) = true := by decide +kernel
  have hroot : m'.forest.IsRoot 16 := by
    refine ⟨⟨NodeKind.isBlock_iff.mp (by decide +kernel), ?_⟩, by decide +kernel⟩
    split at hblock
    next hs => exact hs
    next => cases hblock
  obtain ⟨⟨m₁, hl⟩, hon⟩ := htrees 16 hroot
  exact ⟨by decide +kernel, hroot, hframes, hitems, hinserting, m₁, hl, hon m₁ hl⟩

end Session

end TagLang
