import TagLang.Proofs.Safety
import TagLang.Proofs.Structured

/-!
# Runs that match

`Run.Matches` is what is shown of a computation of the machine and its counterpart: started on
machines that differ in their switches at most, they end alike, with the switches of the machine at
rest (`Situation.AtRest`).  It is a judgement in the style of a triple, with one rule for each way
to build a computation.  The machine's part of the run has sound moments only, and its failure is
excused, so the judgement carries safety along.
-/

namespace TagLang

open Machine

/-! ### Switches at rest -/

/-- The switches between two statements: what was passed over is off, and so are further branches,
except the one that the branch before it has armed; other statements and roots are on.  Nothing is
said about the bodies of statements. -/
structure Situation.AtRest (armed : Option NodeId) (s : Situation) : Prop where
  passedOver : ∀ id, s.forest.IsPassedOver id → s.switches.isOn id = false
  further : ∀ id, (s.forest.kind id).isFurther = true → s.forest.shape id ≠ .unloaded →
    s.switches.isOn id = decide (armed = some id)
  on : ∀ id, (s.forest.kind id).isFurther = false → ¬ s.forest.IsPassedOver id →
    (∀ k, s.forest.kind (s.forest.parent id) ≠ .keyword k) → s.switches.isOn id = true

/-- A further branch is not passed over. -/
theorem Forest.not_isPassedOver_of_isFurther {f : Forest} {id : NodeId}
    (h : (f.kind id).isFurther = true) : ¬ f.IsPassedOver id := by
  intro hp
  rw [hp.1] at h
  cases h

/-- A block is not passed over. -/
theorem Forest.not_isPassedOver_of_kind {f : Forest} {id : NodeId} (h : f.kind id = .block) :
    ¬ f.IsPassedOver id := by
  intro hp
  have hk := hp.1
  rw [h] at hk
  cases hk

namespace Situation.AtRest

variable {s : Situation} {armed : Option NodeId}

theorem of_eq (h : s.AtRest armed) {s' : Situation} (hf : s'.forest = s.forest)
    (hs : s'.switches = s.switches) : s'.AtRest armed := by
  refine ⟨fun id hp => ?_, fun id hk hl => ?_, fun id hk hp hpar => ?_⟩
  · rw [hs]
    exact h.passedOver id (hf ▸ hp)
  · rw [hs]
    exact h.further id (hf ▸ hk) (hf ▸ hl)
  · rw [hs]
    exact h.on id (hf ▸ hk) (hf ▸ hp) (hf ▸ hpar)

/-- A block may be switched on, and off again if it is the body of a statement. -/
theorem switch_block (h : s.AtRest armed) {id : NodeId} (hk : s.forest.kind id = .block) {on : Bool}
    (hon : (∀ k, s.forest.kind (s.forest.parent id) ≠ .keyword k) → on = true) :
    (s.switch id on).AtRest armed := by
  refine ⟨fun id' hp => ?_, fun id' hk' hl => ?_, fun id' hk' hp hpar => ?_⟩
  · have hne : id ≠ id' := by
      rintro rfl
      exact Forest.not_isPassedOver_of_kind hk hp
    show (s.switches.set id on).isOn id' = false
    rw [Switches.isOn_set, if_neg hne]
    exact h.passedOver id' hp
  · have hne : id ≠ id' := by
      rintro rfl
      have hk' : (s.forest.kind id).isFurther = true := hk'
      rw [hk] at hk'
      cases hk'
    show (s.switches.set id on).isOn id' = _
    rw [Switches.isOn_set, if_neg hne]
    exact h.further id' hk' hl
  · show (s.switches.set id on).isOn id' = true
    rw [Switches.isOn_set]
    split
    next heq =>
      subst heq
      exact hon hpar
    · exact h.on id' hk' hp hpar

/-- Switching a further branch arms or disarms it, if no other one is armed. -/
theorem switch_further (h : s.AtRest armed) {id : NodeId}
    (hk : (s.forest.kind id).isFurther = true) (harmed : ∀ x, armed = some x → x = id) (on : Bool) :
    (s.switch id on).AtRest (if on then some id else none) := by
  refine ⟨fun id' hp => ?_, fun id' hk' hl => ?_, fun id' hk' hp hpar => ?_⟩
  · have hne : id ≠ id' := by
      rintro rfl
      exact Forest.not_isPassedOver_of_isFurther hk hp
    show (s.switches.set id on).isOn id' = false
    rw [Switches.isOn_set, if_neg hne]
    exact h.passedOver id' hp
  · show (s.switches.set id on).isOn id' = _
    rw [Switches.isOn_set]
    split
    next heq => cases on <;> simp [heq]
    next hne =>
      have hoff : armed ≠ some id' := fun ha => hne (harmed id' ha).symm
      rw [h.further id' hk' hl]
      cases on <;> simp [hoff, hne]
  · have hne : id ≠ id' := by
      rintro rfl
      have hk' : (s.forest.kind id).isFurther = false := hk'
      rw [hk] at hk'
      cases hk'
    show (s.switches.set id on).isOn id' = true
    rw [Switches.isOn_set, if_neg hne]
    exact h.on id' hk' hp hpar

theorem isOn_of_size_le (h : s.AtRest armed) {id : NodeId} (hid : s.forest.size ≤ id) :
    s.switches.isOn id = true := by
  -- Where no node is yet, the forest answers with a loose block.
  have hnode := Forest.node_of_size_le hid
  have hkind : s.forest.kind id = .block := by rw [Forest.kind, hnode]
  have hparent : s.forest.parent id = id := by rw [Forest.parent, hnode]
  refine h.on id (by rw [hkind]; rfl) (Forest.not_isPassedOver_of_kind hkind) fun k hkey => ?_
  rw [hparent, hkind] at hkey
  cases hkey

/-- Loading a tree switches its further branches off and leaves its other statements on. -/
theorem settle (h : s.AtRest none) (hg : s.Good) {f : Forest} (hs : s.forest.Sprouts f)
    {inserting : Bool} {seen : List NodeId} {w : Workshop}
    (hl : w.Loads f inserting s.forest.size seen) : (s.settle w).AtRest none := by
  have hle : s.forest.Le w.forest := .trans (.of_sprouts hs) hl.le
  have hshape : ∀ id, id < s.forest.size → w.forest.shape id = s.forest.shape id := by
    intro id hid
    rw [hl.old id hid, Forest.shape, hs.old id hid, Forest.shape]
  have hpassed : ∀ id, id < s.forest.size →
      (w.forest.IsPassedOver id ↔ s.forest.IsPassedOver id) := by
    intro id hid
    rw [Forest.IsPassedOver, Forest.IsPassedOver, hshape id hid, hle.kind_eq id hid]
  have hoff : ∀ id, id ∈ w.muted ∨ s.switches.isOn id = false →
      (s.switches.turnOff w.muted).isOn id = false := by
    rintro id (hid | hid)
    · simp [hid]
    · simp [hid]
  refine ⟨fun id hp => hoff id ?_, fun id hk hloaded => ?_, fun id hk hp hpar => ?_⟩
  · by_cases hid : id < s.forest.size
    · exact .inr (h.passedOver id ((hpassed id hid).mp hp))
    · exact .inl (hl.passedOver id (Nat.le_of_not_lt hid) hp).2
  · refine hoff id ?_
    by_cases hid : id < s.forest.size
    · exact .inr (h.further id (hle.kind_eq id hid ▸ hk) (hshape id hid ▸ hloaded))
    · have hseen := (hl.loaded id (Nat.le_of_not_lt hid)).mp hloaded
      exact .inl (hl.further id hseen (hl.kind_eq id ▸ hk))
  · -- What loading mutes is a further branch, passed over, or the body of a statement.
    have hmuted : id ∉ w.muted := by
      intro hm
      obtain ⟨_, hfurther | hover | ⟨k, hkey⟩⟩ := hl.muted id hm
      · rw [← hl.kind_eq id] at hfurther
        exact absurd (hfurther.symm.trans hk) Bool.noConfusion
      · exact hp hover
      · rw [← hl.kind_eq, ← hl.parent_eq] at hkey
        exact hpar k hkey
    have hbefore : s.switches.isOn id = true := by
      by_cases hid : id < s.forest.size
      · have hparent := hg.forest.wellFormed.parent_lt_size hid
        refine h.on id (hle.kind_eq id hid ▸ hk) (fun hp₀ => hp ((hpassed id hid).mpr hp₀)) ?_
        intro k hkey
        refine hpar k ?_
        show w.forest.kind (w.forest.parent id) = _
        rw [hle.parent_eq id hid, hle.kind_eq _ hparent, hkey]
      · exact h.isOn_of_size_le (Nat.le_of_not_lt hid)
    show (s.switches.turnOff w.muted).isOn id = true
    simp [hbefore, hmuted]

end Situation.AtRest

/-! ### Machines that are alike -/

/-- The situation without its switches. -/
def Situation.plain (s : Situation) : Situation :=
  { s with switches := .allOn }

/-- The machine is between two statements, with a branch armed or not, and the other one differs
from it in its switches and its account at most. -/
structure Machine.Poised (armed : Option NodeId) (m m' : Machine) : Prop where
  good : m.toSituation.Good
  rest : m.toSituation.AtRest armed
  plain : m'.plain = m.plain

/-- The machine is between two statements, with no branch armed. -/
abbrev Machine.Ready (m m' : Machine) : Prop :=
  Poised none m m'

/-- The change has to do neither with the forest nor with the switches. -/
structure Situation.Aside (f : Situation → Situation) : Prop where
  plain : ∀ s, (f s).plain = (f s.plain).plain
  forest : ∀ s, (f s).forest = s.forest
  switches : ∀ s, (f s).switches = s.switches

theorem Situation.Aside.onRegistry (f : Registry → Registry) :
    Aside (Situation.onRegistry f) :=
  ⟨fun _ => rfl, fun _ => rfl, fun _ => rfl⟩

namespace Machine.Poised

variable {m m' : Machine} {armed : Option NodeId}

theorem look (h : Poised armed m m') {α : Type} {g : Situation → α} (hg : ∀ s, g s = g s.plain) :
    g m'.toSituation = g m.toSituation := by
  rw [hg, h.plain, ← hg]

theorem update (h : Poised armed m m') {f : Situation → Situation} (hf : Situation.Aside f)
    (hg : (f m.toSituation).Good) : Poised armed (m.update f) (m'.update f) where
  good := hg
  rest := h.rest.of_eq (hf.forest _) (hf.switches _)
  plain := by
    show (f m'.toSituation).plain = (f m.toSituation).plain
    rw [hf.plain, h.plain, ← hf.plain]

theorem of_toSituation_eq (h : Poised armed m m') {m₁ m₁' : Machine}
    (hs : m₁.toSituation = m.toSituation) (hs' : m₁'.toSituation = m'.toSituation) :
    Poised armed m₁ m₁' where
  good := hs ▸ h.good
  rest := hs ▸ h.rest
  plain := by
    rw [hs, hs']
    exact h.plain

theorem record (h : Poised armed m m') (event : Event) :
    Poised armed (m.record event) (m'.record event) :=
  h.of_toSituation_eq (toSituation_record m event) (toSituation_record m' event)

/-- A block may be switched on, and off again if it is the body of a statement. -/
theorem switch_block (h : Poised armed m m') {m₁ : Machine} {id : NodeId}
    (hk : m.forest.kind id = .block) {on : Bool}
    (hon : (∀ k, m.forest.kind (m.forest.parent id) ≠ .keyword k) → on = true)
    (hm₁ : m₁.toSituation = m.switch id on) : Poised armed m₁ m' where
  good := hm₁ ▸ h.good.switch id on
  rest := hm₁ ▸ h.rest.switch_block hk hon
  plain := by
    rw [hm₁]
    exact h.plain

/-- Switching a further branch arms or disarms it, if no other one is armed. -/
theorem switch_further (h : Poised armed m m') {m₁ : Machine} {id : NodeId}
    (hk : (m.forest.kind id).isFurther = true) (harmed : ∀ x, armed = some x → x = id) {on : Bool}
    (hm₁ : m₁.toSituation = m.switch id on) : Poised (if on then some id else none) m₁ m' where
  good := hm₁ ▸ h.good.switch id on
  rest := hm₁ ▸ h.rest.switch_further hk harmed on
  plain := by
    rw [hm₁]
    exact h.plain

end Machine.Poised

/-! ### The judgement -/

/-- The computation and its counterpart end alike: both with results, of which `Q` holds, or both
for the same reason.  The machine has advanced and is ready again. -/
inductive Run.Matches {α β : Type} (x : Run α) (y : Run β) (m m' : Machine)
    (Q : α → β → Machine → Prop) : Prop
  | ok {a : α} {b : β} {m₁ m₁' : Machine} (hx : x m = .ok a m₁) (hy : y m' = .ok b m₁')
    (ha : Advances m m₁) (hr : Ready m₁ m₁') (hq : Q a b m₁)
  | error {s : Stop} {m₁ m₁' : Machine} (hx : x m = .error s m₁) (hy : y m' = .error s m₁')
    (ha : Advances m m₁) (hr : Ready m₁ m₁')
    (he : ∀ failure, s = .failed failure → Excused m.watched (since m m₁) failure)

/-- The computations match and give the same result. -/
abbrev Run.Agrees {α : Type} (x y : Run α) (m m' : Machine) : Prop :=
  Run.Matches x y m m' fun a b _ => a = b

namespace Run.Matches

variable {α β γ δ : Type} {m m' : Machine} {x : Run α} {y : Run β}
  {Q : α → β → Machine → Prop} {P : γ → δ → Machine → Prop}

theorem pure (h : Ready m m') {a : α} {b : β} (hq : Q a b m) :
    Run.Matches (Pure.pure a) (Pure.pure b) m m' Q :=
  .ok rfl rfl (.refl m) h hq

theorem outOfFuel (h : Ready m m') :
    Run.Matches (throw .outOfFuel : Run α) (throw .outOfFuel : Run β) m m' Q :=
  .error rfl rfl (.refl m) h fun _ hs => nomatch hs

/-- A failure that is neither of spelling nor of a broken expression. -/
theorem fail (h : Ready m m') {line : Nat} {cause : Cause} (hs : cause.isStructural = false)
    (hc : cause.category ≠ .spelling) :
    Run.Matches (Run.fail line cause : Run α) (Run.fail line cause : Run β) m m' Q := by
  refine .error rfl rfl (.refl m) h fun failure hf => ?_
  cases hf
  exact ⟨hs, fun _ hspell => absurd hspell hc⟩

/-- What comes behind an advance may start from there. -/
theorem after {m₁ m₁' : Machine} (ha : Advances m m₁) (h : Run.Matches x y m₁ m₁' Q) {x' : Run α}
    {y' : Run β} (hx' : x' m = x m₁) (hy' : y' m' = y m₁') : Run.Matches x' y' m m' Q := by
  cases h with
  | ok hx hy ha' hr hq => exact .ok (hx'.trans hx) (hy'.trans hy) (ha.trans ha') hr hq
  | error hx hy ha' hr he =>
    refine .error (hx'.trans hx) (hy'.trans hy) (ha.trans ha') hr fun failure hf => ?_
    obtain ⟨hs, ht⟩ := he failure hf
    refine ⟨hs, fun hw hc => ?_⟩
    obtain ⟨t, hmem, hevent⟩ := ht (ha.continues.watched.trans hw) hc
    exact ⟨t, ha.mem_since ha' hmem, hevent⟩

theorem bind {f : α → Run γ} {g : β → Run δ} (hxy : Run.Matches x y m m' Q)
    (hfg : ∀ a b m₁ m₁', Advances m m₁ → Ready m₁ m₁' → Q a b m₁ →
      Run.Matches (f a) (g b) m₁ m₁' P) : Run.Matches (x >>= f) (y >>= g) m m' P := by
  cases hxy with
  | ok hx hy ha hr hq =>
    exact after ha (hfg _ _ _ _ ha hr hq) (Run.bind_of_ok hx f) (Run.bind_of_ok hy g)
  | error hx hy ha hr he =>
    exact .error (Run.bind_of_error hx f) (Run.bind_of_error hy g) ha hr he

theorem look_bind {armed : Option NodeId} (h : Poised armed m m') {g : Situation → α}
    (hg : ∀ s, g s = g s.plain) {f : α → Run γ} {f' : α → Run δ}
    (hf : Run.Matches (f (g m.toSituation)) (f' (g m.toSituation)) m m' P) :
    Run.Matches (look g >>= f) (look g >>= f') m m' P := by
  refine after (.refl m) hf rfl ?_
  show f' (g m'.toSituation) m' = _
  rw [h.look hg]

theorem change (h : Ready m m') {f : Situation → Situation} (hf : Situation.Aside f)
    (hg : (f m.toSituation).Good) : Run.Agrees (Machine.change f) (Machine.change f) m m' := by
  refine .ok rfl rfl (.update ?_) (h.update hf hg) rfl
  rw [hf.forest]
  exact .refl _

theorem change_bind (h : Ready m m') {f : Situation → Situation} (hf : Situation.Aside f)
    (hg : (f m.toSituation).Good) {k : Unit → Run γ} {k' : Unit → Run δ}
    (hk : ∀ m₁ m₁', Advances m m₁ → Ready m₁ m₁' → Run.Matches (k ()) (k' ()) m₁ m₁' P) :
    Run.Matches (Machine.change f >>= k) (Machine.change f >>= k') m m' P :=
  (change h hf hg).bind fun _ _ _ _ ha hr _ => hk _ _ ha hr

theorem note (h : Ready m m') {event : Event} (hs : Moment.Sound ⟨event, m.toSituation⟩) :
    Run.Agrees (Machine.note event) (Machine.note event) m m' :=
  .ok rfl rfl (.record hs) (h.record event) rfl

theorem note_bind (h : Ready m m') {event : Event} (hs : Moment.Sound ⟨event, m.toSituation⟩)
    {k : Unit → Run γ} {k' : Unit → Run δ}
    (hk : ∀ m₁ m₁', Advances m m₁ → Ready m₁ m₁' → m₁.toSituation = m.toSituation →
      Run.Matches (k ()) (k' ()) m₁ m₁' P) :
    Run.Matches (Machine.note event >>= k) (Machine.note event >>= k') m m' P :=
  after (.record hs) (hk _ _ (.record hs) (h.record event) (toSituation_record m event)) rfl rfl

theorem make (h : Ready m m') (made : List (String × Binding)) {f : Situation → Situation}
    (hf : Situation.Aside f) (hg : (f m.toSituation).Good) :
    Run.Agrees (Machine.make made f) (Machine.make made f) m m' :=
  note_bind h ⟨h.good.inForest, trivial⟩ fun _ _ _ hr hs => change hr hf (hs.symm ▸ hg)

theorem make_bind (h : Ready m m') (made : List (String × Binding)) {f : Situation → Situation}
    (hf : Situation.Aside f) (hg : (f m.toSituation).Good) {k : Unit → Run γ} {k' : Unit → Run δ}
    (hk : ∀ m₁ m₁', Advances m m₁ → Ready m₁ m₁' → Run.Matches (k ()) (k' ()) m₁ m₁' P) :
    Run.Matches (Machine.make made f >>= k) (Machine.make made f >>= k') m m' P :=
  (make h made hf hg).bind fun _ _ _ _ ha hr _ => hk _ _ ha hr

/-- Changes behind the computations, however they end. -/
theorem ensuring_both {R : α → β → Prop} (hxy : Run.Matches x y m m' fun a b _ => R a b)
    {after after' : Situation → Situation} (hforest : ∀ s, (after s).forest = s.forest)
    (hready : ∀ m₁ m₁', Advances m m₁ → Ready m₁ m₁' →
      Ready (m₁.update after) (m₁'.update after')) :
    Run.Matches (Run.ensuring x after) (Run.ensuring y after') m m' fun a b _ => R a b := by
  have hstep : ∀ m₁, Advances m₁ (m₁.update after) := by
    intro m₁
    refine .update ?_
    rw [hforest]
    exact .refl _
  cases hxy with
  | @ok a b m₁ m₁' hx hy ha hr hq =>
    have hx' : Run.ensuring x after m = .ok a (m₁.update after) := by rw [Run.ensuring, hx]
    have hy' : Run.ensuring y after' m' = .ok b (m₁'.update after') := by rw [Run.ensuring, hy]
    exact .ok hx' hy' (ha.trans (hstep m₁)) (hready m₁ m₁' ha hr) hq
  | @error s m₁ m₁' hx hy ha hr he =>
    have hx' : Run.ensuring x after m = .error s (m₁.update after) := by rw [Run.ensuring, hx]
    have hy' : Run.ensuring y after' m' = .error s (m₁'.update after') := by rw [Run.ensuring, hy]
    refine .error hx' hy' (ha.trans (hstep m₁)) (hready m₁ m₁' ha hr) ?_
    rw [ha.continues.since_trans (hstep m₁).continues, Continues.since_update]
    exact he

theorem ensuring {R : α → β → Prop} (hxy : Run.Matches x y m m' fun a b _ => R a b)
    {after : Situation → Situation} (hf : Situation.Aside after)
    (hg : ∀ m₁ m₁', Advances m m₁ → Ready m₁ m₁' → (after m₁.toSituation).Good) :
    Run.Matches (Run.ensuring x after) (Run.ensuring y after) m m' fun a b _ => R a b :=
  hxy.ensuring_both hf.forest fun m₁ m₁' ha hr => hr.update hf (hg m₁ m₁' ha hr)

/-! #### Steps of the machine alone -/

theorem note_left {event : Event} (hs : Moment.Sound ⟨event, m.toSituation⟩) {k : Unit → Run α}
    (hk : ∀ m₁, Advances m m₁ → m₁.toSituation = m.toSituation → Run.Matches (k ()) y m₁ m' Q) :
    Run.Matches (Machine.note event >>= k) y m m' Q :=
  after (.record hs) (hk _ (.record hs) (toSituation_record m event)) rfl rfl

theorem look_left {g : Situation → γ} {k : γ → Run α}
    (hk : Run.Matches (k (g m.toSituation)) y m m' Q) :
    Run.Matches (Machine.look g >>= k) y m m' Q :=
  after (.refl m) hk rfl rfl

theorem switch_left {id : NodeId} {on : Bool} {k : Unit → Run α}
    (hk : ∀ m₁, Advances m m₁ → m₁.toSituation = m.switch id on →
      Run.Matches (k ()) y m₁ m' Q) :
    Run.Matches (Machine.change (Situation.switch id on) >>= k) y m m' Q :=
  have ha : Advances m (m.update (Situation.switch id on)) := .update (.refl _)
  after ha (hk _ ha rfl) rfl rfl

theorem ensuring_left {R : α → β → Prop} (hxy : Run.Matches x y m m' fun a b _ => R a b)
    {after : Situation → Situation} (hforest : ∀ s, (after s).forest = s.forest)
    (hready : ∀ m₁ m₁', Advances m m₁ → Ready m₁ m₁' → Ready (m₁.update after) m₁') :
    Run.Matches (Run.ensuring x after) y m m' fun a b _ => R a b := by
  have hy : Run.ensuring y id = y := by
    funext m
    unfold Run.ensuring
    cases y m <;> rfl
  rw [← hy]
  exact hxy.ensuring_both hforest hready

/-! #### Results of value operations, and the console -/

theorem ofExcept (h : Ready m m') {r : Except Failure α} {R : α → Prop}
    (hr : Sequence.Applies r R) :
    Run.Matches (Run.ofExcept r : Run α) (Run.ofExcept r : Run α) m m'
      fun a b _ => a = b ∧ R a := by
  cases r with
  | ok a => exact pure h ⟨rfl, hr.1 a rfl⟩
  | error e =>
    refine .error rfl rfl (.refl m) h fun failure hf => ?_
    cases hf
    obtain ⟨hs, hc⟩ := hr.2 e rfl
    exact ⟨hs, fun _ hspell => absurd hspell hc⟩

theorem orIo (h : Ready m m') (line : Nat) (r : Except IoError α) :
    Run.Agrees (Run.orIo line r : Run α) (Run.orIo line r) m m' := by
  cases r with
  | ok a => exact pure h rfl
  | error e => exact fail h rfl Category.noConfusion

theorem orFault (h : Ready m m') {line : Nat} {r : Except Fault α} (hr : Regular r) :
    Run.Agrees (Run.orFault line .fault r : Run α) (Run.orFault line .fault r) m m' := by
  cases r with
  | ok a => exact pure h rfl
  | error fault => exact fail h hr Category.noConfusion

theorem orElement (h : Ready m m') (line : Nat) (r : Except Fault α) :
    Run.Agrees (Run.orFault line .element r : Run α) (Run.orFault line .element r) m m' := by
  cases r with
  | ok a => exact pure h rfl
  | error fault => exact fail h rfl Category.noConfusion

/-- Steps of the console, which depend on the console only. -/
theorem onConsole (h : Ready m m') (line : Nat) (f : Console → Except IoError α × Console)
    {x : Run α} (hx : ∀ m : Machine, x m =
      Run.orIo line (f m.console).1 (m.update fun s => { s with console := (f s.console).2 })) :
    Run.Agrees x x m m' := by
  have hc : m'.console = m.console := h.look fun _ => rfl
  have haside : Situation.Aside fun s => { s with console := (f s.console).2 } :=
    ⟨fun _ => rfl, fun _ => rfl, fun _ => rfl⟩
  have hready := h.update haside (h.good.of_eq rfl rfl h.good.registry)
  have hstep : Advances m (m.update fun s => { s with console := (f s.console).2 }) :=
    .update (.refl _)
  refine after hstep (orIo hready line (f m.console).1) (hx m) ?_
  rw [hx m', hc]

theorem write (h : Ready m m') (line : Nat) (text : String) :
    Run.Agrees (Machine.write line text) (Machine.write line text) m m' :=
  onConsole h line (·.write text) fun _ => rfl

theorem flush (h : Ready m m') (line : Nat) :
    Run.Agrees (Machine.flush line) (Machine.flush line) m m' :=
  onConsole h line (fun c => (c.flush, c)) fun _ => rfl

theorem readLine (h : Ready m m') (line : Nat) :
    Run.Agrees (Machine.readLine line) (Machine.readLine line) m m' :=
  onConsole h line Console.readLine fun _ => rfl

end Run.Matches

end TagLang
