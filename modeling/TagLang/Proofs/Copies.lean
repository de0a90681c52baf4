import Mathlib.Data.List.Perm.Subperm
import TagLang.Proofs.Transitions

/-!
# A function is bound in one place

A function of a script is in the registry at most once: its name stands for it, or the binding waits
in a frame or a loop to come back.  Names come and go, but a binding of the function is only moved,
never doubled, and a new function has a body that no function had before.

* `Registry.copies`: the bindings of a function, the visible one and the hidden ones.
* `Situation.Change.copies_subperm`: a change that gives the function no value leaves it with some
  of the bindings that it had, whatever their order.
* `Situation.Change.tidy`: no change binds a function in a second place.
-/

namespace TagLang

open Machine

/-! ### Bindings of a function -/

namespace Binding

/-- The binding stands for the function. -/
def isOf (f : Function) (b : Binding) : Bool :=
  match b.kind with
  | .function (.script g) => g = f
  | _ => false

variable {f : Function} {b : Binding}

theorem isOf_iff : b.isOf f = true ↔ b.kind = .function (.script f) := by
  unfold isOf
  split
  next g hg => simp [hg]
  next hne => simpa using hne f

theorem isFunction_of_isOf (h : b.isOf f = true) : b.isFunction = true := by
  rw [isFunction, isOf_iff.mp h]

@[simp]
theorem isOf_ofVariable (v : Value) (origin : Option NodeId) :
    (ofVariable v origin).isOf f = false :=
  rfl

@[simp]
theorem isOf_hostBinding (entry : HostEntry) : (Engine.hostBinding entry).isOf f = false := by
  cases entry <;> rfl

end Binding

namespace Registry

variable {r r' : Registry} {f : Function}

/-- The name of the function stands for it. -/
def binds (r : Registry) (f : Function) : Bool :=
  (r.get? f.name).any (Binding.isOf f)

theorem binds_iff : r.binds f = true ↔ ∃ b, r.get? f.name = some b ∧ b.isOf f = true := by
  simp [binds, Option.any_eq_true]

/-- The bindings of a name that are hidden by shadows. -/
def hiddenBy (k : String) (shadows : List Shadow) : List Binding :=
  shadows.filterMap fun s => if s.key = k then s.hidden else none

/-- The bindings of a function, if its name is bound to `b` and shadows wait. -/
def stacked (f : Function) (b : Option Binding) (shadows : List Shadow) : List Binding :=
  (b.toList ++ hiddenBy f.name shadows).filter (Binding.isOf f)

/-- The bindings of a function: what its name stands for, and what waits to come back. -/
def copies (r : Registry) (f : Function) : List Binding :=
  stacked f (r.get? f.name) r.pending

theorem mem_copies_of_get? {b : Binding} (hb : r.get? f.name = some b) (hf : b.isOf f = true) :
    b ∈ r.copies f := by
  simp [copies, stacked, hb, hf]

/-! #### Shadows -/

section Stacked

variable {b : Option Binding} {shadows rest : List Shadow}

theorem stacked_perm (h : shadows.Perm rest) : (stacked f b shadows).Perm (stacked f b rest) :=
  (List.Perm.append_left _ (h.filterMap _)).filter _

theorem stacked_cons_of_eq {s : Shadow} (hs : s.key = f.name) (shadows : List Shadow) :
    stacked f none (s :: shadows) = stacked f s.hidden shadows := by
  cases hh : s.hidden <;> simp [stacked, hiddenBy, hs, hh]

theorem stacked_cons_of_ne {s : Shadow} (hs : s.key ≠ f.name) (shadows : List Shadow) :
    stacked f b (s :: shadows) = stacked f b shadows := by
  simp [stacked, hiddenBy, hs]

theorem stacked_none_sublist : List.Sublist (stacked f none shadows) (stacked f b shadows) :=
  (List.sublist_append_right b.toList _).filter _

/-- A binding of something else does not count. -/
theorem stacked_eq_none (hb : ∀ c, b = some c → c.isOf f = false) :
    stacked f b shadows = stacked f none shadows := by
  cases b with
  | none => rfl
  | some c => simp [stacked, hb c rfl]

/-- Undoing a shadow leaves some of the bindings. -/
theorem stacked_undo (s : Shadow) :
    (stacked f (if s.key = f.name then s.hidden else b) shadows).Subperm
      (stacked f b (s :: shadows)) := by
  by_cases hs : s.key = f.name
  · rw [if_pos hs, ← stacked_cons_of_eq hs]
    exact stacked_none_sublist.subperm
  · rw [if_neg hs, stacked_cons_of_ne hs]

theorem stacked_undone :
    (stacked f (undone f.name shadows b) rest).Subperm (stacked f b (shadows ++ rest)) := by
  induction shadows generalizing b with
  | nil => exact List.Subperm.refl _
  | cons s shadows ih => exact ih.trans (stacked_undo s)

end Stacked

/-! #### What keeps the shadows -/

/-- The name of the function is bound as before, or to something else. -/
theorem copies_of_get? (hp : r'.pending = r.pending)
    (hget : r'.get? f.name = r.get? f.name ∨ ∀ b, r'.get? f.name = some b → b.isOf f = false) :
    (r'.copies f).Subperm (r.copies f) := by
  unfold copies
  rw [hp]
  rcases hget with hget | hget
  · rw [hget]
  · rw [stacked_eq_none hget]
    exact stacked_none_sublist.subperm

theorem copies_define (r : Registry) {key : String} {b : Binding}
    (hb : key = f.name → b.isOf f = false) : ((r.define key b).copies f).Subperm (r.copies f) := by
  refine copies_of_get? rfl ?_
  rw [get?_define]
  by_cases hk : key = f.name
  · right
    intro c hc
    rw [if_pos hk] at hc
    cases hc
    exact hb hk
  · exact .inl (if_neg hk)

theorem copies_remove? {key : String} (h : r.remove? key = some r') :
    (r'.copies f).Subperm (r.copies f) := by
  unfold remove? at h
  split at h
  · cases h
  · cases h
    refine copies_of_get? rfl ?_
    rw [get?, Table.get?_erase]
    split
    · exact .inr fun b hb => by cases hb
    · exact .inl rfl

/-- Giving a name a value keeps the number of bindings. -/
theorem length_copies_value {key : String} {b : Binding} (hb : r.get? key = some b) (v : Value) :
    ((r.define key { b with value := v }).copies f).length = (r.copies f).length := by
  show (stacked f ((r.define key { b with value := v }).get? f.name) r.pending).length = _
  rw [get?_define, copies]
  by_cases hk : key = f.name
  · have hsame : Binding.isOf f { b with value := v } = b.isOf f := rfl
    rw [if_pos hk, ← hk, hb]
    cases hof : b.isOf f <;> simp [stacked, hsame, hof]
  · rw [if_neg hk]

/-- What a function gives is kept in the one binding that it has. -/
theorem value_of_mem_copies_setResult (hf : r.binds f = true) (hone : (r.copies f).length ≤ 1)
    {v : Value} {b : Binding} (hb : b ∈ (r.setResult f.name v).copies f) : b.value = v := by
  obtain ⟨c, hc, hof⟩ := binds_iff.mp hf
  have hof' : Binding.isOf f { c with value := v } = true := hof
  have hset : r.setResult f.name v = r.define f.name { c with value := v } := by
    rw [setResult, hc]
    exact if_pos (Binding.isFunction_of_isOf hof)
  have hcopies : (r.setResult f.name v).copies f =
      { c with value := v } :: stacked f none r.pending := by
    rw [hset]
    show stacked f ((r.define f.name { c with value := v }).get? f.name) r.pending = _
    rw [get?_define, if_pos rfl]
    simp [stacked, hof']
  have hlength := length_copies_value (f := f) hc v
  rw [← hset, hcopies, List.length_cons] at hlength
  -- There is no room for a second binding.
  have hnil : stacked f none r.pending = [] := List.length_eq_zero_iff.mp (by omega)
  rw [hcopies, hnil] at hb
  rw [List.mem_singleton.mp hb]

theorem copies_setResult (r : Registry) {function : String}
    (h : function = f.name → r.binds f = false) (v : Value) :
    ((r.setResult function v).copies f).Subperm (r.copies f) := by
  unfold setResult
  split
  next b hb =>
    split
    · refine copies_define r fun hname => ?_
      have hnot := h hname
      rw [binds, ← hname, hb] at hnot
      exact hnot
    · exact List.Subperm.refl _
  · exact List.Subperm.refl _

theorem length_copies_setResult (r : Registry) (function : String) (v : Value) :
    ((r.setResult function v).copies f).length = (r.copies f).length := by
  unfold setResult
  split
  next b hb =>
    split
    · exact length_copies_value hb v
    · rfl
  · rfl

theorem copies_clear (r : Registry) : r.clear.copies f = [] := by
  have hhidden : hiddenBy f.name (r.pending.map Shadow.forget) = [] := by
    refine List.filterMap_eq_nil_iff.mpr fun s hs => ?_
    obtain ⟨t, _, rfl⟩ := List.mem_map.mp hs
    exact ite_self none
  rw [copies, stacked, pending_clear, hhidden]
  rfl

/-! #### What adds or undoes shadows -/

/-- A name is bound to something else, and what it hides waits. -/
theorem copies_shadow {key : String} {c : Binding} (hc : c.isOf f = false)
    (hget : r'.get? f.name = if key = f.name then some c else r.get? f.name)
    (hp : r'.pending.Perm (⟨key, r.get? key⟩ :: r.pending)) :
    (r'.copies f).Subperm (r.copies f) := by
  refine (stacked_perm hp).subperm.trans ?_
  rw [hget]
  by_cases hk : key = f.name
  · have hother : ∀ d, some c = some d → d.isOf f = false := by
      rintro d ⟨⟩
      exact hc
    rw [if_pos hk, stacked_eq_none hother, stacked_cons_of_eq hk, hk]
    exact List.Subperm.refl _
  · rw [if_neg hk, stacked_cons_of_ne hk]
    exact List.Subperm.refl _

theorem copies_pushItem (r : Registry) (item : String) :
    ((r.pushItem item).copies f).Subperm (r.copies f) :=
  copies_shadow (Binding.isOf_ofVariable .none none) (get?_define r item f.name _) List.perm_middle

theorem copies_bindLocal (r : Registry) (key : String) {c : Binding} (hc : c.isOf f = false) :
    ((r.bindLocal key c).copies f).Subperm (r.copies f) := by
  have hget := get?_define r key f.name c
  cases hframes : r.frames with
  | nil =>
    have hlocal : r.bindLocal key c = r.define key c := by
      unfold bindLocal define
      rw [hframes]
    rw [hlocal]
    exact copies_define r fun _ => hc
  | cons frame frames =>
    have hlocal : r.bindLocal key c = { r.define key c with
        frames := { frame with locals := ⟨key, r.get? key⟩ :: frame.locals } :: frames } := by
      unfold bindLocal define
      rw [hframes]
    rw [hlocal]
    refine copies_shadow hc hget ?_
    rw [pending, pending, hframes]
    exact List.Perm.refl _

theorem copies_parameters (g : Function) (args : List Value) (r : Registry) :
    ((r.bindLocals (Engine.parameters g args)).copies f).Subperm (r.copies f) := by
  refine Engine.parameters_induct (P := fun r' => (r'.copies f).Subperm (r.copies f)) g args
    (List.Subperm.refl _) fun r' param arg hr => ?_
  exact (copies_bindLocal r' param (Binding.isOf_ofVariable arg none)).trans hr

theorem copies_popItem (r : Registry) : (r.popItem.copies f).Subperm (r.copies f) := by
  unfold popItem
  cases hitems : r.items with
  | nil => exact List.Subperm.refl _
  | cons s items =>
    have hpending : r.pending.Perm (s :: Registry.pending { r with items }) := by
      rw [pending, hitems]
      exact List.perm_middle
    show (stacked f (({ r with items } : Registry).unshadow s |>.get? f.name) _).Subperm _
    rw [get?_unshadow, pending, frames_unshadow, items_unshadow]
    exact (stacked_undo s).trans (stacked_perm hpending.symm).subperm

theorem copies_popFrame (r : Registry) : (r.popFrame.copies f).Subperm (r.copies f) := by
  unfold popFrame
  cases hframes : r.frames with
  | nil => exact List.Subperm.refl _
  | cons frame frames =>
    obtain ⟨hf, hi, hget⟩ := foldl_unshadow { r with frames } frame.locals
    show (stacked f ((frame.locals.foldl unshadow { r with frames }).get? f.name) _).Subperm _
    rw [hget, pending, hf, hi, copies, pending, hframes, List.flatMap_cons, List.append_assoc]
    exact stacked_undone

/-! #### Loading -/

/-- A function whose body is not in the forest is bound nowhere. -/
theorem Fits.copies_eq_nil {t : Forest} (hr : r.Fits t) (hf : t.size ≤ f.body) :
    r.copies f = [] := by
  have hnot : ∀ b : Binding, b.Fits t → b.isOf f ≠ true := by
    intro b hb hof
    have hlt := Forest.lt_size_of_shape (hb f (Binding.isOf_iff.mp hof)).shape_ne
    exact absurd hlt (Nat.not_lt_of_le hf)
  refine List.filter_eq_nil_iff.mpr fun b hb => hnot b ?_
  rcases List.mem_append.mp hb with hb | hb
  · exact hr.bound f.name b (Option.mem_toList.mp hb)
  · obtain ⟨s, hs, hhidden⟩ := List.mem_filterMap.mp hb
    split at hhidden
    · exact hr.hidden s hs b hhidden
    · cases hhidden

end Registry

namespace Workshop

/-- Loading hides nothing, and binds names to functions that new nodes declare. -/
theorem registry_of_prepare {t : Forest} (h : t.Good) {r : Registry} (hr : r.Fits t)
    (inserting : Bool) (source : String) :
    (left (prepare inserting source t r)).registry.pending = r.pending ∧
      ∀ key b, (left (prepare inserting source t r)).registry.get? key = some b →
        r.get? key = some b ∨ ∃ g : Function, ∃ id, key = g.name ∧
          b = .ofFunction (.script g) (some id) ∧ t.size ≤ id ∧ id < g.body := by
  refine prepare_induct (P := fun w => w.registry.pending = r.pending ∧
    ∀ key b, w.registry.get? key = some b → r.get? key = some b ∨ ∃ g : Function, ∃ id,
      key = g.name ∧ b = .ofFunction (.script g) (some id) ∧ t.size ≤ id ∧ id < g.body)
    h hr inserting source ⟨rfl, fun _ _ hb => .inl hb⟩ fun w w' id shape muted hstep hw => ?_
  rcases hstep.registry_eq with ⟨hsame, _⟩ | ⟨g, rfl, _, hdefine⟩
  · rw [hsame]
    exact hw
  · obtain ⟨seen, hloads⟩ := hstep.before
    have hbody : id < g.body := hloads.wellFormed.lt_of_mem_children hstep.fits.1.2.1
    rw [hdefine]
    refine ⟨hw.1, fun key b hb => ?_⟩
    rw [Registry.get?_define] at hb
    split at hb
    next hkey =>
      cases hb
      exact .inr ⟨g, id, hkey.symm, rfl, hstep.root_le, hbody⟩
    · exact hw.2 key b hb

section

variable {t : Forest} (h : t.Good) {r : Registry} (hr : r.Fits t) (inserting : Bool)
  (source : String) {f : Function}
include h hr

theorem copies_prepare (hf : f.body < t.size) :
    ((left (prepare inserting source t r)).registry.copies f).Subperm (r.copies f) := by
  obtain ⟨hpending, hget⟩ := registry_of_prepare h hr inserting source
  refine Registry.copies_of_get? hpending ?_
  cases hb : (left (prepare inserting source t r)).registry.get? f.name with
  | none => exact .inr fun b hb => by cases hb
  | some b =>
    rcases hget _ _ hb with hold | ⟨g, id, _, rfl, hnew, hbody⟩
    · exact .inl hold.symm
    · -- A new function is not this one, whose body is old.
      right
      rintro c ⟨⟩
      refine Bool.eq_false_iff.mpr fun hof => ?_
      cases Binding.isOf_iff.mp hof
      exact absurd hf (Nat.not_lt_of_le (Nat.le_trans hnew (Nat.le_of_lt hbody)))

/-- A new function is bound once. -/
theorem length_copies_prepare (hf : t.size ≤ f.body) :
    ((left (prepare inserting source t r)).registry.copies f).length ≤ 1 := by
  have hhidden : Registry.stacked f none r.pending = [] := by
    refine List.sublist_nil.mp ?_
    rw [← hr.copies_eq_nil hf]
    exact Registry.stacked_none_sublist
  unfold Registry.copies
  rw [(registry_of_prepare h hr inserting source).1]
  cases (left (prepare inserting source t r)).registry.get? f.name with
  | none => simp [hhidden]
  | some b =>
    have hsplit : Registry.stacked f (some b) r.pending =
        [b].filter (Binding.isOf f) ++ Registry.stacked f none r.pending :=
      List.filter_append [b] _
    rw [hsplit, hhidden, List.append_nil]
    exact List.length_filter_le _ _

end

end Workshop

/-! ### Changes -/

/-- The moment gives the function a value: a value is assigned to its name, or kept under its name
as what the function gave, while the name stands for the function. -/
def Moment.Fills (f : Function) (t : Moment) : Prop :=
  t.Hits f.name ∧ t.situation.registry.binds f = true

/-- The situation is good, and no function is bound in two places. -/
structure Situation.Tidy (s : Situation) : Prop where
  good : s.Good
  single : ∀ f, (s.registry.copies f).length ≤ 1

namespace Situation.Change

variable {w : World} {label : Label} {s s' : Situation} {f : Function}

/-- A change that gives a function no value leaves it with some of the bindings that it had. -/
theorem copies_subperm (h : Change w label s s') (hs : s.Good) (hf : f.body < s.forest.size)
    (hn : ∀ event, label = .told event → ¬ Moment.Fills f ⟨event, s⟩) :
    (s'.registry.copies f).Subperm (s.registry.copies f) := by
  have hunfilled : ∀ event, label = .told event → Moment.Hits ⟨event, s⟩ f.name →
      s.registry.binds f = false := by
    intro event he hit
    exact Bool.eq_false_iff.mpr fun hb => hn event he ⟨hit, hb⟩
  -- What a function gives is told with its name, and hits it if the name stands for it.
  have hanswer : ∀ {function : String}, label = .told (.answers function) →
      function = f.name → s.registry.binds f = false := by
    intro function hl hname
    refine Bool.eq_false_iff.mpr fun hb => ?_
    obtain ⟨b, hget, hof⟩ := Registry.binds_iff.mp hb
    exact hn _ hl ⟨⟨hname, b, hget, Binding.isFunction_of_isOf hof⟩, hb⟩
  have hload := fun inserting source =>
    Workshop.copies_prepare hs.forest hs.registry inserting source hf
  cases h with
  | tell | console | switch | startFile | find | miss | beginFile | endFile =>
    exact List.Subperm.refl _
  | assign h =>
    obtain ⟨b, hb, hr⟩ := Registry.assign_eq_ok h
    show (Registry.copies _ f).Subperm _
    rw [hr]
    refine Registry.copies_define _ fun hname => ?_
    have hnot := hunfilled _ rfl hname
    rw [Registry.binds, ← hname, hb] at hnot
    exact hnot
  | bind name v id h =>
    show (Registry.copies (if s.registry.inCall then _ else _) f).Subperm _
    split
    · exact Registry.copies_bindLocal _ name (Binding.isOf_ofVariable v (some id))
    · exact Registry.copies_define _ fun _ => Binding.isOf_ofVariable v (some id)
  | answer function v => exact Registry.copies_setResult _ (hanswer rfl) v
  | remove h => exact Registry.copies_remove? h
  | clear =>
    show (Registry.copies s.registry.clear f).Subperm _
    rw [Registry.copies_clear]
    exact List.nil_subperm
  | member key entry h =>
    exact Registry.copies_define _ fun _ => Binding.isOf_hostBinding entry
  | beginLoop item => exact Registry.copies_pushItem _ item
  | nextItem item v => exact Registry.copies_define _ fun _ => Binding.isOf_ofVariable v none
  | endLoop => exact Registry.copies_popItem _
  | beginCall g h => exact Registry.copies_setResult _ (hanswer rfl) _
  | parameters g args => exact Registry.copies_parameters g args _
  | endCall => exact Registry.copies_popFrame _
  | load source => exact hload false source
  | @refuse _ path source failure made hnew htext h =>
    have hcopies := hload true source
    rw [h] at hcopies
    exact hcopies
  | @remember _ path source root made hnew htext h =>
    have hcopies := hload true source
    rw [h] at hcopies
    exact hcopies

/-- A change that gives a function a value keeps the number of its bindings, or lowers it. -/
theorem length_copies_le (h : Change w label s s') (hs : s.Good) (hf : f.body < s.forest.size) :
    (s'.registry.copies f).length ≤ (s.registry.copies f).length := by
  by_cases hfill : ∃ event, label = .told event ∧ Moment.Fills f ⟨event, s⟩
  · obtain ⟨event, rfl, hhits, _⟩ := hfill
    cases h with
    | tell => exact Nat.le_refl _
    | assign h =>
      obtain ⟨b, hb, hr⟩ := Registry.assign_eq_ok h
      show (Registry.copies _ f).length ≤ _
      rw [hr]
      exact Nat.le_of_eq (Registry.length_copies_value hb _)
    | answer function v => exact Nat.le_of_eq (Registry.length_copies_setResult _ function v)
    | beginCall g h => exact Nat.le_of_eq (Registry.length_copies_setResult _ g.name .none)
    | _ => exact hhits.elim
  · refine (h.copies_subperm hs hf fun event he hfills => hfill ⟨event, he, hfills⟩).length_le

/-- No change binds a function in a second place. -/
theorem tidy (h : Change w label s s') (hs : s.Tidy) : s'.Tidy := by
  have hgood := (h.good hs.good).1
  refine ⟨hgood, fun f => ?_⟩
  by_cases hf : f.body < s.forest.size
  · exact Nat.le_trans (h.length_copies_le hs.good hf) (hs.single f)
  · -- Only loading makes functions, and all others are bound nowhere.
    have hnew := Nat.le_of_not_lt hf
    have hgone : s'.forest = s.forest → (s'.registry.copies f).length ≤ 1 := by
      intro hforest
      rw [hgood.registry.copies_eq_nil (hforest ▸ hnew)]
      exact Nat.zero_le 1
    have hload := fun inserting source =>
      Workshop.length_copies_prepare hs.good.forest hs.good.registry inserting source hnew
    cases h with
    | load source => exact hload false source
    | @refuse _ path source failure made _ htext h =>
      have hlength := hload true source
      rw [h] at hlength
      exact hlength
    | @remember _ path source root made _ htext h =>
      have hlength := hload true source
      rw [h] at hlength
      exact hlength
    | _ => exact hgone rfl

end Situation.Change

namespace Machine.Leads

variable {w : World} {m m' : Machine} {f : Function}

/-- While a function is given no value, it keeps some of the bindings that it had. -/
theorem copies_subperm (h : Leads w m m') (hw : m.watched = true) (hm : m.Good)
    (hf : f.body < m.forest.size) (hn : ∀ t ∈ since m m', ¬ t.Fills f) :
    (m'.registry.copies f).Subperm (m.registry.copies f) := by
  have hgood : ∀ {label s s'}, Situation.Change w label s s' →
      s.Good ∧ f.body < s.forest.size → s'.Good ∧ f.body < s'.forest.size := by
    intro label s s' hs hbefore
    obtain ⟨hafter, hgrown⟩ := hs.good hbefore.1
    exact ⟨hafter, Nat.lt_of_lt_of_le hbefore.2 hgrown.size_le⟩
  induction h with
  | refl => exact List.Subperm.refl _
  | @step k label s h hs _ ih =>
    rw [h.continues.since_trans (continues_move k label s)] at hn
    rw [toSituation_move]
    obtain ⟨hk, hlt⟩ := (h.keeps hgood ⟨hm, hf⟩).1
    refine (hs.copies_subperm hk hlt fun event he hfills => ?_).trans
      (ih fun t ht => hn t (List.mem_append_right _ ht))
    subst he
    refine hn ⟨event, k.toSituation⟩ (List.mem_append_left _ ?_) hfills
    show _ ∈ since k (k.record event)
    rw [Continues.since_record (h.continues.watched.trans hw)]
    exact List.mem_singleton_self _

end Machine.Leads

end TagLang
