import TagLang.Proofs.Copies
import TagLang.Proofs.Stations

/-!
# Where bindings come from

A registry holds what its names are bound to and what waits to come back (`Registry.Holds`).  A
binding that is held behind a change was held before it, perhaps with another value, or the event
tells that it is made, or a source was loaded and a new node declares it (`Situation.Change.holds`).

So everything that is held at a station of a session goes back to a station at which it was made,
unless it has been there from the start.  Behind a station at which nothing is held, everything has
been made behind it (`Session.madeBetween_of_blank`).  Freeing all names leads to such a station,
and is therefore final (`Session.cleared_for_good`).
-/

namespace TagLang

open Machine

/-! ### What a registry holds -/

namespace Registry

/-- The name is bound to the binding, or the binding waits under the name to come back. -/
def Holds (r : Registry) (key : String) (b : Binding) : Prop :=
  r.get? key = some b ∨ ⟨key, some b⟩ ∈ r.pending

/-- No name is bound, and nothing waits to come back. -/
structure Blank (r : Registry) : Prop where
  size_eq : r.size = 0
  hidden : ∀ s ∈ r.pending, s.hidden = none

theorem blank_clear (r : Registry) : r.clear.Blank where
  size_eq := rfl
  hidden s hs := by
    rw [pending_clear] at hs
    obtain ⟨old, _, rfl⟩ := List.mem_map.mp hs
    rfl

variable {r r' : Registry} {key k : String} {b c : Binding}

theorem Blank.not_holds (h : r.Blank) : ¬ r.Holds key b := by
  rintro (hb | hb)
  · have hnone : r.bindings.entries = [] := List.length_eq_zero_iff.mp h.size_eq
    rw [get?, Table.get?, hnone] at hb
    cases hb
  · cases h.hidden _ hb

namespace Holds

/-- What waits is as before, and the name is bound as before or to something new. -/
theorem of_define (h : (r.define k c).Holds key b) : r.Holds key b ∨ key = k ∧ b = c := by
  rcases h with h | h
  · rw [get?_define] at h
    split at h
    next hk => exact .inr ⟨hk.symm, (Option.some.inj h).symm⟩
    next => exact .inl (.inl h)
  · exact .inl (.inr h)

/-- A bound name is given a value. -/
theorem of_setValue {v : Value} (hc : r.get? k = some c)
    (h : (r.define k { c with value := v }).Holds key b) :
    r.Holds key b ∨ key = k ∧ ∃ b₀, r.Holds key b₀ ∧ b = { b₀ with value := b.value } := by
  rcases h.of_define with h | ⟨rfl, rfl⟩
  · exact .inl h
  · exact .inr ⟨rfl, c, .inl hc, rfl⟩

theorem of_bindLocal (h : (r.bindLocal k c).Holds key b) : r.Holds key b ∨ key = k ∧ b = c := by
  have hget : (r.bindLocal k c).get? key = (r.define k c).get? key := by
    unfold bindLocal define
    cases r.frames <;> rfl
  rcases h with h | h
  · rw [hget] at h
    exact of_define (.inl h)
  · left
    rw [pending, frames_bindLocal, items_bindLocal] at h
    cases hf : r.frames with
    | nil =>
      rw [hf] at h
      exact .inr (by rw [pending, hf]; exact h)
    | cons f frames =>
      rw [hf] at h
      -- The shadow that is new hides what the name was bound to.
      rcases List.mem_cons.mp h with hnew | hold
      · obtain ⟨rfl, hc⟩ := Shadow.mk.inj hnew
        exact .inl hc.symm
      · exact .inr (by rw [pending, hf]; exact hold)

theorem of_bindLocals {made : List (String × Binding)} (h : (r.bindLocals made).Holds key b) :
    r.Holds key b ∨ (key, b) ∈ made := by
  induction made generalizing r with
  | nil => exact .inl h
  | cons first rest ih =>
    rcases ih h with h | h
    · rcases of_bindLocal h with h | ⟨rfl, rfl⟩
      · exact .inl h
      · exact .inr (List.mem_cons_self ..)
    · exact .inr (List.mem_cons_of_mem _ h)

theorem of_setResult {v : Value} (h : (r.setResult k v).Holds key b) :
    r.Holds key b ∨ (key = k ∧ ∃ c, r.get? key = some c ∧ c.isFunction = true) ∧
      ∃ b₀, r.Holds key b₀ ∧ b = { b₀ with value := b.value } := by
  unfold setResult at h
  split at h
  next c hc =>
    split at h
    next hfunction =>
      rcases h.of_setValue hc with h | ⟨rfl, hb⟩
      · exact .inl h
      · exact .inr ⟨⟨rfl, c, hc, hfunction⟩, hb⟩
    next => exact .inl h
  next => exact .inl h

theorem of_remove? (hr : r.remove? k = some r') (h : r'.Holds key b) : r.Holds key b := by
  unfold remove? at hr
  split at hr
  · cases hr
  · cases hr
    rcases h with h | h
    · rw [get?, Table.get?_erase] at h
      split at h
      · cases h
      · exact .inl h
    · exact .inr h

theorem of_pushItem (h : (r.pushItem k).Holds key b) :
    r.Holds key b ∨ key = k ∧ b = .ofVariable .none none := by
  rcases h with h | h
  · exact of_define (.inl h)
  · have h' : ⟨key, some b⟩ ∈ r.frames.flatMap (·.locals) ++ ⟨k, r.get? k⟩ :: r.items := h
    rcases List.mem_append.mp h' with hf | hi
    · exact .inl (.inr (List.mem_append_left _ hf))
    · rcases List.mem_cons.mp hi with hnew | hold
      · obtain ⟨rfl, hc⟩ := Shadow.mk.inj hnew
        exact .inl (.inl hc.symm)
      · exact .inl (.inr (List.mem_append_right _ hold))

/-- What comes back was waiting. -/
theorem of_undone {shadows : List Shadow} {bound : Option Binding}
    (h : undone key shadows bound = some b) : bound = some b ∨ ⟨key, some b⟩ ∈ shadows := by
  induction shadows generalizing bound with
  | nil => exact .inl h
  | cons s rest ih =>
    rcases ih h with hfirst | hrest
    · dsimp only at hfirst
      split at hfirst
      next hk =>
        right
        rw [← hk, ← hfirst]
        exact List.mem_cons_self ..
      next => exact .inl hfirst
    · exact .inr (List.mem_cons_of_mem _ hrest)

theorem of_foldl_unshadow {shadows : List Shadow} (h : (shadows.foldl unshadow r).Holds key b) :
    r.Holds key b ∨ ⟨key, some b⟩ ∈ shadows := by
  obtain ⟨hframes, hitems, hget⟩ := foldl_unshadow r shadows
  rcases h with h | h
  · rw [hget] at h
    rcases of_undone h with h | h
    · exact .inl (.inl h)
    · exact .inr h
  · rw [pending, hframes, hitems] at h
    exact .inl (.inr h)

/-- A call or a loop is over, and what its names hid comes back. -/
theorem of_over {shadows : List Shadow} (h : (shadows.foldl unshadow r').Holds key b)
    (hbindings : r'.bindings = r.bindings)
    (hpending : ∀ s, s ∈ r'.pending ∨ s ∈ shadows → s ∈ r.pending) : r.Holds key b := by
  rcases of_foldl_unshadow h with (h | h) | h
  · rw [get?, hbindings] at h
    exact .inl h
  · exact .inr (hpending _ (.inl h))
  · exact .inr (hpending _ (.inr h))

theorem of_popItem (h : r.popItem.Holds key b) : r.Holds key b := by
  unfold popItem at h
  split at h
  · exact h
  next s items hi =>
    have h' : ([s].foldl unshadow { r with items }).Holds key b := h
    refine h'.of_over rfl fun t ht => ?_
    simp only [pending, hi, List.mem_append, List.mem_cons, List.not_mem_nil, or_false] at ht ⊢
    tauto

theorem of_popFrame (h : r.popFrame.Holds key b) : r.Holds key b := by
  unfold popFrame at h
  split at h
  · exact h
  next f frames hf =>
    refine h.of_over rfl fun t ht => ?_
    simp only [pending, hf, List.flatMap_cons, List.mem_append] at ht ⊢
    tauto

end Holds

end Registry

/-! ### What changes make -/

/-- Where a binding comes from that is held behind a change. -/
inductive Situation.Comes (label : Label) (s s' : Situation) (key : String) (b : Binding) : Prop
  | kept (h : s.registry.Holds key b)
  /-- The name has been given a value. -/
  | given {event : Event} {b₀ : Binding} (hl : label = .told event)
    (hit : Moment.Hits ⟨event, s⟩ key) (h : s.registry.Holds key b₀)
    (hb : b = { b₀ with value := b.value })
  /-- The event tells that the binding is made. -/
  | made {made : List (String × Binding)} (hl : label = .told (.makes made)) (h : (key, b) ∈ made)
  /-- A source has been loaded that declares a function, by a node that is new. -/
  | loaded {f : Function} {id : NodeId} (hl : label.isLoad = true) (hkey : key = f.name)
    (hb : b = .ofFunction (.script f) (some id)) (hnew : s.forest.size ≤ id)
    (hid : id < s'.forest.size)

/-- What is held behind a change was held before it or is made by it. -/
theorem Situation.Change.holds {w : World} {label : Label} {s s' : Situation} {key : String}
    {b : Binding} (h : Change w label s s') (hs : s.Good) (hb : s'.registry.Holds key b) :
    Comes label s s' key b := by
  have hgood := (h.good hs).1
  -- Loading a source hides nothing and declares functions, whose bodies are in the forest.
  have hloaded : ∀ inserting source made,
      Workshop.left (Workshop.prepare inserting source s.forest s.registry) = made →
      made.registry = s'.registry → label.isLoad = true → Comes label s s' key b := by
    rintro inserting source made rfl hr hl
    obtain ⟨hpending, hget⟩ := Workshop.registry_of_prepare hs.forest hs.registry inserting source
    rw [hr] at hpending hget
    rcases hb with hb | hb
    · rcases hget key b hb with hold | ⟨f, id, hkey, hfunction, hnew, hbody⟩
      · exact .kept (.inl hold)
      · have hfits := hgood.registry.bound key b hb f (by rw [hfunction]; rfl)
        have hlt := Forest.lt_size_of_shape hfits.shape_ne
        exact .loaded hl hkey hfunction hnew (Nat.lt_trans hbody hlt)
    · exact .kept (.inr (hpending ▸ hb))
  -- A binding that is new is the one that the event tells of.
  have hmade : ∀ {k : String} {c : Binding}, label = .told (.makes [(k, c)]) →
      s.registry.Holds key b ∨ key = k ∧ b = c → Comes label s s' key b := by
    rintro k c hl (h | ⟨rfl, rfl⟩)
    · exact .kept h
    · exact .made hl (List.mem_singleton_self _)
  cases h with
  | tell | console | switch | startFile | find | miss | beginFile | endFile => exact .kept hb
  | @assign _ name v r h =>
    obtain ⟨c, hc, rfl⟩ := Registry.assign_eq_ok h
    rcases hb.of_setValue hc with hb | ⟨rfl, b₀, hold, hvalue⟩
    · exact .kept hb
    · exact .given rfl rfl hold hvalue
  | bind name v id h =>
    refine hmade rfl ?_
    have hb' : Registry.Holds (if s.registry.inCall then _ else _) key b := hb
    split at hb'
    · exact hb'.of_bindLocal
    · exact hb'.of_define
  | answer function v =>
    rcases Registry.Holds.of_setResult hb with hb | ⟨⟨rfl, hit⟩, b₀, hold, hvalue⟩
    · exact .kept hb
    · exact .given rfl ⟨rfl, hit⟩ hold hvalue
  | remove h => exact .kept (hb.of_remove? h)
  | clear => exact absurd hb (Registry.blank_clear _).not_holds
  | member k entry h => exact hmade rfl hb.of_define
  | beginLoop item => exact hmade rfl hb.of_pushItem
  | nextItem item v => exact hmade rfl hb.of_define
  | endLoop => exact .kept (Registry.Holds.of_popItem hb)
  | beginCall f h =>
    rcases Registry.Holds.of_setResult (r := s.registry) hb with hb | ⟨⟨rfl, hit⟩, b₀, hold, hvalue⟩
    · exact .kept hb
    · exact .given rfl ⟨rfl, hit⟩ hold hvalue
  | parameters f args =>
    rcases Registry.Holds.of_bindLocals hb with hb | hb
    · exact .kept hb
    · exact .made rfl hb
  | endCall => exact .kept (Registry.Holds.of_popFrame hb)
  | load source => exact hloaded false source _ rfl rfl rfl
  | @refuse _ path source failure made hnew htext h =>
    exact hloaded true source made (by rw [h]; rfl) rfl rfl
  | @remember _ path source root made hnew htext h =>
    exact hloaded true source made (by rw [h]; rfl) rfl rfl

/-- What is held behind changes that are not told of was held before them, or a source has been
loaded. -/
theorem Situation.Changes.holds {w : World} {label : Label} {s s' : Situation}
    (h : Changes w label s s') (hl : ∀ event, label ≠ .told event) (hs : s.Good)
    {key : String} {b : Binding} (hb : s'.registry.Holds key b) : Comes label s s' key b := by
  induction h with
  | refl => exact .kept hb
  | @tail s₁ s₂ hbefore hc ih =>
    obtain ⟨hgood, hle⟩ := Changes.good hbefore hs
    have hle' := (hc.good hgood).2.size_le
    cases hc.holds hgood hb with
    | kept hb =>
      cases ih hb with
      | kept hb => exact .kept hb
      | given hl' => exact absurd hl' (hl _)
      | made hl' => exact absurd hl' (hl _)
      | loaded hl hkey hb hnew hid =>
        exact .loaded hl hkey hb hnew (Nat.lt_of_lt_of_le hid hle')
    | given hl' => exact absurd hl' (hl _)
    | made hl' => exact absurd hl' (hl _)
    | loaded hl hkey hb hnew hid => exact .loaded hl hkey hb (Nat.le_trans hle hnew) hid

/-! ### What is made in a session -/

namespace Session

namespace Station

/-- The binding is made between the first station and the one behind it. -/
inductive Makes (p q : Station) (key : String) (b : Binding) : Prop
  /-- The event tells so. -/
  | told {made : List (String × Binding)} (he : p.event = some (.makes made)) (h : (key, b) ∈ made)
  /-- A source is loaded that declares a function, by a node that is new. -/
  | loaded {f : Function} {id : NodeId} (hp : p.isLoad = true) (hkey : key = f.name)
    (hb : b = .ofFunction (.script f) (some id)) (hnew : p.situation.forest.size ≤ id)
    (hid : id < q.situation.forest.size)

/-- A statement that frees all names is run at the station. -/
def freesAll (p : Station) : Bool :=
  match p.event with
  | some (.runs id) =>
    match p.situation.forest.shape id with
    | .freeAll => true
    | _ => false
  | _ => false

/-- The name's binding is given a value at the station. -/
def Gives (p : Station) (key : String) : Prop :=
  ∃ event, p.event = some event ∧ Moment.Hits ⟨event, p.situation⟩ key

/-- What is held at a station was held at the one before, perhaps with another value, or is made
between them. -/
theorem Next.holds {w : World} {p q : Station} (h : p.Next w q) (hp : p.situation.Good)
    {key : String} {b : Binding} (hb : q.situation.registry.Holds key b) :
    p.Makes q key b ∨ ∃ b₀, p.situation.registry.Holds key b₀ ∧
      b = { b₀ with value := b.value } ∧ (b.value = b₀.value ∨ p.Gives key) := by
  obtain ⟨s, hfirst, hsilent⟩ := h
  have hgood : s.Good := by
    split at hfirst
    · exact (hfirst.good hp).1
    · exact (hfirst.good hp).1
  -- Changes without a word make nothing.
  have hs : s.registry.Holds key b := by
    cases hsilent.holds (fun _ => Situation.Label.noConfusion) hgood hb with
    | kept h => exact h
    | given hl | made hl => cases hl
    | loaded hl => cases hl
  have hle : s.forest.size ≤ q.situation.forest.size := (hsilent.good hgood).2
  split at hfirst
  next event he =>
    cases hfirst.holds hp hs with
    | kept h => exact .inr ⟨b, h, rfl, .inl rfl⟩
    | given hl hit h hvalue =>
      cases hl
      exact .inr ⟨_, h, hvalue, .inr ⟨event, he, hit⟩⟩
    | made hl h =>
      cases hl
      exact .inl (.told he h)
    | loaded hl hkey hb hnew hid =>
      have hload : p.isLoad = true := by
        rw [Station.isLoad, he]
        exact hl
      exact .inl (.loaded hload hkey hb hnew (Nat.lt_of_lt_of_le hid hle))
  next he =>
    cases hfirst.holds (fun _ => Situation.Label.noConfusion) hp hs with
    | kept h => exact .inr ⟨b, h, rfl, .inl rfl⟩
    | given hl | made hl => cases hl
    | loaded hl hkey hb hnew hid =>
      have hload : p.isLoad = true := by
        rw [Station.isLoad, he]
      exact .inl (.loaded hload hkey hb hnew (Nat.lt_of_lt_of_le hid hle))

end Station

/-- The binding was made at a station from the place `i` on and before the place `j`.  It has the
value that it was made with, or its name has been given one since. -/
def MadeBetween (st : List Station) (i j : Nat) (key : String) (b : Binding) : Prop :=
  ∃ l p q b₀, (i ≤ l ∧ l < j) ∧ (st[l]? = some p ∧ st[l + 1]? = some q ∧ p.Makes q key b₀) ∧
    b = { b₀ with value := b.value } ∧
    (b.value = b₀.value ∨ ∃ k u, (l < k ∧ k < j) ∧ st[k]? = some u ∧ u.Gives key)

/-- Whatever is held behind a station at which nothing is held has been made behind it. -/
theorem madeBetween_of_blank {w : World} {m : Machine} (hm : Reachable w m)
    {steps : List (Nat × Step)} {i j : Nat} {p q : Station} (hij : i ≤ j)
    (hp : (stations w steps m)[i]? = some p) (hblank : p.situation.registry.Blank)
    (hq : (stations w steps m)[j]? = some q) :
    ∀ key b, q.situation.registry.Holds key b → MadeBetween (stations w steps m) i j key b := by
  refine stations_induct (P := fun j q => ∀ key b, q.situation.registry.Holds key b →
    MadeBetween (stations w steps m) i j key b) hij hp
    (fun _ _ h => absurd h hblank.not_holds) ?_ hq
  intro k p q hik hp hq ih key b hb
  rcases (stations_next_of hm hp hq).holds (stations_good hm hp) hb with
    hmade | ⟨b₀, hheld, hsame, hvalue⟩
  · exact ⟨k, p, q, b, ⟨hik, Nat.lt_succ_self k⟩, ⟨hp, hq, hmade⟩, rfl, .inl rfl⟩
  · obtain ⟨l, p₁, q₁, b₁, ⟨hil, hlk⟩, hl, hsame₁, hvalue₁⟩ := ih key b₀ hheld
    refine ⟨l, p₁, q₁, b₁, ⟨hil, Nat.lt_succ_of_lt hlk⟩, hl, ?_, ?_⟩
    · rw [hsame, hsame₁]
    · rcases hvalue with hvalue | hgives
      · rcases hvalue₁ with hvalue₁ | ⟨k₁, u, ⟨hlk₁, hk₁⟩, hu⟩
        · exact .inl (hvalue.trans hvalue₁)
        · exact .inr ⟨k₁, u, ⟨hlk₁, Nat.lt_succ_of_lt hk₁⟩, hu⟩
      · exact .inr ⟨k, p, ⟨hlk, Nat.lt_succ_self k⟩, hp, hgives⟩

/-- Freeing all names is final, wherever in a session a statement does it.

The next that is told is that it is done: no name is bound then, and nothing waits to come back.
Whatever happens later, in the same step or in another one, everything that is bound or waits has
been made later, at a station that tells so or by loading a source.  On any machine the statement
itself leaves nothing bound and nothing that waits. -/
theorem cleared_for_good (w : World) (console : Console) (baseDir : Path)
    (steps : List (Nat × Step))
    {i : Nat} {p : Station} (hi : (stations w steps (Machine.fresh console baseDir))[i]? = some p)
    (hp : p.freesAll = true) :
    let st := stations w steps (Machine.fresh console baseDir)
    (∃ q, st[i + 1]? = some ⟨some .clears, q⟩ ∧ q.registry.Blank) ∧
    (∀ j q, i < j → st[j]? = some q → ∀ key b, q.situation.registry.Holds key b →
      MadeBetween st (i + 1) j key b) ∧
    ∀ m, ∃ m', Engine.runFreeAll m = .ok () m' ∧ m'.registry.Blank := by
  intro st
  have hreach : Reachable w (Machine.fresh console baseDir) := .fresh console baseDir
  have hcleared : st[i + 1]? = some ⟨some .clears, p.situation.onRegistry Registry.clear⟩ := by
    unfold Station.freesAll at hp
    split at hp
    next id he =>
      split at hp
      next hid =>
        obtain ⟨event, s⟩ := p
        cases he
        have hnext : Moment.next? w ⟨.runs id, s⟩ =
            some ⟨.clears, s.onRegistry Registry.clear⟩ := by
          simp only [Moment.next?, hid]
        exact stations_next (t := ⟨.runs id, s⟩) hi hnext
      next => cases hp
    next => cases hp
  have hblank : (p.situation.onRegistry Registry.clear).registry.Blank := Registry.blank_clear _
  refine ⟨⟨_, hcleared, hblank⟩, fun j q hij hj => ?_, fun m => ⟨_, rfl, ?_⟩⟩
  · exact madeBetween_of_blank hreach hij hcleared hblank hj
  · rw [registry_record]
    exact Registry.blank_clear _

/-- A loop in a call frees all names while the argument and the item of the loop hide a name each.
Neither comes back, and the next step binds one of the names anew. -/
theorem cleared_for_good_nested :
    let w : World := ⟨.empty, .constant ""⟩
    let steps : List (Nat × Step) := [
      (60, .source "x = 1; y = 2;"),
      (60, .source "fun f(x) { repeat (y : [7, 8]) { free all; z = 4; } } call f(5);"),
      (60, .source "x = 6;")]
    let st := stations w steps (Machine.fresh { input := [] } .empty)
    ∃ p q u b, (st[24]? = some p ∧ p.freesAll = true ∧ p.situation.registry.size = 4 ∧
        (p.situation.registry.pending.filterMap (·.hidden)).length = 2) ∧
      (st[25]? = some ⟨some .clears, q⟩ ∧ q.registry.Blank) ∧
      st[41]? = some u ∧ u.situation.registry.get? "x" = some b ∧ MadeBetween st 25 41 "x" b := by
  intro w steps st
  have hfrees : (st[24]?.any fun p => p.freesAll && p.situation.registry.size == 4 &&
      (p.situation.registry.pending.filterMap (·.hidden)).length == 2) = true := by
    decide +kernel
  have hlast : (st[41]?.any fun u => (u.situation.registry.get? "x").isSome) = true := by
    decide +kernel
  obtain ⟨p, hp, hchecked⟩ := (Option.any_eq_true ..).mp hfrees
  obtain ⟨u, hu, hbound⟩ := (Option.any_eq_true ..).mp hlast
  simp only [Bool.and_eq_true, beq_iff_eq] at hchecked
  obtain ⟨b, hb⟩ := Option.isSome_iff_exists.mp hbound
  obtain ⟨⟨q, hq, hblank⟩, hlater, _⟩ :=
    cleared_for_good w { input := [] } .empty steps hp hchecked.1.1
  exact ⟨p, q, u, b, ⟨hp, hchecked.1.1, hchecked.1.2, hchecked.2⟩, ⟨hq, hblank⟩, hu, hb,
    hlater 41 u (by decide) hu "x" b (.inl hb)⟩

end Session

end TagLang
