import Mathlib.Data.List.Chain
import TagLang.Proofs.Transitions

/-!
# The stations of a session

The stations of a session are the situations between its steps and the moments of its accounts, in
the order of the run (`Session.stations`).  From one station to the next lead the change that is
told of at the first one, or the start of a step, and then changes without a word
(`Session.stations_isChain`).  So what changes keep holds at all later stations
(`Session.stations_induct`, `Session.stations_keeps`).

Some events leave no choice as to what is told next, and of which situation (`Moment.next?`):
freeing all names is one, and finding the file of an insertion another.  What they announce is what
is told (`Session.stations_next`).
-/

namespace TagLang

open Machine

/-! ### Stations -/

namespace Session

/-- A situation of a session, with the event that it is on the account for; situations between steps
are there for none. -/
structure Station where
  event : Option Event
  situation : Situation

namespace Station

/-- The station of a situation between steps. -/
def between (s : Situation) : Station :=
  ⟨none, s⟩

/-- The station of a moment. -/
def ofMoment (t : Moment) : Station :=
  ⟨some t.event, t.situation⟩

theorem ofMoment_inj {t u : Moment} (h : ofMoment t = ofMoment u) : t = u := by
  cases t
  cases u
  cases h
  rfl

/-- A source may be read and loaded at the station: that of a step, or that of a file. -/
def isLoad (p : Station) : Bool :=
  match p.event with
  | none => true
  | some event => (Situation.Label.told event).isLoad

/-- The situation of the second station may come right behind the first one. -/
def Next (w : World) (p q : Station) : Prop :=
  ∃ s,
    (match p.event with
    | some event => Situation.Change w (.told event) p.situation s
    | none => Situation.Changes w .start p.situation s) ∧
    Situation.Changes w .silent s q.situation

variable {w : World} {p q : Station}

/-- What every change keeps is kept from a station to the next one. -/
theorem Next.keeps {I : Situation → Prop}
    (hI : ∀ {label s s'}, Situation.Change w label s s' → I s → I s') (h : p.Next w q)
    (hp : I p.situation) : I q.situation := by
  obtain ⟨s, hs, hsilent⟩ := h
  refine hsilent.keeps hI ?_
  split at hs
  · exact hI hs hp
  · exact hs.keeps hI hp

end Station

/-- The stations of a session in order. -/
def stations (w : World) : List (Nat × Step) → Machine → List Station
  | [], m => [.between m.toSituation]
  | (n, s) :: rest, m =>
    .between m.toSituation :: (Run.account (runStep w n s) m).reverse.map Station.ofMoment ++
      stations w rest (Run.final (runStep w n s) m)

end Session

/-! ### From station to station -/

open Session in
/-- The moments of a sequence of changes are stations one behind the other. -/
theorem Machine.Leads.isChain {w : World} {m m₁ : Machine} (h : Leads w m m₁)
    (hw : m.watched = true) {p : Station} (hp : p.Next w (.between m.toSituation)) :
    (Station.between m₁.toSituation :: ((since m m₁).map Station.ofMoment ++ [p])).IsChain
      fun later earlier => earlier.Next w later := by
  induction h with
  | refl =>
    rw [Continues.since_self]
    exact List.isChain_pair.mpr hp
  | @step k label s h hs hl ih =>
    rw [toSituation_move]
    cases label with
    | start => exact absurd rfl hl
    | silent =>
      -- The situation that the change leaves takes the place of the one that it is made in.
      have hsame : since m (k.move .silent s) = since m k := rfl
      rw [hsame]
      generalize (since m k).map Station.ofMoment ++ [p] = before at ih
      cases ih with
      | singleton => exact .singleton _
      | cons_cons hlast hbefore =>
        obtain ⟨s₁, hfirst, hsilent⟩ := hlast
        exact .cons_cons ⟨s₁, hfirst, hsilent.tail hs⟩ hbefore
    | told event =>
      have hk : k.watched = true := h.continues.watched.trans hw
      have hnew : since m (k.move (.told event) s) = ⟨event, k.toSituation⟩ :: since m k := by
        have hsame : since m (k.move (.told event) s) = since m (k.record event) := rfl
        rw [hsame, h.continues.since_trans (.record k event), Continues.since_record hk]
        rfl
      rw [hnew]
      -- What is told of is the situation in which the change is made.
      have hlast : (Station.ofMoment ⟨event, k.toSituation⟩ ::
          ((since m k).map Station.ofMoment ++ [p])).IsChain
            fun later earlier => earlier.Next w later := by
        generalize (since m k).map Station.ofMoment ++ [p] = before at ih
        cases ih with
        | singleton => exact .singleton _
        | cons_cons hnext hbefore => exact .cons_cons hnext hbefore
      exact .cons_cons ⟨s, hs, .refl⟩ hlast

namespace Session

variable {w : World} {m : Machine}

theorem stations_eq_cons (w : World) (steps : List (Nat × Step)) (m : Machine) :
    ∃ rest, stations w steps m = .between m.toSituation :: rest := by
  cases steps with
  | nil => exact ⟨_, rfl⟩
  | cons step rest => exact ⟨_, rfl⟩

/-- The moments of a step lead from the situation before it to the one behind it. -/
theorem runStep_isChain (hm : m.inserting = []) (n : Nat) (s : Step) :
    (Station.between m.toSituation ::
      (Run.account (runStep w n s) m).reverse.map Station.ofMoment ++
        [Station.between (Run.final (runStep w n s) m).toSituation]).IsChain (Station.Next w) := by
  obtain ⟨s₀, hstarts, hleads⟩ := runStep_leads (w := w) n s (m := m.watch) hm
  have hstart : (Station.between m.toSituation).Next w (.between s₀) := ⟨s₀, hstarts, .refl⟩
  have hchain := hleads.isChain rfl hstart
  have hblind := (runStep_indifferent Run.blind_indifferent w n s).final_toSituation m
  have hsince : since (m.watch.update fun _ => s₀) (Run.final (runStep w n s) m.watch) =
      Run.account (runStep w n s) m :=
    Continues.since_eq (List.append_nil _).symm
  rw [hsince, hblind, ← List.isChain_reverse] at hchain
  simpa using hchain

/-- From every station of a session to the next one lead changes of which only the first one is told
of. -/
theorem stations_isChain (hm : Reachable w m) (steps : List (Nat × Step)) :
    (stations w steps m).IsChain (Station.Next w) := by
  induction steps generalizing m with
  | nil => exact .singleton _
  | cons step rest ih =>
    obtain ⟨n, s⟩ := step
    have hrest := ih (m := Run.final (runStep w n s) m) (.step n s hm)
    obtain ⟨later, hlater⟩ := stations_eq_cons w rest (Run.final (runStep w n s) m)
    rw [stations, hlater]
    rw [hlater] at hrest
    exact List.isChain_split.mpr ⟨runStep_isChain hm.idle.inserting n s, hrest⟩

theorem stations_next_of (hm : Reachable w m) {steps : List (Nat × Step)} {i : Nat} {p q : Station}
    (hp : (stations w steps m)[i]? = some p) (hq : (stations w steps m)[i + 1]? = some q) :
    p.Next w q := by
  obtain ⟨hi, rfl⟩ := List.getElem?_eq_some_iff.mp hp
  obtain ⟨hi', rfl⟩ := List.getElem?_eq_some_iff.mp hq
  exact List.isChain_iff_getElem.mp (stations_isChain hm steps) i hi'

theorem stations_zero (w : World) (steps : List (Nat × Step)) (m : Machine) :
    (stations w steps m)[0]? = some (.between m.toSituation) := by
  obtain ⟨rest, hrest⟩ := stations_eq_cons w steps m
  rw [hrest]
  rfl

/-- A session ends between steps, so whatever is told is told before another station. -/
theorem stations_succ {steps : List (Nat × Step)} {i : Nat} {p : Station}
    (hi : (stations w steps m)[i]? = some p) (hp : p.event ≠ none) :
    ∃ q, (stations w steps m)[i + 1]? = some q := by
  have hlast : ∃ front last, stations w steps m = front ++ [.between last] := by
    clear hi
    induction steps generalizing m with
    | nil => exact ⟨[], _, rfl⟩
    | cons step rest ih =>
      obtain ⟨n, s⟩ := step
      obtain ⟨front, last, h⟩ := ih (m := Run.final (runStep w n s) m)
      rw [stations, h, ← List.append_assoc]
      exact ⟨_, last, rfl⟩
  obtain ⟨front, last, h⟩ := hlast
  rw [h] at hi ⊢
  by_cases hlt : i < front.length
  · exact ⟨_, List.getElem?_eq_getElem (by simpa using hlt)⟩
  · rw [List.getElem?_append_right (Nat.le_of_not_lt hlt)] at hi
    obtain rfl := List.mem_singleton.mp (List.mem_of_getElem? hi)
    exact absurd rfl hp

/-- What holds at a station, and is kept from every station to the next one, holds at all that come
later. -/
theorem stations_induct {steps : List (Nat × Step)} {P : Nat → Station → Prop} {i j : Nat}
    {p q : Station} (hij : i ≤ j) (hp : (stations w steps m)[i]? = some p) (hstart : P i p)
    (hnext : ∀ k p q, i ≤ k → (stations w steps m)[k]? = some p →
      (stations w steps m)[k + 1]? = some q → P k p → P (k + 1) q)
    (hq : (stations w steps m)[j]? = some q) : P j q := by
  induction j, hij using Nat.le_induction generalizing q with
  | base =>
    rw [hp, Option.some.injEq] at hq
    exact hq ▸ hstart
  | succ k hik ih =>
    obtain ⟨hbound, _⟩ := List.getElem?_eq_some_iff.mp hq
    have hk : k < (stations w steps m).length := by omega
    have hbefore := List.getElem?_eq_getElem hk
    exact hnext k _ q hik hbefore hq (ih hbefore)

/-- What every change keeps holds at all stations behind one at which it holds. -/
theorem stations_keeps {I : Situation → Prop}
    (hI : ∀ {label s s'}, Situation.Change w label s s' → I s → I s') (hm : Reachable w m)
    {steps : List (Nat × Step)} {i j : Nat} {p q : Station} (hij : i ≤ j)
    (hp : (stations w steps m)[i]? = some p) (hstart : I p.situation)
    (hq : (stations w steps m)[j]? = some q) : I q.situation :=
  stations_induct (P := fun _ p => I p.situation) hij hp hstart
    (fun _ _ _ _ hp hq h => (stations_next_of hm hp hq).keeps hI h) hq

/-- Every station of a session is in a good situation. -/
theorem stations_good (hm : Reachable w m) {steps : List (Nat × Step)} {i : Nat} {p : Station}
    (hp : (stations w steps m)[i]? = some p) : p.situation.Good :=
  stations_keeps (fun h hs => (h.good hs).1) hm (Nat.zero_le i) (stations_zero w steps m)
    hm.ready.good hp

end Session

/-! ### What must be told next -/

/-- What is told next, and of which situation, where the event leaves no choice. -/
def Moment.next? (w : World) (t : Moment) : Option Moment :=
  match t.event with
  | .runs id =>
    match t.situation.forest.shape id with
    | .freeAll => some ⟨.clears, t.situation.onRegistry Registry.clear⟩
    | _ => none
  | .finds path =>
    match t.situation.inserted.get? path.components with
    | some root => some ⟨.enters path root, t.situation⟩
    | none => some ⟨.reads path, t.situation⟩
  | .reads path =>
    match w.library.load path with
    | .error _ => none
    | .ok source =>
      match Workshop.prepare true source t.situation.forest t.situation.registry with
      | .ok root made => some ⟨.enters path root, { t.situation.settle made with
          inserted := t.situation.inserted.insert path.components root }⟩
      | .error failure made => some ⟨.refuses true failure, t.situation.settle made⟩
  | _ => none

theorem Moment.next?_of_isPlain {w : World} {event : Event} (h : event.isPlain = true)
    (s : Situation) : Moment.next? w ⟨event, s⟩ = none := by
  cases event with
  | runs | finds | reads => cases h
  | _ => rfl

theorem Moment.next?_runs {w : World} {s : Situation} {id : NodeId} {u : Moment}
    (h : Moment.next? w ⟨.runs id, s⟩ = some u) :
    s.forest.shape id = .freeAll ∧ u = ⟨.clears, s.onRegistry Registry.clear⟩ := by
  simp only [next?] at h
  split at h
  next hid => exact ⟨hid, (Option.some.inj h).symm⟩
  · cases h

/-- What must be told next is told next, in a list of moments in the order of the run. -/
def Moment.Orderly (w : World) (moments : List Moment) : Prop :=
  ∀ k t u, moments[k]? = some t → t.next? w = some u → moments[k + 1]? = some u

namespace Moment.Orderly

variable {w : World}

theorem nil : Moment.Orderly w [] :=
  fun _ _ _ h => nomatch h

theorem cons {t : Moment} {later : List Moment} (h : ∀ u, t.next? w = some u → later.head? = some u)
    (hl : Moment.Orderly w later) : Moment.Orderly w (t :: later) := by
  intro k t' u ht hu
  cases k with
  | zero =>
    rw [List.getElem?_cons_zero, Option.some.injEq] at ht
    rw [List.getElem?_cons_succ, ← List.head?_eq_getElem?]
    exact h u (ht ▸ hu)
  | succ k => exact hl k t' u ht hu

theorem append {earlier later : List Moment} (h₁ : Moment.Orderly w earlier)
    (h₂ : Moment.Orderly w later) : Moment.Orderly w (earlier ++ later) := by
  intro k t u ht hu
  by_cases hk : k < earlier.length
  · rw [List.getElem?_append_left hk] at ht
    have hnext := h₁ k t u ht hu
    obtain ⟨hbound, _⟩ := List.getElem?_eq_some_iff.mp hnext
    rw [List.getElem?_append_left hbound, hnext]
  · rw [List.getElem?_append_right (by omega)] at ht
    have hnext := h₂ _ t u ht hu
    rw [List.getElem?_append_right (by omega), ← hnext]
    congr 1
    omega

end Moment.Orderly

/-- The account goes on, and tells next what must be told next. -/
structure Machine.Orderly (w : World) (m m' : Machine) : Prop where
  continues : Continues m m'
  orderly : m.watched = true → Moment.Orderly w (since m m').reverse

namespace Machine.Orderly

variable {w : World} {m m₁ m₂ : Machine}

theorem refl (m : Machine) : Machine.Orderly w m m := by
  refine ⟨.refl m, fun _ => ?_⟩
  rw [Continues.since_self]
  exact .nil

theorem trans (h₁ : Machine.Orderly w m m₁) (h₂ : Machine.Orderly w m₁ m₂) :
    Machine.Orderly w m m₂ := by
  refine ⟨h₁.continues.trans h₂.continues, fun hw => ?_⟩
  rw [h₁.continues.since_trans h₂.continues, List.reverse_append]
  exact (h₁.orderly hw).append (h₂.orderly (h₁.continues.watched.trans hw))

theorem update (m : Machine) (f : Situation → Situation) : Machine.Orderly w m (m.update f) := by
  refine ⟨.update m f, fun _ => ?_⟩
  rw [Continues.since_update]
  exact .nil

/-- An event is told, and what follows begins with what it announces. -/
theorem ofRecord {event : Event} (h : Machine.Orderly w (m.record event) m₁)
    (hnext : m.watched = true → ∀ u, Moment.next? w ⟨event, m.toSituation⟩ = some u →
      (since (m.record event) m₁).reverse.head? = some u) : Machine.Orderly w m m₁ := by
  have hrecord : Continues m (m.record event) := .record m event
  refine ⟨hrecord.trans h.continues, fun hw => ?_⟩
  rw [Continues.since_of_record hw h.continues, List.reverse_append]
  exact .cons (hnext hw) (h.orderly (hrecord.watched.trans hw))

/-- An event that announces nothing is told. -/
theorem record {event : Event} (h : Moment.next? w ⟨event, m.toSituation⟩ = none) :
    Machine.Orderly w m (m.record event) := by
  refine ofRecord (refl _) fun _ u hu => ?_
  rw [h] at hu
  cases hu

/-- What follows an event begins with it. -/
theorem head?_since {event : Event} (hw : m.watched = true) (h : Continues (m.record event) m₁) :
    (since m m₁).reverse.head? = some ⟨event, m.toSituation⟩ := by
  rw [Continues.since_of_record hw h, List.reverse_append]
  rfl

end Machine.Orderly

/-- Runs the tree of a file. -/
def Engine.enterFile (e : Engine) (path : Path) (root : NodeId) : Run Flow := do
  note (.enters path root)
  let _ ← duringFile path (e.execute root)
  pure .completed

theorem Engine.runInserted_eq (w : World) (e : Engine) (path : Path) (line : Nat) :
    e.runInserted w path line = note (.finds path) >>= fun _ =>
      inserted w path line >>= e.enterFile path :=
  rfl

/-- The computation tells next what must be told next. -/
def Run.Orderly (w : World) ⦃α : Type⦄ (x : Run α) : Prop :=
  Run.Moves (Machine.Orderly w) x

namespace Run.Orderly

variable {w : World}

theorem steady : Steady (Run.Orderly w) where
  pure _ m := .refl m
  bind := Run.Moves.bind .trans
  failed _ m := .refl m
  look _ m := .refl m
  note _ h _ := .record (Moment.next?_of_isPlain h _)
  change f m := .update m f
  ensuring after hx m := by
    rw [Run.final_ensuring]
    exact (hx m).trans (.update _ after)
  write line text m := by
    rw [Run.final_write]
    exact .update m _
  flush line m := by
    rw [Run.final_flush]
    exact .refl m
  readLine line m := by
    rw [Run.final_readLine]
    exact .update m _

theorem enterFile {e : Engine} {root : NodeId} (he : Run.Orderly w (e.execute root)) (path : Path) :
    Run.Orderly w (e.enterFile path root) :=
  steady.bind (fun _ => .record rfl) fun _ =>
    steady.bind (steady.duringFile path he) fun _ => steady.pure _

theorem head?_enterFile {e : Engine} {root : NodeId} (he : Run.Orderly w (e.execute root))
    (path : Path) {m : Machine} (hw : m.watched = true) :
    (since m (Run.final (e.enterFile path root) m)).reverse.head? =
      some ⟨.enters path root, m.toSituation⟩ :=
  Machine.Orderly.head?_since hw
    (steady.bind (steady.duringFile path he) (fun _ => steady.pure _) _).continues

/-- A file that is not remembered is read; if all of it can be loaded, its tree is entered. -/
theorem readFile {e : Engine} {path : Path} (line : Nat) {m : Machine}
    (he : ∀ root, Run.Orderly w (e.execute root)) (hnew : m.inserted.get? path.components = none) :
    let m' := Run.final (Engine.inserted w path line >>= e.enterFile path) m
    Machine.Orderly w m m' ∧ Continues (m.record (.reads path)) m' := by
  intro m'
  let k := m.record (.reads path)
  have hk : k.toSituation = m.toSituation := toSituation_record m _
  suffices h : Machine.Orderly w k m' ∧ (m.watched = true → ∀ u,
      Moment.next? w ⟨.reads path, m.toSituation⟩ = some u →
      (since k m').reverse.head? = some u) from ⟨.ofRecord h.1 h.2, h.1.continues⟩
  have hwatched : k.watched = m.watched := (Continues.record m _).watched
  have hread := Engine.inserted_of_new w line hnew
  cases hload : w.library.load path with
  | error io =>
    rw [hload] at hread
    have hend : m' = k := Run.final_bind_of_error hread _
    rw [hend]
    refine ⟨.refl k, fun _ u hu => ?_⟩
    simp only [Moment.next?, hload] at hu
    cases hu
  | ok source =>
    cases hw : Workshop.prepare true source m.forest m.registry with
    | ok root made =>
      simp only [hload, hw] at hread
      let settle := fun s : Situation =>
        { s.settle made with inserted := s.inserted.insert path.components root }
      have hend : m' = Run.final (e.enterFile path root) (k.update settle) :=
        Run.final_bind_of_ok hread _
      rw [hend]
      refine ⟨.trans (.update k settle) (enterFile (he root) path _), fun hm u hu => ?_⟩
      have hfirst := head?_enterFile (he root) path (m := k.update settle) (hwatched.trans hm)
      simp only [Moment.next?, hload, hw, Option.some.injEq] at hu
      rw [← hu]
      rw [toSituation_update, hk] at hfirst
      exact hfirst
    | error failure made =>
      simp only [hload, hw] at hread
      have hend : m' = (k.update (Situation.settle made)).record (.refuses true failure) :=
        Run.final_bind_of_error hread _
      rw [hend]
      refine ⟨.trans (.update k _) (.record rfl), fun hm u hu => ?_⟩
      have hfirst := Machine.Orderly.head?_since (m := k.update (Situation.settle made))
        (hwatched.trans hm) (.refl (record (.refuses true failure) _))
      simp only [Moment.next?, hload, hw, Option.some.injEq] at hu
      rw [← hu]
      rw [toSituation_update, hk] at hfirst
      exact hfirst

/-- The file of an insertion that is not refused is entered, or is read first. -/
theorem runInserted (e : Engine) (path : Path) (line : Nat)
    (he : ∀ root, Run.Orderly w (e.execute root)) : Run.Orderly w (e.runInserted w path line) := by
  intro m
  let k := m.record (.finds path)
  have hk : k.toSituation = m.toSituation := toSituation_record m _
  have hwatched : k.watched = m.watched := (Continues.record m _).watched
  rw [Engine.runInserted_eq, Run.final_note_bind]
  cases hknown : m.inserted.get? path.components with
  | some root =>
    have hfound : Engine.inserted w path line k = .ok root k :=
      Engine.inserted_of_known w line (by rw [hk]; exact hknown)
    rw [Run.final_bind_of_ok hfound]
    refine .ofRecord (enterFile (he root) path k) fun hw u hu => ?_
    rw [head?_enterFile (he root) path (hwatched.trans hw), hk]
    simpa only [Moment.next?, hknown] using hu
  | none =>
    obtain ⟨horderly, hreads⟩ := readFile line he (m := k) (by rw [hk]; exact hknown)
    refine .ofRecord horderly fun hw u hu => ?_
    rw [Machine.Orderly.head?_since (hwatched.trans hw) hreads, hk]
    simpa only [Moment.next?, hknown] using hu

theorem switched (w : World) : Switched w (Run.Orderly w) :=
  steady.switched (fun _ m => .refl m) runInserted

/-- A node that frees all names does so at once. -/
theorem runNode {e : Engine} (he : e.Within (Run.Orderly w)) (passes : Nat) (id : NodeId) :
    Run.Orderly w (e.runNode w passes id) := by
  intro m
  rw [Engine.runNode_eq, Run.final_note_bind, Run.final_look_bind, Run.final_look_bind]
  refine .ofRecord ((switched w).runAnyShape he passes id _ _ _) fun hw u hu => ?_
  obtain ⟨hid, rfl⟩ := Moment.next?_runs hu
  have hwatched : (m.record (.runs id)).watched = true :=
    (Continues.record m _).watched.trans hw
  rw [toSituation_record, hid]
  show (since _ (Run.final Engine.runFreeAll _)).reverse.head? = _
  rw [Run.since_runFreeAll hwatched, toSituation_record]
  rfl

/-- Every step of a session tells next what must be told next. -/
theorem runStep (n : Nat) (s : Step) : Run.Orderly w (Session.runStep w n s) := by
  have hengine := (switched w).engine_of_runNode (fun _ passes id he => runNode he passes id)
    (fun _ _ => (switched w).switchingOn) n
  exact Session.runStep_of_execute steady hengine.execute s

end Run.Orderly

namespace Session

/-- What must be told next, by the event of a station, is told at the next station. -/
theorem stations_next {w : World} {steps : List (Nat × Step)} {m : Machine} {i : Nat} {t u : Moment}
    (hi : (stations w steps m)[i]? = some (.ofMoment t)) (hu : t.next? w = some u) :
    (stations w steps m)[i + 1]? = some (.ofMoment u) := by
  induction steps generalizing m i with
  | nil =>
    cases i with
    | zero => cases hi
    | succ i => cases hi
  | cons step rest ih =>
    obtain ⟨n, s⟩ := step
    cases i with
    | zero => cases hi
    | succ i =>
      have horderly : Moment.Orderly w (Run.account (runStep w n s) m).reverse := by
        have h := (Run.Orderly.runStep (w := w) n s m.watch).orderly rfl
        rwa [Continues.since_eq (List.append_nil _).symm] at h
      rw [stations, List.cons_append, List.getElem?_cons_succ] at hi ⊢
      generalize (Run.account (runStep w n s) m).reverse = moments at hi horderly
      by_cases hlen : i < moments.length
      · rw [List.getElem?_append_left (by simpa using hlen), List.getElem?_map,
          Option.map_eq_some_iff] at hi
        obtain ⟨t', ht, hsame⟩ := hi
        rw [Station.ofMoment_inj hsame] at ht
        have hnext := horderly i t u ht hu
        obtain ⟨hbound, _⟩ := List.getElem?_eq_some_iff.mp hnext
        rw [List.getElem?_append_left (by simpa using hbound), List.getElem?_map, hnext]
        rfl
      · rw [List.getElem?_append_right (by simpa using hlen)] at hi
        rw [List.getElem?_append_right (by simp; omega), ← ih hi]
        congr 1
        simp
        omega

end Session

end TagLang
