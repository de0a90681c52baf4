import TagLang.Proofs.Copies
import TagLang.Proofs.Stations

/-!
# Limits of calls and files

At every station of a session no more than a certain number of calls are under way, each with a
frame of its own, and no more than a certain number of files, no two of them the same
(`Situation.Limited`).  A file that has been inserted is remembered for the rest of the session,
with the root of its tree and with all nodes as they are (`Situation.Remembers`).

An insertion that gets to its file runs the tree that is remembered.  If there is none, the file is
read and loaded first, and is remembered from then on (`Session.InsertsOnce`).  So a file is loaded
at most once in a session, and every later insertion runs the same tree.
-/

namespace TagLang

open Machine

/-! ### Calls and files under way -/

/-- Calls and files are within their limits, and every call has its frame. -/
structure Situation.Limited (s : Situation) : Prop where
  depth_eq : s.depth = s.registry.frames.length
  depth_le : s.depth ≤ maxCallDepth
  inserting_le : s.inserting.length ≤ maxInsertDepth
  distinct : s.inserting.Pairwise fun p q => p.components ≠ q.components

theorem Registry.length_functions (r : Registry) : r.functions.length = r.frames.length :=
  List.length_map _

namespace Situation.Limited

variable {s s' : Situation}

/-- A change that leaves calls and files as they are. -/
theorem of_functions (h : s.Limited) (hr : s'.registry.functions = s.registry.functions)
    (hd : s'.depth = s.depth) (hi : s'.inserting = s.inserting) : s'.Limited where
  depth_eq := by
    rw [← Registry.length_functions, hr, Registry.length_functions, hd]
    exact h.depth_eq
  depth_le := hd ▸ h.depth_le
  inserting_le := hi ▸ h.inserting_le
  distinct := hi ▸ h.distinct

theorem beginCall (h : s.Limited) (f : Function) (hd : s.depth < maxCallDepth) :
    Limited { s with registry := Engine.beginCall f s.registry, depth := s.depth + 1 } where
  depth_eq := by
    show s.depth + 1 = (s.registry.setResult f.name .none).frames.length + 1
    rw [Registry.frames_setResult, h.depth_eq]
  depth_le := hd
  inserting_le := h.inserting_le
  distinct := h.distinct

theorem endCall (h : s.Limited) :
    Limited { s with registry := s.registry.popFrame, depth := s.depth - 1 } where
  depth_eq := by
    rw [← Registry.length_functions, Registry.functions_popFrame, List.length_tail,
      Registry.length_functions, h.depth_eq]
  depth_le := Nat.le_trans (Nat.sub_le ..) h.depth_le
  inserting_le := h.inserting_le
  distinct := h.distinct

theorem beginFile (h : s.Limited) (path base : TagLang.Path)
    (hnew : s.inserting.any path.same = false) (hlt : s.inserting.length < maxInsertDepth) :
    Limited { s with baseDir := base, inserting := path :: s.inserting } where
  depth_eq := h.depth_eq
  depth_le := h.depth_le
  inserting_le := hlt
  distinct := by
    refine List.pairwise_cons.mpr ⟨fun q hq hsame => ?_, h.distinct⟩
    have hnot := List.any_eq_false.mp hnew q hq
    exact hnot (beq_iff_eq.mpr hsame)

theorem endFile (h : s.Limited) (base : TagLang.Path) :
    Limited { s with baseDir := base, inserting := s.inserting.tail } where
  depth_eq := h.depth_eq
  depth_le := h.depth_le
  inserting_le := by
    show s.inserting.tail.length ≤ maxInsertDepth
    have hle := h.inserting_le
    rw [List.length_tail]
    omega
  distinct := h.distinct.sublist (List.tail_sublist _)

end Situation.Limited

/-- Every change keeps calls and files within their limits. -/
theorem Situation.Change.limited {w : World} {label : Label} {s s' : Situation}
    (h : Change w label s s') (hs : s.Limited) : s'.Limited := by
  have hload : ∀ inserting source made,
      Workshop.left (Workshop.prepare inserting source s.forest s.registry) = made →
      made.registry.functions = s.registry.functions := by
    rintro inserting source made rfl
    exact Registry.functions_prepare inserting source s.forest s.registry
  cases h with
  | tell | console | switch | member | beginLoop | nextItem | find | miss =>
    exact hs.of_functions rfl rfl rfl
  | assign h =>
    obtain ⟨b, _, rfl⟩ := Registry.assign_eq_ok h
    exact hs.of_functions rfl rfl rfl
  | bind name v id h =>
    refine hs.of_functions ?_ rfl rfl
    show Registry.functions (if s.registry.inCall then _ else _) = s.registry.functions
    split
    · exact Registry.functions_bindLocal ..
    · rfl
  | answer function v => exact hs.of_functions (Registry.functions_setResult ..) rfl rfl
  | remove h =>
    unfold Registry.remove? at h
    split at h
    · cases h
    · cases h
      exact hs.of_functions rfl rfl rfl
  | clear => exact hs.of_functions (Registry.functions_clear _) rfl rfl
  | endLoop => exact hs.of_functions (Registry.functions_popItem _) rfl rfl
  | beginCall f h => exact hs.beginCall f h
  | parameters f args =>
    refine hs.of_functions ?_ rfl rfl
    exact Engine.parameters_induct (P := fun r => r.functions = s.registry.functions) f args rfl
      fun r param arg hr => (Registry.functions_bindLocal ..).trans hr
  | endCall => exact hs.endCall
  | load source => exact hs.of_functions (hload false source _ rfl) rfl rfl
  | startFile path base h =>
    have hfile := hs.beginFile path base (by rw [h]; rfl) (by rw [h]; decide)
    rw [h] at hfile
    exact hfile
  | @refuse _ path source failure made hnew htext h =>
    exact hs.of_functions (hload true source made (by rw [h]; rfl)) rfl rfl
  | @remember _ path source root made hnew htext h =>
    exact hs.of_functions (hload true source made (by rw [h]; rfl)) rfl rfl
  | beginFile hknown hnew h => exact hs.beginFile _ _ hnew h
  | endFile base => exact hs.endFile base

theorem Session.fresh_limited (console : Console) (baseDir : Path) :
    (Machine.fresh console baseDir).toSituation.Limited where
  depth_eq := rfl
  depth_le := Nat.zero_le _
  inserting_le := Nat.zero_le _
  distinct := .nil

/-! ### Files that have been inserted -/

/-- The files that have been inserted in the first situation are so in the second, with the same
trees. -/
structure Situation.Remembers (s s' : Situation) : Prop where
  inserted : ∀ key root, s.inserted.get? key = some root → s'.inserted.get? key = some root
  nodes : ∀ id, id < s.forest.size → id < s'.forest.size ∧ s'.forest.node id = s.forest.node id

namespace Situation.Remembers

variable {a b c : Situation}

theorem refl (s : Situation) : s.Remembers s :=
  ⟨fun _ _ h => h, fun _ h => ⟨h, rfl⟩⟩

theorem trans (h₁ : a.Remembers b) (h₂ : b.Remembers c) : a.Remembers c where
  inserted key root h := h₂.inserted key root (h₁.inserted key root h)
  nodes id hid := by
    obtain ⟨hlt, hnode⟩ := h₁.nodes id hid
    exact ⟨(h₂.nodes id hlt).1, (h₂.nodes id hlt).2.trans hnode⟩

end Situation.Remembers

/-- No change forgets a file.  A file is remembered only if it was not before. -/
theorem Situation.Change.remembers {w : World} {label : Label} {s s' : Situation}
    (h : Change w label s s') (hs : s.Good) : s.Remembers s' where
  nodes id hid :=
    have hgrown := (h.good hs).2
    ⟨Nat.lt_of_lt_of_le hid hgrown.size_le, hgrown.old id hid⟩
  inserted key root hknown := by
    cases h with
    | @remember _ path source made workshop hnew hload h =>
      have hne : path.components ≠ key := by
        rintro rfl
        rw [hknown] at hnew
        cases hnew
      show (s.inserted.insert path.components made).get? key = some root
      rw [Table.get?_insert, if_neg hne]
      exact hknown
    | _ => exact hknown

/-! ### Changes that load nothing -/

/-- The second situation has the nodes of the first one, and no function is bound or hidden in more
places. -/
structure Situation.NoNewCode (s s' : Situation) : Prop where
  forest_eq : s'.forest = s.forest
  functions_le : ∀ f, (s'.registry.copies f).length ≤ (s.registry.copies f).length

theorem Situation.NoNewCode.refl (s : Situation) : s.NoNewCode s :=
  ⟨rfl, fun _ => Nat.le_refl _⟩

theorem Situation.NoNewCode.trans {a b c : Situation} (h₁ : a.NoNewCode b) (h₂ : b.NoNewCode c) :
    a.NoNewCode c :=
  ⟨h₂.forest_eq.trans h₁.forest_eq, fun f => Nat.le_trans (h₂.functions_le f) (h₁.functions_le f)⟩

/-- Only the start of a step and the reading of a file bring in code. -/
theorem Situation.Change.noNewCode {w : World} {label : Label} {s s' : Situation}
    (h : Change w label s s') (hl : label.isLoad = false) (hs : s.Good) : s.NoNewCode s' := by
  have hforest : s'.forest = s.forest := by
    cases h with
    | load | startFile | miss | refuse | remember => cases hl
    | _ => rfl
  refine ⟨hforest, fun f => ?_⟩
  by_cases hf : f.body < s.forest.size
  · exact h.length_copies_le hs hf
  · -- The function is not in the forest, so nothing stands for it.
    have hfits : s'.registry.Fits s.forest := hforest ▸ (h.good hs).1.registry
    rw [hfits.copies_eq_nil (Nat.le_of_not_lt hf)]
    exact Nat.zero_le _

theorem Situation.Changes.noNewCode {w : World} {label : Label} {s s' : Situation}
    (h : Changes w label s s') (hl : label.isLoad = false) (hs : s.Good) : s.NoNewCode s' := by
  induction h with
  | refl => exact .refl s
  | tail hbefore hc ih => exact ih.trans (hc.noNewCode hl (Changes.good hbefore hs).1)

/-! ### Insertions on one machine -/

namespace Engine

variable {w : World} {e : Engine} {path : Path} {line : Nat} {root : NodeId} {m : Machine}

/-- An insertion that is not refused finds its file. -/
theorem runInsert_eq_inserted {target : Sequence} {text : String} {m₀ : Machine}
    (heval : e.eval target (m₀.record .inserts) = .ok (.str text) m)
    (hnew : m.inserting.any (w.library.resolve m.baseDir text).same = false)
    (hdepth : m.inserting.length < maxInsertDepth) :
    let path := w.library.resolve m.baseDir text
    e.runInsert w target line m₀ =
      (inserted w path line >>= e.enterFile path) (m.record (.finds path)) := by
  intro path
  have hpath : e.runInsert w target line m₀ = e.runPath w path line m := by
    show e.runTarget w target line (m₀.record .inserts) = _
    rw [runTarget, Run.bind_of_ok heval]
    rfl
  rw [hpath, runPath, Run.look_bind_of_eq (a := m.inserting) rfl, hnew, if_neg Bool.false_ne_true,
    if_neg (Nat.not_le_of_lt hdepth), runInserted_eq]
  rfl

/-- A file that is remembered is run as it is, whatever the library would say. -/
theorem inserted_bind_of_known (hknown : m.inserted.get? path.components = some root) :
    (inserted w path line >>= e.enterFile path) (m.record (.finds path)) =
      e.enterFile path root (m.record (.finds path)) := by
  have hfound : inserted w path line (m.record (.finds path)) = .ok root (m.record (.finds path)) :=
    inserted_of_known w line (by rw [toSituation_record]; exact hknown)
  rw [Run.bind_of_ok hfound]

/-- A file that is not remembered is read and loaded, and is remembered when it is run. -/
theorem inserted_bind_of_new (hunknown : m.inserted.get? path.components = none) {source : String}
    {made : Workshop} (hload : w.library.load path = .ok source)
    (hmade : Workshop.prepare true source m.forest m.registry = .ok root made) :
    (inserted w path line >>= e.enterFile path) (m.record (.finds path)) = e.enterFile path root
      (((m.record (.finds path)).record (.reads path)).update fun s =>
        { s.settle made with inserted := s.inserted.insert path.components root }) := by
  have hread : inserted w path line (m.record (.finds path)) = _ :=
    inserted_of_new w line (by rw [toSituation_record]; exact hunknown)
  simp only [toSituation_record, hload, hmade] at hread
  rw [Run.bind_of_ok hread]

end Engine

/-! ### Insertions in a session -/

namespace Session

theorem Station.Next.noNewCode {w : World} {p q : Station} (h : p.Next w q)
    (hp : p.isLoad = false) (hgood : p.situation.Good) : p.situation.NoNewCode q.situation := by
  obtain ⟨s, hfirst, hsilent⟩ := h
  unfold Station.isLoad at hp
  split at hfirst
  next event he =>
    rw [he] at hp
    exact (hfirst.noNewCode hp hgood).trans (hsilent.noNewCode rfl (hfirst.good hgood).1)
  next he =>
    rw [he] at hp
    cases hp

/-- What the stations of a session tell of the files that it inserts. -/
structure InsertsOnce (w : World) (st : List Station) : Prop where
  /-- A file that is remembered is entered at once. -/
  known : ∀ (i : Nat) path root s, st[i]? = some ⟨some (.finds path), s⟩ →
    s.inserted.get? path.components = some root → st[i + 1]? = some ⟨some (.enters path root), s⟩
  /-- A file that is not remembered is read. -/
  unknown : ∀ (i : Nat) path s, st[i]? = some ⟨some (.finds path), s⟩ →
    s.inserted.get? path.components = none → st[i + 1]? = some ⟨some (.reads path), s⟩
  /-- No other file is read.  If all of it can be loaded, it is entered next, and remembered. -/
  read : ∀ (i : Nat) path s, st[i]? = some ⟨some (.reads path), s⟩ →
    s.inserted.get? path.components = none ∧
    ∀ source root made, w.library.load path = .ok source →
      Workshop.prepare true source s.forest s.registry = .ok root made →
      st[i + 1]? = some ⟨some (.enters path root), { s.settle made with
        inserted := s.inserted.insert path.components root }⟩
  /-- Whatever is entered is remembered. -/
  entered : ∀ (i : Nat) path root s, st[i]? = some ⟨some (.enters path root), s⟩ →
    s.inserted.get? path.components = some root
  /-- Behind the insertion of a file no equal path is read, and every insertion of one runs the same
  tree, in the situation in which it finds it. -/
  later : ∀ (i j : Nat) (path path' : Path) root s s', i < j → path'.components = path.components →
    st[i]? = some ⟨some (.enters path root), s⟩ →
    st[j]? ≠ some ⟨some (.reads path'), s'⟩ ∧
    (st[j]? = some ⟨some (.finds path'), s'⟩ → st[j + 1]? = some ⟨some (.enters path' root), s'⟩) ∧
    ∀ root', st[j]? = some ⟨some (.enters path' root'), s'⟩ → root' = root
  /-- A file is loaded as a whole at most once. -/
  unique : ∀ (i j : Nat) (path path' : Path) root root' s s' t t',
    path'.components = path.components →
    st[i]? = some ⟨some (.reads path), s⟩ → st[i + 1]? = some ⟨some (.enters path root), t⟩ →
    st[j]? = some ⟨some (.reads path'), s'⟩ → st[j + 1]? = some ⟨some (.enters path' root'), t'⟩ →
    i = j
  /-- Nodes and functions come only from the source of a step and from a file that is read. -/
  quiet : ∀ (i : Nat) p q, st[i]? = some p → st[i + 1]? = some q → p.isLoad = false →
    p.situation.NoNewCode q.situation

variable {w : World} {m : Machine} {steps : List (Nat × Step)} {i : Nat}

theorem stations_remember (hm : Reachable w m) {j : Nat} {p q : Station} (hij : i ≤ j)
    (hp : (stations w steps m)[i]? = some p) (hq : (stations w steps m)[j]? = some q) :
    p.situation.Remembers q.situation := by
  have hkeeps : q.situation.Good ∧ p.situation.Remembers q.situation :=
    stations_keeps (I := fun s => s.Good ∧ p.situation.Remembers s)
      (fun hc hs => ⟨(hc.good hs.1).1, hs.2.trans (hc.remembers hs.1)⟩) hm hij hp
      ⟨stations_good hm hp, .refl _⟩ hq
  exact hkeeps.2

/-- What is told of a file that is read: it is not remembered. -/
theorem unknown_of_reads (hm : Reachable w m) {path : Path} {s : Situation}
    (hi : (stations w steps m)[i]? = some ⟨some (.reads path), s⟩) :
    s.inserted.get? path.components = none := by
  obtain ⟨q, hq⟩ := stations_succ hi (by simp)
  obtain ⟨s', hfirst, _⟩ := stations_next_of hm hi hq
  cases hfirst with
  | tell _ h => cases h
  | miss hnew => exact hnew
  | refuse hnew => exact hnew
  | remember hnew => exact hnew

theorem known_of_enters (hm : Reachable w m) {path : Path} {root : NodeId} {s : Situation}
    (hi : (stations w steps m)[i]? = some ⟨some (.enters path root), s⟩) :
    s.inserted.get? path.components = some root := by
  obtain ⟨q, hq⟩ := stations_succ hi (by simp)
  obtain ⟨s', hfirst, _⟩ := stations_next_of hm hi hq
  cases hfirst with
  | tell _ h => cases h
  | beginFile hknown => exact hknown

theorem enters_of_finds {path : Path} {root : NodeId} {s : Situation}
    (hi : (stations w steps m)[i]? = some ⟨some (.finds path), s⟩)
    (hknown : s.inserted.get? path.components = some root) :
    (stations w steps m)[i + 1]? = some ⟨some (.enters path root), s⟩ := by
  have hnext : Moment.next? w ⟨.finds path, s⟩ = some ⟨.enters path root, s⟩ := by
    simp only [Moment.next?, hknown]
  exact stations_next (t := ⟨.finds path, s⟩) hi hnext

/-- From the first insertion of a file on, it is remembered with its tree. -/
theorem known_of_entered (hm : Reachable w m) {j : Nat} {path path' : Path} {root : NodeId}
    {s s' : Situation} {event : Option Event} (hij : i < j)
    (hsame : path'.components = path.components)
    (hi : (stations w steps m)[i]? = some ⟨some (.enters path root), s⟩)
    (hj : (stations w steps m)[j]? = some ⟨event, s'⟩) :
    s'.inserted.get? path'.components = some root := by
  rw [hsame]
  exact (stations_remember hm (Nat.le_of_lt hij) hi hj).inserted _ _ (known_of_enters hm hi)

theorem not_reads_of_entered (hm : Reachable w m) {j : Nat} {path path' : Path} {root : NodeId}
    {s s' : Situation} (hij : i < j) (hsame : path'.components = path.components)
    (hi : (stations w steps m)[i]? = some ⟨some (.enters path root), s⟩) :
    (stations w steps m)[j]? ≠ some ⟨some (.reads path'), s'⟩ := by
  intro hj
  have hunknown := unknown_of_reads hm hj
  rw [known_of_entered hm hij hsame hi hj] at hunknown
  cases hunknown

/-- A file that has been read and entered is not read again. -/
theorem le_of_reads (hm : Reachable w m) {j : Nat} {path path' : Path} {root : NodeId}
    {s' t : Situation} (hsame : path'.components = path.components)
    (ht : (stations w steps m)[i + 1]? = some ⟨some (.enters path root), t⟩)
    (hj : (stations w steps m)[j]? = some ⟨some (.reads path'), s'⟩) : j ≤ i := by
  by_contra hlt
  rcases Nat.lt_or_eq_of_le (Nat.lt_of_not_le hlt) with hlt | rfl
  · exact not_reads_of_entered hm hlt hsame ht hj
  · rw [ht] at hj
    cases hj

theorem insertsOnce (hm : Reachable w m) (steps : List (Nat × Step)) :
    InsertsOnce w (stations w steps m) where
  known i path root s hi hknown := enters_of_finds hi hknown
  unknown i path s hi hunknown := by
    have hnext : Moment.next? w ⟨.finds path, s⟩ = some ⟨.reads path, s⟩ := by
      simp only [Moment.next?, hunknown]
    exact stations_next (t := ⟨.finds path, s⟩) hi hnext
  read i path s hi := by
    refine ⟨unknown_of_reads hm hi, fun source root made hload hmade => ?_⟩
    have hnext : Moment.next? w ⟨.reads path, s⟩ = some ⟨.enters path root, { s.settle made with
        inserted := s.inserted.insert path.components root }⟩ := by
      simp only [Moment.next?, hload, hmade]
    exact stations_next (t := ⟨.reads path, s⟩) hi hnext
  entered i path root s hi := known_of_enters hm hi
  later i j path path' root s s' hij hsame hi := by
    refine ⟨not_reads_of_entered hm hij hsame hi, fun hj => ?_, fun root' hj => ?_⟩
    · exact enters_of_finds hj (known_of_entered hm hij hsame hi hj)
    · have hentered := known_of_enters hm hj
      rw [known_of_entered hm hij hsame hi hj] at hentered
      exact (Option.some.inj hentered).symm
  unique i j path path' root root' s s' t t' hsame hi ht hj ht' :=
    Nat.le_antisymm (le_of_reads hm hsame.symm ht' hi) (le_of_reads hm hsame ht hj)
  quiet i p q hi hq hp := (stations_next_of hm hi hq).noNewCode hp (stations_good hm hi)

/-- Calls and files stay within their limits throughout a session, whatever its steps do and however
they end.

What has been inserted is remembered from then on, with its tree as it is.  An insertion that is not
refused runs the tree that is remembered, whatever the library would say; if there is none, the file
is read and loaded and is remembered when its tree is run.  So over the whole session a file is
loaded at most once, and every later insertion of an equal path runs the same tree without reading
it, and without a new node or a new function. -/
theorem stations_within_limits (w : World) (console : Console) (baseDir : Path)
    (steps : List (Nat × Step)) :
    let st := stations w steps (Machine.fresh console baseDir)
    (∀ p ∈ st, p.situation.Limited) ∧
    (st.Pairwise fun p q => p.situation.Remembers q.situation) ∧
    InsertsOnce w st ∧
    ∀ (e : Engine) target line text m₀ m,
      e.eval target (m₀.record .inserts) = .ok (.str text) m →
      let path := w.library.resolve m.baseDir text
      m.inserting.any path.same = false → m.inserting.length < maxInsertDepth →
      (∀ root, m.inserted.get? path.components = some root →
        e.runInsert w target line m₀ = e.enterFile path root (m.record (.finds path))) ∧
      ∀ source root made, m.inserted.get? path.components = none →
        w.library.load path = .ok source →
        Workshop.prepare true source m.forest m.registry = .ok root made →
        e.runInsert w target line m₀ = e.enterFile path root
          (((m.record (.finds path)).record (.reads path)).update fun s =>
            { s.settle made with inserted := s.inserted.insert path.components root }) := by
  intro st
  have hreach : Reachable w (Machine.fresh console baseDir) := .fresh console baseDir
  refine ⟨fun p hp => ?_, ?_, insertsOnce hreach steps, ?_⟩
  · obtain ⟨i, hi⟩ := List.getElem?_of_mem hp
    exact stations_keeps Situation.Change.limited hreach (Nat.zero_le i) (stations_zero ..)
      (fresh_limited console baseDir) hi
  · refine List.pairwise_iff_getElem.mpr fun i j hi hj hij => ?_
    exact stations_remember hreach (Nat.le_of_lt hij) (List.getElem?_eq_getElem hi)
      (List.getElem?_eq_getElem hj)
  · intro e target line text m₀ m heval path hnew hdepth
    rw [Engine.runInsert_eq_inserted heval hnew hdepth]
    refine ⟨fun root hknown => ?_, fun source root made hunknown hload hmade => ?_⟩
    · exact Engine.inserted_bind_of_known hknown
    · exact Engine.inserted_bind_of_new hunknown hload hmade

/-- The file that is found at a station, or the one that is entered, with the root of its tree. -/
def Station.file? (p : Station) : Option (Path × Option NodeId) :=
  match p.event with
  | some (.finds path) => some (path, none)
  | some (.enters path root) => some (path, some root)
  | _ => none

/-- The event of a file that is found or entered. -/
def fileEvent : Path × Option NodeId → Event
  | (path, none) => .finds path
  | (path, some root) => .enters path root

theorem exists_of_file? {st : List Station} (file : Path × Option NodeId)
    (h : st[i]?.bind Station.file? = some file) :
    ∃ s, st[i]? = some ⟨some (fileEvent file), s⟩ := by
  obtain ⟨⟨event, s⟩, hp, hfile⟩ := Option.bind_eq_some_iff.mp h
  unfold Station.file? at hfile
  split at hfile
  next he =>
    cases hfile
    cases he
    exact ⟨s, hp⟩
  next he =>
    cases hfile
    cases he
    exact ⟨s, hp⟩
  next => cases hfile

/-- The value is the text. -/
def isText (text : String) : Value → Bool
  | .str s => s == text
  | _ => false

theorem eval_of_isText {x : Run Value} {text : String}
    (h : ((Run.value? x m).any (isText text)) = true) :
    x m = .ok (.str text) (Run.final x m) := by
  obtain ⟨v, hv, htext⟩ := (Option.any_eq_true ..).mp h
  cases v with
  | str s =>
    rw [eq_of_beq htext] at hv
    exact Run.ok_of_value? hv
  | _ => cases htext

/-- The root of a source that is loaded as a whole. -/
def loadedRoot? : EStateM.Result Failure Workshop NodeId → Option NodeId
  | .ok root _ => some root
  | .error .. => none

theorem exists_of_loadedRoot? {made : EStateM.Result Failure Workshop NodeId} {root : NodeId}
    (h : loadedRoot? made = some root) : ∃ workshop, made = .ok root workshop := by
  cases made with
  | ok _ workshop =>
    cases h
    exact ⟨workshop, rfl⟩
  | error => cases h

/-- Two steps insert the same file under paths that are spelled differently.  The second one enters
the tree that the first one has loaded, and does not read the file.  One more insertion on the
machine that they leave runs the same tree again; on a machine that has not inserted the file, it is
loaded.  The nodes of these two insertions are literals that sources have left behind. -/
theorem stations_within_limits_twice :
    let file := "fun g() { } call g();"
    let w : World := ⟨.empty, .constant file⟩
    let steps : List (Nat × Step) :=
      [(60, .source "insert \"a/b\";"), (60, .source "insert \"a/./b\";")]
    let start := Machine.fresh { input := [] } .empty
    let st := stations w steps start
    let e := engine w 9
    let literal (id : NodeId) : Sequence := ⟨[⟨id, [], []⟩], []⟩
    let unread := Run.final (runStep w 60 (.source "p = \"a/b\";")) start
    let read := steps.foldl (fun m step => Run.final (runStep w step.1 step.2) m) start
    (∃ s t u,
      (st[5]? = some ⟨some (.finds ⟨"a/b"⟩), s⟩ ∧ st[6]? = some ⟨some (.reads ⟨"a/b"⟩), s⟩ ∧
        st[7]? = some ⟨some (.enters ⟨"a/b"⟩ 3), t⟩) ∧
      (st[20]? = some ⟨some (.finds ⟨"a/./b"⟩), u⟩ ∧
        st[21]? = some ⟨some (.enters ⟨"a/./b"⟩ 3), u⟩) ∧
      ∀ j path s', 7 < j → path.components = ["a", "b"] →
        st[j]? ≠ some ⟨some (.reads path), s'⟩) ∧
    (∃ m, e.eval (literal 13) (read.record .inserts) = .ok (.str "a/./b") m ∧
      e.runInsert w (literal 13) 1 read =
        e.enterFile ⟨"a/./b"⟩ 3 (m.record (.finds ⟨"a/./b"⟩))) ∧
    ∃ m made, e.eval (literal 3) (unread.record .inserts) = .ok (.str "a/b") m ∧
      Workshop.prepare true file m.forest m.registry = .ok 4 made ∧
      e.runInsert w (literal 3) 1 unread = e.enterFile ⟨"a/b"⟩ 4
        (((m.record (.finds ⟨"a/b"⟩)).record (.reads ⟨"a/b"⟩)).update fun s =>
          { s.settle made with inserted := s.inserted.insert ["a", "b"] 4 }) := by
  intro file w steps start st e literal unread read
  obtain ⟨_, _, honce, hrun⟩ := stations_within_limits w { input := [] } .empty steps
  refine ⟨?_, ?_, ?_⟩
  · obtain ⟨s, hs⟩ : ∃ s, st[5]? = some ⟨some (.finds ⟨"a/b"⟩), s⟩ :=
      exists_of_file? (⟨"a/b"⟩, none) (by decide +kernel)
    obtain ⟨t, ht⟩ : ∃ t, st[7]? = some ⟨some (.enters ⟨"a/b"⟩ 3), t⟩ :=
      exists_of_file? (⟨"a/b"⟩, some 3) (by decide +kernel)
    obtain ⟨u, hu⟩ : ∃ u, st[20]? = some ⟨some (.finds ⟨"a/./b"⟩), u⟩ :=
      exists_of_file? (⟨"a/./b"⟩, none) (by decide +kernel)
    have hnew : (st[5]?.any fun p => (p.situation.inserted.get? ["a", "b"]).isNone) = true := by
      decide +kernel
    rw [hs] at hnew
    have hreads := honce.unknown 5 ⟨"a/b"⟩ s hs (Option.isNone_iff_eq_none.mp hnew)
    refine ⟨s, t, u, ⟨hs, hreads, ht⟩, ⟨hu, ?_⟩, fun j path s' hj hpath => ?_⟩
    · exact (honce.later 7 20 ⟨"a/b"⟩ ⟨"a/./b"⟩ 3 t u (by decide) (by decide +kernel) ht).2.1 hu
    · exact (honce.later 7 j ⟨"a/b"⟩ path 3 t s' hj (hpath.trans (by decide +kernel)) ht).1
  · let m := Run.final (e.eval (literal 13)) (read.record .inserts)
    have heval : e.eval (literal 13) (read.record .inserts) = .ok (.str "a/./b") m :=
      eval_of_isText (by decide +kernel)
    have hpath : w.library.resolve m.baseDir "a/./b" = ⟨"a/./b"⟩ := by decide +kernel
    have hinsert := hrun e (literal 13) 1 "a/./b" read m heval
    rw [hpath] at hinsert
    obtain ⟨hknown, _⟩ := hinsert (by decide +kernel) (by decide +kernel)
    exact ⟨m, heval, hknown 3 (by decide +kernel)⟩
  · let m := Run.final (e.eval (literal 3)) (unread.record .inserts)
    have heval : e.eval (literal 3) (unread.record .inserts) = .ok (.str "a/b") m :=
      eval_of_isText (by decide +kernel)
    have hpath : w.library.resolve m.baseDir "a/b" = ⟨"a/b"⟩ := by decide +kernel
    have hinsert := hrun e (literal 3) 1 "a/b" unread m heval
    rw [hpath] at hinsert
    obtain ⟨_, hnew⟩ := hinsert (by decide +kernel) (by decide +kernel)
    obtain ⟨made, hmade⟩ : ∃ made, Workshop.prepare true file m.forest m.registry = .ok 4 made :=
      exists_of_loadedRoot? (by decide +kernel)
    exact ⟨m, made, heval, hmade, hnew file 4 made (by decide +kernel) rfl hmade⟩

end Session

end TagLang
