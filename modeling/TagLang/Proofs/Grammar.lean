import TagLang.Proofs.Fitting
import TagLang.Proofs.CallFrame

/-!
# Scripts are accepted

`Forest.parse_text_loads`: what is written for a script is read as the script's tree, and the tree
can be loaded if the functions that it declares have distinct new names and distinct parameters.
The nodes are loaded children first, so that functions are declared in the order of
`Script.Statement.functionsAll`; `Forest.Declaring` is what holds of the registry on the way.
-/

namespace TagLang

open Script Forest

/-! ### Functions that trees declare -/

namespace Script

mutual

/-- The functions that the nodes of a tree declare, those below a node before its own. -/
def Tree.declared : Tree → List (String × List String)
  | .node kind children => Tree.declaredAll children ++ (Tree.node kind children).declares

/-- The functions that the nodes of trees declare. -/
def Tree.declaredAll : List Tree → List (String × List String)
  | [] => []
  | t :: rest => t.declared ++ Tree.declaredAll rest

end

namespace Tree

theorem declaredAll_append (ts us : List Tree) :
    declaredAll (ts ++ us) = declaredAll ts ++ declaredAll us := by
  induction ts with
  | nil => rfl
  | cons t ts ih => rw [List.cons_append, declaredAll, declaredAll, ih, List.append_assoc]

theorem declaredAll_append_eq {ts us : List Tree} {ds es : List (String × List String)}
    (ht : declaredAll ts = ds) (hu : declaredAll us = es) : declaredAll (ts ++ us) = ds ++ es := by
  rw [declaredAll_append, ht, hu]

theorem mem_declaredAll {ts : List Tree} {t : Tree} (ht : t ∈ ts) {d : String × List String}
    (hd : d ∈ t.declared) : d ∈ declaredAll ts := by
  induction ts with
  | nil => cases ht
  | cons u ts ih =>
    rcases List.mem_cons.mp ht with rfl | ht
    · exact List.mem_append_left _ hd
    · exact List.mem_append_right _ (ih ht)

theorem declares_eq_nil (kind : NodeKind) (h : kind ≠ .keyword .function) (ts : List Tree) :
    (node kind ts).declares = [] := by
  unfold declares
  split
  next heq =>
    cases heq
    exact absurd rfl h
  · rfl

/-- A node that is no function declares what stands below it. -/
theorem declaredAll_singleton (kind : NodeKind) (h : kind ≠ .keyword .function) (ts : List Tree) :
    declaredAll [node kind ts] = declaredAll ts := by
  rw [declaredAll, declaredAll, declared, declares_eq_nil kind h, List.append_nil, List.append_nil]

end Tree

namespace Passage

/-- The passage declares no function. -/
def Plain (p : Passage) : Prop := Tree.declaredAll p.trees = []

namespace Plain

variable {p q : Passage}

theorem append (hp : p.Plain) (hq : q.Plain) : (p ++ q).Plain := by
  show Tree.declaredAll (p.trees ++ q.trees) = []
  rw [Tree.declaredAll_append, hp, hq]
  rfl

/-- A node around a plain passage, or above it. -/
theorem node (hp : p.Plain) (kind : NodeKind) (h : kind ≠ .keyword .function) (words : List Word) :
    Plain ⟨words, [.node kind p.trees]⟩ :=
  (Tree.declaredAll_singleton kind h _).trans hp

theorem empty : Passage.empty.Plain := rfl

theorem reference (n : Name) : (reference n).Plain :=
  empty.node (.reference n) nofun _

theorem operator (op : Operator) : (operator op).Plain :=
  empty.node (.operator op) nofun _

theorem comma : Passage.comma.Plain := empty.node .comma nofun _

theorem colon : Passage.colon.Plain := empty.node .colon nofun _

theorem group (hp : p.Plain) : p.group.Plain := hp.node .group nofun _

theorem brackets (hp : p.Plain) : p.brackets.Plain := hp.node .brackets nofun _

theorem keyword (hp : p.Plain) (k : Keyword) (hk : k ≠ .function) : (keyword k p).Plain :=
  hp.node (.keyword k) (fun h => hk (NodeKind.keyword.inj h)) _

theorem row {ps : List Passage} (h : ∀ p ∈ ps, p.Plain) : (row ps).Plain := by
  induction ps with
  | nil => rfl
  | cons p ps ih =>
    have hp := h p (List.mem_cons_self ..)
    cases ps with
    | nil => exact hp
    | cons q ps =>
      exact hp.append (comma.append (ih fun r hr => h r (List.mem_cons_of_mem _ hr)))

theorem subscripted (hp : p.Plain) {ss : List Passage} (h : ∀ s ∈ ss, s.Plain) :
    (p.subscripted ss).Plain := by
  induction ss generalizing p with
  | nil => exact hp
  | cons s ss ih =>
    exact ih (hp.append (h s (List.mem_cons_self ..)).brackets) fun t ht =>
      h t (List.mem_cons_of_mem _ ht)

theorem call {ps : List Passage} (f : Name) (h : ∀ p ∈ ps, p.Plain) : (call f ps).Plain :=
  ((reference f).append (row h).group).keyword .call nofun

theorem names (more : List (Bool × Name)) : (names more).Plain := by
  induction more with
  | nil => rfl
  | cons m more ih =>
    obtain ⟨behind, m⟩ := m
    cases behind with
    | true => exact comma.append ((reference m).append ih)
    | false => exact (reference m).append ih

/-- Expressions declare nothing. -/
theorem composes : Composes Plain Plain where
  literal l := empty.node (.literal l.value) nofun _
  name := reference
  unit := empty.group
  group _ h := h.group
  array _ h := (row h).brackets
  call f _ h := call f h
  ask := (empty.keyword .input nofun).group
  input _ h := (h.keyword .input nofun).group
  convert target _ h := (h.keyword (.convert target) nofun).group
  unary op _ _ h := (operator op).append h
  index _ _ h hs := h.append hs.brackets
  operand _ h := h
  binary op _ _ _ h hq := h.append ((operator op).append hq)

theorem sequence (s : Script.Sequence) : s.passage.Plain := s.of_composes composes

theorem sequences (ss : List Script.Sequence) : ∀ p ∈ Script.Sequence.passages ss, p.Plain :=
  Script.Sequence.of_composes_of_mem composes ss

theorem optional (value : Option Script.Sequence) : (Script.Sequence.optional value).Plain := by
  cases value with
  | none => rfl
  | some s => exact sequence s

end Plain

theorem declaredAll_block (p : Passage) :
    Tree.declaredAll (block p).trees = Tree.declaredAll p.trees :=
  Tree.declaredAll_singleton .block nofun _

/-- A keyword with something plain and a block declares what the block does. -/
theorem declaredAll_headed (k : Keyword) (hk : k ≠ .function) {q : Passage} (hq : q.Plain)
    (p : Passage) :
    Tree.declaredAll (keyword k (q ++ block p)).trees = Tree.declaredAll p.trees := by
  have hkind : NodeKind.keyword k ≠ .keyword .function := fun h => hk (NodeKind.keyword.inj h)
  calc Tree.declaredAll (keyword k (q ++ block p)).trees
      = Tree.declaredAll (q.trees ++ (block p).trees) := Tree.declaredAll_singleton _ hkind _
    _ = Tree.declaredAll (block p).trees := by rw [Tree.declaredAll_append, hq, List.nil_append]
    _ = Tree.declaredAll p.trees := declaredAll_block p

theorem declaredAll_function (n : Name) (params : List Name) (p : Passage) :
    Tree.declaredAll (keyword .function
        (reference n ++ (group (row (params.map .reference)) ++ block p))).trees =
      Tree.declaredAll p.trees ++ [(n.val, params.map (·.val))] := by
  have hparams : ∀ q ∈ params.map reference, q.Plain := by
    intro q hq
    obtain ⟨m, _, rfl⟩ := List.mem_map.mp hq
    exact .reference m
  have hhead : (reference n ++ group (row (params.map .reference))).Plain :=
    (Plain.reference n).append (Plain.row hparams).group
  have hbelow : Tree.declaredAll
      ((reference n ++ group (row (params.map .reference))).trees ++ (block p).trees) =
      Tree.declaredAll p.trees := by
    rw [Tree.declaredAll_append, hhead, List.nil_append, declaredAll_block]
  show (Tree.declaredAll _ ++ [(n.val, _)]) ++ [] = _
  rw [List.append_nil, Tree.filterMap_name?_row]
  exact congrArg (· ++ _) hbelow

end Passage

open Passage

mutual

theorem Statement.declaredAll_trees : (s : Statement) →
    Tree.declaredAll s.passage.trees = s.functions
  | .assign n subscripts op value => by
    have hsubscripts := Plain.empty.subscripted (Plain.sequences subscripts)
    have hvalue := (Plain.operator op).append (.sequence value)
    exact (hsubscripts.append hvalue).node (.declaration n) nofun []
  | .print value => (Plain.optional value).keyword .print nofun
  | .return_ value => (Plain.optional value).keyword .return_ nofun
  | .break_ => Plain.empty.keyword .break_ nofun
  | .call f arguments => Plain.call f (Plain.sequences arguments)
  | .block body => (declaredAll_block _).trans (Statement.declaredAll_all body)
  | .if_ condition body further => by
    have hbody := (declaredAll_headed .if_ nofun (Plain.sequence condition).group _).trans
      (Statement.declaredAll_all body)
    exact Tree.declaredAll_append_eq hbody (Branches.declaredAll_trees further)
  | .repeat_ count body =>
    (declaredAll_headed .repeat_ nofun (Plain.sequence count).group _).trans
      (Statement.declaredAll_all body)
  | .foreach item collection body => by
    have hpair := (Plain.reference item).append (Plain.colon.append (.sequence collection))
    exact (declaredAll_headed .repeat_ nofun hpair.group _).trans
      (Statement.declaredAll_all body)
  | .while_ condition body =>
    (declaredAll_headed .while_ nofun (Plain.sequence condition).group _).trans
      (Statement.declaredAll_all body)
  | .function n params body =>
    (declaredAll_function n params _).trans (congrArg (· ++ _) (Statement.declaredAll_all body))
  | .free first more => ((Plain.reference first).append (.names more)).keyword .free nofun
  | .freeAll => ((Plain.reference allNames).append (.names [])).keyword .free nofun
  | .insert target => (Plain.sequence target).keyword .insert nofun
  | .local_ body =>
    (declaredAll_headed .local_ nofun Plain.empty _).trans (Statement.declaredAll_all body)
  | .extern_ source _ => ((Plain.reference source).append (.names _)).keyword .extern_ nofun

theorem Branches.declaredAll_trees : (b : Branches) →
    Tree.declaredAll b.passage.trees = b.functions
  | .done => rfl
  | .elif condition body further => by
    have hbody := (declaredAll_headed .elif nofun (Plain.sequence condition).group _).trans
      (Statement.declaredAll_all body)
    exact Tree.declaredAll_append_eq hbody (Branches.declaredAll_trees further)
  | .else_ body =>
    (declaredAll_headed .else_ nofun Plain.empty _).trans (Statement.declaredAll_all body)

theorem Statement.declaredAll_all : (script : List Statement) →
    Tree.declaredAll (Statement.passageAll script).trees = Statement.functionsAll script
  | [] => rfl
  | s :: rest =>
    Tree.declaredAll_append_eq (Statement.declaredAll_trees s) (Statement.declaredAll_all rest)

end

/-- The nodes of a script's tree declare the script's functions. -/
theorem declared_tree (script : List Statement) :
    (tree script).declared = Statement.functionsAll script := by
  rw [tree, Tree.declared, Tree.declares_eq_nil .block nofun, List.append_nil,
    Statement.declaredAll_all]

end Script

/-! ### Functions that nodes declare -/

namespace Forest

/-- The name that a node refers to. -/
def name? (f : Forest) (id : NodeId) : Option String :=
  match f.kind id with
  | .reference n => some n
  | _ => none

/-- The function that a node declares: its name, the names in its parameter list and its body. -/
def function? (f : Forest) (id : NodeId) : Option Function :=
  match f.kind id, f.children id with
  | .keyword .function, [name, params, body] =>
    (f.name? name).map fun n => ⟨n, (f.children params).filterMap f.name?, body⟩
  | _, _ => none

/-- The function that a node declares, with its parameters. -/
def declares (f : Forest) (id : NodeId) : List (String × List String) :=
  (f.function? id).toList.map fun fn => (fn.name, fn.params)

section Declares

variable {f g : Forest} {a : NodeId}

theorem Bears.name?_eq {t : Tree} {id : NodeId} (h : f.Bears a t id) : f.name? id = t.name? := by
  cases t with
  | node kind ts =>
    have hk : f.kind id = kind := h.1.kind_eq
    cases kind with
    | _ => simp only [name?, hk, Tree.name?]

theorem BearsAll.filterMap_name? {ts : List Tree} {ids : List NodeId} (h : f.BearsAll a ts ids) :
    ids.filterMap f.name? = ts.filterMap Tree.name? := by
  induction ts generalizing ids with
  | nil =>
    rw [BearsAll.nil_iff.mp h]
    rfl
  | cons t ts ih =>
    obtain ⟨id, more, rfl, ht, hmore⟩ := BearsAll.cons_iff.mp h
    rw [List.filterMap_cons, List.filterMap_cons, ht.name?_eq, ih hmore]

/-- A node declares what the root of its tree does. -/
theorem Bears.declares_eq {t : Tree} {id : NodeId} (h : f.Bears a t id) :
    f.declares id = t.declares := by
  obtain ⟨kind, ts⟩ := t
  have hkind : f.kind id = kind := h.1.kind_eq
  by_cases hfunction : kind = .keyword .function
  · subst hfunction
    -- Only a declaration with three children spells a function, on both sides.
    obtain _ | ⟨first, _ | ⟨⟨kind₂, params⟩, _ | ⟨body, _ | ⟨extra, us⟩⟩⟩⟩ := ts
    · simp [declares, function?, hkind, BearsAll.nil_iff.mp h.2, Tree.declares]
    · obtain ⟨name, hrow, _⟩ := BearsAll.singleton_iff.mp h.2
      simp [declares, function?, hkind, hrow, Tree.declares]
    · obtain ⟨name, _, hrow, _, hmore⟩ := BearsAll.cons_iff.mp h.2
      obtain ⟨group, rfl, _⟩ := BearsAll.singleton_iff.mp hmore
      simp [declares, function?, hkind, hrow, Tree.declares]
    · obtain ⟨name, _, hrow, hname, hmore⟩ := BearsAll.cons_iff.mp h.2
      obtain ⟨group, _, rfl, hgroup, hlast⟩ := BearsAll.cons_iff.mp hmore
      obtain ⟨block, rfl, _⟩ := BearsAll.singleton_iff.mp hlast
      simp only [declares, function?, hkind, hrow, hname.name?_eq, Tree.declares]
      rw [hgroup.2.filterMap_name?]
      cases first.name? <;> rfl
    · obtain ⟨name, _, hrow, _, hmore⟩ := BearsAll.cons_iff.mp h.2
      obtain ⟨group, _, rfl, _, hlast⟩ := BearsAll.cons_iff.mp hmore
      obtain ⟨block, _, rfl, _, hrest⟩ := BearsAll.cons_iff.mp hlast
      obtain ⟨other, _, rfl, _⟩ := BearsAll.cons_iff.mp hrest
      simp [declares, function?, hkind, hrow, Tree.declares]
  · rw [Tree.declares_eq_nil kind hfunction]
    unfold declares function?
    split
    next hk _ => exact absurd (hkind.symm.trans hk) hfunction
    · rfl

mutual

/-- What is loaded one after the other declares what the tree does. -/
theorem Bears.flatMap_go (hf : f.WellFormed) {leave : NodeId → Bool}
    (hleave : ∀ id, leave id = false) : (t : Tree) → {id : NodeId} → f.Bears a t id →
    (n : Nat) → f.size ≤ id + n → ∀ rest : List NodeId,
      (postorder.go f leave n id rest).flatMap f.declares = t.declared ++ rest.flatMap f.declares
  | .node kind children, id, h, 0, hn, _ => absurd h.1.lt_size (Nat.not_lt_of_le hn)
  | .node kind children, id, h, n + 1, hn, rest => by
    have hchildren : ∀ c ∈ f.children id, f.size ≤ c + n := by
      intro c hc
      have hlt : id < c := hf.lt_of_mem_children hc
      lia
    rw [postorder.go, hleave, if_neg Bool.false_ne_true,
      BearsAll.flatMap_go hf hleave children h.2 n hchildren, List.flatMap_cons, h.declares_eq,
      Tree.declared, List.append_assoc]

theorem BearsAll.flatMap_go (hf : f.WellFormed) {leave : NodeId → Bool}
    (hleave : ∀ id, leave id = false) : (trees : List Tree) → {ids : List NodeId} →
    f.BearsAll a trees ids → (n : Nat) → (∀ id ∈ ids, f.size ≤ id + n) → ∀ rest : List NodeId,
      (ids.foldr (postorder.go f leave n) rest).flatMap f.declares =
        Tree.declaredAll trees ++ rest.flatMap f.declares
  | [], [], _, _, _, _ => rfl
  | t :: trees, id :: ids, h, n, hn, rest => by
    have hid := hn id (List.mem_cons_self ..)
    have hids : ∀ c ∈ ids, f.size ≤ c + n := fun c hc => hn c (List.mem_cons_of_mem _ hc)
    rw [List.foldr_cons, Bears.flatMap_go hf hleave t h.1 n hid,
      BearsAll.flatMap_go hf hleave trees h.2 n hids, Tree.declaredAll, List.append_assoc]

end

theorem Bears.flatMap_postorder (hf : f.WellFormed) {t : Tree} {id : NodeId} (h : f.Bears a t id) :
    (f.postorder (Workshop.isPassedOver f false) id).flatMap f.declares = t.declared := by
  have hleave : ∀ id, Workshop.isPassedOver f false id = false := fun _ => rfl
  have hgo := h.flatMap_go hf hleave t f.size (Nat.le_add_left ..) []
  rw [List.flatMap_nil, List.append_nil] at hgo
  exact hgo

end Declares

/-! ### Nodes of a tree that fits -/

section Fits

variable {f g : Forest} {a : NodeId}

mutual

/-- A tree stands where it does while nodes are loaded. -/
theorem Bears.of_le (hle : f.Le g) : (t : Tree) → {id : NodeId} → f.Bears a t id → g.Bears a t id
  | .node kind children, id, h => by
    have hlt := h.1.lt_size
    refine ⟨⟨h.1.le, Nat.lt_of_lt_of_le hlt hle.size_le, ?_⟩, ?_⟩
    · rw [hle.kind_eq id hlt, h.1.kind_eq]
    · rw [hle.children_eq id hlt]
      exact BearsAll.of_le hle children h.2

theorem BearsAll.of_le (hle : f.Le g) : (trees : List Tree) → {ids : List NodeId} →
    f.BearsAll a trees ids → g.BearsAll a trees ids
  | [], [], _ => trivial
  | t :: trees, _ :: _, h => ⟨Bears.of_le hle t h.1, BearsAll.of_le hle trees h.2⟩

end

theorem Le.rows_eq (hle : f.Le g) {ids : List NodeId} (h : ∀ c ∈ ids, c < f.size) :
    g.rows ids = f.rows ids := by
  have hruns : ∀ ids : List NodeId, (∀ c ∈ ids, c < f.size) →
      runs (fun id => (g.kind id).isComma) ids = runs (fun id => (f.kind id).isComma) ids := by
    intro ids h
    induction ids with
    | nil => rfl
    | cons c ids ih =>
      rw [runs, runs, hle.kind_eq c (h c (List.mem_cons_self ..)),
        ih fun d hd => h d (List.mem_cons_of_mem _ hd)]
  rw [rows, rows, hruns ids h]

theorem Le.hasColon_eq (hle : f.Le g) {ids : List NodeId} (h : ∀ c ∈ ids, c < f.size) :
    g.hasColon ids = f.hasColon ids := by
  rw [Bool.eq_iff_iff, hasColon, hasColon, List.any_eq_true, List.any_eq_true]
  refine exists_congr fun c => and_congr_right fun hc => ?_
  rw [hle.kind_eq c (h c hc)]

/-- Whether a node is settled does not depend on which nodes are loaded besides. -/
theorem Le.settled_iff (hf : f.WellFormed) (hle : f.Le g) {id : NodeId} (hid : id < f.size)
    {k : Forest} : g.Settled k id ↔ f.Settled k id := by
  have hlt : ∀ c ∈ f.children id, c < f.size := fun c hc => ((hf.mem_children id c).mp hc).1
  have hkind := hle.kind_eq id hid
  have hchildren := hle.children_eq id hid
  have hcolon := hle.hasColon_eq hlt
  have hrows := hle.rows_eq hlt
  constructor
  · intro h
    have hgroup := h.group
    have hpair := h.pair
    have hbrackets := h.brackets
    rw [hkind, hchildren, hcolon] at hgroup hpair
    rw [hrows] at hgroup
    rw [hkind, hchildren, hrows] at hbrackets
    exact ⟨hgroup, hpair, hbrackets⟩
  · intro h
    constructor
    · rw [hkind, hchildren, hcolon, hrows]
      exact h.group
    · rw [hkind, hchildren, hcolon]
      exact h.pair
    · rw [hkind, hchildren, hrows]
      exact h.brackets

/-- Along a chain, every further branch stands right behind a branch with a condition. -/
theorem BearsAll.exists_follows (hf : f.WellFormed) {block : NodeId} {ts : List Tree}
    {before ids : List NodeId} {behind : Bool} (hrow : f.children block = before ++ ids)
    (h : f.BearsAll a ts ids) (hts : Tree.Chained behind ts)
    (hbehind : behind = true → ∃ b, before.getLast? = some b ∧ (f.kind b).isBranch = true) :
    ∀ c ∈ ids, ∃ t ∈ ts, f.Bears a t c ∧ (t.kind.isFurther = true → f.Follows c) := by
  induction ts generalizing before ids behind with
  | nil =>
    rw [BearsAll.nil_iff.mp h]
    exact nofun
  | cons t ts ih =>
    obtain ⟨id, more, rfl, ht, hmore⟩ := BearsAll.cons_iff.mp h
    intro c hc
    rcases List.mem_cons.mp hc with rfl | hc
    · refine ⟨t, List.mem_cons_self .., ht, fun hk => ?_⟩
      obtain ⟨b, hb, hkind⟩ := hbehind (hts.1 hk)
      exact ⟨b, by rw [siblings_eq hf hrow, hb], hkind⟩
    · have hnext : t.kind.isBranch = true →
          ∃ b, (before ++ [id]).getLast? = some b ∧ (f.kind b).isBranch = true := by
        intro hk
        refine ⟨id, List.getLast?_concat .., ?_⟩
        rw [ht.stands.kind_eq, hk]
      have hrow' : f.children block = (before ++ [id]) ++ more := by
        rw [hrow, List.append_assoc]
        rfl
      obtain ⟨u, hu, hb⟩ := ih hrow' hmore hts.2 hnext c hc
      exact ⟨u, List.mem_cons_of_mem _ hu, hb⟩

/-- A tree that fits stands at the node, behind a branch if it is a further one, and no function in
it has two parameters of one name. -/
def BearsFit (f : Forest) (a id : NodeId) : Prop :=
  ∃ t, f.Bears a t id ∧ t.Fits ∧ (t.kind.isFurther = true → f.Follows id) ∧
    ∀ d ∈ t.declared, d.2.Nodup

theorem BearsFit.child (hf : f.WellFormed) {id : NodeId} (h : f.BearsFit a id) :
    ∀ c ∈ f.children id, f.BearsFit a c := by
  obtain ⟨⟨kind, ts⟩, hb, hfits, _, hnodup⟩ := h
  intro c hc
  obtain ⟨t, ht, hbears, hfollows⟩ :=
    hb.2.exists_follows hf (List.nil_append _).symm hfits.2.1 nofun c hc
  refine ⟨t, hbears, hfits.2.2.of_mem ht, hfollows, fun d hd => hnodup d ?_⟩
  exact List.mem_append_left _ (Tree.mem_declaredAll ht hd)

/-- What a tree that fits asks of a node is there when the node's turn comes. -/
theorem BearsFit.exists_shape (hf : f.WellFormed) (hle : f.Le g) {id : NodeId} (h : f.BearsFit a id)
    (hid : id < f.size) (hchildren : ∀ c ∈ f.children id, f.Settled g c) :
    ∃ shape, g.shapeOf id = .ok shape ∧ shape.declares = f.declares id := by
  obtain ⟨⟨kind, ts⟩, hb, hfits, hfollows, hnodup⟩ := h
  have hsettled : ∀ c ∈ g.children id, g.Settled g c := by
    intro c hc
    rw [hle.children_eq id hid] at hc
    exact (hle.settled_iff hf ((hf.mem_children id c).mp hc).1).mpr (hchildren c hc)
  rw [hb.declares_eq]
  exact hfits.1 g a id (hb.of_le hle _) hsettled (fun hk => hle.follows hf hid (hfollows hk))
    fun d hd => hnodup d (List.mem_append_right _ hd)

end Fits

end Forest

/-! ### Declaring functions -/

/-- The name is bound to a function with these parameters. -/
def Registry.HasFunction (r : Registry) (d : String × List String) : Prop :=
  ∃ h id, r.get? d.1 = some (.ofFunction (.script h) (some id)) ∧ h.name = d.1 ∧ h.params = d.2

/-- A shape whose function has a new name can be registered, and nothing else changes. -/
theorem Workshop.register_of_unbound {shape : Shape} {r : Registry}
    (h : ∀ d ∈ shape.declares, r.get? d.1 = none) (id : NodeId) (line : Nat) :
    ∃ r', register id line shape r = .ok r' ∧ (∀ d ∈ shape.declares, r'.HasFunction d) ∧
      ∀ k, k ∉ shape.declares.map (·.1) → r'.get? k = r.get? k := by
  cases shape with
  | function g =>
    have hnone : r.get? g.name = none := h _ (List.mem_singleton_self _)
    refine ⟨r.define g.name (.ofFunction (.script g) (some id)), ?_, ?_, ?_⟩
    · simp only [register, Registry.declare?, hnone]
    · refine List.forall_mem_singleton.mpr ⟨g, id, ?_, rfl, rfl⟩
      rw [Registry.get?_define, if_pos rfl]
    · intro k hk
      have hne : g.name ≠ k := by
        rintro rfl
        exact hk (List.mem_singleton_self _)
      rw [Registry.get?_define, if_neg hne]
  | _ => exact ⟨r, rfl, nofun, fun _ _ => rfl⟩

/-- What holds of the registry while nodes are loaded: of the functions, those of the nodes still to
come have new names, and the others are there.  Other names are bound as they were in `r₀`. -/
structure Forest.Declaring (f : Forest) (r₀ : Registry) (functions : List (String × List String))
    (rest : List NodeId) (r : Registry) : Prop where
  nodup : ((rest.flatMap f.declares).map (·.1)).Nodup
  mem : ∀ d ∈ rest.flatMap f.declares, d ∈ functions
  unbound : ∀ d ∈ rest.flatMap f.declares, r.get? d.1 = none
  bound : ∀ d ∈ functions, d ∈ rest.flatMap f.declares ∨ r.HasFunction d
  kept : ∀ k, k ∉ functions.map (·.1) → r.get? k = r₀.get? k

/-- Loading a node declares its function. -/
theorem Forest.Declaring.register {f : Forest} {r₀ r : Registry}
    {functions : List (String × List String)} {id : NodeId} {rest : List NodeId}
    (h : f.Declaring r₀ functions (id :: rest) r) {shape : Shape}
    (hshape : shape.declares = f.declares id) (line : Nat) :
    ∃ r', Workshop.register id line shape r = .ok r' ∧ f.Declaring r₀ functions rest r' := by
  have hsplit : (id :: rest).flatMap f.declares = shape.declares ++ rest.flatMap f.declares := by
    rw [List.flatMap_cons, hshape]
  obtain ⟨hnodup, hmem, hunbound, hbound, hkept⟩ := h
  rw [hsplit] at hnodup hmem hunbound hbound
  rw [List.map_append, List.nodup_append] at hnodup
  obtain ⟨_, hrest, hdisjoint⟩ := hnodup
  obtain ⟨r', hregister, hnew, hother⟩ := Workshop.register_of_unbound
    (fun d hd => hunbound d (List.mem_append_left _ hd)) id line
  refine ⟨r', hregister, hrest, fun d hd => hmem d (List.mem_append_right _ hd), ?_, ?_, ?_⟩
  · intro d hd
    rw [hother d.1 fun hin => hdisjoint _ hin _ (List.mem_map_of_mem hd) rfl]
    exact hunbound d (List.mem_append_right _ hd)
  · intro d hd
    rcases hbound d hd with hin | ⟨g, node, hget, hg⟩
    · exact (List.mem_append.mp hin).symm.imp_right (hnew d)
    · -- The name was bound before, so that it is not the new one.
      refine .inr ⟨g, node, ?_, hg⟩
      rw [hother d.1 fun hin => ?_, hget]
      obtain ⟨e, he, hname⟩ := List.mem_map.mp hin
      have hnone := hunbound e (List.mem_append_left _ he)
      rw [hname, hget] at hnone
      cases hnone
  · intro k hk
    rw [hother k fun hin => ?_, hkept k hk]
    obtain ⟨e, he, rfl⟩ := List.mem_map.mp hin
    exact hk (List.mem_map_of_mem (hmem e (List.mem_append_left _ he)))

namespace Forest

/-- A tree that fits can be loaded, while functions are declared. -/
theorem finishes_bearsFit {f : Forest} (hf : f.WellFormed) (a : NodeId) (r₀ : Registry)
    (functions : List (String × List String)) :
    Workshop.Finishes f (f.BearsFit a)
      (fun g id => f.Settled g id ∧ (f.kind id = .block → g.shape id = .block))
      (fun rest r _ => f.Declaring r₀ functions rest r) where
  child _ h := h.child hf
  mono _ _ _ hle h := by
    refine ⟨h.1.mono hle, fun hk => ?_⟩
    exact hle.shape_of_loaded (h.2 hk) Shape.noConfusion
  node g id rest r _ hle _ hid his hchildren hgoes := by
    obtain ⟨shape, hshape, hdeclares⟩ :=
      his.exists_shape hf hle hid fun c hc => (hchildren c hc).1
    obtain ⟨r', hregister, hnext⟩ := hgoes.register hdeclares (g.line id)
    refine ⟨shape, r', hshape, hregister, hnext, fun g' hle' hs => ⟨?_, fun hk => ?_⟩⟩
    · exact (hle.settled_iff hf hid).mp (settled_of_shapeOf hshape hs)
    · rw [shapeOf, hle.kind_eq id hid, hk] at hshape
      obtain ⟨_, _, rfl⟩ := Except.map_eq_ok_iff.mp hshape
      exact hs

/-- What is written for a script is read as the script's tree.  The tree can be loaded if its
functions have distinct names that are not bound yet, and each has distinct parameters; they are
bound then, and no other name is touched. -/
theorem parse_text_loads {f : Forest} (hf : f.WellFormed) (script : List Statement) :
    ∃ g, f.parse (text script) = (g, .ok f.size) ∧ g.outline f.size = (tree script).outline 0 ∧
      ∀ r : Registry, ((Statement.functionsAll script).map (·.1)).Nodup →
        (∀ d ∈ Statement.functionsAll script, r.get? d.1 = none ∧ d.2.Nodup) →
        ∃ w, Workshop.load false f.size ⟨g, r, []⟩ = .ok () w ∧ w.forest.shape f.size = .block ∧
          (∀ d ∈ Statement.functionsAll script, w.registry.HasFunction d) ∧
          ∀ k, k ∉ (Statement.functionsAll script).map (·.1) → w.registry.get? k = r.get? k := by
  obtain ⟨g, hparse, hbears⟩ := f.parse_text script
  have hsprouts : f.Sprouts g := by
    have h := parse_sprouts hf (text script)
    rwa [hparse] at h
  have hg := hsprouts.wellFormed
  refine ⟨g, hparse, hbears.outline_eq hg, fun r hdistinct hnew => ?_⟩
  have hroot : g.BearsFit f.size f.size := by
    refine ⟨tree script, hbears, fits_tree script, nofun, fun d hd => ?_⟩
    rw [declared_tree] at hd
    exact (hnew d hd).2
  have hlist : (g.postorder (Workshop.isPassedOver g false) f.size).flatMap g.declares =
      Statement.functionsAll script := by
    rw [hbears.flatMap_postorder hg, declared_tree]
  have hstart : g.Declaring r (Statement.functionsAll script)
      (g.postorder (Workshop.isPassedOver g false) f.size) r := by
    constructor
    · rwa [hlist]
    · rw [hlist]
      exact fun _ hd => hd
    · rw [hlist]
      exact fun d hd => (hnew d hd).1
    · rw [hlist]
      exact fun _ hd => .inl hd
    · exact fun _ _ => rfl
  obtain ⟨w, hload, _, hend, hgets⟩ :=
    (finishes_bearsFit hg f.size r (Statement.functionsAll script)).load hsprouts hroot hstart
  obtain ⟨_, _, hmem, _⟩ :=
    postorder_spec hg (Workshop.isPassedOver g false) hsprouts.size_lt hsprouts.parent_root
  have hblock := (hgets _ hmem).2
  refine ⟨w, hload, hblock hsprouts.kind_root, fun d hd => ?_, hend.kept⟩
  exact (hend.bound d hd).resolve_left nofun

/-- A function inside a function, a chain of branches, and an assignment with a subscript. -/
def nestedScript : List Statement :=
  let name (s : String) (h : isName s = true) : Script.Operand := .mk [] (.name ⟨s, h⟩) []
  let int (n : Int64) : Script.Operand := .mk [] (.literal (.int n)) []
  [.function ⟨"outer", by decide +kernel⟩ [⟨"a", by decide +kernel⟩, ⟨"b", by decide +kernel⟩]
      [.function ⟨"inner", by decide +kernel⟩ []
          [.return_ (some (.operand (name "a" (by decide +kernel))))],
        .if_ (.binary (name "a" (by decide +kernel)) ⟨.greater, rfl⟩ (.operand (int 1)))
          [.print (some (.operand
            (.mk [⟨.sub, rfl⟩] (.name ⟨"a", by decide +kernel⟩) [.operand (int 0)])))]
          (.elif (.operand (name "b" (by decide +kernel))) [] (.else_ [.break_]))],
    .assign ⟨"x", by decide +kernel⟩ [.operand (int 1)] ⟨.addAssign, rfl⟩
      (.operand (.mk [] (.call ⟨"outer", by decide +kernel⟩
        [.operand (int 1), .operand (.mk [] .unit [])]) []))]

/-- The function inside is declared first, and a variable from before stays. -/
theorem parse_text_loads_nested :
    let r := Registry.empty.define "x" (.ofVariable (.int 2) none)
    text nestedScript = "fun outer ( a , b ) \x7b fun inner ( ) { return a ; } " ++
      "if ( a > 1 ) { print - a [ 0 ] ; } elif ( b ) { } else { break ; } \x7d " ++
      "x [ 1 ] += call outer ( 1 , ( ) ) ;" ∧
    Statement.functionsAll nestedScript = [("inner", []), ("outer", ["a", "b"])] ∧
    ∃ g w, Forest.empty.parse (text nestedScript) = (g, .ok 0) ∧
      g.outline 0 = (tree nestedScript).outline 0 ∧
      Workshop.load false 0 ⟨g, r, []⟩ = .ok () w ∧ w.registry.HasFunction ("inner", []) ∧
      w.registry.HasFunction ("outer", ["a", "b"]) ∧ w.registry.get? "x" = r.get? "x" := by
  intro r
  have hfunctions : Statement.functionsAll nestedScript = [("inner", []), ("outer", ["a", "b"])] :=
    rfl
  obtain ⟨g, hparse, houtline, hload⟩ := parse_text_loads .empty nestedScript
  rw [hfunctions] at hload
  obtain ⟨w, hw, _, hbound, hkept⟩ := hload r (by decide) (by decide)
  refine ⟨by decide +kernel, hfunctions, g, w, hparse, houtline, hw, ?_, ?_, ?_⟩
  · exact hbound _ (List.mem_cons_self ..)
  · exact hbound _ (List.mem_cons_of_mem _ (List.mem_singleton_self _))
  · exact hkept "x" (by decide)

end Forest

end TagLang
