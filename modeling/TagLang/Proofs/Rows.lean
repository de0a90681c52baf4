import TagLang.Proofs.Parsing
import TagLang.Proofs.Reading

/-!
# Expressions of a script

The nodes of an expression stand in a row, and the row is read as operands with operators between
them (`Script.Passage.Expresses`).  Of the nodes in the row only what groups and brackets hold has
to be known: how many expressions, which their commas tell (`Forest.Settled`).
-/

namespace TagLang

open Script

namespace NodeKind

/-- The node stands in a row of operands and operators. -/
def isTerm : NodeKind → Bool
  | operator _ => true
  | kind => kind.isValue

theorem isTerm_of_isValue {kind : NodeKind} (h : kind.isValue = true) : kind.isTerm = true := by
  cases kind with
  | operator op => rfl
  | _ => exact h

theorem not_of_isTerm {kind : NodeKind} (h : kind.isTerm = true) :
    kind.isComma = false ∧ kind.isColon = false ∧ kind.isFurther = false := by
  cases kind with
  | keyword k => cases k <;> first | exact ⟨rfl, rfl, rfl⟩ | cases h
  | comma => cases h
  | colon => cases h
  | _ => exact ⟨rfl, rfl, rfl⟩

end NodeKind

/-! ### What is known of loaded nodes -/

/-- The expressions belong to the rows, one to each.  A row of one node is that node. -/
def Sequence.BelongTo : List (List NodeId) → List Sequence → Prop
  | [], [] => True
  | row :: rows, q :: qs => (∀ id, row = [id] → q.single? = some id) ∧ BelongTo rows qs
  | _, _ => False

theorem Sequence.BelongTo.eq_nil {qs : List Sequence} (h : BelongTo [] qs) : qs = [] := by
  cases qs with
  | nil => rfl
  | cons q qs => exact h.elim

theorem Sequence.BelongTo.eq_cons {row : List NodeId} {rows : List (List NodeId)}
    {qs : List Sequence} (h : BelongTo (row :: rows) qs) :
    ∃ q more, qs = q :: more ∧ (∀ id, row = [id] → q.single? = some id) ∧ BelongTo rows more := by
  cases qs with
  | nil => exact h.elim
  | cons q qs => exact ⟨q, qs, rfl, h⟩

theorem Sequence.BelongTo.eq_singleton {row : List NodeId} {qs : List Sequence}
    (h : BelongTo [row] qs) : ∃ q, qs = [q] := by
  obtain ⟨q, more, rfl, _, hmore⟩ := h.eq_cons
  exact ⟨q, by rw [hmore.eq_nil]⟩

namespace Forest

/-- The rows that commas leave of the nodes; there are none without nodes. -/
def rows (f : Forest) (ids : List NodeId) : List (List NodeId) :=
  if ids.isEmpty then [] else runs (fun id => (f.kind id).isComma) ids

/-- There is a colon among the nodes. -/
def hasColon (f : Forest) (ids : List NodeId) : Bool :=
  ids.any fun id => (f.kind id).isColon

/-- The node has in `g` a shape that goes with its kind and its children in `f`. -/
structure Settled (f g : Forest) (id : NodeId) : Prop where
  group : f.kind id = .group → f.hasColon (f.children id) = false →
    ∃ qs, g.shape id = .groups qs ∧ Sequence.BelongTo (f.rows (f.children id)) qs
  pair : f.kind id = .group → f.hasColon (f.children id) = true →
    ∃ item q, g.shape id = .pair item q
  brackets : f.kind id = .brackets →
    ∃ qs, g.shape id = .array qs ∧ Sequence.BelongTo (f.rows (f.children id)) qs

theorem Settled.mono {f g g' : Forest} {id : NodeId} (h : f.Settled g id) (hle : g.Le g') :
    f.Settled g' id where
  group hk hc := by
    obtain ⟨qs, hs, hqs⟩ := h.group hk hc
    exact ⟨qs, hle.shape_of_loaded hs Shape.noConfusion, hqs⟩
  pair hk hc := by
    obtain ⟨item, q, hs⟩ := h.pair hk hc
    exact ⟨item, q, hle.shape_of_loaded hs Shape.noConfusion⟩
  brackets hk := by
    obtain ⟨qs, hs, hqs⟩ := h.brackets hk
    exact ⟨qs, hle.shape_of_loaded hs Shape.noConfusion, hqs⟩

section Shape

variable {f : Forest}

/-- What is found between commas was read from the rows there, one from each. -/
theorem forall₂_of_groups {ids : List NodeId} {line : Nat} {qs : List Sequence}
    (h : f.groups ids line = .ok qs) :
    List.Forall₂ (fun row q => f.sequence row = .ok q) (f.rows ids) qs := by
  rcases (groups_eq_ok_iff (commaRuns_runs ids)).mp h with ⟨rfl, rfl⟩ | ⟨hids, _, hall⟩
  · exact .nil
  · rw [rows, if_neg (by simpa using hids)]
    exact hall

theorem belongTo_of_groups {ids : List NodeId} {line : Nat} {qs : List Sequence}
    (h : f.groups ids line = .ok qs) : Sequence.BelongTo (f.rows ids) qs := by
  suffices hall : ∀ {rows qs}, List.Forall₂ (fun row q => f.sequence row = .ok q) rows qs →
      Sequence.BelongTo rows qs from hall (forall₂_of_groups h)
  intro rows qs hall
  induction hall with
  | nil => trivial
  | cons hq _ ih => exact ⟨fun id => (single?_eq_some_iff hq).mpr, ih⟩

/-- A shape that was found for a node settles it. -/
theorem settled_of_shapeOf {g : Forest} {id : NodeId} {shape : Shape} (h : f.shapeOf id = .ok shape)
    (hs : g.shape id = shape) : f.Settled g id := by
  refine ⟨fun hk hc => ?_, fun hk hc => ?_, fun hk => ?_⟩
  · rw [hasColon] at hc
    simp only [shapeOf, hk, groupShape, hc] at h
    obtain ⟨qs, hqs, rfl⟩ := Except.map_eq_ok_iff.mp h
    exact ⟨qs, hs, belongTo_of_groups hqs⟩
  · rw [hasColon] at hc
    simp only [shapeOf, hk, groupShape, hc, if_true] at h
    split at h
    · split at h
      · obtain ⟨q, _, rfl⟩ := Except.map_eq_ok_iff.mp h
        exact ⟨_, q, hs⟩
      · cases h
    · cases h
  · simp only [shapeOf, hk] at h
    obtain ⟨qs, hqs, rfl⟩ := Except.map_eq_ok_iff.mp h
    exact ⟨qs, hs, belongTo_of_groups hqs⟩

end Shape

/-! ### Trees in a row -/

section Bears

variable {f : Forest} {a : NodeId}

theorem BearsAll.singleton_iff {t : Tree} {ids : List NodeId} :
    f.BearsAll a [t] ids ↔ ∃ id, ids = [id] ∧ f.Bears a t id := by
  constructor
  · intro h
    obtain ⟨id, more, rfl, ht, hmore⟩ := BearsAll.cons_iff.mp h
    exact ⟨id, by rw [BearsAll.nil_iff.mp hmore], ht⟩
  · rintro ⟨id, rfl, h⟩
    exact .singleton h

theorem BearsAll.exists_of_mem {trees : List Tree} {ids : List NodeId} (h : f.BearsAll a trees ids)
    {c : NodeId} (hc : c ∈ ids) : ∃ t ∈ trees, f.Bears a t c := by
  induction trees generalizing ids with
  | nil =>
    rw [BearsAll.nil_iff.mp h] at hc
    cases hc
  | cons t trees ih =>
    obtain ⟨id, more, rfl, ht, hmore⟩ := BearsAll.cons_iff.mp h
    rcases List.mem_cons.mp hc with rfl | hc
    · exact ⟨t, List.mem_cons_self .., ht⟩
    · obtain ⟨t', hmem, ht'⟩ := ih hmore hc
      exact ⟨t', List.mem_cons_of_mem _ hmem, ht'⟩

/-- What holds of the kinds of the trees holds of the kinds of the nodes. -/
theorem BearsAll.forall_kind (P : NodeKind → Prop) {trees : List Tree} {ids : List NodeId}
    (h : f.BearsAll a trees ids) (hp : ∀ t ∈ trees, P t.kind) : ∀ c ∈ ids, P (f.kind c) := by
  intro c hc
  obtain ⟨t, ht, hb⟩ := h.exists_of_mem hc
  rw [hb.stands.kind_eq]
  exact hp t ht

theorem BearsAll.ne_nil {trees : List Tree} {ids : List NodeId} (h : f.BearsAll a trees ids)
    (ht : trees ≠ []) : ids ≠ [] := by
  rintro rfl
  cases trees with
  | nil => exact ht rfl
  | cons t trees => exact h.elim

end Bears

end Forest

/-! ### Operands and expressions -/

namespace Forest

variable {g : Forest} {a : NodeId}

theorem rows_of_forall {ids : List NodeId} (hne : ids ≠ [])
    (h : ∀ c ∈ ids, (g.kind c).isComma = false) : g.rows ids = [ids] := by
  have hempty : ids.isEmpty = false := List.isEmpty_eq_false_iff.mpr hne
  rw [rows, hempty, if_neg Bool.false_ne_true, runs_of_forall h]

theorem hasColon_eq_false {ids : List NodeId} (h : ∀ c ∈ ids, (g.kind c).isColon = false) :
    g.hasColon ids = false := by
  refine List.any_eq_false.mpr fun c hc => ?_
  rw [h c hc]
  exact Bool.false_ne_true

/-- A tree whose root is a value that is no group is an operand. -/
theorem Bears.readsOperand {t : Tree} {id : NodeId} (h : g.Bears a t id)
    (hv : t.kind.isValue = true) (hg : t.kind.isGroup = false) :
    g.ReadsOperand [id] ⟨id, [], []⟩ := by
  rw [← h.stands.kind_eq] at hv hg
  exact readsOperand_value hv hg

/-- The terms in a group or in brackets are at most one expression. -/
theorem Bears.belongTo_terms {kind : NodeKind} {trees : List Tree} {id : NodeId}
    (h : g.Bears a (.node kind trees) id) (ht : ∀ t ∈ trees, t.kind.isTerm = true)
    {qs : List Sequence} (hqs : Sequence.BelongTo (g.rows (g.children id)) qs) :
    (trees = [] ∧ qs = []) ∨ (trees ≠ [] ∧ ∃ q, qs = [q]) := by
  have hcomma : ∀ c ∈ g.children id, (g.kind c).isComma = false :=
    h.2.forall_kind (·.isComma = false) fun t hm => (NodeKind.not_of_isTerm (ht t hm)).1
  by_cases hne : trees = []
  · subst hne
    rw [BearsAll.nil_iff.mp h.2] at hqs
    exact .inl ⟨rfl, hqs.eq_nil⟩
  · rw [rows_of_forall (h.2.ne_nil hne) hcomma] at hqs
    exact .inr ⟨hne, hqs.eq_singleton⟩

theorem Bears.hasColon_terms {kind : NodeKind} {trees : List Tree} {id : NodeId}
    (h : g.Bears a (.node kind trees) id) (ht : ∀ t ∈ trees, t.kind.isTerm = true) :
    g.hasColon (g.children id) = false :=
  hasColon_eq_false (h.2.forall_kind (·.isColon = false) fun t hm =>
    (NodeKind.not_of_isTerm (ht t hm)).2.1)

end Forest

namespace Script.Passage

open Forest

/-- The passage is an operand. -/
structure Operates (p : Passage) : Prop where
  isTerm : ∀ t ∈ p.trees, t.kind.isTerm = true
  ne_nil : p.trees ≠ []
  reads : ∀ (g : Forest) a ids, g.BearsAll a p.trees ids → (∀ c ∈ ids, g.Settled g c) →
    ∃ o, g.ReadsOperand ids o

/-- The passage is an expression. -/
structure Expresses (p : Passage) : Prop where
  isTerm : ∀ t ∈ p.trees, t.kind.isTerm = true
  ne_nil : p.trees ≠ []
  reads : ∀ (g : Forest) a ids, g.BearsAll a p.trees ids → (∀ c ∈ ids, g.Settled g c) →
    ∃ q : TagLang.Sequence, (∀ last, g.operandNext last [] ids = .ok q) ∧ q.isEmpty = false

namespace Operates

variable {p s : Passage}

/-- A tree whose root is a value that is no group. -/
theorem value {t : Tree} (hp : p.trees = [t]) (hv : t.kind.isValue = true)
    (hg : t.kind.isGroup = false) : p.Operates where
  isTerm := by
    rw [hp]
    exact List.forall_mem_singleton.mpr (NodeKind.isTerm_of_isValue hv)
  ne_nil := by
    rw [hp]
    exact List.cons_ne_nil _ _
  reads g a ids h _ := by
    rw [hp] at h
    obtain ⟨id, rfl, hb⟩ := BearsAll.singleton_iff.mp h
    exact ⟨_, hb.readsOperand hv hg⟩

theorem group (h : ∀ t ∈ p.trees, t.kind.isTerm = true) : p.group.Operates where
  isTerm := List.forall_mem_singleton.mpr rfl
  ne_nil := List.cons_ne_nil _ _
  reads g a ids hids hsettled := by
    obtain ⟨id, rfl, hb⟩ := BearsAll.singleton_iff.mp hids
    obtain ⟨qs, hshape, hqs⟩ := (hsettled id (List.mem_singleton_self _)).group hb.1.kind_eq
      (hb.hasColon_terms h)
    have hcheck : g.checkSingle id = .ok () := by
      rcases hb.belongTo_terms h hqs with ⟨_, rfl⟩ | ⟨_, q, rfl⟩ <;> rw [checkSingle, hshape]
    refine ⟨⟨id, [], []⟩, fun last ops rest => ?_⟩
    simp [operandNext, hb.1.kind_eq, NodeKind.isValue, NodeKind.isGroup, hcheck, Except.bind]

theorem unary {op : Operator} (hop : op.isPrefix = true) (h : p.Operates) :
    (operator op ++ p).Operates where
  isTerm := List.forall_mem_cons.mpr ⟨rfl, h.isTerm⟩
  ne_nil := List.cons_ne_nil _ _
  reads g a ids hids hsettled := by
    obtain ⟨id, more, rfl, hb, hmore⟩ := BearsAll.cons_iff.mp hids
    obtain ⟨o, ho⟩ := h.reads g a more hmore fun c hc => hsettled c (List.mem_cons_of_mem _ hc)
    exact ⟨_, ho.unary hb.1.kind_eq hop⟩

theorem index (h : p.Operates) (hs : s.Expresses) : (p ++ s.brackets).Operates where
  isTerm := List.forall_mem_append.mpr ⟨h.isTerm, List.forall_mem_singleton.mpr rfl⟩
  ne_nil := List.append_ne_nil_of_left_ne_nil h.ne_nil _
  reads g a ids hids hsettled := by
    obtain ⟨first, _, rfl, hfirst, hlast⟩ := BearsAll.append_iff.mp hids
    obtain ⟨id, rfl, hb⟩ := BearsAll.singleton_iff.mp hlast
    obtain ⟨o, ho⟩ := h.reads g a first hfirst fun c hc => hsettled c (List.mem_append_left _ hc)
    obtain ⟨qs, hshape, hqs⟩ :=
      (hsettled id (List.mem_append_right _ (List.mem_singleton_self _))).brackets hb.1.kind_eq
    rcases hb.belongTo_terms hs.isTerm hqs with ⟨hnil, _⟩ | ⟨_, q, rfl⟩
    · exact absurd hnil hs.ne_nil
    · exact ⟨_, ho.index hb.1.kind_eq hshape⟩

end Operates

namespace Expresses

variable {p q : Passage}

theorem operand (h : p.Operates) : p.Expresses where
  isTerm := h.isTerm
  ne_nil := h.ne_nil
  reads g a ids hids hsettled := by
    obtain ⟨o, ho⟩ := h.reads g a ids hids hsettled
    refine ⟨⟨[o], []⟩, fun last => ?_, rfl⟩
    have hrow := ho last [] []
    rw [List.append_nil] at hrow
    rw [hrow, operatorNext]
    rfl

theorem binary {op : Operator} (hop : op.isBinary = true) (h : p.Operates) (hq : q.Expresses) :
    (p ++ (operator op ++ q)).Expresses where
  isTerm := List.forall_mem_append.mpr ⟨h.isTerm, List.forall_mem_cons.mpr ⟨rfl, hq.isTerm⟩⟩
  ne_nil := List.append_ne_nil_of_left_ne_nil h.ne_nil _
  reads g a ids hids hsettled := by
    obtain ⟨first, _, rfl, hfirst, hrest⟩ := BearsAll.append_iff.mp hids
    obtain ⟨id, more, rfl, hb, hmore⟩ := BearsAll.cons_iff.mp hrest
    obtain ⟨o, ho⟩ := h.reads g a first hfirst fun c hc => hsettled c (List.mem_append_left _ hc)
    obtain ⟨s, hs, _⟩ := hq.reads g a more hmore fun c hc =>
      hsettled c (List.mem_append_right _ (List.mem_cons_of_mem _ hc))
    refine ⟨⟨o :: s.operands, (op, g.line id) :: s.operators⟩, fun last => ?_, rfl⟩
    have hkind : g.kind id = .operator op := hb.1.kind_eq
    rw [ho]
    simp only [operatorNext, hkind, hop, if_true, hs]
    rfl

end Expresses

/-! ### Rows with commas -/

theorem of_mem_row {ps : List Passage} (h : ∀ p ∈ ps, ∀ t ∈ p.trees, t.kind.isTerm = true) :
    ∀ t ∈ (row ps).trees, t.kind.isTerm = true ∨ t.kind = .comma := by
  induction ps with
  | nil => exact nofun
  | cons p ps ih =>
    have hp := h p (List.mem_cons_self ..)
    cases ps with
    | nil => exact fun t ht => .inl (hp t ht)
    | cons q ps =>
      intro t ht
      rcases List.mem_append.mp ht with ht | ht
      · exact .inl (hp t ht)
      · rcases List.mem_cons.mp ht with rfl | ht
        · exact .inr rfl
        · exact ih (fun r hr => h r (List.mem_cons_of_mem _ hr)) t ht

theorem isColon_of_mem_row {ps : List Passage} (h : ∀ p ∈ ps, ∀ t ∈ p.trees, t.kind.isTerm = true) :
    ∀ t ∈ (row ps).trees, t.kind.isColon = false := by
  intro t ht
  rcases of_mem_row h t ht with hk | hk
  · exact (NodeKind.not_of_isTerm hk).2.1
  · rw [hk]
    rfl

section Row

variable {g : Forest} {a : NodeId} (line : Nat)

/-- The runs between the commas of a row are expressions. -/
theorem commaRuns_row (p : Passage) (ps : List Passage) (h : ∀ q ∈ p :: ps, q.Expresses)
    {ids : List NodeId} (hids : g.BearsAll a (row (p :: ps)).trees ids)
    (hsettled : ∀ c ∈ ids, g.Settled g c) :
    ∃ rows qs, g.CommaRuns ids rows ∧
      List.Forall₂ (fun row q => g.sequence row = .ok q ∧ q.isEmpty = false) rows qs := by
  have hone : ∀ {p : Passage} {ids : List NodeId}, p.Expresses → g.BearsAll a p.trees ids →
      (∀ c ∈ ids, g.Settled g c) → (∀ c ∈ ids, g.kind c ≠ .comma) ∧
      ∃ q, g.sequence ids = .ok q ∧ q.isEmpty = false := by
    intro p ids hp hids hsettled
    obtain ⟨q, hq, hne⟩ := hp.reads g a ids hids hsettled
    refine ⟨?_, q, sequence_of_operandNext hq, hne⟩
    refine hids.forall_kind (· ≠ .comma) fun t ht hk => ?_
    have hterm := hp.isTerm t ht
    rw [hk] at hterm
    cases hterm
  induction ps generalizing p ids with
  | nil =>
    obtain ⟨hbare, q, hq⟩ := hone (h p (List.mem_cons_self ..)) hids hsettled
    exact ⟨[ids], [q], .last hbare, .cons hq .nil⟩
  | cons next ps ih =>
    obtain ⟨first, _, rfl, hfirst, hrest⟩ := BearsAll.append_iff.mp hids
    obtain ⟨comma, more, rfl, hcomma, hmore⟩ := BearsAll.cons_iff.mp hrest
    obtain ⟨hbare, q, hq⟩ := hone (h p (List.mem_cons_self ..)) hfirst fun c hc =>
      hsettled c (List.mem_append_left _ hc)
    obtain ⟨rows, qs, hrows, hqs⟩ := ih next (fun r hr => h r (List.mem_cons_of_mem _ hr)) hmore
      fun c hc => hsettled c (List.mem_append_right _ (List.mem_cons_of_mem _ hc))
    exact ⟨first :: rows, q :: qs, .cons hbare hcomma.1.kind_eq hrows, .cons hq hqs⟩

theorem groups_row {ps : List Passage} (h : ∀ p ∈ ps, p.Expresses) {ids : List NodeId}
    (hids : g.BearsAll a (row ps).trees ids) (hsettled : ∀ c ∈ ids, g.Settled g c) :
    ∃ qs, g.groups ids line = .ok qs := by
  cases ps with
  | nil =>
    rw [BearsAll.nil_iff.mp hids]
    exact ⟨[], rfl⟩
  | cons p ps =>
    obtain ⟨rows, qs, hrows, hqs⟩ := commaRuns_row p ps h hids hsettled
    exact ⟨qs, hrows.groups_eq_ok hqs line⟩

end Row

end Script.Passage

end TagLang
