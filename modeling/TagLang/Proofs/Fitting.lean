import TagLang.Proofs.Rows

/-!
# Trees that can be loaded

Every node of a script's tree finds its shape once its children have theirs (`Script.Tree.Loads`),
if an `elif` or `else` has a branch before it and no function has two parameters of one name.
-/

namespace TagLang

open Forest

/-- The function that a shape declares, with its parameters. -/
def Shape.declares : Shape → List (String × List String)
  | function h => [(h.name, h.params)]
  | _ => []

/-- The node is a branch with a condition. -/
def NodeKind.isBranch (kind : NodeKind) : Bool :=
  kind.isKeyword .if_ || kind.isKeyword .elif

/-- The node may be a statement, whatever stands below it. -/
def NodeKind.isStatement : NodeKind → Bool
  | block | declaration _ | keyword _ => true
  | _ => false

/-- A block is loaded if each of its children can be a statement. -/
theorem Forest.blockShape_eq_ok_iff {g : Forest} {ids : List NodeId} {shape : Shape} :
    g.blockShape ids = .ok shape ↔ shape = .block ∧ ∀ c ∈ ids, g.checkStatement c = .ok () := by
  have hall : ids.forM g.checkStatement = .ok () ↔ ∀ c ∈ ids, g.checkStatement c = .ok () := by
    induction ids with
    | nil => exact iff_of_true rfl (List.forall_mem_nil _)
    | cons c ids ih =>
      rw [List.forall_mem_cons, ← ih]
      show (g.checkStatement c).bind (fun _ => ids.forM g.checkStatement) = .ok () ↔ _
      cases g.checkStatement c <;> simp [Except.bind]
  rw [← hall, blockShape]
  cases ids.forM g.checkStatement <;> simp [Except.map, eq_comm]

namespace Script

namespace Tree

/-- The trees below the root. -/
def children : Tree → List Tree
  | node _ children => children

/-- The name that the root refers to. -/
def name? : Tree → Option String
  | node (.reference n) _ => some n
  | _ => none

/-- The function that the root declares, with its parameters. -/
def declares : Tree → List (String × List String)
  | node (.keyword .function) [name, node _ params, _] =>
    name.name?.toList.map fun n => (n, params.filterMap name?)
  | _ => []

/-- Every further branch stands behind a branch with a condition; `behind` says that one stands
before the trees. -/
def Chained : Bool → List Tree → Prop
  | _, [] => True
  | behind, t :: rest =>
    (t.kind.isFurther = true → behind = true) ∧ Chained t.kind.isBranch rest

/-- The root finds a shape when its children are settled. -/
def Loads (t : Tree) : Prop :=
  ∀ (g : Forest) a id, g.Bears a t id → (∀ c ∈ g.children id, g.Settled g c) →
    (t.kind.isFurther = true → g.Follows id) → (∀ d ∈ t.declares, d.2.Nodup) →
    ∃ shape, g.shapeOf id = .ok shape ∧ shape.declares = t.declares

mutual

/-- Every node finds a shape when its children are settled, and every chain of branches is one. -/
def Fits : Tree → Prop
  | node kind children =>
    (node kind children).Loads ∧ Chained false children ∧ FitAll children

/-- All trees fit. -/
def FitAll : List Tree → Prop
  | [] => True
  | t :: rest => t.Fits ∧ FitAll rest

end

theorem fitAll_append {ts us : List Tree} (ht : FitAll ts) (hu : FitAll us) :
    FitAll (ts ++ us) := by
  induction ts with
  | nil => exact hu
  | cons t ts ih => exact ⟨ht.1, ih ht.2⟩

theorem FitAll.of_mem {ts : List Tree} (h : FitAll ts) {t : Tree} (ht : t ∈ ts) : t.Fits := by
  induction ts with
  | nil => cases ht
  | cons u ts ih =>
    rcases List.mem_cons.mp ht with rfl | ht
    · exact h.1
    · exact ih h.2 ht

theorem FitAll.singleton {t : Tree} (h : t.Fits) : FitAll [t] :=
  ⟨h, trivial⟩

theorem chained_of_forall {ts : List Tree} (h : ∀ t ∈ ts, t.kind.isFurther = false)
    (behind : Bool) :
    Chained behind ts := by
  induction ts generalizing behind with
  | nil => trivial
  | cons t ts ih =>
    have ht := h t (List.mem_cons_self ..)
    refine ⟨fun hf => ?_, ih (fun u hu => h u (List.mem_cons_of_mem _ hu)) _⟩
    rw [ht] at hf
    cases hf

theorem Chained.append {ts us : List Tree} {behind : Bool} (ht : Chained behind ts)
    (hu : ∀ behind, Chained behind us) : Chained behind (ts ++ us) := by
  induction ts generalizing behind with
  | nil => exact hu behind
  | cons t ts ih => exact ⟨ht.1, ih ht.2⟩

/-! ### Parts of expressions -/

theorem loads_bare {kind : NodeKind} (h : kind.isBare = true) : (node kind []).Loads := by
  intro g a id hb _ _ _
  refine ⟨.leaf, ?_, ?_⟩
  · cases kind with
    | literal v | operator op | reference n | comma | colon => simp only [shapeOf, hb.1.kind_eq]
    | _ => cases h
  · cases kind with
    | keyword k => cases h
    | _ => rfl

section Row

variable {ps : List Passage} (h : ∀ p ∈ ps, p.Expresses)
include h

theorem loads_group : (node .group (Passage.row ps).trees).Loads := by
  intro g a id hb hsettled _ _
  obtain ⟨qs, hqs⟩ := Passage.groups_row (g.line id) h hb.2 hsettled
  have hcolon : g.hasColon (g.children id) = false :=
    hasColon_eq_false (hb.2.forall_kind (·.isColon = false)
      (Passage.isColon_of_mem_row fun p hp => (h p hp).isTerm))
  rw [hasColon] at hcolon
  refine ⟨.groups qs, ?_, rfl⟩
  simp only [shapeOf, hb.1.kind_eq, groupShape, hcolon, hqs]
  rfl

theorem loads_brackets : (node .brackets (Passage.row ps).trees).Loads := by
  intro g a id hb hsettled _ _
  obtain ⟨qs, hqs⟩ := Passage.groups_row (g.line id) h hb.2 hsettled
  refine ⟨.array qs, ?_, rfl⟩
  simp only [shapeOf, hb.1.kind_eq, hqs]
  rfl

theorem loads_call (n : Name) : (node (.keyword .call)
    [node (.reference n) [], node .group (Passage.row ps).trees]).Loads := by
  intro g a id hb hsettled _ _
  obtain ⟨name, _, hrow, hname, hmore⟩ := BearsAll.cons_iff.mp hb.2
  obtain ⟨args, rfl, hargs⟩ := BearsAll.singleton_iff.mp hmore
  have hin : args ∈ g.children id := by
    rw [hrow]
    exact List.mem_cons_of_mem _ (List.mem_singleton_self _)
  have hcolon : g.hasColon (g.children args) = false :=
    hasColon_eq_false (hargs.2.forall_kind (·.isColon = false)
      (Passage.isColon_of_mem_row fun p hp => (h p hp).isTerm))
  obtain ⟨qs, hshape, _⟩ := (hsettled args hin).group hargs.1.kind_eq hcolon
  refine ⟨.call n qs, ?_, rfl⟩
  simp only [shapeOf, hb.1.kind_eq, keywordShape, hrow, callShape, hname.1.kind_eq, hargs.1.kind_eq,
    hshape]

end Row

section Value

variable {p : Passage} (h : p.Expresses)
include h

theorem exists_sequence {g : Forest} {a : NodeId} {ids : List NodeId}
    (hids : g.BearsAll a p.trees ids)
    (hsettled : ∀ c ∈ ids, g.Settled g c) (line : Nat) (after : String) :
    ∃ q, g.sequence ids = .ok q ∧ g.required ids line after = .ok q := by
  obtain ⟨q, hq, hne⟩ := h.reads g a ids hids hsettled
  have hsequence := sequence_of_operandNext hq
  refine ⟨q, hsequence, ?_⟩
  rw [required, hsequence, Except.bind, hne, if_neg Bool.false_ne_true]

/-- A keyword with a value behind it. -/
theorem loads_value {k : Keyword} (hk : k = .print ∨ k = .return_ ∨ k = .insert ∨ k = .input ∨
    ∃ target, k = .convert target) : (node (.keyword k) p.trees).Loads := by
  intro g a id hb hsettled _ _
  obtain ⟨q, hq, hrequired⟩ := exists_sequence h hb.2 hsettled (g.line id) k.word
  rcases hk with rfl | rfl | rfl | rfl | ⟨target, rfl⟩
  · exact ⟨.print q, by simp only [shapeOf, hb.1.kind_eq, keywordShape, hq]; rfl, rfl⟩
  · exact ⟨.return_ q, by simp only [shapeOf, hb.1.kind_eq, keywordShape, hq]; rfl, rfl⟩
  · exact ⟨.insert q, by simp only [shapeOf, hb.1.kind_eq, keywordShape, hrequired]; rfl, rfl⟩
  · exact ⟨.input q, by simp only [shapeOf, hb.1.kind_eq, keywordShape, hq]; rfl, rfl⟩
  · exact ⟨.convert target q, by simp only [shapeOf, hb.1.kind_eq, keywordShape, hrequired]; rfl,
      rfl⟩

theorem loads_pair (n : Name) :
    (node .group (node (.reference n) [] :: node .colon [] :: p.trees)).Loads := by
  intro g a id hb hsettled _ _
  obtain ⟨name, _, hrow, hname, hmore⟩ := BearsAll.cons_iff.mp hb.2
  obtain ⟨colon, collection, rfl, hcolon, hcollection⟩ := BearsAll.cons_iff.mp hmore
  have hsettled' : ∀ c ∈ collection, g.Settled g c := by
    intro c hc
    refine hsettled c ?_
    rw [hrow]
    exact List.mem_cons_of_mem _ (List.mem_cons_of_mem _ hc)
  obtain ⟨q, _, hq⟩ := exists_sequence h hcollection hsettled' (g.line id) ":"
  refine ⟨.pair n q, ?_, rfl⟩
  simp [shapeOf, hb.1.kind_eq, groupShape, hrow, hname.1.kind_eq, hcolon.1.kind_eq, hq,
    NodeKind.isColon, Except.map]

end Value

/-! ### Statements -/

/-- A keyword with nothing behind it. -/
theorem loads_alone {k : Keyword} (hk : k = .print ∨ k = .return_ ∨ k = .break_ ∨ k = .input) :
    (node (.keyword k) []).Loads := by
  intro g a id hb _ _ _
  have hnone : g.children id = [] := BearsAll.nil_iff.mp hb.2
  rcases hk with rfl | rfl | rfl | rfl
  · exact ⟨.print .empty, by simp only [shapeOf, hb.1.kind_eq, hnone]; rfl, rfl⟩
  · exact ⟨.return_ .empty, by simp only [shapeOf, hb.1.kind_eq, hnone]; rfl, rfl⟩
  · exact ⟨.break_, by simp only [shapeOf, hb.1.kind_eq, hnone]; rfl, rfl⟩
  · exact ⟨.input .empty, by simp only [shapeOf, hb.1.kind_eq, hnone]; rfl, rfl⟩

theorem checkStatement_eq {g : Forest} {id : NodeId} (h : (g.kind id).isStatement = true) :
    g.checkStatement id = .ok () := by
  cases hk : g.kind id with
  | block | declaration n | keyword k => simp only [checkStatement, hk]
  | _ => simp [hk, NodeKind.isStatement] at h

theorem loads_block {ts : List Tree} (h : ∀ t ∈ ts, t.kind.isStatement = true) :
    (node .block ts).Loads := by
  intro g a id hb _ _ _
  refine ⟨.block, ?_, rfl⟩
  simp only [shapeOf, hb.1.kind_eq]
  refine blockShape_eq_ok_iff.mpr ⟨rfl, fun c hc => ?_⟩
  exact checkStatement_eq (hb.2.forall_kind (·.isStatement = true) h c hc)

section Header

variable {g : Forest} {a id : NodeId} {ts body : List Tree}

/-- A group and a block are the header that a keyword asks for. -/
theorem exists_header (h : g.BearsAll a [node .group ts, node .block body] (g.children id)) :
    ∃ head block, head ∈ g.children id ∧ g.Bears a (node .group ts) head ∧
      ∀ k line, g.header k (g.children id) line = .ok (head, block) := by
  obtain ⟨head, _, hrow, hhead, hmore⟩ := BearsAll.cons_iff.mp h
  obtain ⟨block, rfl, hblock⟩ := BearsAll.singleton_iff.mp hmore
  refine ⟨head, block, ?_, hhead, fun k line => ?_⟩
  · rw [hrow]
    exact List.mem_cons_self ..
  · simp [hrow, header, hhead.1.kind_eq, hblock.1.kind_eq, NodeKind.isGroup, NodeKind.isBlock]

theorem exists_body (h : g.BearsAll a [node .block body] (g.children id)) :
    ∃ block, ∀ k line, g.body k (g.children id) line = .ok block := by
  obtain ⟨block, hrow, hblock⟩ := BearsAll.singleton_iff.mp h
  refine ⟨block, fun k line => ?_⟩
  simp [hrow, Forest.body, hblock.1.kind_eq, NodeKind.isBlock]

/-- An expression in parentheses is one value. -/
theorem exists_groups {p : Passage} (hp : p.Expresses) {head : NodeId}
    (h : g.Bears a (node .group p.trees) head) (hs : g.Settled g head) :
    ∃ q, g.shape head = .groups [q] := by
  obtain ⟨qs, hshape, hqs⟩ := hs.group h.1.kind_eq (h.hasColon_terms hp.isTerm)
  rcases h.belongTo_terms hp.isTerm hqs with ⟨hnil, _⟩ | ⟨_, q, rfl⟩
  · exact absurd hnil hp.ne_nil
  · exact ⟨q, hshape⟩

theorem checkFollows_eq (h : g.Follows id) (k : Keyword) (line : Nat) :
    g.checkFollows k id line = .ok () := by
  obtain ⟨before, hbefore, hkind⟩ := h
  simp only [checkFollows, hbefore, hkind, if_true]

end Header

/-- A keyword with a condition or a count, and a block. -/
theorem loads_header {k : Keyword} (hk : k = .if_ ∨ k = .elif ∨ k = .while_ ∨ k = .repeat_)
    {p : Passage} (hp : p.Expresses) (body : List Tree) :
    (node (.keyword k) [node .group p.trees, node .block body]).Loads := by
  intro g a id hb hsettled hfollows _
  obtain ⟨head, block, hmem, hhead, hheader⟩ := exists_header hb.2
  obtain ⟨q, hq⟩ := exists_groups hp hhead (hsettled head hmem)
  have hconditional : ∀ k line, g.conditional k (g.children id) line = .ok (head, block) := by
    intro k line
    simp only [conditional, hheader, Except.bind, hq]
  rcases hk with rfl | rfl | rfl | rfl
  · refine ⟨.branch true head block (g.chained id), ?_, rfl⟩
    simp only [shapeOf, hb.1.kind_eq, keywordShape, branchShape, hconditional]
    rfl
  · refine ⟨.branch false head block (g.chained id), ?_, rfl⟩
    simp only [shapeOf, hb.1.kind_eq, keywordShape, branchShape, hconditional,
      checkFollows_eq (hfollows rfl)]
    rfl
  · refine ⟨.while_ head block, ?_, rfl⟩
    simp only [shapeOf, hb.1.kind_eq, keywordShape, hconditional]
    rfl
  · refine ⟨.repeat_ head block, ?_, rfl⟩
    simp only [shapeOf, hb.1.kind_eq, keywordShape, repeatShape, hheader, Except.bind, hq]

theorem loads_foreach (n : Name) (ts body : List Tree) : (node (.keyword .repeat_)
    [node .group (node (.reference n) [] :: node .colon [] :: ts), node .block body]).Loads := by
  intro g a id hb hsettled _ _
  obtain ⟨head, block, hmem, hhead, hheader⟩ := exists_header hb.2
  have hcolon : g.hasColon (g.children head) = true := by
    obtain ⟨name, _, hrow, _, hmore⟩ := BearsAll.cons_iff.mp hhead.2
    obtain ⟨colon, more, rfl, hc, _⟩ := BearsAll.cons_iff.mp hmore
    simp [hrow, hasColon, hc.1.kind_eq, NodeKind.isColon]
  obtain ⟨item, q, hq⟩ := (hsettled head hmem).pair hhead.1.kind_eq hcolon
  refine ⟨.foreach item q block, ?_, rfl⟩
  simp only [shapeOf, hb.1.kind_eq, keywordShape, repeatShape, hheader, Except.bind, hq]

/-- A keyword with a block alone. -/
theorem loads_body {k : Keyword} (hk : k = .else_ ∨ k = .local_) (body : List Tree) :
    (node (.keyword k) [node .block body]).Loads := by
  intro g a id hb _ hfollows _
  obtain ⟨block, hbody⟩ := exists_body hb.2
  rcases hk with rfl | rfl
  · refine ⟨.else_ block, ?_, rfl⟩
    simp only [shapeOf, hb.1.kind_eq, keywordShape, hbody, checkFollows_eq (hfollows rfl)]
    rfl
  · refine ⟨.local_ block, ?_, rfl⟩
    simp only [shapeOf, hb.1.kind_eq, keywordShape, hbody]
    rfl

/-! ### Assignments -/

theorem trees_subscripted (p : Passage) (ss : List Passage) :
    (p.subscripted ss).trees = p.trees ++ ss.map fun s => node .brackets s.trees := by
  induction ss generalizing p with
  | nil => exact (List.append_nil _).symm
  | cons s ss ih =>
    show (Passage.subscripted (p ++ s.brackets) ss).trees = _
    rw [ih]
    exact List.append_assoc ..

/-- Brackets with an expression in each are subscripts. -/
theorem exists_subscripts {g : Forest} {a : NodeId} {ss : List Passage} (h : ∀ s ∈ ss, s.Expresses)
    {ids : List NodeId} (hids : g.BearsAll a (ss.map fun s => node .brackets s.trees) ids)
    (hsettled : ∀ c ∈ ids, g.Settled g c) : ∃ qs, ids.mapM g.subscript = .ok qs := by
  induction ss generalizing ids with
  | nil =>
    rw [BearsAll.nil_iff.mp hids]
    exact ⟨[], rfl⟩
  | cons s ss ih =>
    obtain ⟨id, more, rfl, hb, hmore⟩ := BearsAll.cons_iff.mp hids
    have hs := h s (List.mem_cons_self ..)
    obtain ⟨qs, hshape, hqs⟩ := (hsettled id (List.mem_cons_self ..)).brackets hb.1.kind_eq
    obtain ⟨rest, hrest⟩ := ih (fun t ht => h t (List.mem_cons_of_mem _ ht)) hmore fun c hc =>
      hsettled c (List.mem_cons_of_mem _ hc)
    rcases hb.belongTo_terms hs.isTerm hqs with ⟨hnil, _⟩ | ⟨_, q, rfl⟩
    · exact absurd hnil hs.ne_nil
    · have hq : g.subscript id = .ok q := by rw [subscript, hshape]
      refine ⟨q :: rest, ?_⟩
      rw [List.mapM_cons, hq, hrest]
      rfl

theorem loads_declaration (n : Name) {ss : List Passage} (hss : ∀ s ∈ ss, s.Expresses)
    {op : Operator} (hop : op.isAssignment = true) {q : Passage} (hq : q.Expresses) :
    (node (.declaration n)
      (Passage.subscripted .empty ss ++ (.operator op ++ q)).trees).Loads := by
  intro g a id hb hsettled _ _
  have hrow : g.BearsAll a
      ((Passage.subscripted .empty ss).trees ++ (node (.operator op) [] :: q.trees))
      (g.children id) := hb.2
  rw [trees_subscripted] at hrow
  obtain ⟨first, _, hids, hfirst, hrest⟩ := BearsAll.append_iff.mp hrow
  obtain ⟨sign, value, rfl, hsign, hvalue⟩ := BearsAll.cons_iff.mp hrest
  rw [hids] at hsettled
  obtain ⟨subscripts, hsubscripts⟩ := exists_subscripts hss hfirst fun c hc =>
    hsettled c (List.mem_append_left _ hc)
  obtain ⟨s, _, hs⟩ := exists_sequence hq hvalue
    (fun c hc => hsettled c (List.mem_append_right _ (List.mem_cons_of_mem _ hc)))
    (g.line id) op.symbol
  -- The subscripts end where the operator stands.
  have hbrackets : ∀ c ∈ first, (g.kind c).isBrackets = true := by
    refine hfirst.forall_kind (·.isBrackets = true) fun t ht => ?_
    obtain ⟨s, _, rfl⟩ := List.mem_map.mp ht
    rfl
  have hstop : (g.kind sign).isBrackets = false := by
    rw [hsign.1.kind_eq]
    rfl
  have htake : (g.children id).takeWhile (fun c => (g.kind c).isBrackets) = first := by
    rw [hids, List.takeWhile_append_of_pos hbrackets]
    simp [hstop]
  have hdrop : (g.children id).dropWhile (fun c => (g.kind c).isBrackets) = sign :: value := by
    rw [hids, List.dropWhile_append_of_pos hbrackets]
    simp [hstop]
  refine ⟨.declaration n subscripts op s, ?_, rfl⟩
  simp only [shapeOf, hb.1.kind_eq, declarationShape, htake, hdrop, hsubscripts, Except.bind,
    hsign.1.kind_eq, hop, if_true, hs]
  rfl

/-! ### Functions -/

section Parameters

variable {g : Forest} {a : NodeId}

/-- Commas leave one name in each row of a parameter list. -/
theorem exists_rows (n : Name) (params : List Name) {ids : List NodeId}
    (h : g.BearsAll a (Passage.row ((n :: params).map .reference)).trees ids) :
    ∃ names : List NodeId, runs (fun id => (g.kind id).isComma) ids = names.map ([·]) ∧
      names.map g.kind = (n :: params).map fun n => .reference n := by
  induction params generalizing n ids with
  | nil =>
    obtain ⟨id, rfl, hb⟩ := BearsAll.singleton_iff.mp h
    refine ⟨[id], ?_, ?_⟩
    · refine runs_of_forall (List.forall_mem_singleton.mpr ?_)
      rw [hb.1.kind_eq]
      rfl
    · rw [List.map_singleton, hb.1.kind_eq]
      rfl
  | cons next params ih =>
    obtain ⟨id, _, rfl, hb, hrest⟩ := BearsAll.cons_iff.mp h
    obtain ⟨comma, more, rfl, hcomma, hmore⟩ := BearsAll.cons_iff.mp hrest
    obtain ⟨names, hruns, hkinds⟩ := ih next hmore
    have hname : ∀ c ∈ [id], (g.kind c).isComma = false := by
      refine List.forall_mem_singleton.mpr ?_
      rw [hb.1.kind_eq]
      rfl
    have hkind : (g.kind comma).isComma = true := by
      rw [hcomma.1.kind_eq]
      rfl
    refine ⟨id :: names, ?_, ?_⟩
    · rw [show id :: comma :: more = [id] ++ comma :: more from rfl, runs_append hname hkind, hruns]
      rfl
    · rw [List.map_cons, hkinds, hb.1.kind_eq]
      rfl

/-- Distinct names are a parameter list. -/
theorem parameters_eq (function : String) (line : Nat) {params : List Name} {before : List String}
    {names : List NodeId} (hnames : names.map g.kind = params.map fun n => .reference n)
    {qs : List TagLang.Sequence} (hqs : Sequence.BelongTo (names.map ([·])) qs)
    (hnodup : (before ++ params.map (·.val)).Nodup) :
    g.parameters function line before qs = .ok (before ++ params.map (·.val)) := by
  induction params generalizing before names qs with
  | nil =>
    rw [List.map_eq_nil_iff.mp hnames] at hqs
    rw [hqs.eq_nil, List.map_nil, List.append_nil]
    rfl
  | cons n params ih =>
    obtain ⟨id, more, rfl, hid, hmore⟩ := List.map_eq_cons_iff.mp hnames
    obtain ⟨q, rest, rfl, hq, hrest⟩ := hqs.eq_cons
    have hkind : q.single?.map g.kind = some (.reference n) := by
      rw [hq id rfl, Option.map_some, hid]
    have hnew : before.contains n.val = false := by
      rw [List.contains_eq_mem, decide_eq_false_iff_not]
      intro hin
      exact (List.nodup_append.mp hnodup).2.2 _ hin _ (List.mem_cons_self ..) rfl
    have happend : before ++ (n :: params).map (·.val) =
        (before ++ [n.val]) ++ params.map (·.val) := by
      rw [List.map_cons, List.append_assoc]
      rfl
    rw [happend] at hnodup ⊢
    rw [parameters, hkind]
    simp only [hnew, Bool.false_eq_true, if_false]
    exact ih hmore hrest hnodup

end Parameters

theorem filterMap_name?_row (params : List Name) :
    (Passage.row (params.map .reference)).trees.filterMap name? = params.map (·.val) := by
  induction params with
  | nil => rfl
  | cons n params ih =>
    cases params with
    | nil => rfl
    | cons next params => exact congrArg (n.val :: ·) ih

theorem loads_function (n : Name) (params : List Name) (body : List Tree) :
    (node (.keyword .function) [node (.reference n) [],
      node .group (Passage.row (params.map .reference)).trees, node .block body]).Loads := by
  intro g a id hb hsettled _ hnodup
  obtain ⟨name, _, hrow, hname, hmore⟩ := BearsAll.cons_iff.mp hb.2
  obtain ⟨group, _, rfl, hgroup, hlast⟩ := BearsAll.cons_iff.mp hmore
  obtain ⟨block, rfl, hblock⟩ := BearsAll.singleton_iff.mp hlast
  have hterm : ∀ p ∈ params.map Passage.reference, ∀ t ∈ p.trees, t.kind.isTerm = true := by
    intro p hp
    obtain ⟨m, _, rfl⟩ := List.mem_map.mp hp
    exact List.forall_mem_singleton.mpr rfl
  have hcolon : g.hasColon (g.children group) = false :=
    hasColon_eq_false (hgroup.2.forall_kind (·.isColon = false) (Passage.isColon_of_mem_row hterm))
  have hmem : group ∈ g.children id := by
    rw [hrow]
    exact List.mem_cons_of_mem _ (List.mem_cons_self ..)
  obtain ⟨qs, hshape, hqs⟩ := (hsettled group hmem).group hgroup.1.kind_eq hcolon
  have hdistinct : (params.map (·.val)).Nodup := by
    have h := hnodup _ (List.mem_singleton_self _)
    rwa [filterMap_name?_row] at h
  -- The rows of the list are its names, one by one.
  have hrows : ∃ names : List NodeId, g.rows (g.children group) = names.map ([·]) ∧
      names.map g.kind = params.map fun n => .reference n := by
    cases params with
    | nil =>
      refine ⟨[], ?_, rfl⟩
      rw [BearsAll.nil_iff.mp hgroup.2]
      rfl
    | cons m params =>
      obtain ⟨names, hruns, hkinds⟩ := exists_rows m params hgroup.2
      refine ⟨names, ?_, hkinds⟩
      have hne : g.children group ≠ [] := by
        intro hnil
        rw [hnil] at hruns
        cases names with
        | nil => cases hkinds
        | cons c names => cases hruns
      rw [rows, List.isEmpty_eq_false_iff.mpr hne, if_neg Bool.false_ne_true, hruns]
  obtain ⟨names, hnames, hkinds⟩ := hrows
  rw [hnames] at hqs
  have hparams : g.parameters n.val (g.line id) [] qs = .ok (params.map (·.val)) :=
    parameters_eq n.val (g.line id) hkinds hqs hdistinct
  refine ⟨.function ⟨n, params.map (·.val), block⟩, ?_, ?_⟩
  · simp only [shapeOf, hb.1.kind_eq, keywordShape, hrow, functionShape, hname.1.kind_eq,
      hgroup.1.kind_eq, hblock.1.kind_eq, hshape, hparams]
    rfl
  · rw [declares, filterMap_name?_row]
    rfl

/-! ### Names -/

/-- Names are freed whether commas stand between them or not. -/
theorem exists_freeNames {g : Forest} {a : NodeId} (line : Nat) (more : List (Bool × Name))
    {ids : List NodeId} (h : g.BearsAll a (Passage.names more).trees ids) :
    ∃ names, g.freeNames line ids = .ok names := by
  induction more generalizing ids with
  | nil =>
    rw [BearsAll.nil_iff.mp h]
    exact ⟨[], rfl⟩
  | cons m more ih =>
    obtain ⟨behind, m⟩ := m
    cases behind with
    | true =>
      obtain ⟨comma, _, rfl, hcomma, hmore⟩ := BearsAll.cons_iff.mp h
      obtain ⟨c, ids, rfl, hc, hids⟩ := BearsAll.cons_iff.mp hmore
      obtain ⟨names, hnames⟩ := ih hids
      exact ⟨m.val :: names,
        by simp [freeNames, hcomma.1.kind_eq, hc.1.kind_eq, hnames, Except.map]⟩
    | false =>
      obtain ⟨c, ids, rfl, hc, hids⟩ := BearsAll.cons_iff.mp h
      obtain ⟨names, hnames⟩ := ih hids
      exact ⟨m.val :: names, by simp [freeNames, hc.1.kind_eq, hnames, Except.map]⟩

theorem loads_free (n : Name) (more : List (Bool × Name)) :
    (node (.keyword .free) (node (.reference n) [] :: (Passage.names more).trees)).Loads := by
  intro g a id hb _ _ _
  obtain ⟨first, rest, hrow, hfirst, hrest⟩ := BearsAll.cons_iff.mp hb.2
  obtain ⟨names, hmore⟩ := exists_freeNames (g.line id) more hrest
  have hall : g.freeNames (g.line id) (g.children id) = .ok (n.val :: names) := by
    simp [hrow, freeNames, hfirst.1.kind_eq, hmore, Except.map]
  by_cases hfree : n.val = "all" ∧ names = []
  · refine ⟨.freeAll, ?_, rfl⟩
    simp [shapeOf, hb.1.kind_eq, keywordShape, freeShape, hall, hfree.1, hfree.2, Except.bind]
  · refine ⟨.free (n.val :: names), ?_, rfl⟩
    simp only [shapeOf, hb.1.kind_eq, keywordShape, freeShape, hall, Except.bind]
    split
    · next h => cases h
    · next h => exact absurd (List.cons.inj h) hfree
    · rfl

theorem loads_extern (n : Name) (nickname : Option Name) : (node (.keyword .extern_)
    (node (.reference n) [] :: (Passage.names (nickname.toList.map (false, ·))).trees)).Loads := by
  intro g a id hb _ _ _
  obtain ⟨source, rest, hrow, hsource, hrest⟩ := BearsAll.cons_iff.mp hb.2
  cases nickname with
  | none =>
    have hnone : rest = [] := BearsAll.nil_iff.mp hrest
    refine ⟨.extern_ n n, ?_, rfl⟩
    simp [shapeOf, hb.1.kind_eq, keywordShape, externShape, hrow, hnone, hsource.1.kind_eq]
  | some m =>
    obtain ⟨c, rfl, hc⟩ := BearsAll.singleton_iff.mp hrest
    refine ⟨.extern_ n m, ?_, rfl⟩
    simp [shapeOf, hb.1.kind_eq, keywordShape, externShape, hrow, hsource.1.kind_eq, hc.1.kind_eq]

end Tree

namespace Passage

open Script.Tree

/-! ### Expressions that fit -/

theorem fits_of_forall {kind : NodeKind} {ts : List Tree} (hl : (Tree.node kind ts).Loads)
    (hn : ∀ t ∈ ts, t.kind.isFurther = false) (hts : FitAll ts) : (Tree.node kind ts).Fits :=
  ⟨hl, chained_of_forall hn false, hts⟩

theorem fitAll_bare (w : Word) {kind : NodeKind} (h : kind.isBare = true) :
    FitAll (bare w kind).trees :=
  .singleton (fits_of_forall (loads_bare h) nofun trivial)

theorem fitAll_row {ps : List Passage} (h : ∀ p ∈ ps, FitAll p.trees) : FitAll (row ps).trees := by
  induction ps with
  | nil => trivial
  | cons p ps ih =>
    have hp := h p (List.mem_cons_self ..)
    cases ps with
    | nil => exact hp
    | cons q ps =>
      have hrest := ih fun r hr => h r (List.mem_cons_of_mem _ hr)
      exact fitAll_append hp (fitAll_append (fitAll_bare (.mark .comma) rfl) hrest)

/-- The passage is an operand, and its trees fit. -/
def IsOperand (p : Passage) : Prop := p.Operates ∧ FitAll p.trees

/-- The passage is an expression, and its trees fit. -/
def IsExpression (p : Passage) : Prop := p.Expresses ∧ FitAll p.trees

theorem IsOperand.isExpression {p : Passage} (h : p.IsOperand) : p.IsExpression :=
  ⟨.operand h.1, h.2⟩

theorem IsExpression.not_isFurther {p : Passage} (h : p.IsExpression) :
    ∀ t ∈ p.trees, t.kind.isFurther = false :=
  fun t ht => (NodeKind.not_of_isTerm (h.1.isTerm t ht)).2.2

section Row

variable {ps : List Passage} (h : ∀ p ∈ ps, p.IsExpression)
include h

theorem not_isFurther_row : ∀ t ∈ (row ps).trees, t.kind.isFurther = false := by
  intro t ht
  rcases of_mem_row (fun p hp => (h p hp).1.isTerm) t ht with hk | hk
  · exact (NodeKind.not_of_isTerm hk).2.2
  · rw [hk]
    rfl

theorem fits_group_row : (Tree.node .group (row ps).trees).Fits :=
  fits_of_forall (loads_group fun p hp => (h p hp).1) (not_isFurther_row h)
    (fitAll_row fun p hp => (h p hp).2)

theorem fits_brackets_row : (Tree.node .brackets (row ps).trees).Fits :=
  fits_of_forall (loads_brackets fun p hp => (h p hp).1) (not_isFurther_row h)
    (fitAll_row fun p hp => (h p hp).2)

theorem fits_call (f : Name) : (Tree.node (.keyword .call)
    [.node (.reference f) [], .node .group (row ps).trees]).Fits := by
  refine fits_of_forall (loads_call (fun p hp => (h p hp).1) f) ?_ ?_
  · exact List.forall_mem_cons.mpr ⟨rfl, List.forall_mem_singleton.mpr rfl⟩
  · exact fitAll_append (fitAll_bare (.name f) rfl) (.singleton (fits_group_row h))

end Row

theorem IsExpression.fits_group {p : Passage} (h : p.IsExpression) :
    (Tree.node .group p.trees).Fits :=
  fits_group_row (List.forall_mem_singleton.mpr h)

theorem IsExpression.fits_brackets {p : Passage} (h : p.IsExpression) :
    (Tree.node .brackets p.trees).Fits :=
  fits_brackets_row (List.forall_mem_singleton.mpr h)

theorem IsExpression.group {p : Passage} (h : p.IsExpression) : p.group.IsOperand :=
  ⟨.group h.1.isTerm, .singleton h.fits_group⟩

/-- A keyword inside parentheses. -/
theorem isOperand_inline {k : Keyword} (hk : (NodeKind.keyword k).isInline = true) {p : Passage}
    (h : (Tree.node (.keyword k) p.trees).Fits) : (group (keyword k p)).IsOperand := by
  have hv : (NodeKind.keyword k).isValue = true := by
    cases k with
    | call | input | convert target => rfl
    | _ => cases hk
  have hin : (keyword k p).IsOperand := ⟨.value rfl hv rfl, .singleton h⟩
  exact hin.isExpression.group

/-- Expressions are put together of operands and expressions. -/
theorem composes_isOperand : Composes IsOperand IsExpression where
  literal l := ⟨.value rfl rfl rfl, fitAll_bare (.literal l) rfl⟩
  name n := ⟨.value rfl rfl rfl, fitAll_bare (.name n) rfl⟩
  unit := ⟨.group nofun, .singleton (fits_group_row (List.forall_mem_nil _))⟩
  group _ h := h.group
  array _ h := ⟨.value rfl rfl rfl, .singleton (fits_brackets_row h)⟩
  call f _ h := ⟨.value rfl rfl rfl, .singleton (fits_call h f)⟩
  ask := isOperand_inline rfl
    (fits_of_forall (loads_alone (.inr (.inr (.inr rfl)))) nofun trivial)
  input _ h := isOperand_inline rfl
    (fits_of_forall (loads_value h.1 (.inr (.inr (.inr (.inl rfl))))) h.not_isFurther h.2)
  convert target _ h := isOperand_inline rfl
    (fits_of_forall (loads_value h.1 (.inr (.inr (.inr (.inr ⟨target, rfl⟩))))) h.not_isFurther h.2)
  unary op _ hop h := ⟨.unary hop h.1, fitAll_append (fitAll_bare (.operator op) rfl) h.2⟩
  index _ _ h hs := ⟨.index h.1 hs.1, fitAll_append h.2 (.singleton hs.fits_brackets)⟩
  operand _ h := h.isExpression
  binary op _ _ hop h hq :=
    ⟨.binary hop h.1 hq.1, fitAll_append h.2 (fitAll_append (fitAll_bare (.operator op) rfl) hq.2)⟩

/-! ### Statements that fit -/

/-- The passage is statements whose trees fit; `behind` says that a branch with a condition stands
before them. -/
structure AreStatements (behind : Bool) (p : Passage) : Prop where
  fitAll : FitAll p.trees
  isStatement : ∀ t ∈ p.trees, t.kind.isStatement = true
  chained : Chained behind p.trees

theorem AreStatements.empty (behind : Bool) : AreStatements behind empty :=
  ⟨trivial, nofun, trivial⟩

theorem AreStatements.append {behind : Bool} {p q : Passage} (hp : AreStatements behind p)
    (hq : ∀ behind, AreStatements behind q) : AreStatements behind (p ++ q) where
  fitAll := fitAll_append hp.fitAll (hq false).fitAll
  isStatement := List.forall_mem_append.mpr ⟨hp.isStatement, (hq false).isStatement⟩
  chained := hp.chained.append fun behind => (hq behind).chained

/-- A statement before others. -/
theorem AreStatements.cons {behind : Bool} {p q : Passage} {t : Tree} (hp : p.trees = [t])
    (ht : t.Fits) (hs : t.kind.isStatement = true) (hb : t.kind.isFurther = true → behind = true)
    (hq : AreStatements t.kind.isBranch q) : AreStatements behind (p ++ q) := by
  have htrees : (p ++ q).trees = t :: q.trees := congrArg (· ++ q.trees) hp
  constructor
  · rw [htrees]
    exact ⟨ht, hq.fitAll⟩
  · rw [htrees]
    exact List.forall_mem_cons.mpr ⟨hs, hq.isStatement⟩
  · rw [htrees]
    exact ⟨hb, hq.chained⟩

theorem AreStatements.single {behind : Bool} {p : Passage} {t : Tree} (hp : p.trees = [t])
    (ht : t.Fits) (hs : t.kind.isStatement = true) (hb : t.kind.isFurther = true → behind = true) :
    AreStatements behind p := by
  constructor
  · rw [hp]
    exact .singleton ht
  · rw [hp]
    exact List.forall_mem_singleton.mpr hs
  · rw [hp]
    exact ⟨hb, trivial⟩

theorem fits_block {p : Passage} (h : ∀ behind, AreStatements behind p) :
    (Tree.node .block p.trees).Fits :=
  ⟨loads_block (h false).isStatement, (h false).chained, (h false).fitAll⟩

theorem fits_header {k : Keyword} (hk : k = .if_ ∨ k = .elif ∨ k = .while_ ∨ k = .repeat_)
    {q p : Passage} (hq : q.IsExpression) (hp : ∀ behind, AreStatements behind p) :
    (Tree.node (.keyword k) [.node .group q.trees, .node .block p.trees]).Fits :=
  fits_of_forall (loads_header hk hq.1 p.trees)
    (List.forall_mem_cons.mpr ⟨rfl, List.forall_mem_singleton.mpr rfl⟩)
    ⟨hq.fits_group, .singleton (fits_block hp)⟩

theorem fits_body {k : Keyword} (hk : k = .else_ ∨ k = .local_) {p : Passage}
    (hp : ∀ behind, AreStatements behind p) :
    (Tree.node (.keyword k) [.node .block p.trees]).Fits :=
  fits_of_forall (loads_body hk p.trees) (List.forall_mem_singleton.mpr rfl)
    (.singleton (fits_block hp))

theorem fits_foreach (n : Name) {q p : Passage} (hq : q.IsExpression)
    (hp : ∀ behind, AreStatements behind p) : (Tree.node (.keyword .repeat_)
      [.node .group (.node (.reference n) [] :: .node .colon [] :: q.trees),
        .node .block p.trees]).Fits := by
  have hpair : (Tree.node .group (.node (.reference n) [] :: .node .colon [] :: q.trees)).Fits := by
    refine fits_of_forall (loads_pair hq.1 n) ?_ ?_
    · exact List.forall_mem_cons.mpr ⟨rfl, List.forall_mem_cons.mpr ⟨rfl, hq.not_isFurther⟩⟩
    · exact fitAll_append (fitAll_bare (.name n) rfl)
        (fitAll_append (fitAll_bare (.mark .colon) rfl) hq.2)
  exact fits_of_forall (loads_foreach n q.trees p.trees)
    (List.forall_mem_cons.mpr ⟨rfl, List.forall_mem_singleton.mpr rfl⟩)
    ⟨hpair, .singleton (fits_block hp)⟩

theorem fits_function (n : Name) (params : List Name) {p : Passage}
    (hp : ∀ behind, AreStatements behind p) : (Tree.node (.keyword .function)
      [.node (.reference n) [], .node .group (row (params.map .reference)).trees,
        .node .block p.trees]).Fits := by
  have hparams : ∀ q ∈ params.map reference, q.IsExpression := by
    intro q hq
    obtain ⟨m, _, rfl⟩ := List.mem_map.mp hq
    exact (composes_isOperand.name m).isExpression
  refine fits_of_forall (loads_function n params p.trees) ?_ ?_
  · exact List.forall_mem_cons.mpr
      ⟨rfl, List.forall_mem_cons.mpr ⟨rfl, List.forall_mem_singleton.mpr rfl⟩⟩
  · exact fitAll_append (fitAll_bare (.name n) rfl)
      ⟨fits_group_row hparams, .singleton (fits_block hp)⟩

theorem fitAll_names (more : List (Bool × Name)) :
    FitAll (names more).trees ∧ ∀ t ∈ (names more).trees, t.kind.isFurther = false := by
  induction more with
  | nil => exact ⟨trivial, nofun⟩
  | cons m more ih =>
    obtain ⟨behind, m⟩ := m
    have hname : FitAll (reference m ++ names more).trees ∧
        ∀ t ∈ (reference m ++ names more).trees, t.kind.isFurther = false :=
      ⟨fitAll_append (fitAll_bare (.name m) rfl) ih.1, List.forall_mem_cons.mpr ⟨rfl, ih.2⟩⟩
    cases behind with
    | false => exact hname
    | true =>
      exact ⟨fitAll_append (fitAll_bare (.mark .comma) rfl) hname.1,
        List.forall_mem_cons.mpr ⟨rfl, hname.2⟩⟩

/-- A keyword with names behind it. -/
theorem fits_names {k : Keyword} {n : Name} {more : List (Bool × Name)}
    (h : (Tree.node (.keyword k) (reference n ++ names more).trees).Loads) :
    (Tree.node (.keyword k) (reference n ++ names more).trees).Fits :=
  fits_of_forall h (List.forall_mem_cons.mpr ⟨rfl, (fitAll_names more).2⟩)
    (fitAll_append (fitAll_bare (.name n) rfl) (fitAll_names more).1)

theorem fitAll_subscripts {ss : List Passage} (h : ∀ s ∈ ss, s.IsExpression) :
    FitAll (ss.map fun s => .node .brackets s.trees) := by
  induction ss with
  | nil => trivial
  | cons s ss ih =>
    exact ⟨(h s (List.mem_cons_self ..)).fits_brackets,
      ih fun t ht => h t (List.mem_cons_of_mem _ ht)⟩

theorem fits_declaration (n : Name) {ss : List Passage} (hss : ∀ s ∈ ss, s.IsExpression)
    {op : Operator} (hop : op.isAssignment = true) {q : Passage} (hq : q.IsExpression) :
    (Tree.node (.declaration n) (subscripted .empty ss ++ (operator op ++ q)).trees).Fits := by
  have htrees : (subscripted .empty ss ++ (operator op ++ q)).trees =
      (ss.map fun s => .node .brackets s.trees) ++ (.node (.operator op) [] :: q.trees) :=
    congrArg (· ++ _) (trees_subscripted .empty ss)
  refine fits_of_forall (loads_declaration n (fun s hs => (hss s hs).1) hop hq.1) ?_ ?_
  · rw [htrees]
    refine List.forall_mem_append.mpr ⟨?_, List.forall_mem_cons.mpr ⟨rfl, hq.not_isFurther⟩⟩
    intro t ht
    obtain ⟨s, _, rfl⟩ := List.mem_map.mp ht
    rfl
  · rw [htrees]
    exact fitAll_append (fitAll_subscripts hss)
      (fitAll_append (fitAll_bare (.operator op) rfl) hq.2)

end Passage

open Passage in
/-- Scripts are put together of statements and branches. -/
theorem Statement.composes_areStatements : Statement.Composes IsExpression
    (fun p => ∀ behind, AreStatements behind p) (AreStatements true) where
  empty := .empty
  append _ _ hp hq behind := (hp behind).append hq
  assign n _ _ _ hop hss hq _ := .single rfl (fits_declaration n hss hop hq) rfl nofun
  bare k hk _ := by
    have hfits : (Tree.node (.keyword k) []).Fits :=
      fits_of_forall (Tree.loads_alone (hk.imp_right fun h => h.imp_right .inl)) nofun trivial
    exact .single rfl hfits rfl (by rcases hk with rfl | rfl | rfl <;> exact nofun)
  value k q hk hq _ := by
    have hfits : (Tree.node (.keyword k) q.trees).Fits :=
      fits_of_forall (Tree.loads_value hq.1 (hk.imp_right fun h => h.imp_right .inl))
        hq.not_isFurther hq.2
    exact .single rfl hfits rfl (by rcases hk with rfl | rfl | rfl <;> exact nofun)
  call f _ hps _ := .single rfl (fits_call hps f) rfl nofun
  block _ hp _ := .single rfl (fits_block hp) rfl nofun
  if_ _ _ _ hq hp hr _ := .cons rfl (fits_header (.inl rfl) hq hp) rfl nofun hr
  loop k _ _ hk hq hp _ :=
    .single rfl (fits_header (.inr (.inr hk.symm)) hq hp) rfl
      (by rcases hk with rfl | rfl <;> exact nofun)
  foreach n _ _ hq hp _ := .single rfl (fits_foreach n hq hp) rfl nofun
  function n params _ hp _ := .single rfl (fits_function n params hp) rfl nofun
  free n more _ := .single rfl (fits_names (Tree.loads_free n more)) rfl nofun
  local_ _ hp _ := .single rfl (fits_body (.inr rfl) hp) rfl nofun
  extern_ n nickname _ := .single rfl (fits_names (Tree.loads_extern n nickname)) rfl nofun
  done := .empty true
  elif _ _ _ hq hp hr := .cons rfl (fits_header (.inr (.inl rfl)) hq hp) rfl (fun _ => rfl) hr
  else_ _ hp := .single rfl (fits_body (.inl rfl) hp) rfl fun _ => rfl

/-- The tree of every script fits. -/
theorem fits_tree (script : List Statement) : (tree script).Fits :=
  Passage.fits_block
    (Statement.of_composes_all Passage.composes_isOperand Statement.composes_areStatements script)

end Script

end TagLang
