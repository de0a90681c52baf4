import TagLang.Proofs.Loading
import TagLang.Proofs.Meaning
import TagLang.Proofs.Phrases
import TagLang.Proofs.Planting

/-!
# Loading expressions

Loading finds the operands and operators of an expression in the row of its nodes.  The row of a
tree is read as that tree (`Expr.reading`): the operators that stand bare in it are grouped by
precedence as in the tree, and parentheses and brackets have been loaded before, so what they denote
is known (`Term.Means`).
-/

namespace TagLang

/-! ### Operands and operators in a row -/

/-- The last operand. -/
def Spine.last : Spine → Operand
  | operand o => o
  | binary _ _ _ rhs => rhs.last

namespace Forest

variable {g : Forest} {ids : List NodeId}

/-- The nodes are read as the operand, whatever stands before and behind them. -/
def ReadsOperand (g : Forest) (ids : List NodeId) (o : Operand) : Prop :=
  ∀ last ops rest, g.operandNext last ops (ids ++ rest) =
    g.operatorNext last { o with prefixes := ops ++ o.prefixes } rest

/-- The nodes are read as the operands and operators of the tree, if it can be read on behind
them. -/
def ReadsSpine (g : Forest) (ids : List NodeId) (sp : Spine) : Prop :=
  ∀ last rest os ops, g.operatorNext last sp.last rest = .ok ⟨sp.last :: os, ops⟩ →
    g.operandNext last [] (ids ++ rest) =
      .ok ⟨sp.first :: (sp.rest.map (·.2) ++ os), sp.rest.map (·.1) ++ ops⟩

/-- A value that is no group is an operand by itself. -/
theorem readsOperand_value {id : NodeId} (hv : (g.kind id).isValue = true)
    (hg : (g.kind id).isGroup = false) : g.ReadsOperand [id] ⟨id, [], []⟩ := by
  intro last ops rest
  rw [List.singleton_append, operandNext]
  split
  next op hk =>
    rw [hk] at hv
    cases hv
  next => simp [hv, hg]

theorem readsOperand_group {id : NodeId} {q : Sequence} (hk : g.kind id = .group)
    (hs : g.shape id = .groups [q]) : g.ReadsOperand [id] ⟨id, [], []⟩ := by
  intro last ops rest
  simp [operandNext, hk, NodeKind.isValue, NodeKind.isGroup, checkSingle, hs, Except.bind]

/-- Brackets behind an operand are a subscript. -/
theorem ReadsOperand.index {o : Operand} (h : g.ReadsOperand ids o) {id : NodeId} {q : Sequence}
    (hk : g.kind id = .brackets) (hs : g.shape id = .array [q]) :
    g.ReadsOperand (ids ++ [id]) { o with subscripts := o.subscripts ++ [id] } := by
  intro last ops rest
  rw [List.append_assoc, h]
  simp [operatorNext, hk, subscript, hs, Except.bind]

/-- A prefix operator comes before those behind it. -/
theorem ReadsOperand.unary {o : Operand} (h : g.ReadsOperand ids o) {id : NodeId} {op : Operator}
    (hk : g.kind id = .operator op) (hop : op.isPrefix = true) :
    g.ReadsOperand (id :: ids) { o with prefixes := op :: o.prefixes } := by
  intro last ops rest
  have hrest := h last (ops ++ [op]) rest
  rw [List.append_assoc] at hrest
  simp only [List.cons_append, operandNext, hk, hop, if_true]
  exact hrest

theorem ReadsOperand.spine {o : Operand} (h : g.ReadsOperand ids o) :
    g.ReadsSpine ids (.operand o) := by
  intro last rest os ops hrest
  rw [h]
  exact hrest

theorem ReadsSpine.binary {lhs rhs : Spine} {more : List NodeId} (hl : g.ReadsSpine ids lhs)
    (hr : g.ReadsSpine more rhs) {id : NodeId} {op : Operator} (hk : g.kind id = .operator op)
    (hop : op.isBinary = true) :
    g.ReadsSpine (ids ++ id :: more) (.binary op (g.line id) lhs rhs) := by
  intro last rest os ops hrest
  have hmiddle : g.operatorNext last lhs.last (id :: (more ++ rest)) =
      .ok ⟨lhs.last :: (rhs.first :: (rhs.rest.map (·.2) ++ os)),
        (op, g.line id) :: (rhs.rest.map (·.1) ++ ops)⟩ := by
    simp only [operatorNext, hk, hop, if_true, hr last rest os ops hrest]
    rfl
  have hall := hl last _ _ _ hmiddle
  simp only [List.append_assoc, List.cons_append, hall, Spine.first, Spine.rest, List.map_append,
    List.map_cons]

/-- A row that is read as a tree is the expression of the tree. -/
theorem ReadsSpine.sequence {sp : Spine} (h : g.ReadsSpine ids sp) :
    g.sequence ids = .ok sp.sequence := by
  refine sequence_of_operandNext fun last => ?_
  have hrow := h last [] [] [] (by rw [operatorNext])
  simpa [Spine.sequence] using hrow

end Forest

/-! ### Rows of trees -/

/-- What is known of a node that holds a term once it is loaded. -/
def Term.Means (g : Forest) (id : NodeId) : Term → Prop
  | .atom _ => g.shape id = .leaf
  | .operator _ | .comma => True
  | .group inner => ∀ e : Expr, inner = e.terms →
      ∃ q, g.shape id = .groups [q] ∧ q.Denotes g e
  | .brackets inner => ∀ es : List Expr, inner = Expr.row es →
      ∃ qs, g.shape id = .array qs ∧ Sequence.DenoteAll g qs es

theorem Term.Means.mono {g g' : Forest} {id : NodeId} (hle : g.Le g') (t : Term)
    (h : t.Means g id) : t.Means g' id := by
  cases t with
  | atom v => exact hle.shape_of_loaded h Shape.noConfusion
  | operator op => trivial
  | comma => trivial
  | group inner =>
    intro e he
    obtain ⟨q, hs, hq⟩ := h e he
    exact ⟨q, hle.shape_of_loaded hs Shape.noConfusion, hq.mono hle⟩
  | brackets inner =>
    intro es hes
    obtain ⟨qs, hs, hqs⟩ := h es hes
    exact ⟨qs, hle.shape_of_loaded hs Shape.noConfusion, hqs.mono hle⟩

/-- The row is read as an expression that denotes the tree and binds as tightly as `level`: one
operand if that is as tight as a prefix operator, and without prefix operators if it is tighter. -/
inductive Expr.Reading (g : Forest) (ids : List NodeId) (d : Nat) (e : Expr) (level : Nat) : Prop
  | operand (o : Operand) (bare : Operator.not.precedence < level → o.prefixes = [])
      (reads : g.ReadsOperand ids o) (denotes : o.Denotes g d e)
  | spine (sp : Spine) (loose : level < Operator.not.precedence) (tight : level ≤ sp.level)
      (grouped : sp.WellGrouped) (reads : g.ReadsSpine ids sp) (denotes : sp.Denotes g d e)

namespace Expr.Reading

variable {g : Forest} {ids : List NodeId} {d level : Nat} {e : Expr}

theorem mono {d' level' : Nat} (h : e.Reading g ids d level) (hd : d ≤ d') (hl : level' ≤ level) :
    e.Reading g ids d' level' := by
  cases h with
  | operand o bare reads denotes =>
    exact .operand o (fun hb => bare (Nat.lt_of_lt_of_le hb hl)) reads (denotes.deeper hd)
  | spine sp loose tight grouped reads denotes =>
    exact .spine sp (Nat.lt_of_le_of_lt hl loose) (Nat.le_trans hl tight) grouped reads
      (denotes.deeper hd)

theorem exists_operand (h : e.Reading g ids d level) (hl : Operator.not.precedence ≤ level) :
    ∃ o : Operand, (Operator.not.precedence < level → o.prefixes = []) ∧ g.ReadsOperand ids o ∧
      o.Denotes g d e := by
  cases h with
  | operand o bare reads denotes => exact ⟨o, bare, reads, denotes⟩
  | spine sp loose => exact absurd loose (Nat.not_lt_of_le hl)

theorem exists_spine (h : e.Reading g ids d level) (hl : level ≤ Operator.not.precedence) :
    ∃ sp : Spine, level ≤ sp.level ∧ sp.WellGrouped ∧ g.ReadsSpine ids sp ∧ sp.Denotes g d e := by
  cases h with
  | operand o bare reads denotes => exact ⟨.operand o, hl, trivial, reads.spine, denotes.spine⟩
  | spine sp loose tight grouped reads denotes => exact ⟨sp, tight, grouped, reads, denotes⟩

end Expr.Reading

/-- Binary operators bind more loosely than prefix operators. -/
theorem Operator.precedence_lt_of_isBinary {op : Operator} (h : op.isBinary = true) :
    op.precedence < Operator.not.precedence := by
  cases op <;> first | decide | cases h

section Reading

variable {f g : Forest} {a : NodeId}

theorem Forest.Stands.kind_of_le {id : NodeId} {kind : NodeKind} (h : f.Stands a id kind)
    (hle : f.Le g) : g.kind id = kind :=
  (hle.kind_eq id h.lt_size).trans h.kind_eq

/-- In parentheses or not, an operand is read as what it is. -/
theorem Expr.reading_enclosed (hle : f.Le g) {e : Expr} {bound : Nat} {ids : List NodeId}
    (hids : f.HoldsAll a (Term.enclosed bound e.level e.terms) ids)
    (hmeans : ∀ c ∈ ids, ∀ t, f.Holds a t c → t.Means g c)
    (hbare : f.HoldsAll a e.terms ids → e.Reading g ids e.height e.level) :
    e.Reading g ids (e.height + 1) bound := by
  unfold Term.enclosed at hids
  split at hids
  next hlevel =>
    obtain ⟨id, rfl, hgroup⟩ := Forest.HoldsAll.singleton_iff.mp hids
    obtain ⟨q, hshape, hq⟩ := hmeans id (List.mem_singleton_self _) _ hgroup e rfl
    have hkind : g.kind id = .group := hgroup.1.kind_of_le hle
    exact .operand ⟨id, [], []⟩ (fun _ => rfl) (Forest.readsOperand_group hkind hshape)
      (.group hshape hq (Nat.lt_succ_self _))
  next hlevel => exact (hbare hids).mono (Nat.le_succ _) (Nat.le_of_not_lt hlevel)

/-- The row of a tree is read as the tree. -/
theorem Expr.reading (hle : f.Le g) : (e : Expr) → {ids : List NodeId} → f.HoldsAll a e.terms ids →
    (∀ c ∈ ids, ∀ t, f.Holds a t c → t.Means g c) → e.Reading g ids e.height e.level
  | .atom v, ids, hids, hmeans => by
    obtain ⟨id, rfl, hatom⟩ := Forest.HoldsAll.singleton_iff.mp hids
    have hkind : g.kind id = .literal v.value := hatom.1.kind_of_le hle
    have hshape : g.shape id = .leaf := hmeans id (List.mem_singleton_self _) _ hatom
    have hlt : id < g.size := Nat.lt_of_lt_of_le hatom.1.lt_size hle.size_le
    have hreads : g.ReadsOperand [id] ⟨id, [], []⟩ :=
      Forest.readsOperand_value (by rw [hkind]; rfl) (by rw [hkind]; rfl)
    exact .operand ⟨id, [], []⟩ (fun _ => rfl) hreads (.atom hlt hkind hshape)
  | .array items, ids, hids, hmeans => by
    obtain ⟨id, rfl, hbrackets⟩ := Forest.HoldsAll.singleton_iff.mp hids
    have hkind : g.kind id = .brackets := hbrackets.1.kind_of_le hle
    obtain ⟨qs, hshape, hqs⟩ := hmeans id (List.mem_singleton_self _) _ hbrackets items rfl
    have hreads : g.ReadsOperand [id] ⟨id, [], []⟩ :=
      Forest.readsOperand_value (by rw [hkind]; rfl) (by rw [hkind]; rfl)
    exact .operand ⟨id, [], []⟩ (fun _ => rfl) hreads (.array hshape hqs (Nat.lt_succ_self _))
  | .index target position, ids, hids, hmeans => by
    obtain ⟨first, _, rfl, htarget, hlast⟩ := Forest.HoldsAll.append_iff.mp hids
    obtain ⟨id, rfl, hbrackets⟩ := Forest.HoldsAll.singleton_iff.mp hlast
    have hkind : g.kind id = .brackets := hbrackets.1.kind_of_le hle
    have hin : id ∈ first ++ [id] := List.mem_append_right _ (List.mem_singleton_self _)
    obtain ⟨q, hshape, hq⟩ : ∃ q, g.shape id = .array [q] ∧ q.Denotes g position := by
      obtain ⟨qs, hshape, hqs⟩ := hmeans id hin _ hbrackets [position] rfl
      match qs, hqs with
      | [q], hqs => exact ⟨q, hshape, hqs.1⟩
    have hfirst : ∀ c ∈ first, ∀ t, f.Holds a t c → t.Means g c :=
      fun c hc => hmeans c (List.mem_append_left _ hc)
    have htight :=
      Expr.reading_enclosed hle htarget hfirst fun h => Expr.reading hle target h hfirst
    -- The target binds more tightly than prefix operators, so none of its own stand in front of it.
    obtain ⟨o, hbare, hreads, hdenotes⟩ := htight.exists_operand (Nat.le_succ _)
    have hprefixes := hbare (Nat.lt_succ_self _)
    have hheight : (Expr.index target position).height = max target.height position.height + 1 :=
      rfl
    refine .operand { o with subscripts := o.subscripts ++ [id] } (fun _ => hprefixes)
      (hreads.index hkind hshape) (.index hprefixes (hdenotes.deeper ?_) hshape hq ?_)
    · omega
    · omega
  | .unary op operand, ids, hids, hmeans => by
    obtain ⟨id, more, rfl, hop, hoperand⟩ := Forest.HoldsAll.cons_iff.mp hids
    have hkind : g.kind id = .operator op := hop.1.kind_of_le hle
    have hmore : ∀ c ∈ more, ∀ t, f.Holds a t c → t.Means g c :=
      fun c hc => hmeans c (List.mem_cons_of_mem _ hc)
    have htight :=
      Expr.reading_enclosed hle hoperand hmore fun h => Expr.reading hle operand h hmore
    obtain ⟨o, _, hreads, hdenotes⟩ := htight.exists_operand (Nat.le_refl _)
    exact .operand { o with prefixes := op :: o.prefixes } (fun h => absurd h (Nat.lt_irrefl _))
      (hreads.unary hkind op.property) (hdenotes.unary op)
  | .binary op lhs rhs, ids, hids, hmeans => by
    obtain ⟨first, _, rfl, hlhs, hrest⟩ := Forest.HoldsAll.append_iff.mp hids
    obtain ⟨id, more, rfl, hop, hrhs⟩ := Forest.HoldsAll.cons_iff.mp hrest
    have hkind : g.kind id = .operator op := hop.1.kind_of_le hle
    have hprecedence := Operator.precedence_lt_of_isBinary op.property
    have hfirst : ∀ c ∈ first, ∀ t, f.Holds a t c → t.Means g c :=
      fun c hc => hmeans c (List.mem_append_left _ hc)
    have hmore : ∀ c ∈ more, ∀ t, f.Holds a t c → t.Means g c :=
      fun c hc => hmeans c (List.mem_append_right _ (List.mem_cons_of_mem _ hc))
    -- The bound on the right is one higher: operators of equal precedence group to the left.
    obtain ⟨left, hleft, hgl, hrl, hdl⟩ :=
      (Expr.reading_enclosed hle hlhs hfirst fun h => Expr.reading hle lhs h hfirst).exists_spine
        (Nat.le_of_lt hprecedence)
    obtain ⟨right, hright, hgr, hrr, hdr⟩ :=
      (Expr.reading_enclosed hle hrhs hmore fun h => Expr.reading hle rhs h hmore).exists_spine
        hprecedence
    have hheight : (Expr.binary op lhs rhs).height = max lhs.height rhs.height + 1 := rfl
    exact .spine (.binary op (g.line id) left right) hprecedence (Nat.le_refl _)
      ⟨⟨hleft, hgl⟩, hright, hgr⟩ (hrl.binary hrr hkind op.property)
      ((hdl.deeper (by omega)).binary op (g.line id) (hdr.deeper (by omega)))

/-- The row of a tree is an expression that denotes the tree. -/
theorem Expr.sequence_denotes (hle : f.Le g) (e : Expr) {ids : List NodeId}
    (hids : f.HoldsAll a e.terms ids) (hmeans : ∀ c ∈ ids, ∀ t, f.Holds a t c → t.Means g c) :
    ∃ q, g.sequence ids = .ok q ∧ q.isEmpty = false ∧ q.Denotes g e := by
  obtain ⟨sp, _, hgrouped, hreads, hdenotes⟩ :=
    ((Expr.reading hle e hids hmeans).mono (Nat.le_refl _) (Nat.zero_le _)).exists_spine
      (Nat.zero_le _)
  exact ⟨sp.sequence, hreads.sequence, rfl, hdenotes.sequence hgrouped⟩

/-! ### Rows with commas -/

/-- The term is part of a written expression. -/
def Term.IsPart : Term → Prop
  | .atom _ | .operator _ => True
  | .comma => False
  | .group inner => ∃ e : Expr, inner = e.terms
  | .brackets inner => ∃ es : List Expr, inner = Expr.row es

theorem Term.isPart_of_mem_enclosed {e : Expr} (h : ∀ t ∈ e.terms, t.IsPart) (bound : Nat) :
    ∀ t ∈ Term.enclosed bound e.level e.terms, t.IsPart := by
  unfold Term.enclosed
  split
  · intro t ht
    rw [List.mem_singleton.mp ht]
    exact ⟨e, rfl⟩
  · exact h

theorem Expr.isPart_of_mem_terms : (e : Expr) → ∀ t ∈ e.terms, t.IsPart
  | .atom a, t, ht => by
    rw [List.mem_singleton.mp ht]
    trivial
  | .array items, t, ht => by
    rw [List.mem_singleton.mp ht]
    exact ⟨items, rfl⟩
  | .index target position, t, ht => by
    rcases List.mem_append.mp ht with ht | ht
    · exact Term.isPart_of_mem_enclosed (Expr.isPart_of_mem_terms target) _ t ht
    · rw [List.mem_singleton.mp ht]
      exact ⟨[position], rfl⟩
  | .unary op operand, t, ht => by
    rcases List.mem_cons.mp ht with rfl | ht
    · trivial
    · exact Term.isPart_of_mem_enclosed (Expr.isPart_of_mem_terms operand) _ t ht
  | .binary op lhs rhs, t, ht => by
    rcases List.mem_append.mp ht with ht | ht
    · exact Term.isPart_of_mem_enclosed (Expr.isPart_of_mem_terms lhs) _ t ht
    · rcases List.mem_cons.mp ht with rfl | ht
      · trivial
      · exact Term.isPart_of_mem_enclosed (Expr.isPart_of_mem_terms rhs) _ t ht

theorem Expr.of_mem_row (es : List Expr) : ∀ t ∈ Expr.row es, t = .comma ∨ t.IsPart := by
  induction es with
  | nil => exact fun t ht => (nomatch ht)
  | cons e es ih =>
    cases es with
    | nil => exact fun t ht => .inr (e.isPart_of_mem_terms t ht)
    | cons next es =>
      intro t ht
      rcases List.mem_append.mp ht with ht | ht
      · exact .inr (e.isPart_of_mem_terms t ht)
      · rcases List.mem_cons.mp ht with rfl | ht
        · exact .inl rfl
        · exact ih t ht

theorem Forest.HoldsAll.exists_of_mem {terms : List Term} {ids : List NodeId}
    (h : f.HoldsAll a terms ids) {c : NodeId} (hc : c ∈ ids) : ∃ t ∈ terms, f.Holds a t c := by
  induction terms generalizing ids with
  | nil =>
    rw [HoldsAll.nil_iff.mp h] at hc
    cases hc
  | cons t terms ih =>
    obtain ⟨id, more, rfl, ht, hmore⟩ := HoldsAll.cons_iff.mp h
    rcases List.mem_cons.mp hc with rfl | hc
    · exact ⟨t, List.mem_cons_self .., ht⟩
    · obtain ⟨t', hmem, ht'⟩ := ih hmore hc
      exact ⟨t', List.mem_cons_of_mem _ hmem, ht'⟩

/-- A part of an expression separates nothing. -/
theorem Forest.Holds.kind_ne_comma {t : Term} {id : NodeId} (h : f.Holds a t id) (ht : t.IsPart) :
    f.kind id ≠ .comma := by
  cases t with
  | comma => exact ht.elim
  | atom v | operator op | group inner | brackets inner =>
    rw [h.1.kind_eq]
    exact NodeKind.noConfusion

theorem Forest.Holds.isColon_eq {t : Term} {id : NodeId} (h : f.Holds a t id) :
    (f.kind id).isColon = false := by
  cases t with
  | atom v | operator op | comma | group inner | brackets inner =>
    rw [h.1.kind_eq]
    rfl

/-- The runs between the commas of a row are the rows of its trees, and denote them. -/
theorem Expr.commaRuns_row (hle : f.Le g) (e : Expr) (es : List Expr) {ids : List NodeId}
    (hids : f.HoldsAll a (Expr.row (e :: es)) ids)
    (hmeans : ∀ c ∈ ids, ∀ t, f.Holds a t c → t.Means g c) :
    ∃ rows qs, g.CommaRuns ids rows ∧
      List.Forall₂ (fun row q => g.sequence row = .ok q ∧ q.isEmpty = false) rows qs ∧
      Sequence.DenoteAll g qs (e :: es) := by
  have hbare : ∀ {e : Expr} {ids : List NodeId}, f.HoldsAll a e.terms ids →
      ∀ c ∈ ids, g.kind c ≠ .comma := by
    intro e ids h c hc
    obtain ⟨t, ht, hold⟩ := h.exists_of_mem hc
    rw [hle.kind_eq c hold.lt_size]
    exact hold.kind_ne_comma (e.isPart_of_mem_terms t ht)
  induction es generalizing e ids with
  | nil =>
    obtain ⟨q, hq, hne, hdenotes⟩ := Expr.sequence_denotes hle e hids hmeans
    exact ⟨[ids], [q], .last (hbare hids), .cons ⟨hq, hne⟩ .nil, hdenotes, trivial⟩
  | cons next es ih =>
    obtain ⟨first, _, rfl, hfirst, hrest⟩ := Forest.HoldsAll.append_iff.mp hids
    obtain ⟨comma, more, rfl, hcomma, hmore⟩ := Forest.HoldsAll.cons_iff.mp hrest
    obtain ⟨q, hq, hne, hdenotes⟩ := Expr.sequence_denotes hle e hfirst
      fun c hc => hmeans c (List.mem_append_left _ hc)
    obtain ⟨rows, qs, hrows, hqs, hall⟩ := ih next hmore
      fun c hc => hmeans c (List.mem_append_right _ (List.mem_cons_of_mem _ hc))
    exact ⟨first :: rows, q :: qs, .cons (hbare hfirst) (hcomma.1.kind_of_le hle) hrows,
      .cons ⟨hq, hne⟩ hqs, hdenotes, hall⟩

/-- What stands between commas in a row denotes the trees of the row. -/
theorem Expr.groups_row (hle : f.Le g) (line : Nat) (es : List Expr) {ids : List NodeId}
    (hids : f.HoldsAll a (Expr.row es) ids)
    (hmeans : ∀ c ∈ ids, ∀ t, f.Holds a t c → t.Means g c) :
    ∃ qs, g.groups ids line = .ok qs ∧ Sequence.DenoteAll g qs es := by
  cases es with
  | nil =>
    rw [Forest.HoldsAll.nil_iff.mp hids]
    exact ⟨[], rfl, trivial⟩
  | cons e es =>
    obtain ⟨rows, qs, hrows, hqs, hall⟩ := Expr.commaRuns_row hle e es hids hmeans
    exact ⟨qs, hrows.groups_eq_ok hqs line, hall⟩

/-! ### Loading the nodes of an expression -/

/-- A node that holds a term gets a shape by which it means the term. -/
theorem Term.shapeOf_means (hle : f.Le g) {t : Term} {id : NodeId} (hold : f.Holds a t id)
    (ht : t = .comma ∨ t.IsPart)
    (hchildren : ∀ c ∈ f.children id, ∀ t, f.Holds a t c → t.Means g c) :
    ∃ shape, g.shapeOf id = .ok shape ∧ shape.muted id = [] ∧
      ∀ g', g.Le g' → g'.shape id = shape → t.Means g' id := by
  have hrow := hle.children_eq id hold.lt_size
  cases t with
  | atom v =>
    refine ⟨.leaf, ?_, rfl, fun g' _ hs => hs⟩
    simp only [Forest.shapeOf, hold.1.kind_of_le hle]
  | operator op =>
    refine ⟨.leaf, ?_, rfl, fun _ _ _ => trivial⟩
    simp only [Forest.shapeOf, hold.1.kind_of_le hle]
  | comma =>
    refine ⟨.leaf, ?_, rfl, fun _ _ _ => trivial⟩
    simp only [Forest.shapeOf, hold.1.kind_of_le hle]
  | brackets inner =>
    have hgroups : ∀ es : List Expr, inner = Expr.row es →
        ∃ qs, g.groups (f.children id) (g.line id) = .ok qs ∧ Sequence.DenoteAll g qs es := by
      rintro es rfl
      exact Expr.groups_row hle _ es hold.2 hchildren
    obtain ⟨es, hes⟩ := ht.resolve_left Term.noConfusion
    obtain ⟨qs, hqs, _⟩ := hgroups es hes
    refine ⟨.array qs, ?_, rfl, fun g' hle' hs es' hes' => ?_⟩
    · simp only [Forest.shapeOf, hold.1.kind_of_le hle, hrow, hqs]
      rfl
    · obtain ⟨qs', hqs', hall⟩ := hgroups es' hes'
      cases hqs.symm.trans hqs'
      exact ⟨qs, hs, hall.mono hle'⟩
  | group inner =>
    have hgroup : ∀ e : Expr, inner = e.terms →
        ∃ q, g.groups (f.children id) (g.line id) = .ok [q] ∧ q.Denotes g e := by
      rintro e rfl
      obtain ⟨qs, hqs, hall⟩ := Expr.groups_row hle (g.line id) [e] hold.2 hchildren
      match qs, hall with
      | [q], hall => exact ⟨q, hqs, hall.1⟩
    have hcolon : ((f.children id).any fun c => (g.kind c).isColon) = false := by
      refine List.any_eq_false.mpr fun c hc => ?_
      obtain ⟨t, _, hc⟩ := hold.2.exists_of_mem hc
      rw [hle.kind_eq c hc.lt_size, hc.isColon_eq]
      exact Bool.false_ne_true
    obtain ⟨e, he⟩ := ht.resolve_left Term.noConfusion
    obtain ⟨q, hq, _⟩ := hgroup e he
    refine ⟨.groups [q], ?_, rfl, fun g' hle' hs e' he' => ?_⟩
    · simp only [Forest.shapeOf, hold.1.kind_of_le hle, hrow, Forest.groupShape, hcolon, hq]
      rfl
    · obtain ⟨q', hq', hdenotes⟩ := hgroup e' he'
      cases hq.symm.trans hq'
      exact ⟨q, hs, hdenotes.mono hle'⟩

end Reading

end TagLang
