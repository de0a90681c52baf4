import TagLang.Proofs.Planting
import TagLang.Proofs.Spelling

/-!
# Growing the tree of a script

The words of a script hang its trees under the cursor, whatever is open around it
(`Script.Passage.Grows`).  Inside a statement the cursor ends where it was: a call leaves its own
node with its argument list, and an `input` or a conversion is left with the parentheses around it.
A statement starts and ends with the cursor at the innermost block.

`Forest.parse_text`: a script in writing is read as its tree, which stands behind all that was in
the forest before.
-/

namespace TagLang

open Script

/-! ### Trees in a forest -/

namespace Forest

mutual

/-- The tree stands at the node.  No node of it is older than `a`. -/
def Bears (f : Forest) (a : NodeId) : Tree → NodeId → Prop
  | .node kind children, id => f.Stands a id kind ∧ f.BearsAll a children (f.children id)

/-- The trees stand at the nodes, one at each. -/
def BearsAll (f : Forest) (a : NodeId) : List Tree → List NodeId → Prop
  | [], [] => True
  | t :: trees, id :: ids => f.Bears a t id ∧ f.BearsAll a trees ids
  | _, _ => False

end

section Bears

variable {f g : Forest} {a b : NodeId}

theorem Bears.stands {t : Tree} {id : NodeId} (h : f.Bears a t id) : f.Stands a id t.kind := by
  cases t with
  | node kind children => exact h.1

theorem BearsAll.nil_iff {ids : List NodeId} : f.BearsAll a [] ids ↔ ids = [] := by
  cases ids <;> simp [BearsAll]

theorem BearsAll.cons_iff {t : Tree} {trees : List Tree} {ids : List NodeId} :
    f.BearsAll a (t :: trees) ids ↔
      ∃ id more, ids = id :: more ∧ f.Bears a t id ∧ f.BearsAll a trees more := by
  cases ids with
  | nil => simp [BearsAll]
  | cons id more =>
    constructor
    · exact fun h => ⟨id, more, rfl, h⟩
    · rintro ⟨_, _, ⟨⟩, h⟩
      exact h

theorem BearsAll.singleton {t : Tree} {id : NodeId} (h : f.Bears a t id) : f.BearsAll a [t] [id] :=
  ⟨h, trivial⟩

theorem BearsAll.append_iff {ts us : List Tree} {ids : List NodeId} :
    f.BearsAll a (ts ++ us) ids ↔
      ∃ first second, ids = first ++ second ∧ f.BearsAll a ts first ∧ f.BearsAll a us second := by
  induction ts generalizing ids with
  | nil =>
    constructor
    · exact fun h => ⟨[], ids, rfl, trivial, h⟩
    · rintro ⟨first, second, rfl, hnil, h⟩
      rw [BearsAll.nil_iff.mp hnil]
      exact h
  | cons t ts ih =>
    simp only [List.cons_append, BearsAll.cons_iff, ih]
    constructor
    · rintro ⟨id, _, rfl, ht, first, second, rfl, hts, hus⟩
      exact ⟨id :: first, second, rfl, ⟨id, first, rfl, ht, hts⟩, hus⟩
    · rintro ⟨_, second, rfl, ⟨id, first, rfl, ht, hts⟩, hus⟩
      exact ⟨id, first ++ second, rfl, ht, first, second, rfl, hts, hus⟩

mutual

/-- What stands at a node does not change when older nodes do. -/
theorem Bears.mono (hb : b ≤ a) (hsize : f.size ≤ g.size)
    (hnode : ∀ id, a ≤ id → id < f.size → g.node id = f.node id) :
    (t : Tree) → {id : NodeId} → f.Bears a t id → g.Bears b t id
  | .node _ children, _, h => by
    obtain ⟨hs, hc⟩ := h.1.mono hb hsize hnode
    exact ⟨hs, hc ▸ BearsAll.mono hb hsize hnode children h.2⟩

theorem BearsAll.mono (hb : b ≤ a) (hsize : f.size ≤ g.size)
    (hnode : ∀ id, a ≤ id → id < f.size → g.node id = f.node id) :
    (trees : List Tree) → {ids : List NodeId} → f.BearsAll a trees ids → g.BearsAll b trees ids
  | [], [], _ => trivial
  | t :: trees, _ :: _, h =>
    ⟨Bears.mono hb hsize hnode t h.1, BearsAll.mono hb hsize hnode trees h.2⟩

end

/-- What was made behind the node is not touched when more grows under it. -/
theorem Extends.bearsAll {c : NodeId} {ids : List NodeId} (h : f.Extends g c ids) (hc : c < a)
    {trees : List Tree} {made : List NodeId} (hm : f.BearsAll a trees made) :
    g.BearsAll a trees made :=
  BearsAll.mono (Nat.le_refl _) h.size_le
    (fun id hid hlt => h.node_eq id hlt (Nat.ne_of_gt (Nat.lt_of_lt_of_le hc hid))) trees hm

/-- What grows in two steps grows. -/
theorem Extends.bearsAll_append {k : Forest} {c : NodeId} {ids more : List NodeId}
    {ts us : List Tree} (hc : c < f.size) (h₁ : f.Extends g c ids) (hts : g.BearsAll f.size ts ids)
    (h₂ : g.Extends k c more) (hus : k.BearsAll g.size us more) :
    k.BearsAll f.size (ts ++ us) (ids ++ more) := by
  have hfirst := h₂.bearsAll hc hts
  have hsecond := BearsAll.mono h₁.size_le (Nat.le_refl _) (fun _ _ _ => rfl) us hus
  exact BearsAll.append_iff.mpr ⟨ids, more, rfl, hfirst, hsecond⟩

/-- What grows under a new node makes a tree under its parent. -/
theorem Extends.bears_nest {c : NodeId} (hc : c < f.size) {kind : NodeKind} {line : Nat}
    {ids : List NodeId} (h : (f.attach c kind line).Extends g f.size ids) {trees : List Tree}
    (hm : g.BearsAll (f.attach c kind line).size trees ids) :
    f.Extends g c [f.size] ∧ g.Bears f.size (.node kind trees) f.size ∧ g.parent f.size = c := by
  obtain ⟨hstands, hleaf⟩ := stands_attach hc kind line
  refine ⟨h.nest hc, ⟨⟨Nat.le_refl _, ?_, h.kind_eq.trans hstands.kind_eq⟩, ?_⟩, ?_⟩
  · exact Nat.lt_of_lt_of_le hstands.lt_size h.size_le
  · rw [h.children_eq, hleaf, List.nil_append]
    exact BearsAll.mono (attach hc kind line).size_le (Nat.le_refl _) (fun _ _ _ => rfl) trees hm
  · rw [h.parent_eq, parent_attach hc, if_pos rfl]

/-- A new node without anything below it. -/
theorem bears_attach {c : NodeId} (hc : c < f.size) (kind : NodeKind) (line : Nat) :
    (f.attach c kind line).Bears f.size (.node kind []) f.size := by
  obtain ⟨hstands, hleaf⟩ := stands_attach hc kind line
  exact ⟨hstands, BearsAll.nil_iff.mpr hleaf⟩

end Bears

end Forest

/-! ### Tokens that spell words -/

/-- The kind and the characters of a token. -/
def Token.spelling (t : Token) : TokenKind × String :=
  (t.kind, t.lexeme)

namespace Script

/-- The tokens are the words. -/
def Spells (tokens : List Token) (words : List Word) : Prop :=
  tokens.map Token.spelling = words.map Word.spelling

namespace Spells

variable {tokens : List Token} {words more : List Word} {w : Word}

theorem nil (h : Spells tokens []) : tokens = [] :=
  List.map_eq_nil_iff.mp h

theorem cons (h : Spells tokens (w :: words)) :
    ∃ t rest, tokens = t :: rest ∧ t.kind = w.kind ∧ t.lexeme = w.text ∧ Spells rest words := by
  obtain ⟨t, rest, rfl, ht, hrest⟩ := List.map_eq_cons_iff.mp h
  exact ⟨t, rest, rfl, congrArg Prod.fst ht, congrArg Prod.snd ht, hrest⟩

theorem append (h : Spells tokens (words ++ more)) :
    ∃ first second, tokens = first ++ second ∧ Spells first words ∧ Spells second more := by
  rw [Spells, List.map_append] at h
  exact List.map_eq_append_iff.mp h

theorem singleton (h : Spells tokens [w]) :
    ∃ t, tokens = [t] ∧ t.kind = w.kind ∧ t.lexeme = w.text := by
  obtain ⟨t, rest, rfl, hk, hl, hrest⟩ := h.cons
  exact ⟨t, by rw [hrest.nil], hk, hl⟩

end Spells

end Script

/-! ### Reading one token after the other -/

namespace Builder

open Forest

/-- The tokens lead from one builder to another. -/
def Reaches (b : Builder) (tokens : List Token) (b' : Builder) : Prop :=
  ∀ rest, b.consumeAll (tokens ++ rest) = b'.consumeAll rest

theorem Reaches.trans {b b' b'' : Builder} {tokens more : List Token} (h : b.Reaches tokens b')
    (h' : b'.Reaches more b'') : b.Reaches (tokens ++ more) b'' := by
  intro rest
  rw [List.append_assoc, h, h']

theorem Reaches.step {b b' : Builder} {t : Token} (h : b.refusal? t = none)
    (h' : b.consume t = b') :
    b.Reaches [t] b' := by
  intro rest
  rw [List.singleton_append, consumeAll, h, h']

/-- The nodes that the builder knows are in the forest. -/
structure Rooted (b : Builder) : Prop where
  cursor_lt : b.cursor < b.forest.size
  boundary_lt : b.boundary < b.forest.size
  root_lt : b.root < b.forest.size

/-- The cursor is inside a statement, and not right below `call`. -/
structure Inside (b : Builder) : Prop extends Rooted b where
  apart : b.cursor ≠ b.boundary
  not_call : (b.forest.kind b.cursor).isKeyword .call = false

/-- A statement may start here. -/
structure AtStart (b : Builder) : Prop extends Rooted b where
  cursor_eq : b.cursor = b.boundary
  kind_eq : b.forest.kind b.cursor = .block

theorem Rooted.extends {b : Builder} (h : b.Rooted) {f : Forest} (hsize : b.forest.size ≤ f.size) :
    Rooted { b with forest := f } where
  cursor_lt := Nat.lt_of_lt_of_le h.cursor_lt hsize
  boundary_lt := Nat.lt_of_lt_of_le h.boundary_lt hsize
  root_lt := Nat.lt_of_lt_of_le h.root_lt hsize

theorem Rooted.descend {b : Builder} (h : b.Rooted) (kind : NodeKind) (line : Nat) :
    (b.descend kind line).Rooted := by
  have hsize : (b.descend kind line).forest.size = b.forest.size + 1 := size_attach ..
  refine ⟨?_, ?_, ?_⟩
  · rw [hsize]
    exact Nat.lt_succ_self _
  · rw [hsize]
    exact Nat.lt_succ_of_lt h.boundary_lt
  · rw [hsize]
    exact Nat.lt_succ_of_lt h.root_lt

theorem Rooted.kind_descend {b : Builder} (h : b.Rooted) (kind : NodeKind) (line : Nat) :
    (b.descend kind line).forest.kind b.forest.size = kind :=
  (stands_attach h.cursor_lt kind line).1.kind_eq

/-- A new node is inside a statement. -/
theorem Rooted.inside {b : Builder} (h : b.Rooted) {kind : NodeKind}
    (hk : kind.isKeyword .call = false) (line : Nat) : (b.descend kind line).Inside where
  toRooted := h.descend kind line
  apart := Nat.ne_of_gt h.boundary_lt
  not_call := by
    show ((b.descend kind line).forest.kind b.forest.size).isKeyword .call = false
    rw [h.kind_descend, hk]

theorem Inside.extends {b : Builder} (h : b.Inside) {f : Forest} {ids : List NodeId}
    (hext : b.forest.Extends f b.cursor ids) : Inside { b with forest := f } where
  toRooted := h.toRooted.extends hext.size_le
  apart := h.apart
  not_call := by
    show (f.kind b.cursor).isKeyword .call = false
    rw [hext.kind_eq, h.not_call]

theorem AtStart.extends {b : Builder} (h : b.AtStart) {f : Forest} {ids : List NodeId}
    (hext : b.forest.Extends f b.cursor ids) : AtStart { b with forest := f } where
  toRooted := h.toRooted.extends hext.size_le
  cursor_eq := h.cursor_eq
  kind_eq := hext.kind_eq.trans h.kind_eq

end Builder

/-! ### Words that move the cursor -/

namespace Builder

open Forest

theorem descend_keyword {t : Token} {k : Keyword} (ht : t.kind = .keyword k) (b : Builder) :
    b.Reaches [t] (b.descend (.keyword k) t.position.line) := by
  refine .step ?_ ?_
  · simp [refusal?, ht]
  · simp [consume, ht]

theorem descend_group {t : Token} (ht : t.kind = .mark .openGroup) (b : Builder) :
    b.Reaches [t] (b.descend .group t.position.line) := by
  refine .step ?_ ?_
  · simp [refusal?, ht]
  · simp [consume, ht, mark]

theorem leave_group {t : Token} (ht : t.kind = .mark .closeGroup) {b b' : Builder}
    (h : b.closeGroup = b') : b.Reaches [t] b' := by
  refine .step ?_ ?_
  · simp [refusal?, ht]
  · simp [consume, ht, mark, h]

/-- A separator leaves a statement. -/
theorem leave_statement {t : Token} (ht : t.kind = .mark .separator) {b : Builder}
    (hk : (b.forest.kind b.cursor).isGroup = false) :
    b.Reaches [t] { b with cursor := b.boundary } := by
  refine .step ?_ ?_
  · simp [refusal?, ht]
  · simp [consume, ht, mark, separate, hk]

/-- A `)` leaves the argument list that the cursor is at, and the call with it. -/
theorem closeGroup_of_call {b : Builder} {call c : NodeId} (hk : b.forest.kind b.cursor = .group)
    (hp : b.forest.parent b.cursor = call) (hcall : b.forest.kind call = .keyword .call)
    (hc : b.forest.parent call = c) : b.closeGroup = { b with cursor := c } := by
  simp [closeGroup, nearest?, nearest?.go, hk, NodeKind.isInline, NodeKind.isGroup, hp, hcall, hc,
    NodeKind.isKeyword]

/-- A `)` leaves the keyword that the cursor is at, and the group around it. -/
theorem closeGroup_of_inline {b : Builder} {group c : NodeId}
    (hk : (b.forest.kind b.cursor).isInline = true) (hroot : b.cursor ≠ b.root)
    (hp : b.forest.parent b.cursor = group) (hlt : group < b.cursor)
    (hg : b.forest.kind group = .group) (hc : b.forest.parent group = c)
    (hcall : (b.forest.kind c).isKeyword .call = false) :
    b.closeGroup = { b with cursor := c } := by
  obtain ⟨n, hn⟩ := Nat.exists_eq_add_one_of_ne_zero (Nat.ne_of_gt (Nat.zero_lt_of_lt hlt))
  have hnearest : b.forest.nearest?
      (fun id => !(b.forest.kind id).isInline || id == b.root) b.cursor = some group := by
    rw [nearest?, nearest?.go, if_neg (by simp [hk, hroot]), hp, if_neg (Nat.ne_of_lt hlt), hn,
      nearest?.go, if_pos (by simp [hg, NodeKind.isInline])]
  simp [closeGroup, hnearest, hg, NodeKind.isGroup, hc, hcall]

end Builder

/-! ### Passages under the cursor -/

namespace Script.Passage

open Forest Builder

/-- Wherever the cursor is as it should be, the words hang the trees under it and leave it there. -/
def Grows (At : Builder → Prop) (p : Passage) : Prop :=
  ∀ (b : Builder) (tokens : List Token), At b → Spells tokens p.words →
    ∃ f ids, b.Reaches tokens { b with forest := f } ∧ b.forest.Extends f b.cursor ids ∧
      f.BearsAll b.forest.size p.trees ids

namespace Grows

variable {At : Builder → Prop} {p q : Passage}

theorem empty (At : Builder → Prop) : Grows At .empty := by
  intro b tokens _ hs
  rw [hs.nil]
  exact ⟨b.forest, [], fun _ => rfl, .refl .., trivial⟩

theorem weaken {At' : Builder → Prop} (h : Grows At p) (hat : ∀ b, At' b → At b) : Grows At' p :=
  fun b tokens hb hs => h b tokens (hat b hb) hs

theorem append (hcursor : ∀ b, At b → b.cursor < b.forest.size)
    (hlast : ∀ b f ids, At b → b.forest.Extends f b.cursor ids → At { b with forest := f })
    (hp : Grows At p) (hq : Grows At q) : Grows At (p ++ q) := by
  intro b tokens hb hs
  obtain ⟨first, second, rfl, h₁, h₂⟩ := Spells.append hs
  obtain ⟨f, ids, hreach, hext, hbears⟩ := hp b first hb h₁
  obtain ⟨g, ids', hreach', hext', hbears'⟩ :=
    hq { b with forest := f } second (hlast b f ids hb hext) h₂
  exact ⟨g, ids ++ ids', hreach.trans hreach', hext.trans hext',
    Extends.bearsAll_append (hcursor b hb) hext hbears hext' hbears'⟩

theorem append_inside (hp : Grows Inside p) (hq : Grows Inside q) : Grows Inside (p ++ q) :=
  append (fun _ h => h.cursor_lt) (fun _ _ _ h hext => h.extends hext) hp hq

theorem append_atStart (hp : Grows AtStart p) (hq : Grows AtStart q) : Grows AtStart (p ++ q) :=
  append (fun _ h => h.cursor_lt) (fun _ _ _ h hext => h.extends hext) hp hq

/-- A word that is a node by itself. -/
theorem bare {w : Word} {kind : NodeKind}
    (h : ∀ (b : Builder) (t : Token), b.Inside → t.kind = w.kind → t.lexeme = w.text →
      b.refusal? t = none ∧ b.consume t = b.attach kind t.position.line) :
    Grows Inside (.bare w kind) := by
  intro b tokens hb hs
  obtain ⟨t, rfl, hk, hl⟩ := Spells.singleton hs
  obtain ⟨hfree, hread⟩ := h b t hb hk hl
  exact ⟨_, _, .step hfree hread, .attach hb.cursor_lt kind t.position.line,
    bears_attach hb.cursor_lt kind t.position.line, trivial⟩

theorem literal (l : Literal) : Grows Inside (.literal l) := by
  refine bare fun b t _ hk _ => ?_
  cases l <;> simp [refusal?, consume, hk, Word.kind, Literal.value]

theorem reference (n : Name) : Grows Inside (.reference n) := by
  refine bare fun b t hb hk hl => ?_
  simp [refusal?, consume, hk, Word.kind, name, hb.apart, hl, Word.text]

theorem operator (op : Operator) : Grows Inside (.operator op) := by
  refine bare fun b t _ hk _ => ?_
  simp [refusal?, consume, hk, Word.kind]

theorem comma : Grows Inside .comma := by
  refine bare fun b t _ hk _ => ?_
  simp [refusal?, consume, hk, Word.kind, mark]

theorem colon : Grows Inside .colon := by
  refine bare fun b t _ hk _ => ?_
  simp [refusal?, consume, hk, Word.kind, mark]

theorem row {ps : List Passage} (h : ∀ p ∈ ps, Grows Inside p) : Grows Inside (.row ps) := by
  induction ps with
  | nil => exact empty _
  | cons p ps ih =>
    have hp := h p (List.mem_cons_self ..)
    cases ps with
    | nil => exact hp
    | cons q ps =>
      exact hp.append_inside (comma.append_inside (ih fun r hr => h r (List.mem_cons_of_mem _ hr)))

/-- Marks that make a node around what stands between them. -/
theorem enclosed {first last : Mark} {kind : NodeKind} (hkind : kind.isKeyword .call = false)
    (hopen : ∀ (b : Builder) (t : Token), t.kind = .mark first →
      b.refusal? t = none ∧ b.consume t = b.descend kind t.position.line)
    (hclose : ∀ (b : Builder) (t : Token), t.kind = .mark last → b.forest.kind b.cursor = kind →
      (b.forest.kind (b.forest.parent b.cursor)).isKeyword .call = false →
      b.refusal? t = none ∧ b.consume t = { b with cursor := b.forest.parent b.cursor })
    (h : Grows Inside p) : Grows Inside (.enclosed first last kind p) := by
  intro b tokens hb hs
  obtain ⟨opening, _, rfl, ho, _, hs⟩ := Spells.cons hs
  obtain ⟨between, _, rfl, hbetween, hs⟩ := hs.append
  obtain ⟨closing, rfl, hc, _⟩ := hs.singleton
  -- Down to the new node, through what stands inside, and up again to where the cursor was.
  have hdown : b.Reaches [opening] (b.descend kind opening.position.line) :=
    .step (hopen b opening ho).1 (hopen b opening ho).2
  obtain ⟨f, ids, hreach, hext, hbears⟩ := h _ between (hb.inside hkind _) hbetween
  obtain ⟨hup, htree, hparent⟩ := Extends.bears_nest hb.cursor_lt hext hbears
  have hparentKind : (f.kind (f.parent b.forest.size)).isKeyword .call = false := by
    rw [hparent, hup.kind_eq]
    exact hb.not_call
  obtain ⟨hfree, hback⟩ :=
    hclose { b.descend kind opening.position.line with forest := f } closing hc
    htree.1.kind_eq hparentKind
  have hclosing : Reaches { b.descend kind opening.position.line with forest := f } [closing]
      { b with forest := f } := by
    refine .step hfree (hback.trans ?_)
    show ({ b with forest := f, cursor := f.parent b.forest.size } : Builder) = _
    rw [hparent]
  exact ⟨f, [b.forest.size], hdown.trans (hreach.trans hclosing), hup, htree, trivial⟩

theorem group (h : Grows Inside p) : Grows Inside (.group p) := by
  refine enclosed rfl (fun b t ht => ?_) (fun b t ht hk hp => ?_) h
  · simp [refusal?, consume, ht, mark]
  · simp [refusal?, consume, ht, mark, closeGroup_eq hk hp]

theorem brackets (h : Grows Inside p) : Grows Inside (.brackets p) := by
  refine enclosed rfl (fun b t ht => ?_) (fun b t ht hk _ => ?_) h
  · simp [refusal?, consume, ht, mark]
  · simp [refusal?, consume, ht, mark, closable?_eq hk, closeIndex_eq hk]

theorem subscripted {ss : List Passage} (hp : Grows Inside p) (h : ∀ s ∈ ss, Grows Inside s) :
    Grows Inside (p.subscripted ss) := by
  induction ss generalizing p with
  | nil => exact hp
  | cons s ss ih =>
    exact ih (hp.append_inside (h s (List.mem_cons_self ..)).brackets) fun t ht =>
      h t (List.mem_cons_of_mem _ ht)

/-- A keyword in parentheses is left with them. -/
theorem inline {k : Keyword} (hk : (NodeKind.keyword k).isInline = true) (hcall : k ≠ .call)
    (h : Grows Inside p) : Grows Inside (.group (.keyword k p)) := by
  intro b tokens hb hs
  obtain ⟨opening, _, rfl, ho, _, hinner⟩ := Spells.cons hs
  obtain ⟨_, _, rfl, hkeyword, hlast⟩ := hinner.append
  obtain ⟨word, between, rfl, hw, _, hbetween⟩ := hkeyword.cons
  obtain ⟨closing, rfl, hc, _⟩ := hlast.singleton
  have hkind : (NodeKind.keyword k).isKeyword .call = false := by simp [NodeKind.isKeyword, hcall]
  -- The nodes of the group and of the keyword, one below the other.
  have hgroup := hb.toRooted.descend .group opening.position.line
  obtain ⟨f, ids, hreach, hext, hbears⟩ :=
    h _ between (hgroup.inside hkind word.position.line) hbetween
  obtain ⟨hext₁, htree₁, hparent₁⟩ := Extends.bears_nest hgroup.cursor_lt hext hbears
  obtain ⟨hext₂, htree₂, hparent₂⟩ := Extends.bears_nest hb.cursor_lt hext₁ (.singleton htree₁)
  have hclosing : Reaches { (b.descend .group opening.position.line).descend (.keyword k)
      word.position.line with forest := f } [closing] { b with forest := f } := by
    refine leave_group hc (closeGroup_of_inline ?_ ?_ hparent₁ hgroup.cursor_lt htree₂.1.kind_eq
      hparent₂ ?_)
    · rw [← hk]
      exact congrArg NodeKind.isInline htree₁.1.kind_eq
    · exact Nat.ne_of_gt hgroup.root_lt
    · show (f.kind b.cursor).isKeyword .call = false
      rw [hext₂.kind_eq, hb.not_call]
  refine ⟨f, [b.forest.size], ?_, hext₂, htree₂, trivial⟩
  exact (descend_group ho b).trans ((descend_keyword hw _).trans (hreach.trans hclosing))

/-- A call is left with its argument list, inside a statement and as one. -/
theorem call (f : Name) {ps : List Passage} (h : ∀ p ∈ ps, Grows Inside p) :
    Grows Rooted (.call f ps) := by
  intro b tokens hb hs
  obtain ⟨word, _, rfl, hw, _, hinner⟩ := Spells.cons hs
  obtain ⟨callee, _, rfl, hn, hl, hgroup⟩ := hinner.cons
  obtain ⟨opening, _, rfl, ho, _, hrow⟩ := hgroup.cons
  obtain ⟨between, _, rfl, hbetween, hlast⟩ := hrow.append
  obtain ⟨closing, rfl, hc, _⟩ := hlast.singleton
  -- The node of the call, with the name and then the arguments below it.
  have hcall := hb.descend (.keyword .call) word.position.line
  let at₁ := b.descend (.keyword .call) word.position.line
  let at₂ := at₁.attach (.reference f) callee.position.line
  have hname : at₁.Reaches [callee] at₂ := by
    have hapart : at₁.cursor ≠ at₁.boundary := Nat.ne_of_gt hb.boundary_lt
    refine .step ?_ ?_
    · simp [refusal?, hn, Word.kind]
    · simp [consume, hn, Word.kind, name, hapart, hl, Word.text, at₂]
  have hext₁ : at₁.forest.Extends at₂.forest at₁.cursor [at₁.forest.size] :=
    .attach hcall.cursor_lt ..
  have hat₂ : at₂.Rooted := hcall.extends hext₁.size_le
  obtain ⟨g, ids, hreach, hext, hbears⟩ :=
    row h _ between (hat₂.inside (show NodeKind.group.isKeyword .call = false from rfl)
      opening.position.line) hbetween
  obtain ⟨hext₂, htree₂, hparent₂⟩ := Extends.bears_nest hat₂.cursor_lt hext hbears
  have htrees := Extends.bearsAll_append hcall.cursor_lt hext₁
    (.singleton (bears_attach hcall.cursor_lt ..)) hext₂ (.singleton htree₂)
  obtain ⟨hext₃, htree₃, hparent₃⟩ := Extends.bears_nest hb.cursor_lt (hext₁.trans hext₂) htrees
  have hclosing : Reaches { at₂.descend .group opening.position.line with forest := g } [closing]
      { b with forest := g } :=
    leave_group hc (closeGroup_of_call htree₂.1.kind_eq hparent₂ htree₃.1.kind_eq hparent₃)
  refine ⟨g, [b.forest.size], ?_, hext₃, htree₃, trivial⟩
  exact (descend_keyword hw b).trans (hname.trans ((descend_group ho at₂).trans
    (hreach.trans hclosing)))

theorem composes : Composes (Grows Inside) (Grows Inside) where
  literal := literal
  name := reference
  unit := group (empty _)
  group _ h := group h
  array _ h := brackets (row h)
  call f _ h := (call f h).weaken fun _ hb => hb.toRooted
  ask := inline rfl (by decide) (empty _)
  input _ h := inline rfl (by decide) h
  convert target _ h := inline rfl nofun h
  unary op _ _ h := (operator op).append_inside h
  index _ _ h hs := h.append_inside (brackets hs)
  operand _ h := h
  binary op _ _ _ h hq := h.append_inside ((operator op).append_inside hq)

/-! ### Statements -/

/-- A statement without a body is left at its separator. -/
theorem ended {w : Word} {kind : NodeKind} (hkind : kind.isKeyword .call = false)
    (hgroup : kind.isGroup = false)
    (hhead : ∀ (b : Builder) (t : Token), b.AtStart → t.kind = w.kind → t.lexeme = w.text →
      b.Reaches [t] (b.descend kind t.position.line))
    (h : Grows Inside p) : Grows AtStart (.ended (.headed w kind p)) := by
  intro b tokens hb hs
  obtain ⟨_, _, rfl, hheaded, hlast⟩ := Spells.append hs
  obtain ⟨head, more, rfl, hk, hl, hmore⟩ := hheaded.cons
  obtain ⟨separator, rfl, hsep, _⟩ := hlast.singleton
  obtain ⟨f, ids, hreach, hext, hbears⟩ := h _ more (hb.toRooted.inside hkind _) hmore
  obtain ⟨hext', htree, _⟩ := Extends.bears_nest hb.cursor_lt hext hbears
  have hclosing : Reaches { b.descend kind head.position.line with forest := f } [separator]
      { b with forest := f, cursor := b.boundary } :=
    leave_statement hsep ((congrArg NodeKind.isGroup htree.1.kind_eq).trans hgroup)
  rw [← hb.cursor_eq] at hclosing
  exact ⟨f, [b.forest.size], (hhead b head hb hk hl).trans (hreach.trans hclosing), hext', htree,
    trivial⟩

/-- A separator behind a statement that has been left already changes nothing. -/
theorem ended_of_atStart (h : Grows AtStart p) : Grows AtStart (.ended p) := by
  intro b tokens hb hs
  obtain ⟨statement, _, rfl, hstatement, hlast⟩ := Spells.append hs
  obtain ⟨separator, rfl, hsep, _⟩ := hlast.singleton
  obtain ⟨f, ids, hreach, hext, hbears⟩ := h b statement hb hstatement
  have hblock : (f.kind b.cursor).isGroup = false := by
    rw [hext.kind_eq, hb.kind_eq]
    rfl
  have hclosing : Reaches { b with forest := f } [separator]
      { b with forest := f, cursor := b.boundary } := leave_statement hsep hblock
  rw [← hb.cursor_eq] at hclosing
  exact ⟨f, ids, hreach.trans hclosing, hext, hbears⟩

theorem keyword_ended {k : Keyword} (hk : k ≠ .call) (h : Grows Inside p) :
    Grows AtStart (.ended (.keyword k p)) :=
  ended (by simp [NodeKind.isKeyword, hk]) rfl (fun b _ _ ht _ => descend_keyword ht b) h

/-- A name where a statement may start is declared. -/
theorem declaration_ended (n : Name) (h : Grows Inside p) :
    Grows AtStart (.ended (.headed (.name n) (.declaration n) p)) := by
  refine ended rfl rfl (fun b t hb ht hl => .step ?_ ?_) h
  · simp [refusal?, ht, Word.kind]
  · simp [consume, ht, Word.kind, name, hb.cursor_eq, hl, Word.text]

/-- A block is left at its end, and with it the statement that it belongs to. -/
theorem block (h : Grows AtStart p) {b : Builder} (hb : b.Rooted) {tokens : List Token}
    (hs : Spells tokens (Passage.block p).words) :
    ∃ f, b.Reaches tokens { b with forest := f, cursor := b.boundary } ∧
      b.forest.Extends f b.cursor [b.forest.size] ∧
      f.Bears b.forest.size (.node .block p.trees) b.forest.size := by
  obtain ⟨opening, _, rfl, ho, _, hinner⟩ := Spells.cons hs
  obtain ⟨between, _, rfl, hbetween, hlast⟩ := hinner.append
  obtain ⟨closing, rfl, hc, _⟩ := hlast.singleton
  let inner := b.openBlock opening.position.line
  have hrooted := hb.descend .block opening.position.line
  have hinner : inner.AtStart :=
    ⟨⟨hrooted.cursor_lt, hrooted.cursor_lt, hrooted.root_lt⟩, rfl, hb.kind_descend ..⟩
  obtain ⟨f, ids, hreach, hext, hbears⟩ := h inner between hinner hbetween
  obtain ⟨hext', htree, _⟩ := Extends.bears_nest hb.cursor_lt hext hbears
  have hopening : b.Reaches [opening] inner := by
    refine .step ?_ ?_
    · simp [refusal?, ho, Word.kind]
    · simp [consume, ho, Word.kind, mark, inner]
  have hclosing : Reaches { inner with forest := f } [closing]
      { b with forest := f, cursor := b.boundary } := by
    refine .step ?_ ?_
    · simp [refusal?, hc, Word.kind, inner, openBlock]
    · simp only [consume, hc, Word.kind, mark]
      rfl
  exact ⟨f, hopening.trans (hreach.trans hclosing), hext', htree⟩

theorem block_atStart (h : Grows AtStart p) : Grows AtStart (.block p) := by
  intro b tokens hb hs
  obtain ⟨f, hreach, hext, htree⟩ := block h hb.toRooted hs
  rw [← hb.cursor_eq] at hreach
  exact ⟨f, [b.forest.size], hreach, hext, htree, trivial⟩

/-- A keyword, what stands before its body, and the body. -/
theorem keyword_block {k : Keyword} (hk : k ≠ .call) (hp : Grows Inside p) (hq : Grows AtStart q) :
    Grows AtStart (.keyword k (p ++ .block q)) := by
  intro b tokens hb hs
  obtain ⟨word, _, rfl, hw, _, hinner⟩ := Spells.cons hs
  obtain ⟨before, body, rfl, hbefore, hbody⟩ := Spells.append hinner
  have hkind : (NodeKind.keyword k).isKeyword .call = false := by simp [NodeKind.isKeyword, hk]
  have hinside := hb.toRooted.inside hkind word.position.line
  obtain ⟨f, ids, hreach, hext, hbears⟩ := hp _ before hinside hbefore
  have hrooted := hinside.toRooted.extends hext.size_le
  obtain ⟨g, hreach', hext', htree⟩ := block hq hrooted hbody
  obtain ⟨hext₁, htree₁, _⟩ := Extends.bears_nest hb.cursor_lt (hext.trans hext')
    (Extends.bearsAll_append hinside.cursor_lt hext hbears hext' (.singleton htree))
  have hend : Reaches { b.descend (.keyword k) word.position.line with forest := f } body
      { b with forest := g, cursor := b.boundary } := hreach'
  rw [← hb.cursor_eq] at hend
  exact ⟨g, [b.forest.size], (descend_keyword hw b).trans (hreach.trans hend), hext₁, htree₁,
    trivial⟩

theorem names (more : List (Bool × Name)) : Grows Inside (.names more) := by
  induction more with
  | nil => exact empty _
  | cons entry more ih =>
    obtain ⟨behindComma, n⟩ := entry
    cases behindComma with
    | true => exact comma.append_inside ((reference n).append_inside ih)
    | false => exact (reference n).append_inside ih

end Grows

end Script.Passage

open Passage in
theorem Script.Statement.composes_grows :
    Statement.Composes (Grows Builder.Inside) (Grows Builder.AtStart) (Grows Builder.AtStart) where
  empty := .empty _
  append _ _ hp hq := hp.append_atStart hq
  assign n _ op _ _ hss hq :=
    .declaration_ended n (((Grows.empty _).subscripted hss).append_inside
      ((Grows.operator op).append_inside hq))
  bare _ hk := .keyword_ended (by rcases hk with rfl | rfl | rfl <;> decide) (.empty _)
  value _ _ hk hq := .keyword_ended (by rcases hk with rfl | rfl | rfl <;> decide) hq
  call f _ h := .ended_of_atStart ((Grows.call f h).weaken fun _ hb => hb.toRooted)
  block _ h := .block_atStart h
  if_ _ _ _ hq h hr := (Grows.keyword_block (by decide) (.group hq) h).append_atStart hr
  loop _ _ _ hk hq h := .keyword_block (by rcases hk with rfl | rfl <;> decide) (.group hq) h
  foreach n _ _ hq h :=
    .keyword_block (by decide) (.group ((Grows.reference n).append_inside
      (Grows.colon.append_inside hq))) h
  function n params p h := by
    have hparams : ∀ p ∈ params.map .reference, Grows Builder.Inside p := by
      intro p hp
      obtain ⟨param, _, rfl⟩ := List.mem_map.mp hp
      exact .reference param
    have hkeyword : Keyword.function ≠ .call := by decide
    exact .keyword_block (p := .reference n ++ .group (.row (params.map .reference))) hkeyword
      ((Grows.reference n).append_inside (.group (.row hparams))) h
  free n more := .keyword_ended (by decide) ((Grows.reference n).append_inside (.names more))
  local_ _ h := .keyword_block (by decide) (.empty _) h
  extern_ n _ := .keyword_ended (by decide) ((Grows.reference n).append_inside (.names _))
  done := .empty _
  elif _ _ _ hq h hr := (Grows.keyword_block (by decide) (.group hq) h).append_atStart hr
  else_ _ h := .keyword_block (by decide) (.empty _) h

/-! ### Whole scripts -/

namespace Forest

/-- A script in writing is read as its tree, under a new root. -/
theorem parse_text (f : Forest) (script : List Statement) :
    ∃ g, f.parse (text script) = (g, .ok f.size) ∧ g.Bears f.size (tree script) f.size := by
  obtain ⟨htokens, hstop⟩ := gives_text script
  obtain ⟨tokens, last, hsplit, hspells, hlast⟩ := List.map_eq_append_iff.mp htokens
  obtain ⟨final, rfl, hfinal⟩ := List.map_eq_singleton_iff.mp hlast
  have hkind : final.kind = .endOfText := congrArg Prod.fst hfinal
  have hroot : (f.addRoot 1).kind f.size = .block := by
    rw [kind, node_addRoot, if_pos rfl]
  have hstart : (Builder.start f).AtStart := by
    have hlt : f.size < (f.addRoot 1).size := by simp
    exact ⟨⟨hlt, hlt, hlt⟩, rfl, hroot⟩
  obtain ⟨g, ids, hreach, hext, hbears⟩ :=
    Statement.of_composes_all Passage.Grows.composes Statement.composes_grows script _ tokens hstart
      hspells
  refine ⟨g, ?_, ⟨Nat.le_refl _, ?_, hext.kind_eq.trans hroot⟩, ?_⟩
  · have hend : (Builder.start f).consumeAll (tokens ++ [final]) =
        ({ Builder.start f with forest := g }, none) := by
      rw [hreach, Builder.consumeAll]
      simp [Builder.refusal?, Builder.consume, hkind, Builder.consumeAll]
    rw [parse, hsplit, hend, hstop]
    rfl
  · exact Nat.lt_of_lt_of_le hstart.cursor_lt hext.size_le
  · have hleaf : (f.addRoot 1).children f.size = [] := by
      rw [children, node_addRoot, if_pos rfl]
    have hrow : g.children f.size = ids := by
      rw [← List.nil_append ids, ← hleaf]
      exact hext.children_eq
    rw [hrow]
    exact BearsAll.mono (Nat.le_of_lt hstart.cursor_lt) (Nat.le_refl _) (fun _ _ _ => rfl) _ hbears

/-- The kinds of the nodes under a node, each before those below it and with its depth. -/
def outline (f : Forest) (id : NodeId) : List (Nat × NodeKind) :=
  (f.preorder id).map fun entry => (entry.1, f.kind entry.2)

section Outline

variable {f : Forest} {a : NodeId}

mutual

/-- A tree is listed down to its leaves, since no path is longer than the forest is large. -/
theorem Bears.outline_go (hf : f.WellFormed) : (t : Tree) → {id : NodeId} → f.Bears a t id →
    (n : Nat) → f.size ≤ id + n → ∀ (depth : Nat) (rest : List (Nat × NodeId)),
      (preorder.go f n depth id rest).map (fun entry => (entry.1, f.kind entry.2)) =
        t.outline depth ++ rest.map fun entry => (entry.1, f.kind entry.2)
  | .node kind children, id, h, 0, hn, _, _ => absurd h.1.lt_size (Nat.not_lt_of_le hn)
  | .node kind children, id, h, n + 1, hn, depth, rest => by
    have hchildren : ∀ c ∈ f.children id, f.size ≤ c + n := by
      intro c hc
      have hlt : id < c := hf.lt_of_mem_children hc
      lia
    rw [preorder.go, List.map_cons, BearsAll.outline_go hf children h.2 n hchildren, h.1.kind_eq]
    rfl

theorem BearsAll.outline_go (hf : f.WellFormed) : (trees : List Tree) → {ids : List NodeId} →
    f.BearsAll a trees ids → (n : Nat) → (∀ id ∈ ids, f.size ≤ id + n) →
    ∀ (depth : Nat) (rest : List (Nat × NodeId)),
      (ids.foldr (preorder.go f n depth) rest).map (fun entry => (entry.1, f.kind entry.2)) =
        Tree.outlines depth trees ++ rest.map fun entry => (entry.1, f.kind entry.2)
  | [], [], _, _, _, _, _ => rfl
  | t :: trees, id :: ids, h, n, hn, depth, rest => by
    have hid := hn id (List.mem_cons_self ..)
    have hids : ∀ c ∈ ids, f.size ≤ c + n := fun c hc => hn c (List.mem_cons_of_mem _ hc)
    rw [List.foldr_cons, Bears.outline_go hf t h.1 n hid, BearsAll.outline_go hf trees h.2 n hids,
      Tree.outlines, List.append_assoc]

end

theorem Bears.outline_eq (hf : f.WellFormed) {t : Tree} {id : NodeId} (h : f.Bears a t id) :
    f.outline id = t.outline 0 := by
  have hgo := h.outline_go hf t f.size (Nat.le_add_left ..) 0 []
  rw [List.map_nil, List.append_nil] at hgo
  exact hgo

end Outline

end Forest

end TagLang
