import TagLang.Proofs.Bracketing
import TagLang.Proofs.Enclosure
import TagLang.Proofs.Segments

/-!
# Which sources are accepted

The builder follows the braces of a source exactly: the blocks that are open are those of the braces
that are open, line by line (`Builder.Braced`).  It does not follow the square brackets that way.
It finds the ones that a `]` closes by going up from the cursor, and a `;` or a `}` moves the cursor
out of brackets that are still open.  So the brackets around the cursor are at most as many as are
open (`Builder.Squared`).

Between a `[` and its `]` the cursor stays below the brackets, whatever keywords are passed, if
groups are properly nested there and no `;`, `{` or `}` occurs: a `)` leaves at most one group, and
none that was opened before the brackets (`Builder.Within.reaches`).

* `Forest.parse_of_bracketed`: sources with properly nested brackets are accepted, and braces are
  always checked.
* `Forest.parse_ok_iff`: what is accepted, and what that says about square brackets.
-/

namespace TagLang

/-! ### Reading tokens one after the other -/

namespace Builder

open Forest

theorem Reaches.nil (b : Builder) : b.Reaches [] b :=
  fun _ => rfl

theorem Reaches.consumeAll_eq {b b' : Builder} {tokens : List Token} (h : b.Reaches tokens b') :
    b.consumeAll tokens = (b', none) := by
  have hall := h []
  rwa [List.append_nil] at hall

/-- Tokens are all taken, or there is a first one that is refused. -/
theorem reaches_or_refuses (b : Builder) (tokens : List Token) :
    (∃ b', b.Reaches tokens b') ∨
    ∃ earlier t later b₁ cause, tokens = earlier ++ t :: later ∧ b.Reaches earlier b₁ ∧
      b₁.refusal? t = some cause ∧ b.consumeAll tokens = (b₁, some ⟨t.position.line, cause⟩) := by
  induction tokens generalizing b with
  | nil => exact .inl ⟨b, .nil b⟩
  | cons t rest ih =>
    cases hr : b.refusal? t with
    | some cause =>
      exact .inr ⟨[], t, rest, b, cause, rfl, .nil b, hr, by rw [consumeAll, hr]⟩
    | none =>
      have hstep : b.Reaches [t] (b.consume t) := .step hr rfl
      rcases ih (b.consume t) with ⟨b', hb'⟩ | ⟨earlier, u, later, b₁, cause, rfl, hb₁, hu, hall⟩
      · exact .inl ⟨b', hstep.trans hb'⟩
      · refine .inr ⟨t :: earlier, u, later, b₁, cause, rfl, hstep.trans hb₁, hu, ?_⟩
        rw [consumeAll, hr]
        exact hall

/-- What leads on from the first tokens is led to by the rest. -/
theorem Reaches.split {b b' : Builder} {first second : List Token}
    (h : b.Reaches (first ++ second) b') : ∃ b₁, b.Reaches first b₁ ∧ b₁.Reaches second b' := by
  rcases b.reaches_or_refuses first with ⟨b₁, hb₁⟩ | ⟨earlier, t, later, b₁, cause, rfl, hb₁, ht, -⟩
  · refine ⟨b₁, hb₁, fun rest => ?_⟩
    rw [← hb₁, ← List.append_assoc, h]
  · -- A token that is refused among the first ones would be refused in the end.
    have hall := h.consumeAll_eq
    rw [List.append_assoc, hb₁, List.cons_append, consumeAll, ht] at hall
    cases hall

theorem Reaches.head {b b' : Builder} {t : Token} {rest : List Token}
    (h : b.Reaches (t :: rest) b') :
    b.refusal? t = none ∧ (b.consume t).Reaches rest b' := by
  have hr : b.refusal? t = none := by
    have hall := h.consumeAll_eq
    cases hr : b.refusal? t with
    | none => rfl
    | some cause =>
      rw [consumeAll, hr] at hall
      cases hall
  refine ⟨hr, fun more => ?_⟩
  rw [← h, List.cons_append, consumeAll, hr]

theorem Nested.reaches {f : Forest} {b b' : Builder} {tokens : List Token} (h : Nested f b)
    (hr : b.Reaches tokens b') : Nested f b' := by
  have hall := h.consumeAll tokens
  rwa [hr.consumeAll_eq] at hall

/-- What every token that is taken keeps, between the builder and the brackets that are open, is
kept by any number of them. -/
theorem Reaches.openAfter {sorts : List Bracket} {I : Builder → List Token → Prop}
    (hstep : ∀ {b opened t}, I b opened → b.refusal? t = none →
      ∃ after, openBehind sorts opened t = some after ∧ I (b.consume t) after)
    {b b' : Builder} {opened tokens : List Token} (hr : b.Reaches tokens b') (h : I b opened) :
    ∃ after, TagLang.openAfter sorts opened tokens = some after ∧ I b' after := by
  induction tokens generalizing b opened with
  | nil =>
    have hb : b = b' := congrArg Prod.fst hr.consumeAll_eq
    exact ⟨opened, rfl, hb ▸ h⟩
  | cons t rest ih =>
    obtain ⟨ht, hrest⟩ := hr.head
    obtain ⟨between, hbetween, hnext⟩ := hstep h ht
    obtain ⟨after, hafter, hend⟩ := ih hrest hnext
    exact ⟨after, by rw [TagLang.openAfter, hbetween, Option.bind_some, hafter], hend⟩

theorem consume_mark {t : Token} {m : Mark} (ht : t.kind = .mark m) (b : Builder) :
    b.consume t = b.mark t.position.line m := by
  rw [consume, ht]

end Builder

/-! ### Nodes stay -/

/-- The nodes of a forest are still there, with what they are and where they hang. -/
structure Forest.Persists (f g : Forest) : Prop where
  size_le : f.size ≤ g.size
  kind : ∀ {id}, id < f.size → g.kind id = f.kind id
  parent : ∀ {id}, id < f.size → g.parent id = f.parent id
  line : ∀ {id}, id < f.size → g.line id = f.line id

namespace Forest.Persists

variable {f g k : Forest}

theorem refl (f : Forest) : f.Persists f :=
  ⟨Nat.le_refl _, fun _ => rfl, fun _ => rfl, fun _ => rfl⟩

theorem trans (h : f.Persists g) (h' : g.Persists k) : f.Persists k where
  size_le := Nat.le_trans h.size_le h'.size_le
  kind hid := (h'.kind (Nat.lt_of_lt_of_le hid h.size_le)).trans (h.kind hid)
  parent hid := (h'.parent (Nat.lt_of_lt_of_le hid h.size_le)).trans (h.parent hid)
  line hid := (h'.line (Nat.lt_of_lt_of_le hid h.size_le)).trans (h.line hid)

theorem attach {p : NodeId} (hp : p < f.size) (kind : NodeKind) (line : Nat) :
    f.Persists (f.attach p kind line) where
  size_le := by simp
  kind hid := by rw [kind_attach hp, if_neg (Nat.ne_of_lt hid)]
  parent hid := by rw [parent_attach hp, if_neg (Nat.ne_of_lt hid)]
  line hid := by rw [line_attach hp, if_neg (Nat.ne_of_lt hid)]

end Forest.Persists

namespace Builder

open Forest

theorem Nested.persists_consume {f : Forest} {b : Builder} (h : Nested f b) (t : Token) :
    b.forest.Persists (b.consume t).forest := by
  rcases b.forest_consume t with hsame | ⟨kind, hnew, -⟩
  · rw [hsame]
    exact .refl _
  · rw [hnew]
    exact .attach h.cursor_lt kind _

theorem Nested.persists_reaches {f : Forest} {b b' : Builder} {tokens : List Token} (h : Nested f b)
    (hr : b.Reaches tokens b') : b.forest.Persists b'.forest := by
  induction tokens generalizing b with
  | nil =>
    have hb : b = b' := congrArg Prod.fst hr.consumeAll_eq
    exact hb ▸ .refl _
  | cons t rest ih => exact (h.persists_consume t).trans (ih (h.consume t) hr.head.2)

/-! ### Blocks -/

namespace Nested

variable {f : Forest} {b : Builder}

/-- The blocks around the cursor are on its ladder. -/
theorem scopes_of_ladder (h : Nested f b) :
    b.scopes ++ [f.size] = (b.ladder.filter (·.kind.isBlock)).map (·.id) := by
  rw [← h.root, ← h.blocks, Builder.ladder, Forest.ladder, Forest.blocks, List.filter_map,
    List.map_map]
  exact (List.map_id _).symm

theorem scopes_eq_of_ladder {b' : Builder} (h : Nested f b) (h' : Nested f b')
    (hl : b'.ladder = b.ladder) : b'.scopes = b.scopes := by
  have hs := h'.scopes_of_ladder
  rw [hl, ← h.scopes_of_ladder] at hs
  exact List.append_cancel_right hs

end Nested

theorem scopes_closeGroup (b : Builder) : b.closeGroup.scopes = b.scopes := by
  unfold closeGroup
  dsimp only
  split
  · rfl
  · split
    · split <;> rfl
    · rfl

/-- A token that is no brace leaves the open blocks open. -/
theorem scopes_consume {t : Token} (ht : t.role [.block] = .other) (b : Builder) :
    (b.consume t).scopes = b.scopes := by
  unfold consume
  cases hk : t.kind with
  | name =>
    show (b.name _ _).scopes = _
    unfold name
    split <;> rfl
  | mark m =>
    cases m with
    | separator =>
      show b.separate.scopes = _
      unfold separate
      split <;> rfl
    | closeGroup => exact scopes_closeGroup b
    | closeIndex =>
      show b.closeIndex.scopes = _
      unfold closeIndex
      split <;> rfl
    | openBlock | closeBlock => simp [Token.role, hk, Mark.role, Role.among] at ht
    | _ => rfl
  | _ => rfl

/-- The open blocks were opened by the braces that are open, each on its line. -/
structure Braced (f : Forest) (b : Builder) (opened : List Token) : Prop extends Nested f b where
  opens : ∀ o ∈ opened, o.role [.block] = .opens .block
  lines : b.scopes.map b.forest.line = opened.map (·.position.line)

namespace Braced

variable {f : Forest} {b : Builder} {opened : List Token}

theorem start (hf : f.WellFormed) : Braced f (Builder.start f) [] where
  toNested := .start hf
  opens _ ho := by cases ho
  lines := rfl

theorem scopes_eq_nil_iff (h : Braced f b opened) : b.scopes = [] ↔ opened = [] := by
  rw [← List.map_eq_nil_iff (f := b.forest.line), h.lines, List.map_eq_nil_iff]

theorem consume (h : Braced f b opened) {t : Token} (ht : b.refusal? t = none) :
    ∃ after, openBehind [.block] opened t = some after ∧ Braced f (b.consume t) after := by
  have hstays : ∀ id ∈ b.scopes, (b.consume t).forest.line id = b.forest.line id :=
    fun id hid => (h.persists_consume t).line (h.scopes id hid).2
  suffices hnext : ∃ after, openBehind [.block] opened t = some after ∧
      (∀ o ∈ after, o.role [.block] = .opens .block) ∧
      (b.consume t).scopes.map (b.consume t).forest.line = after.map (·.position.line) by
    obtain ⟨after, hafter, hopens, hlines⟩ := hnext
    exact ⟨after, hafter, h.toNested.consume t, hopens, hlines⟩
  refine exists_openBehind h.opens ?_ ?_ ?_
  · intro hrole
    rw [scopes_consume hrole, ← h.lines]
    exact List.map_congr_left hstays
  · intro hk
    have hconsume : b.consume t = b.openBlock t.position.line := consume_mark hk b
    have hnew : (b.openBlock t.position.line).forest.line b.forest.size = t.position.line := by
      show (b.forest.attach b.cursor .block t.position.line).line b.forest.size = _
      rw [line_attach h.cursor_lt, if_pos rfl]
    rw [hconsume] at hstays ⊢
    show (b.forest.size :: b.scopes).map _ = _
    rw [List.map_cons, List.map_cons, hnew, List.map_congr_left hstays, h.lines]
  · intro hk
    have hconsume : b.consume t = b.closeBlock := consume_mark hk b
    have hlines := h.lines
    cases opened with
    | nil =>
      -- No block is open, and the brace would be refused.
      have hempty := h.scopes_eq_nil_iff.mpr rfl
      rw [refusal?, hk] at ht
      simp [hempty, Bracket.closing] at ht
    | cons o rest =>
      refine ⟨o, rest, rfl, ?_⟩
      rw [hconsume]
      show b.scopes.tail.map b.forest.line = _
      rw [List.map_tail, hlines]
      rfl

/-- The braces that are open behind tokens that are taken. -/
theorem reaches {b' : Builder} {tokens : List Token} (h : Braced f b opened)
    (hr : b.Reaches tokens b') :
    ∃ after, openAfter [.block] opened tokens = some after ∧ Braced f b' after :=
  hr.openAfter (I := Braced f) (fun h ht => h.consume ht) h

end Braced

/-! ### Square brackets -/

/-- The square brackets around the cursor were opened by some of those that are open. -/
structure Squared (f : Forest) (b : Builder) (opened : List Token) : Prop extends Nested f b where
  opens : ∀ o ∈ opened, o.role [.index] = .opens .index
  count : b.openBrackets ≤ opened.length

namespace Squared

variable {f : Forest} {b : Builder} {opened : List Token}

theorem start (hf : f.WellFormed) : Squared f (Builder.start f) [] where
  toNested := .start hf
  opens _ ho := by cases ho
  count := by
    -- The root is a block, and there is nothing above it.
    have hs := Sprouts.addRoot hf 1
    show ((f.addRoot 1).ladder f.size).countP _ ≤ 0
    rw [ladder_eq hs.wellFormed, if_pos hs.parent_root, hs.kind_root]
    exact Nat.le_refl 0

theorem consume (h : Squared f b opened) {t : Token} (ht : b.refusal? t = none) :
    ∃ after, openBehind [.index] opened t = some after ∧ Squared f (b.consume t) after := by
  suffices hnext : ∃ after, openBehind [.index] opened t = some after ∧
      (∀ o ∈ after, o.role [.index] = .opens .index) ∧ (b.consume t).openBrackets ≤ after.length by
    obtain ⟨after, hafter, hopens, hcount⟩ := hnext
    exact ⟨after, hafter, h.toNested.consume t, hopens, hcount⟩
  refine exists_openBehind h.opens ?_ ?_ ?_
  · intro hrole
    have hk : t.kind ≠ .mark .openIndex := by
      intro hk
      simp [Token.role, hk, Mark.role, Role.among] at hrole
    exact Nat.le_trans (h.openBrackets_consume hk) h.count
  · intro hk
    have hconsume : b.consume t = b.descend .brackets t.position.line := consume_mark hk b
    rw [hconsume, h.openBrackets_descend]
    exact Nat.succ_le_succ h.count
  · intro hk
    have hconsume : b.consume t = b.closeIndex := consume_mark hk b
    have hclosable : b.closable? ≠ none := by
      intro hnone
      rw [refusal?, hk] at ht
      simp [hnone, Bracket.closing] at ht
    -- The cursor leaves brackets, so at least one is open.
    have hlt := Nat.lt_of_lt_of_le (h.openBrackets_closeIndex hclosable) h.count
    cases opened with
    | nil => simp at hlt
    | cons o rest =>
      refine ⟨o, rest, rfl, ?_⟩
      rw [hconsume]
      exact Nat.le_of_lt_succ hlt

theorem reaches {b' : Builder} {tokens : List Token} (h : Squared f b opened)
    (hr : b.Reaches tokens b') :
    ∃ after, openAfter [.index] opened tokens = some after ∧ Squared f b' after :=
  hr.openAfter (I := Squared f) (fun h ht => h.consume ht) h

end Squared

/-! ### Inside brackets -/

/-- Below the nodes `outer` around the cursor there are no brackets or blocks, and at least `n`
groups. -/
def Within (outer : List Rung) (n : Nat) (b : Builder) : Prop :=
  ∃ inner, b.ladder = inner ++ outer ∧ (∀ r ∈ inner, r.kind.isBound = false) ∧
    n ≤ inner.countP (·.kind.isGroup)

namespace Within

variable {f : Forest} {b : Builder} {outer : List Rung} {n : Nat}

theorem of_ladder (hl : b.ladder = outer) : Within outer 0 b :=
  ⟨[], hl, by simp, by simp⟩

theorem congr {b' : Builder} (h : Within outer n b) (hl : b'.ladder = b.ladder) :
    Within outer n b' := by
  obtain ⟨inner, hinner, hbound, hcount⟩ := h
  exact ⟨inner, hl.trans hinner, hbound, hcount⟩

theorem attach (h : Within outer n b) (hb : Nested f b) (kind : NodeKind) (line : Nat) :
    Within outer n (b.attach kind line) :=
  h.congr (hb.ladder_attach kind line)

theorem descend (h : Within outer n b) (hb : Nested f b) {kind : NodeKind}
    (hk : kind.isBound = false) (line : Nat) :
    Within outer (n + if kind.isGroup then 1 else 0) (b.descend kind line) := by
  obtain ⟨inner, hinner, hbound, hcount⟩ := h
  refine ⟨⟨b.forest.size, kind⟩ :: inner, ?_, ?_, ?_⟩
  · rw [hb.ladder_descend, hinner, List.cons_append]
  · exact List.forall_mem_cons.mpr ⟨hk, hbound⟩
  · rw [List.countP_cons]
    exact Nat.add_le_add_right hcount _

/-- A `)` leaves one group fewer, and does not leave the brackets. -/
theorem closeGroup {r : Rung} {rest : List Rung} (h : Within (r :: rest) (n + 1) b)
    (hb : Nested f b) (hr : r.kind.isBound = true) : Within (r :: rest) n b.closeGroup := by
  obtain ⟨inner, hinner, hbound, hcount⟩ := h
  obtain ⟨left, hleft, hleftBound, hleftCount⟩ := hb.leaves_closeGroup
  have hladder : inner ++ r :: rest = left ++ b.closeGroup.ladder := by
    rw [← hinner, Builder.ladder, hleft, Builder.ladder, forest_closeGroup]
  rcases List.append_eq_append_iff.mp hladder with ⟨more, rfl, hrest⟩ | ⟨more, rfl, hrest⟩
  · -- What is left behind ends below the brackets, which are a bound.
    cases more with
    | nil =>
      rw [List.append_nil] at hleftCount
      exact ⟨[], hrest.symm, by simp, by omega⟩
    | cons s more =>
      obtain ⟨rfl, -⟩ := List.cons.inj hrest
      have hfalse := hleftBound r (by simp)
      rw [hr] at hfalse
      cases hfalse
  · refine ⟨more, hrest, fun s hs => hbound s (by simp [hs]), ?_⟩
    rw [List.countP_append] at hcount
    omega

/-- Any other token but a `;` and the brackets stays where it is or goes down. -/
theorem consume (h : Within outer n b) (hb : Nested f b) {t : Token}
    (ht : t.role Bracket.all = .other) (hd : t.delimits = false) :
    Within outer n (b.consume t) := by
  have hdown : ∀ {kind}, kind.isBound = false → ∀ line, Within outer n (b.descend kind line) := by
    intro kind hk line
    obtain ⟨inner, hinner, hbound, hcount⟩ := h.descend hb hk line
    exact ⟨inner, hinner, hbound, by omega⟩
  unfold Builder.consume
  cases hk : t.kind with
  | name =>
    show Within outer n (b.name _ _)
    unfold Builder.name
    split
    · exact hdown rfl _
    · exact h.attach hb _ _
  | keyword k => exact hdown rfl _
  | operator | str | int | float | bool => exact h.attach hb _ _
  | mark m =>
    cases m with
    | comma | colon => exact h.attach hb _ _
    | separator => simp [Token.delimits, hk] at hd
    | _ => simp [Token.role, hk, Mark.role, Role.among, Bracket.all] at ht
  | endOfText => exact h

end Within

theorem refusal?_eq_none {b : Builder} {t : Token} (hblock : t.kind ≠ .mark .closeBlock)
    (hindex : t.kind ≠ .mark .closeIndex) : b.refusal? t = none := by
  unfold refusal?
  split
  next hk => exact absurd hk hblock
  next hk => exact absurd hk hindex
  next => rfl

theorem refusal?_eq_some {b : Builder} {t : Token} {cause : Cause} (h : b.refusal? t = some cause) :
    (t.kind = .mark .closeBlock ∧ b.scopes = [] ∧ cause = .unbalancedBlock) ∨
    (t.kind = .mark .closeIndex ∧ b.closable? = none ∧ cause = .unbalancedIndex) := by
  unfold refusal? at h
  split at h
  next hk =>
    split at h
    next hempty => exact .inl ⟨hk, List.isEmpty_iff.mp hempty, (Option.some.inj h).symm⟩
    next => cases h
  next hk =>
    split at h
    next hnone => exact .inr ⟨hk, Option.isNone_iff_eq_none.mp hnone, (Option.some.inj h).symm⟩
    next => cases h
  next => cases h

/-- Only a closing brace or bracket may be refused. -/
theorem refusal?_of_other {b : Builder} {t : Token} (ht : t.role Bracket.all = .other) :
    b.refusal? t = none := by
  refine refusal?_eq_none (fun hk => ?_) (fun hk => ?_) <;>
    simp [Token.role, hk, Mark.role, Role.among, Bracket.all] at ht

section Balanced

variable {f : Forest} {b : Builder}

/-- A `]` behind tokens that stay within brackets closes them, and all is as it was before them. -/
theorem Within.closeIndex {o c : Token} {inner : List Token} {b₁ : Builder} (hb : Nested f b)
    (ho : o.kind = .mark .openIndex) (hc : c.kind = .mark .closeIndex)
    (hr : (b.descend .brackets o.position.line).Reaches inner b₁)
    (hw : Within (⟨b.forest.size, .brackets⟩ :: b.ladder) 0 b₁) :
    b.Reaches (o :: (inner ++ [c])) b₁.closeIndex ∧ b₁.closeIndex.ladder = b.ladder := by
  have hdown : Nested f (b.descend .brackets o.position.line) := hb.descend rfl _
  have hb₁ := hdown.reaches hr
  obtain ⟨passed, hladder, hbound, -⟩ := hw
  have hclosable := hb₁.closable?_of_ladder hladder rfl hbound
  have hopen : b.Reaches [o] (b.descend .brackets o.position.line) :=
    .step (refusal?_eq_none (by simp [ho]) (by simp [ho])) (consume_mark ho b)
  have hclose : b₁.Reaches [c] b₁.closeIndex := by
    refine .step ?_ (consume_mark hc b₁)
    rw [refusal?, hc]
    simp [hclosable]
  exact ⟨hopen.trans (hr.trans hclose), hb₁.ladder_closeIndex hladder rfl hbound⟩

/-- Properly nested tokens that are part of one statement stay within brackets. -/
theorem Within.reaches {tokens : List Token} (ht : Balanced Bracket.all tokens)
    (hd : ∀ t ∈ tokens, t.delimits = false) {r : Rung} {rest : List Rung} {n : Nat}
    (hr : r.kind.isBound = true) (hb : Nested f b) (hw : Within (r :: rest) n b) :
    ∃ b', b.Reaches tokens b' ∧ Within (r :: rest) n b' := by
  induction ht generalizing b n r rest with
  | nil => exact ⟨b, .nil b, hw⟩
  | @other t more ht _ ih =>
    obtain ⟨hdt, hdm⟩ := List.forall_mem_cons.mp hd
    obtain ⟨b', hb', hw'⟩ := ih hdm hr (hb.consume t) (hw.consume hb ht hdt)
    exact ⟨b', (Reaches.step (refusal?_of_other ht) rfl).trans hb', hw'⟩
  | @pair s o c inner more ho hc _ _ ihi ihr =>
    obtain ⟨hdo, hd⟩ := List.forall_mem_cons.mp hd
    obtain ⟨hdi, hd⟩ := List.forall_mem_append.mp hd
    obtain ⟨-, hdm⟩ := List.forall_mem_cons.mp hd
    have ho' := (Token.role_eq_opens.mp ho).1
    have hc' := (Token.role_eq_closes.mp hc).1
    -- The pair ends where it began, with the rest to come.
    suffices hpair : ∃ b₁, b.Reaches (o :: (inner ++ [c])) b₁ ∧ Within (r :: rest) n b₁ by
      obtain ⟨b₁, hb₁, hw₁⟩ := hpair
      obtain ⟨b', hb', hw'⟩ := ihr hdm hr (hb.reaches hb₁) hw₁
      exact ⟨b', by simpa using hb₁.trans hb', hw'⟩
    cases s with
    | block => simp [Token.delimits, ho', Bracket.opening] at hdo
    | group =>
      have hopen : b.Reaches [o] (b.descend .group o.position.line) := descend_group ho' b
      have hdown : Nested f (b.descend .group o.position.line) := hb.descend rfl _
      obtain ⟨b₁, hb₁, hw₁⟩ := ihi hdi hr hdown (hw.descend hb rfl o.position.line)
      have hclose : b₁.Reaches [c] b₁.closeGroup := leave_group hc' rfl
      exact ⟨b₁.closeGroup, hopen.trans (hb₁.trans hclose), hw₁.closeGroup (hdown.reaches hb₁) hr⟩
    | index =>
      -- The new brackets are a bound of their own, and what is around them is as it was in the end.
      have hdown : Nested f (b.descend .brackets o.position.line) := hb.descend rfl _
      obtain ⟨b₁, hb₁, hw₁⟩ := ihi hdi rfl hdown (.of_ladder (hb.ladder_descend _ _))
      obtain ⟨hpair, hladder⟩ := hw₁.closeIndex hb ho' hc' hb₁
      exact ⟨b₁.closeIndex, hpair, hw.congr hladder⟩

/-- Brackets around part of a statement leave the cursor where it was. -/
theorem reaches_brackets (hb : Nested f b) {o c : Token} {inner : List Token}
    (ho : o.kind = .mark .openIndex) (hc : c.kind = .mark .closeIndex)
    (hi : Balanced Bracket.all inner) (hd : ∀ t ∈ inner, t.delimits = false) :
    ∃ b', b.Reaches (o :: (inner ++ [c])) b' ∧ b'.ladder = b.ladder := by
  have hdown : Nested f (b.descend .brackets o.position.line) := hb.descend rfl _
  obtain ⟨b₁, hb₁, hw₁⟩ := Within.reaches hi hd rfl hdown (.of_ladder (hb.ladder_descend _ _))
  obtain ⟨hpair, hladder⟩ := hw₁.closeIndex hb ho hc hb₁
  exact ⟨b₁.closeIndex, hpair, hladder⟩

/-- Properly nested tokens are taken, if brackets hold parts of statements only, and leave the open
blocks open. -/
theorem reaches_balanced {tokens : List Token} (ht : Balanced Bracket.all tokens)
    (hu : Unbroken tokens) (hb : Nested f b) :
    ∃ b', b.Reaches tokens b' ∧ b'.scopes = b.scopes := by
  induction ht generalizing b with
  | nil => exact ⟨b, .nil b, rfl⟩
  | @other t more ht _ ih =>
    have hscopes := scopes_consume (Token.role_of_all ht _) b
    obtain ⟨b', hb', hscopes'⟩ := ih (hu.part ⟨[t], [], by simp⟩) (hb.consume t)
    exact ⟨b', (Reaches.step (refusal?_of_other ht) rfl).trans hb', hscopes'.trans hscopes⟩
  | @pair s o c inner more ho hc hi _ ihi ihr =>
    have hinner : Unbroken inner := hu.part ⟨[o], c :: more, by simp⟩
    have hmore : Unbroken more := hu.part ⟨o :: (inner ++ [c]), [], by simp⟩
    have ho' := (Token.role_eq_opens.mp ho).1
    have hc' := (Token.role_eq_closes.mp hc).1
    -- It is enough that the pair leaves the open blocks as they were.
    suffices hpair : ∃ b₁, b.Reaches (o :: (inner ++ [c])) b₁ ∧ b₁.scopes = b.scopes by
      obtain ⟨b₁, hb₁, hscopes₁⟩ := hpair
      obtain ⟨b', hb', hscopes'⟩ := ihr hmore (hb.reaches hb₁)
      exact ⟨b', by simpa using hb₁.trans hb', hscopes'.trans hscopes₁⟩
    cases s with
    | group =>
      have hopen : b.Reaches [o] (b.descend .group o.position.line) := descend_group ho' b
      obtain ⟨b₁, hb₁, hscopes₁⟩ := ihi hinner (hb.reaches hopen)
      have hclose : b₁.Reaches [c] b₁.closeGroup := leave_group hc' rfl
      refine ⟨b₁.closeGroup, hopen.trans (hb₁.trans hclose), ?_⟩
      rw [scopes_closeGroup, hscopes₁]
      rfl
    | block =>
      have hopen : b.Reaches [o] (b.openBlock o.position.line) :=
        .step (refusal?_eq_none (by simp [ho', Bracket.opening]) (by simp [ho', Bracket.opening]))
          (consume_mark ho' b)
      obtain ⟨b₁, hb₁, hscopes₁⟩ := ihi hinner (hb.openBlock _)
      have hcons : b₁.scopes = b.forest.size :: b.scopes := hscopes₁
      have hclose : b₁.Reaches [c] b₁.closeBlock := by
        refine .step ?_ (consume_mark hc' b₁)
        rw [refusal?, hc']
        simp [Bracket.closing, hcons]
      refine ⟨b₁.closeBlock, hopen.trans (hb₁.trans hclose), ?_⟩
      show b₁.scopes.tail = b.scopes
      rw [hcons]
      rfl
    | index =>
      have hd : ∀ t ∈ inner, t.delimits = false :=
        hu [] o inner c ⟨ho', hc', hi, more, by simp⟩
      obtain ⟨b₁, hb₁, hladder⟩ := reaches_brackets hb ho' hc' hi hd
      exact ⟨b₁, hb₁, hb.scopes_eq_of_ladder (hb.reaches hb₁) hladder⟩

/-- Brackets around part of a statement hang under the cursor, and leave it where it was. -/
theorem reaches_enclosed (hf : f.WellFormed) {tokens : List Token}
    (hb : (Builder.start f).Reaches tokens b) {before inner : List Token} {o c : Token}
    (h : Enclosed tokens before o inner c) (hd : ∀ t ∈ inner, t.delimits = false) :
    ∃ b₁ b₂, (Builder.start f).Reaches before b₁ ∧
      (Builder.start f).Reaches (before ++ o :: (inner ++ [c])) b₂ ∧
      b.forest.kind b₁.forest.size = .brackets ∧ b.forest.parent b₁.forest.size = b₁.cursor ∧
      b₂.cursor = b₁.cursor := by
  obtain ⟨rest, rfl⟩ := h.start
  rw [List.append_assoc] at hb
  obtain ⟨b₁, hb₁, hlater⟩ := hb.split
  have hnested := (Nested.start hf).reaches hb₁
  obtain ⟨b₂, hb₂, hladder⟩ := reaches_brackets hnested h.opens h.closes h.balanced hd
  -- The brackets are a new node, which stays what it is.
  have hopen : b₁.consume o = b₁.descend .brackets o.position.line := consume_mark h.opens b₁
  have hpersists := (hnested.consume o).persists_reaches hlater.head.2
  have hnew : b₁.forest.size < (b₁.consume o).forest.size := by
    rw [hopen]
    show b₁.forest.size < (b₁.forest.attach _ _ _).size
    simp
  refine ⟨b₁, b₂, hb₁, hb₁.trans hb₂, ?_, ?_,
    hnested.cursor_eq_of_ladder (hnested.reaches hb₂) hladder⟩
  · rw [hpersists.kind hnew, hopen]
    exact (kind_attach hnested.cursor_lt _ _ _).trans (if_pos rfl)
  · rw [hpersists.parent hnew, hopen]
    exact (parent_attach hnested.cursor_lt _ _ _).trans (if_pos rfl)

end Balanced

end Builder

/-! ### The end of a source -/

namespace Forest

open Builder

variable {f : Forest} {source : String} {b : Builder}

theorem parse_of_refused {failure : Failure}
    (h : (Builder.start f).consumeAll (Scan.ofText source).tokens = (b, some failure)) :
    f.parse source = (b.forest, .error failure) := by
  rw [parse, h]
  rfl

theorem parse_of_reaches (h : (Builder.start f).Reaches (Scan.ofText source).tokens b)
    (hstop : (Scan.ofText source).stop = none) (hscopes : b.scopes = []) :
    f.parse source = (b.forest, .ok b.root) := by
  rw [parse, h.consumeAll_eq]
  simp [unfinished?, hstop, hscopes]

theorem parse_of_open (h : (Builder.start f).Reaches (Scan.ofText source).tokens b)
    (hstop : (Scan.ofText source).stop = none) {s : NodeId} {rest : List NodeId}
    (hscopes : b.scopes = s :: rest) {last : Token}
    (hlast : (Scan.ofText source).tokens.getLast? = some last) :
    f.parse source =
      (b.forest, .error ⟨last.position.line, .unclosedBlock (b.forest.line s)⟩) := by
  rw [parse, h.consumeAll_eq]
  simp [unfinished?, hstop, hscopes, hlast]

theorem parse_of_stop (h : (Builder.start f).Reaches (Scan.ofText source).tokens b)
    {m : Malformed} (hstop : (Scan.ofText source).stop = some m) :
    f.parse source = (b.forest, .error ⟨m.line, .malformedNumber m.lexeme⟩) := by
  rw [parse, h.consumeAll_eq]
  simp [unfinished?, hstop]

end Forest

/-- The last token of a source that can be scanned is the end of the text. -/
theorem Scan.getLast?_ofText {source : String} (hstop : (Scan.ofText source).stop = none) :
    ∃ last, (Scan.ofText source).tokens.getLast? = some last ∧ last.kind = .endOfText := by
  have h : Splits source.toList (Scan.ofText source) :=
    ofChars_splits .nil .nil .start source.toList (rfl : Position.start = .behind []) rfl
  obtain ⟨segments, last, -, hsplits⟩ := h
  rw [hstop] at hsplits
  exact ⟨_, by rw [hsplits.2.2, List.getLast?_concat], rfl⟩

namespace Forest

open Builder

/-- The source is refused at a `}` that has no block to end, the first one. -/
def StrayBrace (tokens : List Token) (failure : Failure) : Prop :=
  ∃ before t after, tokens = before ++ t :: after ∧ t.kind = .mark .closeBlock ∧
    Balanced [.block] before ∧ failure = ⟨t.position.line, .unbalancedBlock⟩

/-- The source is refused at its end, since a block that was opened has not ended; every `}` has
ended one. -/
def OpenBrace (tokens : List Token) (failure : Failure) : Prop :=
  (∀ before t after, tokens = before ++ t :: after → t.kind = .mark .closeBlock →
    ¬ Balanced [.block] before) ∧
  ∃ before o after last, tokens = before ++ o :: after ∧ o.kind = .mark .openBlock ∧
    Balanced [.block] after ∧ tokens.getLast? = some last ∧ last.kind = .endOfText ∧
    failure = ⟨last.position.line, .unclosedBlock o.position.line⟩

section Braces

variable {f : Forest} {source : String} {b : Builder}

/-- Where all tokens are taken, a brace that is still open is the reason to refuse the source. -/
theorem parse_of_openBrace (hb : (Builder.start f).Reaches (Scan.ofText source).tokens b)
    (hstop : (Scan.ofText source).stop = none) {o : Token} {outer : List Token}
    (hopened : openAfter [.block] [] (Scan.ofText source).tokens = some (o :: outer))
    (hbraced : Braced f b (o :: outer)) :
    ∃ failure, (f.parse source).2 = .error failure ∧
      OpenBrace (Scan.ofText source).tokens failure := by
  obtain ⟨s, rest, hscopes⟩ : ∃ s rest, b.scopes = s :: rest := by
    refine List.exists_cons_of_ne_nil fun hnil => ?_
    cases hbraced.scopes_eq_nil_iff.mp hnil
  have hline : b.forest.line s = o.position.line := by
    have hlines := hbraced.lines
    rw [hscopes] at hlines
    exact (List.cons.inj hlines).1
  obtain ⟨last, hlast, hkind⟩ := Scan.getLast?_ofText hstop
  refine ⟨_, by rw [parse_of_open hb hstop hscopes hlast], ?_, ?_⟩
  · -- A brace too many would leave nothing to count the open ones in.
    intro before t after htokens ht hbefore
    have hrole : t.role [.block] = .closes .block := Token.role_eq_closes.mpr ⟨ht, by simp⟩
    have hnone := hbefore.openAfter_closes hrole after
    rw [← htokens, hopened] at hnone
    cases hnone
  · rcases openAfter_eq_some hopened with ⟨_, hnil, -⟩ |
      ⟨s', before, o', later, _, ho', htokens, hrole, -, hlater⟩
    · simp at hnil
    · obtain ⟨rfl, -⟩ := List.cons.inj ho'
      obtain ⟨hopen, hs'⟩ := Token.role_eq_opens.mp hrole
      rw [List.mem_singleton.mp hs'] at hopen
      exact ⟨before, o, later, last, htokens, hopen, hlater, hlast, hkind, by rw [hline]⟩

/-- Braces decide about a source whose square brackets are not refused. -/
theorem parse_braces (hf : f.WellFormed) (hstop : (Scan.ofText source).stop = none) :
    (∃ line, (f.parse source).2 = .error ⟨line, .unbalancedIndex⟩) ∨
    (Balanced [.block] (Scan.ofText source).tokens ∧ (f.parse source).2 = .ok f.size) ∨
    (¬ Balanced [.block] (Scan.ofText source).tokens ∧ ∃ failure,
      (f.parse source).2 = .error failure ∧
      (StrayBrace (Scan.ofText source).tokens failure ∨
        OpenBrace (Scan.ofText source).tokens failure)) := by
  rcases (Builder.start f).reaches_or_refuses (Scan.ofText source).tokens with ⟨b, hb⟩ |
    ⟨earlier, t, later, b, cause, htokens, hb, hcause, hall⟩
  · obtain ⟨after, hafter, hbraced⟩ := (Braced.start hf).reaches hb
    cases after with
    | nil =>
      have hparse := parse_of_reaches hb hstop (hbraced.scopes_eq_nil_iff.mpr rfl)
      exact .inr (.inl ⟨balanced_iff.mpr hafter, by rw [hparse, hbraced.root]⟩)
    | cons o outer =>
      obtain ⟨failure, herror, hopen⟩ := parse_of_openBrace hb hstop hafter hbraced
      refine .inr (.inr ⟨?_, failure, herror, .inr hopen⟩)
      rw [balanced_iff, hafter]
      simp
  · obtain ⟨opened, hopened, hbraced⟩ := (Braced.start hf).reaches hb
    rcases refusal?_eq_some hcause with ⟨hk, hscopes, rfl⟩ | ⟨hk, -, rfl⟩
    · -- No block is open at the refused brace, so the braces before it are properly nested.
      rw [hbraced.scopes_eq_nil_iff.mp hscopes] at hopened
      have hearlier := balanced_iff.mpr hopened
      refine .inr (.inr ⟨?_, _, by rw [parse_of_refused hall], .inl ?_⟩)
      · have hrole : t.role [.block] = .closes .block := Token.role_eq_closes.mpr ⟨hk, by simp⟩
        rw [balanced_iff, htokens, hearlier.openAfter_closes hrole later]
        simp
      · exact ⟨earlier, t, later, htokens, hk, hearlier, rfl⟩
    · exact .inl ⟨t.position.line, by rw [parse_of_refused hall]⟩

end Braces

/-- A source whose brackets of all sorts are properly nested is accepted, whatever else is in it, as
long as no `;`, `{` or `}` stands between a `[` and its `]`; and after every `]` the cursor is at
the node under which the brackets hang.  A source of which no `]` is refused is accepted if its
braces are properly nested, and otherwise refused at the first `}` without a block, or at the end of
the text if there is none. -/
theorem parse_of_bracketed {f : Forest} (hf : f.WellFormed) (source : String)
    (hstop : (Scan.ofText source).stop = none) :
    (Balanced Bracket.all (Scan.ofText source).tokens → Unbroken (Scan.ofText source).tokens →
      (f.parse source).2 = .ok f.size ∧
      ∀ before o inner c, Enclosed (Scan.ofText source).tokens before o inner c →
        ∃ b b', (Builder.start f).Reaches before b ∧
          (Builder.start f).Reaches (before ++ o :: (inner ++ [c])) b' ∧
          (f.parse source).1.kind b.forest.size = .brackets ∧
          (f.parse source).1.parent b.forest.size = b.cursor ∧ b'.cursor = b.cursor) ∧
    ((∀ line, (f.parse source).2 ≠ .error ⟨line, .unbalancedIndex⟩) →
      ((∃ root, (f.parse source).2 = .ok root) ↔ Balanced [.block] (Scan.ofText source).tokens) ∧
      (¬ Balanced [.block] (Scan.ofText source).tokens → ∃ failure,
        (f.parse source).2 = .error failure ∧
        (StrayBrace (Scan.ofText source).tokens failure ∨
          OpenBrace (Scan.ofText source).tokens failure))) := by
  constructor
  · intro hbalanced hunbroken
    obtain ⟨b', hb', hscopes⟩ := reaches_balanced hbalanced hunbroken (.start hf)
    have hparse := parse_of_reaches hb' hstop hscopes
    have hroot : b'.root = f.size := ((Nested.start hf).reaches hb').root
    refine ⟨by rw [hparse, hroot], fun before o inner c henclosed => ?_⟩
    rw [hparse]
    exact reaches_enclosed hf hb' henclosed (hunbroken before o inner c henclosed)
  · intro hindex
    rcases parse_braces hf hstop with ⟨line, hline⟩ | ⟨hbalanced, hok⟩ |
      ⟨hnot, failure, herror, hwhy⟩
    · exact absurd hline (hindex line)
    · exact ⟨⟨fun _ => hbalanced, fun _ => ⟨_, hok⟩⟩, fun hnot => absurd hbalanced hnot⟩
    · refine ⟨⟨?_, fun hbalanced => absurd hbalanced hnot⟩, fun _ => ⟨failure, herror, hwhy⟩⟩
      rintro ⟨root, hok⟩
      rw [herror] at hok
      cases hok

/-- Brackets around a group and brackets, and behind them; and a brace behind the last block. -/
theorem parse_of_bracketed_call :
    (Balanced Bracket.all (Scan.ofText "x = [(1), [2]][0];").tokens ∧
      Unbroken (Scan.ofText "x = [(1), [2]][0];").tokens ∧
      (Forest.empty.parse "x = [(1), [2]][0];").2 = .ok 0) ∧
    (¬ Balanced [.block] (Scan.ofText "{ [1]; } \x7d").tokens ∧ ∃ failure,
      (Forest.empty.parse "{ [1]; } \x7d").2 = .error failure ∧
      (StrayBrace (Scan.ofText "{ [1]; } \x7d").tokens failure ∨
        OpenBrace (Scan.ofText "{ [1]; } \x7d").tokens failure)) := by
  have hbalanced : Balanced Bracket.all (Scan.ofText "x = [(1), [2]][0];").tokens := by
    decide +kernel
  have hunbroken : Unbroken (Scan.ofText "x = [(1), [2]][0];").tokens := by decide +kernel
  have hnot : ¬ Balanced [.block] (Scan.ofText "{ [1]; } \x7d").tokens := by decide +kernel
  have hrefused : (Forest.empty.parse "{ [1]; } \x7d").2 = .error ⟨1, .unbalancedBlock⟩ := by
    with_unfolding_all rfl
  have hnested := (parse_of_bracketed .empty "x = [(1), [2]][0];" (by decide +kernel)).1
  have hstray := (parse_of_bracketed .empty "{ [1]; } \x7d" (by decide +kernel)).2
  refine ⟨⟨hbalanced, hunbroken, (hnested hbalanced hunbroken).1⟩, hnot, (hstray ?_).2 hnot⟩
  intro line hline
  rw [hrefused] at hline
  cases hline

/-! ### Square brackets in a source -/

section Squares

variable {f : Forest} {source : String}

/-- All tokens are taken and no block is open at the end, or the parser refuses the source. -/
theorem parse_cases (f : Forest) (source : String) :
    ((Scan.ofText source).stop = none ∧
      ∃ b, (Builder.start f).Reaches (Scan.ofText source).tokens b ∧ b.scopes = []) ∨
    ∃ failure, (f.parse source).2 = .error failure ∧ failure.cause.category = .parser := by
  rcases (Builder.start f).reaches_or_refuses (Scan.ofText source).tokens with ⟨b, hb⟩ |
    ⟨_, t, _, b, cause, _, _, hcause, hall⟩
  · cases hstop : (Scan.ofText source).stop with
    | some m => exact .inr ⟨_, by rw [parse_of_stop hb hstop], rfl⟩
    | none =>
      cases hscopes : b.scopes with
      | nil => exact .inl ⟨rfl, b, hb, hscopes⟩
      | cons s rest =>
        obtain ⟨last, hlast, -⟩ := Scan.getLast?_ofText hstop
        exact .inr ⟨_, by rw [parse_of_open hb hstop hscopes hlast], rfl⟩
  · refine .inr ⟨_, by rw [parse_of_refused hall], ?_⟩
    rcases refusal?_eq_some hcause with ⟨-, -, rfl⟩ | ⟨-, -, rfl⟩
    · rfl
    · rfl

theorem parse_ok_iff_reaches : (∃ root, (f.parse source).2 = .ok root) ↔
    (Scan.ofText source).stop = none ∧
      ∃ b, (Builder.start f).Reaches (Scan.ofText source).tokens b ∧ b.scopes = [] := by
  constructor
  · rintro ⟨root, hok⟩
    rcases parse_cases f source with hall | ⟨failure, herror, -⟩
    · exact hall
    · rw [herror] at hok
      cases hok
  · rintro ⟨hstop, b, hb, hscopes⟩
    exact ⟨b.root, by rw [parse_of_reaches hb hstop hscopes]⟩

/-- All that can be wrong with a source when it is read is a matter of the parser. -/
theorem category_parse {failure : Failure} (h : (f.parse source).2 = .error failure) :
    failure.cause.category = .parser := by
  rcases parse_cases f source with hall | ⟨_, herror, hcategory⟩
  · obtain ⟨root, hok⟩ := parse_ok_iff_reaches.mpr hall
    rw [hok] at h
    cases h
  · rw [herror] at h
    cases h
    exact hcategory

/-- All tokens are taken, and no block is open at the end, if braces are properly nested and every
`]` has brackets to close. -/
theorem reaches_iff_closable (hf : f.WellFormed) (tokens : List Token) :
    (∃ b, (Builder.start f).Reaches tokens b ∧ b.scopes = []) ↔
      Balanced [.block] tokens ∧ ∀ before c after, tokens = before ++ c :: after →
        c.kind = .mark .closeIndex → ((Builder.start f).consumeAll before).1.closable? ≠ none := by
  constructor
  · rintro ⟨b, hb, hscopes⟩
    obtain ⟨opened, hopened, hbraced⟩ := (Braced.start hf).reaches hb
    rw [hbraced.scopes_eq_nil_iff.mp hscopes] at hopened
    refine ⟨balanced_iff.mpr hopened, ?_⟩
    rintro before c after rfl hc hnone
    obtain ⟨b₁, hb₁, hlater⟩ := hb.split
    have htaken := hlater.head.1
    rw [hb₁.consumeAll_eq] at hnone
    simp [refusal?, hc, hnone] at htaken
  · rintro ⟨hbalanced, hclosable⟩
    rcases (Builder.start f).reaches_or_refuses tokens with ⟨b, hb⟩ |
      ⟨earlier, t, later, b, cause, htokens, hb, hcause, -⟩
    · obtain ⟨opened, hopened, hbraced⟩ := (Braced.start hf).reaches hb
      rw [balanced_iff.mp hbalanced] at hopened
      exact ⟨b, hb, hbraced.scopes_eq_nil_iff.mpr (Option.some.inj hopened).symm⟩
    · -- Only a `}` without a block and a `]` without brackets are refused, and here neither can be.
      exfalso
      rcases refusal?_eq_some hcause with ⟨hk, hscopes, -⟩ | ⟨hk, hnone, -⟩
      · obtain ⟨opened, hopened, hbraced⟩ := (Braced.start hf).reaches hb
        rw [hbraced.scopes_eq_nil_iff.mp hscopes] at hopened
        have hrole : t.role [.block] = .closes .block := Token.role_eq_closes.mpr ⟨hk, by simp⟩
        have hstuck := (balanced_iff.mpr hopened).openAfter_closes hrole later
        rw [← htokens, balanced_iff.mp hbalanced] at hstuck
        cases hstuck
      · refine hclosable earlier t later htokens hk ?_
        rw [hb.consumeAll_eq]
        exact hnone

end Squares

/-- A source is accepted if it can be scanned, its braces are properly nested, and every `]` has
brackets to close in the block where it stands; otherwise the parser refuses it.  In a source that
is accepted every `]` closes a `[` before it.  A `[` that is never closed is no reason to refuse a
source:  each one is closed if there are as many `[` as `]`. -/
theorem parse_ok_iff {f : Forest} (hf : f.WellFormed) (source : String) :
    ((∃ root, (f.parse source).2 = .ok root) ↔
      (Scan.ofText source).stop = none ∧ Balanced [.block] (Scan.ofText source).tokens ∧
        ∀ before c after, (Scan.ofText source).tokens = before ++ c :: after →
          c.kind = .mark .closeIndex → ((Builder.start f).consumeAll before).1.closable? ≠ none) ∧
    (∀ failure, (f.parse source).2 = .error failure → failure.cause.category = .parser) ∧
    ∀ root, (f.parse source).2 = .ok root →
      (∀ earlier c after, (Scan.ofText source).tokens = earlier ++ c :: after →
        c.kind = .mark .closeIndex → ∃ before o inner, earlier = before ++ o :: inner ∧
          o.kind = .mark .openIndex ∧ Balanced [.index] inner) ∧
      ((∀ before o later, (Scan.ofText source).tokens = before ++ o :: later →
        o.kind = .mark .openIndex → ∃ inner c after, later = inner ++ c :: after ∧
          c.kind = .mark .closeIndex ∧ Balanced [.index] inner) ↔
        (Scan.ofText source).tokens.countP (fun t => (t.role [.index]).isOpening) =
          (Scan.ofText source).tokens.countP fun t => (t.role [.index]).isClosing) := by
  refine ⟨?_, fun failure => category_parse, fun root hok => ?_⟩
  · rw [parse_ok_iff_reaches, reaches_iff_closable hf]
  · obtain ⟨-, b, hb, -⟩ := parse_ok_iff_reaches.mp ⟨root, hok⟩
    obtain ⟨opened, hopened, -⟩ := (Squared.start hf).reaches hb
    constructor
    · intro earlier c after htokens hc
      rw [htokens] at hopened
      have hrole : c.role [.index] = .closes .index := Token.role_eq_closes.mpr ⟨hc, by simp⟩
      obtain ⟨before, o, inner, hearlier, hinner, ho⟩ := opened_earlier hopened hrole
      exact ⟨before, o, inner, hearlier, (Token.role_eq_opens.mp ho).1, hinner⟩
    · rw [← balanced_iff_count hopened, balanced_iff_closed hopened]
      constructor
      · intro h before o later s htokens ho
        obtain ⟨hk, hs⟩ := Token.role_eq_opens.mp ho
        rw [List.mem_singleton.mp hs] at hk ⊢
        obtain ⟨inner, c, after, hlater, hc, hinner⟩ := h before o later htokens hk
        exact ⟨inner, c, after, hlater, hinner, Token.role_eq_closes.mpr ⟨hc, by simp⟩⟩
      · intro h before o later htokens ho
        have hrole : o.role [.index] = .opens .index := Token.role_eq_opens.mpr ⟨ho, by simp⟩
        obtain ⟨inner, c, after, hlater, hinner, hc⟩ := h before o later .index htokens hrole
        exact ⟨inner, c, after, hlater, (Token.role_eq_closes.mp hc).1, hinner⟩

/-- A brace leaves the first of two brackets open, and the source is accepted. -/
theorem parse_ok_iff_left_open :
    (Forest.empty.parse "{ x = [1 } y = [2];").2 = .ok 0 ∧
      ¬ ∀ before o later, (Scan.ofText "{ x = [1 } y = [2];").tokens = before ++ o :: later →
        o.kind = .mark .openIndex → ∃ inner c after, later = inner ++ c :: after ∧
          c.kind = .mark .closeIndex ∧ Balanced [.index] inner := by
  have hok : (Forest.empty.parse "{ x = [1 } y = [2];").2 = .ok 0 := by
    with_unfolding_all rfl
  have hclosed := ((parse_ok_iff .empty "{ x = [1 } y = [2];").2.2 0 hok).2
  refine ⟨hok, fun hall => ?_⟩
  have hcount := hclosed.mp hall
  revert hcount
  decide +kernel

/-- Accepted although a `[` is never closed. -/
theorem unclosed_index_accepted :
    (Forest.empty.parse "x = [1;").2 = .ok 0 ∧
      ¬ Balanced [.index] (Scan.ofText "x = [1;").tokens :=
  ⟨by with_unfolding_all rfl, by decide +kernel⟩

end Forest

end TagLang
