import TagLang.Token.Basic

/-!
# Brackets among tokens

Tokens are properly nested in some sorts of brackets (`Balanced`) if reading them from left to
right, with a stack of the brackets that are open, ends with the empty stack (`balanced_iff`).
Where the stack does not end empty, or a bracket closes nothing, `openAfter_eq_some` says which
bracket is to blame: the innermost one that is open stands among the tokens, and those behind it are
properly nested.
-/

namespace TagLang

/-! ### Brackets that are properly nested -/

/-- The sorts of brackets. -/
inductive Bracket where
  | group
  | block
  | index
  deriving DecidableEq, Repr

/-- All sorts of brackets. -/
def Bracket.all : List Bracket :=
  [group, block, index]

/-- The mark that opens a bracket. -/
def Bracket.opening : Bracket → Mark
  | group => .openGroup
  | block => .openBlock
  | index => .openIndex

/-- The mark that closes a bracket. -/
def Bracket.closing : Bracket → Mark
  | group => .closeGroup
  | block => .closeBlock
  | index => .closeIndex

/-- What a token does to brackets. -/
inductive Role where
  | opens (s : Bracket)
  | closes (s : Bracket)
  | other
  deriving DecidableEq, Repr

def Role.isOpening : Role → Bool
  | opens _ => true
  | _ => false

def Role.isClosing : Role → Bool
  | closes _ => true
  | _ => false

/-- The role of a mark, where all sorts of brackets count. -/
def Mark.role : Mark → Role
  | openGroup => .opens .group
  | closeGroup => .closes .group
  | openBlock => .opens .block
  | closeBlock => .closes .block
  | openIndex => .opens .index
  | closeIndex => .closes .index
  | separator | comma | colon => .other

/-- The role where only the given sorts of brackets count. -/
def Role.among (sorts : List Bracket) : Role → Role
  | opens s => if s ∈ sorts then opens s else other
  | closes s => if s ∈ sorts then closes s else other
  | other => other

/-- What a token does to brackets of the given sorts. -/
def Token.role (sorts : List Bracket) (t : Token) : Role :=
  match t.kind with
  | .mark m => m.role.among sorts
  | _ => .other

theorem Token.role_eq_opens {sorts : List Bracket} {s : Bracket} {t : Token} :
    t.role sorts = .opens s ↔ t.kind = .mark s.opening ∧ s ∈ sorts := by
  cases hk : t.kind with
  | mark m =>
    -- Of all marks only the opening one of the sort has this role.
    cases m <;> cases s <;> simp [role, hk, Mark.role, Role.among, Bracket.opening] <;>
      split <;> simp
  | _ => simp [role, hk]

theorem Token.role_eq_closes {sorts : List Bracket} {s : Bracket} {t : Token} :
    t.role sorts = .closes s ↔ t.kind = .mark s.closing ∧ s ∈ sorts := by
  cases hk : t.kind with
  | mark m =>
    cases m <;> cases s <;> simp [role, hk, Mark.role, Role.among, Bracket.closing] <;>
      split <;> simp
  | _ => simp [role, hk]

/-- A token that is no bracket at all is none of the given sorts. -/
theorem Token.role_of_all {t : Token} (ht : t.role Bracket.all = .other) (sorts : List Bracket) :
    t.role sorts = .other := by
  cases hk : t.kind with
  | mark m =>
    cases m with
    | separator | comma | colon => simp [role, hk, Mark.role, Role.among]
    | _ => simp [role, hk, Mark.role, Role.among, Bracket.all] at ht
  | _ => simp [role, hk]

/-- The brackets of the given sorts are properly nested: each one is closed by one of its own sort,
and those between the two are properly nested themselves.  All other tokens may stand anywhere. -/
inductive Balanced (sorts : List Bracket) : List Token → Prop
  | nil : Balanced sorts []
  | other {t : Token} {rest : List Token} (ht : t.role sorts = .other) (h : Balanced sorts rest) :
    Balanced sorts (t :: rest)
  | pair {s : Bracket} {o c : Token} {inner rest : List Token} (ho : o.role sorts = .opens s)
    (hc : c.role sorts = .closes s) (hi : Balanced sorts inner) (hr : Balanced sorts rest) :
    Balanced sorts (o :: (inner ++ c :: rest))

/-- The brackets that are open behind a token, innermost first, given those that are open before it;
none if the token does not close the innermost one. -/
def openBehind (sorts : List Bracket) (opened : List Token) (t : Token) : Option (List Token) :=
  match t.role sorts with
  | .other => some opened
  | .opens _ => some (t :: opened)
  | .closes s =>
    match opened with
    | o :: rest => if o.role sorts = .opens s then some rest else none
    | [] => none

/-- The brackets that are open behind tokens. -/
def openAfter (sorts : List Bracket) : List Token → List Token → Option (List Token)
  | opened, [] => some opened
  | opened, t :: rest => (openBehind sorts opened t).bind fun opened => openAfter sorts opened rest

section Open

variable {sorts : List Bracket} {opened : List Token} {t : Token}

theorem openBehind_of_other (ht : t.role sorts = .other) :
    openBehind sorts opened t = some opened := by
  simp [openBehind, ht]

theorem openBehind_of_opens {s : Bracket} (ht : t.role sorts = .opens s) :
    openBehind sorts opened t = some (t :: opened) := by
  simp [openBehind, ht]

theorem openBehind_of_closes {s : Bracket} {o : Token} (ht : t.role sorts = .closes s)
    (ho : o.role sorts = .opens s) : openBehind sorts (o :: opened) t = some opened := by
  simp [openBehind, ht, ho]

/-- What a token does to the open brackets. -/
theorem openBehind_eq_some {after : List Token} (h : openBehind sorts opened t = some after) :
    (t.role sorts = .other ∧ after = opened) ∨
    (∃ s, t.role sorts = .opens s ∧ after = t :: opened) ∨
    ∃ s o, t.role sorts = .closes s ∧ o.role sorts = .opens s ∧ opened = o :: after := by
  cases ht : t.role sorts with
  | other =>
    rw [openBehind_of_other ht] at h
    exact .inl ⟨rfl, (Option.some.inj h).symm⟩
  | opens s =>
    rw [openBehind_of_opens ht] at h
    exact .inr (.inl ⟨s, rfl, (Option.some.inj h).symm⟩)
  | closes s =>
    cases opened with
    | nil => simp [openBehind, ht] at h
    | cons o rest =>
      simp only [openBehind, ht] at h
      split at h
      next ho => exact .inr (.inr ⟨s, o, rfl, ho, by rw [Option.some.inj h]⟩)
      next => cases h

/-- Where one sort of brackets counts, every token takes the open brackets to others, unless it
closes one and none is open. -/
theorem exists_openBehind {s : Bracket} {P : List Token → Prop}
    (hopened : ∀ o ∈ opened, o.role [s] = .opens s) (hother : t.role [s] = .other → P opened)
    (hopens : t.kind = .mark s.opening → P (t :: opened))
    (hcloses : t.kind = .mark s.closing → ∃ o rest, opened = o :: rest ∧ P rest) :
    ∃ after, openBehind [s] opened t = some after ∧ (∀ o ∈ after, o.role [s] = .opens s) ∧
      P after := by
  cases hrole : t.role [s] with
  | other => exact ⟨opened, openBehind_of_other hrole, hopened, hother hrole⟩
  | opens s' =>
    obtain ⟨hk, hs⟩ := Token.role_eq_opens.mp hrole
    rw [List.mem_singleton.mp hs] at hk hrole
    exact ⟨t :: opened, openBehind_of_opens hrole, List.forall_mem_cons.mpr ⟨hrole, hopened⟩,
      hopens hk⟩
  | closes s' =>
    obtain ⟨hk, hs⟩ := Token.role_eq_closes.mp hrole
    rw [List.mem_singleton.mp hs] at hk hrole
    obtain ⟨o, rest, rfl, hrest⟩ := hcloses hk
    obtain ⟨ho, hopened⟩ := List.forall_mem_cons.mp hopened
    exact ⟨rest, openBehind_of_closes hrole ho, hopened, hrest⟩

theorem openAfter_append (first second : List Token) :
    openAfter sorts opened (first ++ second) =
      (openAfter sorts opened first).bind fun opened => openAfter sorts opened second := by
  induction first generalizing opened with
  | nil => rfl
  | cons t rest ih =>
    rw [List.cons_append, openAfter, openAfter, Option.bind_assoc]
    exact congrArg _ (funext fun opened => ih)

/-- Tokens that are properly nested leave open what was open. -/
theorem Balanced.openAfter_eq {tokens : List Token} (h : Balanced sorts tokens)
    (opened : List Token) : openAfter sorts opened tokens = some opened := by
  induction h generalizing opened with
  | nil => rfl
  | other ht _ ih => rw [openAfter, openBehind_of_other ht, Option.bind_some, ih]
  | pair ho hc _ _ ihi ihr =>
    rw [openAfter, openBehind_of_opens ho, Option.bind_some, openAfter_append, ihi,
      Option.bind_some, openAfter, openBehind_of_closes hc ho, Option.bind_some, ihr]

theorem Balanced.append {first second : List Token} (h₁ : Balanced sorts first)
    (h₂ : Balanced sorts second) : Balanced sorts (first ++ second) := by
  induction h₁ with
  | nil => exact h₂
  | other ht _ ih => exact .other ht ih
  | pair ho hc hi _ _ ihr =>
    rw [List.cons_append, List.append_assoc, List.cons_append]
    exact .pair ho hc hi ihr

/-- The tokens close the open brackets, innermost first, and open none for good. -/
def Completes (sorts : List Bracket) : List Token → List Token → Prop
  | [], tokens => Balanced sorts tokens
  | o :: opened, tokens => ∃ s inner c rest, tokens = inner ++ c :: rest ∧ Balanced sorts inner ∧
      o.role sorts = .opens s ∧ c.role sorts = .closes s ∧ Completes sorts opened rest

/-- Properly nested tokens may be put in front. -/
theorem Completes.append {first second : List Token} (h₁ : Balanced sorts first)
    (h₂ : Completes sorts opened second) : Completes sorts opened (first ++ second) := by
  cases opened with
  | nil => exact h₁.append h₂
  | cons o opened =>
    obtain ⟨s, inner, c, rest, rfl, hi, ho, hc, hrest⟩ := h₂
    exact ⟨s, first ++ inner, c, rest, by simp, h₁.append hi, ho, hc, hrest⟩

/-- Of the brackets that are open behind tokens, the innermost one is among the tokens, with nothing
open behind it, or all of them were open before and the tokens close the others. -/
theorem openAfter_eq_some {tokens after : List Token}
    (h : openAfter sorts opened tokens = some after) :
    (∃ closed, opened = closed ++ after ∧ Completes sorts closed tokens) ∨
    ∃ s earlier o later outer, after = o :: outer ∧ tokens = earlier ++ o :: later ∧
      o.role sorts = .opens s ∧ openAfter sorts opened earlier = some outer ∧
      Balanced sorts later := by
  induction tokens generalizing opened with
  | nil =>
    cases h
    exact .inl ⟨[], rfl, .nil⟩
  | cons t rest ih =>
    obtain ⟨between, hfirst, hrest⟩ := Option.bind_eq_some_iff.mp h
    rcases ih hrest with ⟨closed, hclosed, hcompletes⟩ |
      ⟨s, earlier, o, later, outer, hafter, rfl, hrole, hearlier, hlater⟩
    · rcases openBehind_eq_some hfirst with ⟨ht, rfl⟩ | ⟨s, ht, rfl⟩ | ⟨s, o, ht, ho, rfl⟩
      · exact .inl ⟨closed, hclosed, hcompletes.append (.other ht .nil)⟩
      · cases closed with
        | nil =>
          -- The token itself stays open, and what follows it is properly nested.
          exact .inr ⟨s, [], t, rest, opened, hclosed.symm, rfl, ht, rfl, hcompletes⟩
        | cons o closed =>
          obtain ⟨rfl, rfl⟩ := List.cons.inj hclosed
          obtain ⟨s', inner, c, rest, rfl, hi, ho, hc, hcompletes⟩ := hcompletes
          refine .inl ⟨closed, rfl, ?_⟩
          have hpair : Balanced sorts (t :: (inner ++ [c])) := .pair ho hc hi .nil
          simpa using hcompletes.append hpair
      · exact .inl
          ⟨o :: closed, by rw [hclosed]; rfl, s, [], t, rest, rfl, .nil, ho, ht, hcompletes⟩
    · refine .inr ⟨s, t :: earlier, o, later, outer, hafter, rfl, hrole, ?_, hlater⟩
      rw [openAfter, hfirst, Option.bind_some, hearlier]

/-- Tokens are properly nested if nothing is open behind them. -/
theorem balanced_iff {tokens : List Token} :
    Balanced sorts tokens ↔ openAfter sorts [] tokens = some [] := by
  refine ⟨fun h => h.openAfter_eq [], fun h => ?_⟩
  rcases openAfter_eq_some h with ⟨closed, hclosed, hcompletes⟩ | ⟨_, _, _, _, _, hafter, _⟩
  · obtain ⟨rfl, -⟩ := List.append_eq_nil_iff.mp hclosed.symm
    exact hcompletes
  · cases hafter

instance (tokens : List Token) : Decidable (Balanced sorts tokens) :=
  decidable_of_iff ((openAfter sorts [] tokens).any List.isEmpty = true) <| by
    rw [balanced_iff]
    cases openAfter sorts [] tokens with
    | none => simp
    | some after => simp

/-- A bracket that is open before tokens that leave none open is closed by one of them. -/
theorem closed_later {tokens : List Token} {o : Token} {s : Bracket}
    (h : openAfter sorts (o :: opened) tokens = some []) (ho : o.role sorts = .opens s) :
    ∃ inner c rest, tokens = inner ++ c :: rest ∧ Balanced sorts inner ∧
      c.role sorts = .closes s := by
  rcases openAfter_eq_some h with ⟨closed, hclosed, hcompletes⟩ | ⟨_, _, _, _, _, hafter, _⟩
  · rw [List.append_nil] at hclosed
    rw [← hclosed] at hcompletes
    obtain ⟨s', inner, c, rest, htokens, hinner, ho', hc, -⟩ := hcompletes
    have hs : s = s' := Role.opens.inj (ho.symm.trans ho')
    exact ⟨inner, c, rest, htokens, hinner, hs ▸ hc⟩
  · cases hafter

/-- A bracket that closes another one behind tokens closes one of them. -/
theorem opened_earlier {earlier later after : List Token} {c : Token} {s : Bracket}
    (h : openAfter sorts [] (earlier ++ c :: later) = some after) (hc : c.role sorts = .closes s) :
    ∃ before o inner, earlier = before ++ o :: inner ∧ Balanced sorts inner ∧
      o.role sorts = .opens s := by
  rw [openAfter_append] at h
  obtain ⟨opened, hearlier, hlater⟩ := Option.bind_eq_some_iff.mp h
  obtain ⟨between, hbehind, -⟩ := Option.bind_eq_some_iff.mp hlater
  obtain ⟨o, ho, rfl⟩ : ∃ o, o.role sorts = .opens s ∧ opened = o :: between := by
    rcases openBehind_eq_some hbehind with ⟨ht, -⟩ | ⟨s', ht, -⟩ | ⟨s', o, ht, ho, hopened⟩
    · rw [hc] at ht
      cases ht
    · rw [hc] at ht
      cases ht
    · have hs : s = s' := Role.closes.inj (hc.symm.trans ht)
      exact ⟨o, hs ▸ ho, hopened⟩
  rcases openAfter_eq_some hearlier with ⟨closed, hclosed, -⟩ |
    ⟨s', before, o', inner, outer, houter, rfl, -, -, hinner⟩
  · simp at hclosed
  · obtain ⟨rfl, -⟩ := List.cons.inj houter
    exact ⟨before, o, inner, rfl, hinner, ho⟩

/-- Properly nested tokens are not followed by a bracket that closes one of them. -/
theorem Balanced.openAfter_closes {earlier : List Token} {c : Token} {s : Bracket}
    (h : Balanced sorts earlier) (hc : c.role sorts = .closes s) (later : List Token) :
    openAfter sorts [] (earlier ++ c :: later) = none := by
  rw [openAfter_append, h.openAfter_eq, Option.bind_some, openAfter]
  simp [openBehind, hc]

/-- Where every bracket that closes one has one to close, brackets are properly nested if every one
that is opened is closed. -/
theorem balanced_iff_closed {tokens after : List Token}
    (h : openAfter sorts [] tokens = some after) :
    Balanced sorts tokens ↔ ∀ before o rest s, tokens = before ++ o :: rest →
      o.role sorts = .opens s → ∃ inner c more, rest = inner ++ c :: more ∧ Balanced sorts inner ∧
        c.role sorts = .closes s := by
  constructor
  · rintro hbalanced before o rest s rfl ho
    have hall := hbalanced.openAfter_eq []
    rw [openAfter_append] at hall
    obtain ⟨opened, -, hrest⟩ := Option.bind_eq_some_iff.mp hall
    rw [openAfter, openBehind_of_opens ho, Option.bind_some] at hrest
    exact closed_later hrest ho
  · intro hclosed
    rcases openAfter_eq_some h with ⟨closed, hnil, hcompletes⟩ |
      ⟨s, earlier, o, later, outer, -, rfl, ho, -, hlater⟩
    · obtain ⟨rfl, -⟩ := List.append_eq_nil_iff.mp hnil.symm
      exact hcompletes
    · -- The innermost bracket that stays open would be closed, behind tokens that leave nothing
      -- open.
      obtain ⟨inner, c, more, rfl, hinner, hc⟩ := hclosed _ _ _ s rfl ho
      have hnone := hinner.openAfter_closes hc more
      rw [hlater.openAfter_eq] at hnone
      cases hnone

/-- What stays open is what is opened more often than closed. -/
theorem length_openAfter {tokens after : List Token}
    (h : openAfter sorts opened tokens = some after) :
    after.length + tokens.countP (fun t => (t.role sorts).isClosing) =
      opened.length + tokens.countP fun t => (t.role sorts).isOpening := by
  induction tokens generalizing opened with
  | nil =>
    cases h
    rfl
  | cons t rest ih =>
    obtain ⟨between, hfirst, hrest⟩ := Option.bind_eq_some_iff.mp h
    have hnext := ih hrest
    rw [List.countP_cons, List.countP_cons]
    rcases openBehind_eq_some hfirst with ⟨ht, rfl⟩ | ⟨s, ht, rfl⟩ | ⟨s, o, ht, -, rfl⟩
    · have hopening : (t.role sorts).isOpening = false := by rw [ht]; rfl
      have hclosing : (t.role sorts).isClosing = false := by rw [ht]; rfl
      simpa [hopening, hclosing] using hnext
    · have hopening : (t.role sorts).isOpening = true := by rw [ht]; rfl
      have hclosing : (t.role sorts).isClosing = false := by rw [ht]; rfl
      simp only [hopening, hclosing, List.length_cons] at hnext ⊢
      simp
      omega
    · have hopening : (t.role sorts).isOpening = false := by rw [ht]; rfl
      have hclosing : (t.role sorts).isClosing = true := by rw [ht]; rfl
      simp only [hopening, hclosing, List.length_cons]
      simp
      omega

theorem balanced_iff_count {tokens after : List Token}
    (h : openAfter sorts [] tokens = some after) :
    Balanced sorts tokens ↔ tokens.countP (fun t => (t.role sorts).isOpening) =
      tokens.countP fun t => (t.role sorts).isClosing := by
  have hcount := length_openAfter h
  rw [List.length_nil, Nat.zero_add] at hcount
  rw [balanced_iff, h, Option.some.injEq, ← List.length_eq_zero_iff]
  omega

end Open

/-! ### Brackets that hold part of a statement -/

/-- The token ends a statement, or a block begins or ends with it. -/
def Token.delimits (t : Token) : Bool :=
  match t.kind with
  | .mark .separator | .mark .openBlock | .mark .closeBlock => true
  | _ => false

/-- Behind the tokens `before` come a `[`, the tokens `inner` and the `]` that closes it. -/
structure Enclosed (tokens before : List Token) (o : Token) (inner : List Token) (c : Token) :
    Prop where
  opens : o.kind = .mark .openIndex
  closes : c.kind = .mark .closeIndex
  balanced : Balanced Bracket.all inner
  start : before ++ o :: (inner ++ [c]) <+: tokens

/-- What stands between a `[` and its `]` is part of one statement. -/
def Unbroken (tokens : List Token) : Prop :=
  ∀ before o inner c, Enclosed tokens before o inner c → ∀ t ∈ inner, t.delimits = false

theorem Unbroken.part {part tokens : List Token} (h : Unbroken tokens) (hp : part <:+: tokens) :
    Unbroken part := by
  obtain ⟨before, after, rfl⟩ := hp
  intro first o inner c henclosed
  obtain ⟨rest, rfl⟩ := henclosed.start
  refine h (before ++ first) o inner c { henclosed with start := ⟨rest ++ after, ?_⟩ }
  simp

/-- The tokens up to the `n`th one behind a `[` delimit nothing, if that one closes it. -/
def unbrokenAt (tokens : List Token) (n : Nat) : Bool :=
  match tokens with
  | [] => true
  | o :: rest =>
    if o.role Bracket.all = .opens .index ∧
      (rest.drop n).head?.any (fun c => c.role Bracket.all = .closes .index) ∧
      Balanced Bracket.all (rest.take n) then (rest.take n).all fun t => !t.delimits
    else true

theorem unbroken_iff {tokens : List Token} : Unbroken tokens ↔
    ∀ i, i < tokens.length → ∀ n, n < tokens.length → unbrokenAt (tokens.drop i) n = true := by
  constructor
  · intro h i _ n _
    unfold unbrokenAt
    split
    · rfl
    next o rest hdrop =>
      split
      next hc =>
        obtain ⟨ho, hany, hinner⟩ := hc
        cases hbehind : rest.drop n with
        | nil =>
          rw [hbehind] at hany
          cases hany
        | cons c more =>
          rw [hbehind] at hany
          have hstart : tokens.take i ++ o :: (rest.take n ++ [c]) ++ more = tokens := by
            have hrest : rest.take n ++ c :: more = rest := by rw [← hbehind, List.take_append_drop]
            simp [hrest, ← hdrop]
          have henclosed : Enclosed tokens (tokens.take i) o (rest.take n) c :=
            ⟨(Token.role_eq_opens.mp ho).1, (Token.role_eq_closes.mp (of_decide_eq_true hany)).1,
              hinner, more, hstart⟩
          rw [List.all_eq_true]
          intro t ht
          rw [h _ _ _ _ henclosed t ht]
          rfl
      · rfl
  · intro h before o inner c henclosed t ht
    obtain ⟨rest, rfl⟩ := henclosed.start
    have ho : o.role Bracket.all = .opens .index :=
      Token.role_eq_opens.mpr ⟨henclosed.opens, by decide⟩
    have hc : c.role Bracket.all = .closes .index :=
      Token.role_eq_closes.mpr ⟨henclosed.closes, by decide⟩
    have hat := h before.length (by simp) inner.length (by simp; omega)
    simp [unbrokenAt, ho, hc, henclosed.balanced] at hat
    exact hat t ht

instance (tokens : List Token) : Decidable (Unbroken tokens) :=
  decidable_of_iff _ unbroken_iff.symm

end TagLang
