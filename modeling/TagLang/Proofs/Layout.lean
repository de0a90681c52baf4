import TagLang.Proofs.Respacing
import TagLang.Proofs.Spelling

/-!
# Layouts

A text is cut into gaps and lexemes in exactly one way (`Layout.of`, `Layout.eq_of`), and the tokens
of a text are the lexemes of its layout, up to the first malformed number
(`Layout.ofText_eq_stream`).

What a lexeme is does not depend on how a text is scanned.  `Lexeme.Form.Fits` says for each form
which characters belong to it and where it ends, given what comes behind it; only the sign of a
number looks at what stands before it (`Layout.Entry.context`).  The scanner takes a piece off the
text exactly if it is such a lexeme (`Lexeme.Form.fits_of_munch`, `Lexeme.Form.Fits.munch_eq`), so
both ends of every lexeme are decided by its neighbours.
-/

namespace TagLang

/-! ### Lexemes -/

namespace Lexeme

/-- Two characters are an operator together. -/
def IsPair (c d : Char) : Prop :=
  ∃ op : Operator, op.symbol.toList = [c, d]

/-- The characters are a lexeme of the form where `after` comes behind them; `signed` says that a
`-` in front of a digit is a sign here.

Quoted text ends at the next quote of its kind, and at the end of the text if there is none.
Numbers and words are runs, which no further character of theirs follows; a word does not start with
a digit.  An operator has two characters if the first two that stand there are an operator
together. -/
def Form.Fits (signed : Bool) (form : Form) (cs after : List Char) : Prop :=
  match form with
  | gap => False
  | quoted quote =>
    isQuote quote = true ∧ ∃ inner, quote ∉ inner ∧
      (cs = quote :: (inner ++ [quote]) ∨ cs = quote :: inner ∧ after = [])
  | mark m => ∃ c, Mark.ofChar? c = some m ∧ cs = [c]
  | loneName => cs = ['π']
  | number =>
    ∃ negative d ds, cs = Notation.signed negative (d :: ds) ∧ (negative = true → signed = true) ∧
      d.isDigit = true ∧ (∀ c ∈ ds, isNumberChar c = true) ∧ after.head?.any isNumberChar = false
  | operator =>
    ∃ c more, cs = c :: more ∧ isOperatorChar c = true ∧
      ¬ (c = '-' ∧ signed = true ∧ (more ++ after).head?.any Char.isDigit = true) ∧
      ((∃ d, more = [d] ∧ IsPair c d) ∨ more = [] ∧ ∀ d, after.head? = some d → ¬ IsPair c d)
  | word =>
    ∃ c more, cs = c :: more ∧ c.isDigit = false ∧ (∀ d ∈ cs, isWordChar d = true) ∧
      after.head?.any isWordChar = false

/-! ### Runs -/

theorem isPair_iff {c d : Char} :
    IsPair c d ↔ (Operator.ofSymbol? (String.ofList [c, d])).isSome = true := by
  rw [Option.isSome_iff_exists]
  refine exists_congr fun op => ?_
  rw [Operator.ofSymbol?_eq_some_iff, ← String.toList_inj, String.toList_ofList]

theorem isNumberChar_of_isDigit {c : Char} (h : c.isDigit = true) : isNumberChar c = true := by
  simp [isNumberChar, h]

theorem digitFollows_eq (cs : List Char) : digitFollows cs = cs.head?.any Char.isDigit := by
  cases cs <;> rfl

/-- A run of characters that goes on as long as it can. -/
theorem takeWhile_append_eq_iff {p : Char → Bool} {as after : List Char} :
    (as ++ after).takeWhile p = as ↔ (∀ a ∈ as, p a = true) ∧ after.head?.any p = false := by
  have hend : after.takeWhile p = [] ↔ after.head?.any p = false := by
    cases after with
    | nil => exact ⟨fun _ => rfl, fun _ => rfl⟩
    | cons b after => cases hb : p b <;> simp [hb]
  constructor
  · intro h
    have hall : ∀ a ∈ as, p a = true := by
      rw [← h]
      exact List.all_eq_true.mp List.all_takeWhile
    rw [List.takeWhile_append_of_pos hall] at h
    exact ⟨hall, hend.mp (List.append_right_eq_self.mp h)⟩
  · rintro ⟨hall, hafter⟩
    rw [List.takeWhile_append_of_pos hall, hend.mpr hafter, List.append_nil]

/-- Quoted text goes on to the next quote, or to the end if there is none. -/
theorem through_append_eq_iff {fence : Char} {more after : List Char} :
    through fence (more ++ after) = more ↔
      ∃ inner, fence ∉ inner ∧ (more = inner ++ [fence] ∨ more = inner ∧ after = []) := by
  constructor
  · intro h
    rcases Scan.through_cases fence (more ++ after) with
      ⟨inner, rest, hin, _, hthrough⟩ | ⟨hopen, hthrough⟩
    · exact ⟨inner, hin, .inl (h.symm.trans hthrough)⟩
    · have hafter : after = [] := List.append_right_eq_self.mp (hthrough.symm.trans h)
      refine ⟨more, fun hmem => hopen (List.mem_append_left _ hmem), .inr ⟨rfl, hafter⟩⟩
  · rintro ⟨inner, hin, rfl | ⟨rfl, rfl⟩⟩
    · rw [List.append_assoc, List.singleton_append, through_append hin]
    · rw [List.append_nil]
      rcases Scan.through_cases fence more with ⟨inner, rest, _, hmore, _⟩ | ⟨_, hthrough⟩
      · exact absurd (hmore ▸ List.mem_append_right _ (List.mem_cons_self ..)) hin
      · exact hthrough

theorem secondOfPair_append_eq_iff {c : Char} {more after : List Char} :
    secondOfPair c (more ++ after) = more ↔
      (∃ d, more = [d] ∧ IsPair c d) ∨ more = [] ∧ ∀ d, after.head? = some d → ¬ IsPair c d := by
  cases more with
  | nil =>
    cases after with
    | nil => simp [secondOfPair]
    | cons d after => simp [secondOfPair, isPair_iff]
  | cons d more =>
    rw [List.cons_append, secondOfPair]
    split
    next hpair =>
      constructor
      · intro h
        exact .inl ⟨d, h.symm, isPair_iff.mpr hpair⟩
      · rintro (⟨e, he, _⟩ | ⟨hnil, _⟩)
        · cases he
          rfl
        · cases hnil
    next hpair =>
      constructor
      · intro h
        cases h
      · rintro (⟨e, he, hp⟩ | ⟨hnil, _⟩)
        · cases he
          exact absurd (isPair_iff.mp hp) hpair
        · cases hnil

/-! ### Pieces -/

theorem isWordChar_eq {c : Char} : isWordChar c = (isPlain c && !isOperatorChar c) := by
  simp [isWordChar, isPlain, Bool.not_or]

theorem munch_fence (signed : Bool) (cs : List Char) :
    munch signed '#' cs = (.gap, through '#' cs) :=
  rfl

theorem munch_blank {c : Char} (h : Text.isBlank c = true) (signed : Bool) (cs : List Char) :
    munch signed c cs = (.gap, []) := by
  have hfence : ¬ isFence c = true := by
    intro hc
    rw [beq_iff_eq.mp hc] at h
    exact absurd h (by decide)
  have hquote : ¬ isQuote c = true := by
    intro hc
    rcases Bool.or_eq_true_iff.mp hc with hc | hc <;> rw [beq_iff_eq.mp hc] at h <;>
      exact absurd h (by decide)
  rw [munch, if_neg hfence, if_neg hquote, if_pos h]

/-- What is taken at a plain character is a number, an operator or a word. -/
theorem Form.fits_of_munch_plain {signed : Bool} {c : Char} {more after : List Char} {form : Form}
    (hplain : isPlain c = true) (h : munch signed c (more ++ after) = (form, more)) :
    form.Fits signed (c :: more) after := by
  rw [munch_plain hplain] at h
  split at h
  next hnumber =>
    obtain ⟨rfl, hrun⟩ := Prod.mk.inj h
    obtain ⟨hall, hafter⟩ := takeWhile_append_eq_iff.mp hrun
    by_cases hdigit : c.isDigit = true
    · exact ⟨false, c, more, rfl, fun hneg => (by cases hneg), hdigit, hall, hafter⟩
    · -- A sign, and the digit behind it is the first character of the run.
      simp only [hdigit, Bool.false_or, Bool.and_eq_true, beq_iff_eq, digitFollows_eq] at hnumber
      obtain ⟨⟨rfl, hsigned⟩, hfollows⟩ := hnumber
      cases more with
      | nil =>
        cases after with
        | nil => cases hfollows
        | cons d after =>
          have hd : isNumberChar d = true := isNumberChar_of_isDigit hfollows
          exact absurd (hd.symm.trans hafter) Bool.noConfusion
      | cons d ds =>
        exact ⟨true, d, ds, rfl, fun _ => hsigned, hfollows,
          fun e he => hall e (List.mem_cons_of_mem _ he), hafter⟩
  next hnumber =>
    split at h
    next hoperator =>
      obtain ⟨rfl, hpair⟩ := Prod.mk.inj h
      refine ⟨c, more, rfl, hoperator, ?_, secondOfPair_append_eq_iff.mp hpair⟩
      -- A `-` before a digit would have been taken as the sign of a number.
      rintro ⟨rfl, hsigned, hfollows⟩
      rw [hsigned, digitFollows_eq, hfollows] at hnumber
      exact hnumber rfl
    next hoperator =>
      obtain ⟨rfl, hrun⟩ := Prod.mk.inj h
      obtain ⟨hall, hafter⟩ := takeWhile_append_eq_iff.mp hrun
      have hc : isWordChar c = true := by simp [isWordChar_eq, hplain, hoperator]
      refine ⟨c, more, rfl, ?_, List.forall_mem_cons.mpr ⟨hc, hall⟩, hafter⟩
      simp only [Bool.or_eq_true, not_or] at hnumber
      exact Bool.eq_false_iff.mpr hnumber.1

/-- What is taken as a lexeme is one: no character more, and none less, belongs to it. -/
theorem Form.fits_of_munch {signed : Bool} {c : Char} {more after : List Char} {form : Form}
    (h : munch signed c (more ++ after) = (form, more)) (hform : form ≠ .gap) :
    form.Fits signed (c :: more) after := by
  -- The tests are made in the order in which the first character is looked at.
  by_cases hfence : isFence c = true
  · rw [munch, if_pos hfence] at h
    exact absurd (congrArg Prod.fst h).symm hform
  by_cases hquote : isQuote c = true
  · rw [munch, if_neg hfence, if_pos hquote] at h
    obtain ⟨rfl, hthrough⟩ := Prod.mk.inj h
    obtain ⟨inner, hin, hmore⟩ := through_append_eq_iff.mp hthrough
    refine ⟨hquote, inner, hin, ?_⟩
    rcases hmore with rfl | ⟨rfl, hafter⟩
    · exact .inl rfl
    · exact .inr ⟨rfl, hafter⟩
  by_cases hblank : Text.isBlank c = true
  · rw [munch, if_neg hfence, if_neg hquote, if_pos hblank] at h
    exact absurd (congrArg Prod.fst h).symm hform
  cases hmark : Mark.ofChar? c with
  | some m =>
    rw [munch, if_neg hfence, if_neg hquote, if_neg hblank, hmark] at h
    obtain ⟨rfl, rfl⟩ := Prod.mk.inj h
    exact ⟨c, hmark, rfl⟩
  | none =>
    by_cases hlone : isLoneName c = true
    · rw [munch, if_neg hfence, if_neg hquote, if_neg hblank, hmark] at h
      simp only [hlone, if_true] at h
      obtain ⟨rfl, rfl⟩ := Prod.mk.inj h
      rw [beq_iff_eq.mp hlone]
      rfl
    · have hplain : isPlain c = true := by
        simp [isPlain, hfence, hquote, hblank, hmark, hlone]
      exact fits_of_munch_plain hplain h

/-- A lexeme is taken as it is. -/
theorem Form.Fits.munch_eq {signed : Bool} {form : Form} {cs after : List Char}
    (h : form.Fits signed cs after) :
    ∃ c more, cs = c :: more ∧ munch signed c (more ++ after) = (form, more) := by
  cases form with
  | gap => exact h.elim
  | quoted quote =>
    obtain ⟨hquote, inner, hin, hcs⟩ := h
    have hfence : ¬ isFence quote = true := by
      rcases Bool.or_eq_true_iff.mp hquote with h | h <;> rw [beq_iff_eq.mp h] <;> decide
    have hmunch : ∀ cs, munch signed quote cs = (.quoted quote, through quote cs) := by
      intro cs
      rw [munch, if_neg hfence, if_pos hquote]
    rcases hcs with rfl | ⟨rfl, hafter⟩
    · refine ⟨quote, _, rfl, ?_⟩
      rw [hmunch, through_append_eq_iff.mpr ⟨inner, hin, .inl rfl⟩]
    · refine ⟨quote, _, rfl, ?_⟩
      rw [hmunch, through_append_eq_iff.mpr ⟨inner, hin, .inr ⟨rfl, hafter⟩⟩]
  | mark m =>
    obtain ⟨c, hc, rfl⟩ := h
    refine ⟨c, [], rfl, ?_⟩
    unfold Mark.ofChar? at hc
    split at hc <;> cases hc <;> rfl
  | loneName =>
    rw [Form.Fits] at h
    exact ⟨'π', [], h, rfl⟩
  | number =>
    obtain ⟨negative, d, ds, rfl, hsigned, hd, hds, hafter⟩ := h
    cases negative with
    | false =>
      refine ⟨d, ds, rfl, ?_⟩
      rw [munch_digit hd, takeWhile_append_eq_iff.mpr ⟨hds, hafter⟩]
    | true =>
      refine ⟨'-', d :: ds, rfl, ?_⟩
      have hall : ∀ c ∈ d :: ds, isNumberChar c = true :=
        List.forall_mem_cons.mpr ⟨isNumberChar_of_isDigit hd, hds⟩
      rw [hsigned rfl, List.cons_append, munch_sign hd, ← List.cons_append,
        takeWhile_append_eq_iff.mpr ⟨hall, hafter⟩]
  | operator =>
    obtain ⟨c, more, rfl, hoperator, hsign, hpair⟩ := h
    refine ⟨c, more, rfl, ?_⟩
    have hclass : operatorChars.all (fun c => isPlain c && !c.isDigit) = true := by decide
    have hc := List.all_eq_true.mp hclass c (List.contains_iff_mem.mp hoperator)
    simp only [Bool.and_eq_true, Bool.not_eq_true'] at hc
    obtain ⟨hplain, hdigit⟩ := hc
    rw [munch_plain hplain, if_neg, if_pos hoperator, secondOfPair_append_eq_iff.mpr hpair]
    -- Numbers are looked for first, and the operator must not be the sign of one.
    intro hnumber
    simp only [hdigit, Bool.false_or, Bool.and_eq_true, beq_iff_eq, digitFollows_eq] at hnumber
    exact hsign ⟨hnumber.1.1, hnumber.1.2, hnumber.2⟩
  | word =>
    obtain ⟨c, more, rfl, hdigit, hall, hafter⟩ := h
    obtain ⟨hc, hmore⟩ := List.forall_mem_cons.mp hall
    refine ⟨c, more, rfl, ?_⟩
    rw [munch_word hc hdigit, takeWhile_append_eq_iff.mpr ⟨hmore, hafter⟩]

end Lexeme

/-! ### Layouts -/

namespace Layout

/-- A gap and the lexeme behind it. -/
structure Entry where
  gap : List Char
  form : Lexeme.Form
  chars : List Char

namespace Entry

/-- The characters of an entry. -/
def text (s : Entry) : List Char :=
  s.gap ++ s.chars

/-- The kind of token that the lexeme is; none for a malformed number. -/
def kind? (s : Entry) : Option TokenKind :=
  s.form.kind? s.chars

/-- After the lexeme a `-` subtracts; a malformed number ends a value like any other. -/
def endsValue (s : Entry) : Bool :=
  s.kind?.all TokenKind.endsValue

/-- What stands before a place: `previous` is the entry before it, and `gap` lies between the
two. -/
def context (previous : Option Entry) (gap : List Char) : Scan.Context :=
  match previous with
  | none => .start
  | some p => ⟨p.endsValue, p.form == .word && gap.isEmpty⟩

/-- The entry stands between the entry `previous` and the characters `after`. -/
def Stands (previous : Option Entry) (s : Entry) (after : List Char) : Prop :=
  Scan.Gap s.gap ∧ s.form.Fits (context previous s.gap).signed s.chars after

end Entry

/-- The characters of entries one behind the other. -/
def text (entries : List Entry) : List Char :=
  entries.flatMap Entry.text

/-- Entries one behind the other, the first one behind `previous`, and a gap at the end of the
text. -/
def Lawful (last : List Char) : Option Entry → List Entry → Prop
  | _, [] => Scan.LastGap last
  | previous, s :: rest => s.Stands previous (text rest ++ last) ∧ Lawful last (some s) rest

/-- The entries of what is left of a text, and the gap at its end, behind the entry `previous` and a
gap that has been passed. -/
def cut (previous : Option Entry) (gap : List Char) : List Char → List Entry × List Char
  | [] => ([], gap)
  | c :: cs =>
    let (form, more) := Lexeme.munch (Entry.context previous gap).signed c cs
    let rest := cs.drop more.length
    if form = .gap then
      cut previous (gap ++ c :: more) rest
    else
      let s : Entry := ⟨gap, form, c :: more⟩
      let (entries, last) := cut (some s) [] rest
      (s :: entries, last)
termination_by cs => cs.length
decreasing_by all_goals simp only [List.length_drop, List.length_cons]; omega

/-- The stream that entries stand for: their tokens, numbered from `index`, up to the first
malformed number or the end of the text. -/
def scan (last before : List Char) (index : Nat) : List Entry → Scan
  | [] => ⟨[⟨.endOfText, "", .behind (before ++ last), index⟩], none⟩
  | s :: rest =>
    let lexeme := String.ofList s.chars
    let position := Position.behind (before ++ s.gap)
    match s.kind? with
    | some kind =>
      .cons ⟨kind, lexeme, position, index⟩ (scan last (before ++ s.text) (index + 1) rest)
    | none => ⟨[], some ⟨lexeme, position.line⟩⟩

end Layout

/-- A text cut into gaps and lexemes. -/
structure Layout (cs : List Char) where
  entries : List Layout.Entry
  last : List Char
  covers : Layout.text entries ++ last = cs
  lawful : Layout.Lawful last none entries

namespace Layout

/-- The stream that a layout stands for. -/
def stream {cs : List Char} (layout : Layout cs) : Scan :=
  scan layout.last [] 0 layout.entries

/-! ### Scanning -/

theorem context_gap (previous : Option Entry) {gap more : List Char} (c : Char) :
    Entry.context previous (gap ++ c :: more) = (Entry.context previous gap).afterGap := by
  cases previous with
  | none => rfl
  | some p => simp [Entry.context, Scan.Context.afterGap]

theorem context_token {s : Entry} {kind : TokenKind} (h : s.kind? = some kind) :
    Entry.context (some s) [] = .afterToken s.form kind := by
  simp [Entry.context, Scan.Context.afterToken, Entry.endsValue, h]

theorem text_cons (s : Entry) (rest : List Entry) : text (s :: rest) = s.text ++ text rest :=
  List.flatMap_cons

/-- Scanning follows the cut. -/
theorem ofChars_eq_scan (previous : Option Entry) (gap cs before : List Char) (index : Nat) :
    Scan.ofChars (.behind (before ++ gap)) index (Entry.context previous gap) cs =
      scan (cut previous gap cs).2 before index (cut previous gap cs).1 := by
  fun_induction cut previous gap cs generalizing before index with
  | case1 previous gap => rw [Scan.ofChars, scan]
  | case2 previous gap c cs more rest hmunch =>
    rename_i ih
    have hnext : (Position.behind (before ++ gap)).after (c :: more) =
        .behind (before ++ (gap ++ c :: more)) := by
      rw [Position.after_behind, List.append_assoc]
    rw [← ih, Scan.ofChars, hmunch, context_gap, ← hnext]
    rfl
  | case3 previous gap c cs form more hmunch rest hform s entries last hcut ih =>
    have hnext : (Position.behind (before ++ gap)).after (c :: more) =
        .behind (before ++ s.text ++ []) := by
      rw [Position.after_behind, List.append_assoc, List.append_nil]
      rfl
    rw [Scan.ofChars, hmunch, scan]
    simp only [if_neg hform]
    cases hkind : s.kind? with
    | none =>
      have hform : form.kind? (c :: more) = none := hkind
      rw [hform]
    | some kind =>
      have hform : form.kind? (c :: more) = some kind := hkind
      have hscan := ih (before ++ s.text) (index + 1)
      rw [hcut, context_token hkind, ← hnext] at hscan
      rw [hform]
      exact congrArg (Scan.cons ⟨kind, String.ofList (c :: more), .behind (before ++ gap), index⟩)
        hscan

/-! ### Cutting -/

/-- What is cut is lawful, and nothing is lost. -/
theorem lawful_cut {gap : List Char} (hgap : Scan.Gap gap) (previous : Option Entry)
    (cs : List Char) :
    Lawful (cut previous gap cs).2 previous (cut previous gap cs).1 ∧
      text (cut previous gap cs).1 ++ (cut previous gap cs).2 = gap ++ cs := by
  fun_induction cut previous gap cs with
  | case1 previous gap => exact ⟨.inl hgap, (List.append_nil gap).symm⟩
  | case2 previous gap c cs more rest hmunch =>
    rename_i ih
    have hrest : more ++ rest = cs := Scan.munch_append hmunch
    rcases Scan.munch_gap hmunch with hclosed | ⟨rfl, hopen, hmore⟩
    · obtain ⟨hlawful, htext⟩ := ih (hgap.append hclosed)
      refine ⟨hlawful, htext.trans ?_⟩
      rw [List.append_assoc, List.cons_append, hrest]
    · -- An open comment takes the rest of the text.
      have hnil : rest = [] := by
        rw [← hmore] at hrest
        exact List.append_right_eq_self.mp hrest
      rw [hnil, cut, hmore]
      exact ⟨.inr ⟨gap, cs, rfl, hgap, hopen⟩, rfl⟩
  | case3 previous gap c cs form more hmunch rest hform s entries last hcut ih =>
    have hrest : more ++ rest = cs := Scan.munch_append hmunch
    rw [hcut] at ih
    obtain ⟨hlawful, htext⟩ := ih .nil
    rw [List.nil_append] at htext
    refine ⟨⟨⟨hgap, ?_⟩, hlawful⟩, ?_⟩
    · rw [htext]
      rw [← hrest] at hmunch
      exact Lexeme.Form.fits_of_munch hmunch hform
    · show text (s :: entries) ++ last = gap ++ c :: cs
      rw [text_cons, List.append_assoc, htext, ← hrest, Entry.text, List.append_assoc,
        List.cons_append]

theorem cut_of_munch_gap {previous : Option Entry} {passed cs more : List Char} {c : Char}
    (h : ∀ signed, Lexeme.munch signed c cs = (.gap, more)) :
    cut previous passed (c :: cs) = cut previous (passed ++ c :: more) (cs.drop more.length) := by
  rw [cut, h]
  rfl

/-- A gap is passed. -/
theorem cut_gap {gap : List Char} (hgap : Scan.Gap gap) (previous : Option Entry)
    (passed rest : List Char) :
    cut previous passed (gap ++ rest) = cut previous (passed ++ gap) rest := by
  induction hgap generalizing passed with
  | nil => rw [List.nil_append, List.append_nil]
  | @blank c cs hblank _ ih =>
    have hmunch : ∀ signed, Lexeme.munch signed c (cs ++ rest) = (.gap, []) := by
      intro signed
      exact Lexeme.munch_blank hblank signed _
    rw [List.cons_append, cut_of_munch_gap hmunch]
    show cut previous (passed ++ [c]) (cs ++ rest) = _
    rw [ih, List.append_assoc, List.singleton_append]
  | @comment inner cs hin _ ih =>
    have hmunch : ∀ signed, Lexeme.munch signed '#' (inner ++ '#' :: cs ++ rest) =
        (.gap, inner ++ ['#']) := by
      intro signed
      rw [Lexeme.munch_fence, List.append_assoc, List.cons_append, Lexeme.through_append hin]
    have hdrop : (inner ++ '#' :: cs ++ rest).drop (inner ++ ['#']).length = cs ++ rest := by
      rw [show inner ++ '#' :: cs ++ rest = (inner ++ ['#']) ++ (cs ++ rest) by simp,
        List.drop_left]
    rw [List.cons_append, cut_of_munch_gap hmunch, hdrop, ih]
    simp

/-- The gap at the end is passed. -/
theorem cut_last {last : List Char} (hlast : Scan.LastGap last) (previous : Option Entry) :
    cut previous [] last = ([], last) := by
  rcases hlast with hgap | ⟨gap, inner, rfl, hgap, hin⟩
  · have hcut := cut_gap hgap previous [] []
    rw [List.append_nil, List.nil_append, cut] at hcut
    exact hcut
  · have hmunch : ∀ signed, Lexeme.munch signed '#' inner = (.gap, inner) := by
      intro signed
      rw [Lexeme.munch_fence]
      have hthrough := Lexeme.through_append_eq_iff.mpr ⟨inner, hin, .inr ⟨rfl, (rfl : [] = [])⟩⟩
      rw [List.append_nil] at hthrough
      rw [hthrough]
    rw [cut_gap hgap, cut_of_munch_gap hmunch, List.drop_length, cut, List.nil_append]

theorem cut_eq_of_lawful {last : List Char} {previous : Option Entry} {entries : List Entry}
    (h : Lawful last previous entries) :
    cut previous [] (text entries ++ last) = (entries, last) := by
  induction entries generalizing previous with
  | nil => exact cut_last h previous
  | cons s rest ih =>
    obtain ⟨⟨hgap, hfits⟩, hrest⟩ := h
    obtain ⟨c, more, hchars, hmunch⟩ := hfits.munch_eq
    have hform : s.form ≠ .gap := fun hgap => by
      rw [hgap] at hfits
      exact hfits
    have htext : text (s :: rest) ++ last = s.gap ++ (c :: (more ++ (text rest ++ last))) := by
      rw [text_cons, Entry.text, hchars, List.append_assoc, List.append_assoc, List.cons_append]
    rw [htext, cut_gap hgap, List.nil_append, cut, hmunch]
    simp only [if_neg hform, List.drop_left]
    have hs : s = ⟨s.gap, s.form, c :: more⟩ := by rw [← hchars]
    rw [← hs, ih hrest]

/-- A text can be cut. -/
def of (cs : List Char) : Layout cs where
  entries := (cut none [] cs).1
  last := (cut none [] cs).2
  covers := (lawful_cut .nil none cs).2
  lawful := (lawful_cut .nil none cs).1

/-- A text can be cut in one way only. -/
theorem eq_of {cs : List Char} (layout : Layout cs) : layout = of cs := by
  obtain ⟨entries, last, rfl, lawful⟩ := layout
  have hcut := cut_eq_of_lawful lawful
  simp only [of, mk.injEq]
  rw [hcut]
  exact ⟨rfl, rfl⟩

/-- The tokens of a text are the lexemes of its layout. -/
theorem ofText_eq_stream (text : String) (layout : Layout text.toList) :
    Scan.ofText text = layout.stream := by
  rw [layout.eq_of]
  exact ofChars_eq_scan none [] text.toList [] 0

/-- Every entry stands between its neighbours. -/
theorem Lawful.stands {last : List Char} {previous : Option Entry} {earlier later : List Entry}
    {s : Entry} (h : Lawful last previous (earlier ++ s :: later)) :
    s.Stands (earlier.getLast?.or previous) (Layout.text later ++ last) := by
  induction earlier generalizing previous with
  | nil => exact h.1
  | cons e earlier ih =>
    have hs := ih h.2
    rw [List.getLast?_cons, Option.some_or]
    cases hlast : earlier.getLast? with
    | none => simpa [hlast] using hs
    | some p => simpa [hlast] using hs

end Layout

end TagLang
