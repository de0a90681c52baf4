import TagLang.Proofs.Segments

/-!
# One space between the words

White space and comments only keep lexemes apart.  The text that has the lexemes of another one in a
row, with one space between them, is read as the same tokens (`Scan.ofText_respaced`).

A lexeme ends where the next character cannot belong to it, or where its own last character closes
it.  A space belongs to no lexeme but quoted text, so each lexeme can be cut out and set before a
space (`Lexeme.munch_before`); one that is open takes the rest of its text and stays the last.  The
context of a `-` is the same as well: behind a word the space replaces what kept the two apart, and
there a `-` that was no sign is not next to a digit any more.
-/

namespace TagLang

/-! ### Lexemes before a space -/

namespace Lexeme

/-- What may be put behind a lexeme: nothing, or a space and anything. -/
def Apart (next : List Char) : Prop :=
  next = [] ∨ ∃ rest, next = ' ' :: rest

theorem takeWhile_before {p : Char → Bool} (hp : p ' ' = false) {next : List Char}
    (hnext : Apart next) (cs : List Char) :
    (cs.takeWhile p ++ next).takeWhile p = cs.takeWhile p := by
  have hall : ∀ c ∈ cs.takeWhile p, p c = true := List.all_eq_true.mp List.all_takeWhile
  rw [List.takeWhile_append_of_pos hall]
  rcases hnext with rfl | ⟨rest, rfl⟩
  · simp
  · simp [hp]

/-- The second character of an operator is neither a space nor a digit. -/
theorem secondOfPair_isOperator {c d : Char}
    (h : (Operator.ofSymbol? (String.ofList [c, d])).isSome = true) :
    d ≠ ' ' ∧ d.isDigit = false := by
  obtain ⟨op, hop⟩ := Option.isSome_iff_exists.mp h
  have hsymbol : op.symbol.toList = [c, d] := by
    rw [Operator.ofSymbol?_eq_some_iff.mp hop, String.toList_ofList]
  cases op <;> cases hsymbol <;> decide

theorem secondOfPair_before {next : List Char} (hnext : Apart next) (c : Char) (cs : List Char) :
    secondOfPair c (secondOfPair c cs ++ next) = secondOfPair c cs ∧
      digitFollows (secondOfPair c cs ++ next) = false := by
  -- Where no second character is taken, what follows is the end or a space.
  have hnone : secondOfPair c next = [] ∧ digitFollows next = false := by
    rcases hnext with rfl | ⟨rest, rfl⟩
    · exact ⟨rfl, rfl⟩
    · refine ⟨if_neg fun h => ?_, rfl⟩
      exact (secondOfPair_isOperator h).1 rfl
  cases cs with
  | nil => exact hnone
  | cons d rest =>
    rw [secondOfPair]
    split
    next hpair => exact ⟨if_pos hpair, (secondOfPair_isOperator hpair).2⟩
    next => exact hnone

theorem through_before {fence : Char} {cs next : List Char}
    (hlast : cs.drop (through fence cs).length = [] → next = []) :
    through fence (through fence cs ++ next) = through fence cs := by
  rcases Scan.through_cases fence cs with ⟨inner, rest, hin, _, hthrough⟩ | ⟨hopen, hthrough⟩
  · rw [hthrough, List.append_assoc, List.singleton_append, through_append hin]
  · -- Nothing closes the text, so it goes on to the end and nothing is put behind it.
    have hnext : next = [] := hlast (by rw [hthrough, List.drop_length])
    rw [hnext, List.append_nil, hthrough, hthrough]

/-- The character starts a number, an operator or a word. -/
def isPlain (c : Char) : Bool :=
  !(isFence c || isQuote c || Text.isBlank c || (Mark.ofChar? c).isSome || isLoneName c)

theorem munch_plain {c : Char} (hc : isPlain c = true) (signed : Bool) (cs : List Char) :
    munch signed c cs =
      if c.isDigit || (c == '-' && signed && digitFollows cs) then
        (.number, cs.takeWhile isNumberChar)
      else if isOperatorChar c then (.operator, secondOfPair c cs)
      else (.word, cs.takeWhile isWordChar) := by
  simp only [isPlain, Bool.not_eq_true', Bool.or_eq_false_iff, Option.isSome_eq_false_iff,
    Option.isNone_iff_eq_none] at hc
  obtain ⟨⟨⟨⟨hfence, hquote⟩, hblank⟩, hmark⟩, hlone⟩ := hc
  simp [munch, hfence, hquote, hblank, hmark, hlone]

/-- A number, an operator or a word is read again before a space, if a sign may be one there. -/
theorem plain_before {signed signed' : Bool} (hsigned : signed = true → signed' = true) {c : Char}
    (hc : isPlain c = true) {cs more : List Char} {form : Form}
    (h : munch signed c cs = (form, more)) {next : List Char} (hnext : Apart next) :
    munch signed' c (more ++ next) = (form, more) := by
  rw [munch_plain hc] at h ⊢
  by_cases hdigit : c.isDigit = true
  · simp only [hdigit, Bool.true_or, if_true] at h ⊢
    cases h
    rw [takeWhile_before rfl hnext]
  simp only [hdigit, Bool.false_or] at h ⊢
  split at h
  next hsign =>
    -- The digit behind a sign is part of the number, and so it is still there.
    cases h
    simp only [Bool.and_eq_true] at hsign
    obtain ⟨⟨hminus, hs⟩, hdigit⟩ := hsign
    cases cs with
    | nil => cases hdigit
    | cons d rest =>
      have hd : isNumberChar d = true := (class_of_isDigit hdigit).2.2.2.2.2
      have hfollows : digitFollows ((d :: rest).takeWhile isNumberChar ++ next) = true := by
        rw [List.takeWhile_cons_of_pos hd]
        exact hdigit
      rw [hminus, hsigned hs, hfollows, takeWhile_before rfl hnext]
      rfl
  next =>
  split at h
  next hoperator =>
    cases h
    obtain ⟨hsecond, hfollows⟩ := secondOfPair_before hnext c cs
    rw [hfollows, hsecond, if_pos hoperator]
    simp
  next hoperator =>
    cases h
    have hminus : (c == '-') = false := by
      refine beq_eq_false_iff_ne.mpr ?_
      rintro rfl
      exact hoperator rfl
    rw [hminus, if_neg hoperator, takeWhile_before rfl hnext]
    simp

/-- A lexeme is read again where it is cut out and set before a space.  A sign stays one, and what
is open may only be set at the end. -/
theorem munch_before {signed signed' : Bool} (hsigned : signed = true → signed' = true) {c : Char}
    {cs more : List Char} {form : Form} (h : munch signed c cs = (form, more)) (hform : form ≠ .gap)
    {next : List Char} (hnext : Apart next) (hlast : cs.drop more.length = [] → next = []) :
    munch signed' c (more ++ next) = (form, more) := by
  by_cases hfence : isFence c = true
  · rw [munch, if_pos hfence] at h
    cases h
    exact absurd rfl hform
  by_cases hquote : isQuote c = true
  · rw [munch, if_neg hfence, if_pos hquote] at h
    cases h
    rw [munch, if_neg hfence, if_pos hquote, through_before hlast]
  by_cases hblank : Text.isBlank c = true
  · rw [munch, if_neg hfence, if_neg hquote, if_pos hblank] at h
    cases h
    exact absurd rfl hform
  cases hmark : Mark.ofChar? c with
  | some m =>
    rw [munch, if_neg hfence, if_neg hquote, if_neg hblank, hmark] at h ⊢
    cases h
    rfl
  | none =>
    by_cases hlone : isLoneName c = true
    · rw [munch, if_neg hfence, if_neg hquote, if_neg hblank, hmark] at h ⊢
      simp only [hlone, if_true] at h ⊢
      exact h
    · have hplain : isPlain c = true := by
        simp [isPlain, hfence, hquote, hblank, hmark, hlone]
      exact plain_before hsigned hplain h hnext

end Lexeme

/-! ### Words in a row -/

/-- The token marks the end of a text. -/
def TokenKind.isEnd : TokenKind → Bool
  | endOfText => true
  | _ => false

namespace Scan

/-- What a token is and how it is written. -/
def spelled (scan : Scan) : List (TokenKind × String) :=
  scan.tokens.map fun t => (t.kind, t.lexeme)

/-- The lexemes of the tokens before the end of the text. -/
def words (scan : Scan) : List String :=
  (scan.tokens.filter fun t => !t.kind.isEnd).map (·.lexeme)

/-- The lexemes of a text with one space between them. -/
def respaced (scan : Scan) : String :=
  " ".intercalate scan.words

/-- Words that stand behind another one, each with a space before it. -/
def behind (ws : List String) : List Char :=
  ws.flatMap fun word => ' ' :: word.toList

theorem toList_intercalate (word : String) (ws : List String) :
    (" ".intercalate (word :: ws)).toList = word.toList ++ behind ws := by
  induction ws generalizing word with
  | nil => simp [behind]
  | cons next ws ih =>
    rw [String.intercalate_cons_cons, String.toList_append, String.toList_append, ih]
    simp [behind]

theorem behind_cons (word : String) (ws : List String) :
    behind (word :: ws) = ' ' :: (" ".intercalate (word :: ws)).toList := by
  rw [toList_intercalate]
  rfl

theorem apart_behind (ws : List String) : Lexeme.Apart (behind ws) := by
  cases ws with
  | nil => exact .inl rfl
  | cons word ws => exact .inr ⟨_, behind_cons word ws⟩

theorem words_cons {kind : TokenKind} (hkind : kind ≠ .endOfText) (lexeme : String)
    (position : Position) (index : Nat) (scan : Scan) :
    (cons ⟨kind, lexeme, position, index⟩ scan).words = lexeme :: scan.words := by
  have hend : kind.isEnd = false := by
    cases kind with
    | endOfText => exact absurd rfl hkind
    | _ => rfl
  simp [words, cons, hend]

theorem signed_afterGap {context : Context} (h : context.signed = true) :
    context.afterGap.signed = true := by
  simp only [Context.signed, Context.afterGap, Bool.and_eq_true] at h ⊢
  exact ⟨h.1, rfl⟩

/-- Words behind a token are read like the same words at the start of a text. -/
theorem gives_behind {context : Context} {ws : List String} {tokens : List (TokenKind × String)}
    (h : ∀ position index,
      Gives (ofChars position index context.afterGap (" ".intercalate ws).toList) tokens)
    (position : Position) (index : Nat) :
    Gives (ofChars position index context (behind ws)) tokens := by
  cases ws with
  | nil =>
    -- At the end of a text the context does not matter.
    have hend := h position index
    rw [String.intercalate_nil, String.toList_empty, ofChars] at hend
    rw [show behind [] = [] from rfl, ofChars]
    exact hend
  | cons word ws =>
    rw [behind_cons]
    exact gives_space fun next => h next index

/-- The words of what is left of a text are read as its tokens, behind a space. -/
theorem ofChars_respaced {position : Position} {index : Nat} {context : Context} {cs : List Char}
    (h : (ofChars position index context cs).stop = none) (position' : Position) (index' : Nat) :
    Gives (ofChars position' index' context.afterGap
        (" ".intercalate (ofChars position index context cs).words).toList)
      (ofChars position index context cs).spelled := by
  fun_induction ofChars position index context cs generalizing position' index' with
  | case1 position index context =>
    have hwords : words ⟨[⟨.endOfText, "", position, index⟩], none⟩ = [] := rfl
    rw [hwords, String.intercalate_nil, String.toList_empty, ofChars]
    exact ⟨rfl, rfl⟩
  | case2 position index context c cs more next rest hmunch =>
    rename_i ih
    exact ih h position' index'
  | case3 position index context c cs form more hmunch next rest hform lexeme kind hkind ih =>
    let scan := ofChars next (index + 1) (.afterToken form kind) rest
    have hne : kind ≠ .endOfText := fun he => kind?_ne_endOfText (he ▸ hkind)
    have hlexeme : lexeme.toList = c :: more := String.toList_ofList
    -- A lexeme that goes on to the end of the text is the last one.
    have hlast : cs.drop more.length = [] → behind scan.words = [] := by
      intro hnil
      have hrest : rest = [] := hnil
      have hscan : scan = ⟨[⟨.endOfText, "", next, index + 1⟩], none⟩ := by
        show ofChars next (index + 1) (.afterToken form kind) rest = _
        rw [hrest, ofChars]
      rw [hscan]
      rfl
    have hread : Lexeme.munch context.afterGap.signed c (more ++ behind scan.words) =
        (form, more) :=
      Lexeme.munch_before signed_afterGap hmunch hform (apart_behind _) hlast
    rw [words_cons hne, toList_intercalate, hlexeme, List.cons_append, ofChars, hread]
    simp only [if_neg hform, hkind, List.drop_left]
    have hrest : Gives (ofChars (position'.after (c :: more)) (index' + 1) (.afterToken form kind)
        (behind scan.words)) scan.spelled :=
      gives_behind (fun position index => ih h position index) _ _
    obtain ⟨htokens, hstop⟩ := hrest
    exact ⟨congrArg ((kind, lexeme) :: ·) htokens, hstop⟩
  | case4 => cases h

/-- White space and comments carry no meaning beyond separation.  Where a text is read to its end,
its lexemes with one space between them are read to the end as well, as tokens of the same kinds
with the same lexemes; the value of a literal is part of its kind. -/
theorem ofText_respaced {text : String} (h : (ofText text).stop = none) :
    Gives (ofText (ofText text).respaced) (ofText text).spelled :=
  ofChars_respaced h .start 0

/-- A text in which hardly anything is kept apart, with comments and an open quote at its end. -/
def crowdedText : String :=
  "x=-1-1;#a#print-2;print -2.5;y==-3!z&|&&1a1_0π#b#'c#d'[-1]-1 \"e  -1"

theorem ofText_respaced_crowded :
    (ofText crowdedText).stop = none ∧
      (ofText crowdedText).respaced = "x = -1 - 1 ; print - 2 ; print -2.5 ; y == -3 ! z & | && " ++
        "1 a1_0 π 'c#d' [ -1 ] - 1 \"e  -1" ∧
      Gives (ofText (ofText crowdedText).respaced) (ofText crowdedText).spelled :=
  ⟨by decide +kernel, by decide +kernel, ofText_respaced (by decide +kernel)⟩

end Scan

end TagLang
