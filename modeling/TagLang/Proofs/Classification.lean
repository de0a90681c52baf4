import TagLang.Proofs.Layout

/-!
# What tokens are

A token tells by its kind how it is written (`Layout.Entry.Classified`).  A word is a whole run of
letters, and reserved exactly if it is in the table of reserved words; a number is a whole run of
digits, with a sign only where no value stands before it; and an operator takes two characters where
two make one.  Every token of every text is written that way (`Scan.ofText_classified`).

The laws of lexemes speak of forms, and a token knows its kind only.  The two agree: of the names,
the ones that are no words are three characters (`Layout.Entry.isWord_iff`), and no other lexeme has
the kind of a number (`Layout.Entry.isNumber_iff`).
-/

namespace TagLang

namespace TokenKind

/-- The kinds of words. -/
def isWord : TokenKind → Bool
  | name | keyword _ | bool _ => true
  | _ => false

/-- The kinds of numbers. -/
def isNumber : TokenKind → Bool
  | int _ | float _ => true
  | _ => false

/-- The kinds of words that are no names. -/
def isReserved : TokenKind → Bool
  | keyword _ | bool _ => true
  | _ => false

theorem isNumber_eq_false {kind : TokenKind} (h : kind.isWord = true) : kind.isNumber = false := by
  cases kind with
  | int | float => cases h
  | _ => rfl

end TokenKind

/-! ### Kinds of lexemes -/

namespace Lexeme

theorem isWord_wordKind (s : String) : (wordKind s).isWord = true := by
  unfold wordKind
  repeat' split
  all_goals rfl

/-- A word is reserved exactly if it stands in the table. -/
theorem isReserved_wordKind (s : String) :
    (wordKind s).isReserved = true ↔ s ∈ Script.reserved := by
  constructor
  · intro h
    refine Decidable.byContradiction fun hs => ?_
    rw [Script.wordKind_of_not_mem hs] at h
    cases h
  · intro hs
    rcases List.mem_cons.mp hs with rfl | hs
    · rfl
    rcases List.mem_cons.mp hs with rfl | hs
    · rfl
    obtain ⟨k, -, rfl⟩ := List.mem_map.mp hs
    rw [wordKind_word]
    rfl

/-- What a number is read as: a double exactly if it has a point. -/
theorem numberKind?_cases {cs : List Char} {kind : TokenKind} (h : numberKind? cs = some kind) :
    kind.isNumber = true ∧ ((∃ x, kind = .float x) ↔ '.' ∈ cs) := by
  rw [numberKind?] at h
  split at h
  next hpoint =>
    obtain ⟨x, -, rfl⟩ := Option.map_eq_some_iff.mp h
    exact ⟨rfl, fun _ => List.contains_iff_mem.mp hpoint, fun _ => ⟨x, rfl⟩⟩
  next hpoint =>
    obtain ⟨n, -, rfl⟩ := Option.map_eq_some_iff.mp h
    refine ⟨rfl, fun hfloat => ?_, fun hmem => absurd (List.contains_iff_mem.mpr hmem) hpoint⟩
    obtain ⟨x, hx⟩ := hfloat
    cases hx

/-- What an operator lexeme is read as: of all of them, only a lone `&` or `|` is a name. -/
theorem operatorKind_cases {signed : Bool} {cs after : List Char}
    (h : Form.operator.Fits signed cs after) :
    (∃ op : Operator, op.symbol.toList = cs ∧ operatorKind (String.ofList cs) = .operator op) ∨
      cs ∈ [['&'], ['|']] ∧ operatorKind (String.ofList cs) = .name := by
  cases hread : Operator.ofSymbol? (String.ofList cs) with
  | some op =>
    refine .inl ⟨op, ?_, by rw [operatorKind, hread]⟩
    rw [Operator.ofSymbol?_eq_some_iff.mp hread, String.toList_ofList]
  | none =>
    refine .inr ⟨?_, by rw [operatorKind, hread]⟩
    obtain ⟨c, more, rfl, hoperator, -, hpair⟩ := h
    rcases hpair with ⟨d, rfl, hpair⟩ | ⟨rfl, -⟩
    · rw [isPair_iff, hread] at hpair
      cases hpair
    · -- A single character: all but two of them are operators by themselves.
      have hall : operatorChars.all (fun c => (Operator.ofSymbol? (String.ofList [c])).isSome ||
          [['&'], ['|']].contains [c]) = true := by
        decide
      have hc := List.all_eq_true.mp hall c (List.contains_iff_mem.mp hoperator)
      rw [hread] at hc
      exact List.contains_iff_mem.mp hc

/-- A `-` in front of a digit is the first character of its lexeme, and a sign if it can be one. -/
theorem Form.Fits.minus {signed : Bool} {form : Form} {front back after : List Char}
    (h : form.Fits signed (front ++ '-' :: back) after) (hform : ∀ quote, form ≠ .quoted quote)
    (hdigit : (back ++ after).head?.any Char.isDigit = true) :
    front = [] ∧ (form = .number ↔ signed = true) := by
  have hmem : '-' ∈ front ++ '-' :: back := List.mem_append_right _ (List.mem_cons_self ..)
  cases form with
  | gap => exact h.elim
  | quoted quote => exact absurd rfl (hform quote)
  | mark m =>
    obtain ⟨c, hc, hcs⟩ := h
    rw [hcs, List.mem_singleton] at hmem
    subst hmem
    cases hc
  | loneName =>
    rw [Fits] at h
    rw [h] at hmem
    exact absurd hmem (by decide)
  | number =>
    obtain ⟨negative, d, ds, hcs, hsigned, hd, hds, -⟩ := h
    have hrun : '-' ∉ d :: ds := by
      intro hmem
      have hall : ∀ c ∈ d :: ds, isNumberChar c = true :=
        List.forall_mem_cons.mpr ⟨isNumberChar_of_isDigit hd, hds⟩
      exact absurd (hall '-' hmem) (by decide)
    cases negative with
    | false =>
      rw [hcs] at hmem
      exact absurd hmem hrun
    | true =>
      refine ⟨?_, fun _ => hsigned rfl, fun _ => rfl⟩
      cases front with
      | nil => rfl
      | cons e front =>
        obtain ⟨-, htail⟩ := List.cons.inj hcs
        rw [← htail] at hrun
        exact absurd (List.mem_append_right _ (List.mem_cons_self ..)) hrun
  | operator =>
    obtain ⟨c, more, hcs, -, hsign, hpair⟩ := h
    cases front with
    | nil =>
      obtain ⟨rfl, rfl⟩ := List.cons.inj hcs
      exact ⟨rfl, fun hnumber => (by cases hnumber),
        fun hsigned => absurd ⟨rfl, hsigned, hdigit⟩ hsign⟩
    | cons e front =>
      -- No operator ends with a `-` that is not its first character.
      obtain ⟨-, rfl⟩ := List.cons.inj hcs
      rcases hpair with ⟨d, hmore, op, hop⟩ | ⟨hmore, -⟩
      · have hd : '-' ∈ [d] := hmore ▸ List.mem_append_right _ (List.mem_cons_self ..)
        have hall : ∀ op ∈ Operator.all, '-' ∉ op.symbol.toList.drop 1 := by decide
        exact absurd (hop ▸ hd) (hall op op.mem_all)
      · exact absurd hmore (by simp)
  | word =>
    obtain ⟨-, -, -, -, hall, -⟩ := h
    exact absurd (hall '-' hmem) (by decide)

end Lexeme

/-! ### Entries by their kind -/

namespace Layout.Entry

/-- The lexeme is a number, perhaps a malformed one. -/
def IsNumber (s : Entry) : Prop :=
  s.kind?.all TokenKind.isNumber = true

/-- The lexeme is a word: a name, a keyword or a truth value, but neither `π` nor a lone `&` or
`|`. -/
def IsWord (s : Entry) : Prop :=
  s.kind?.any TokenKind.isWord = true ∧ s.chars ∉ [['π'], ['&'], ['|']]

/-- The lexeme is written as its kind demands, between the entry `previous` and the characters
`after`. -/
structure Classified (previous : Option Entry) (s : Entry) (after : List Char) : Prop where
  /-- A word is a run of characters of words that is as long as it can be, and starts with no
  digit. -/
  word : s.IsWord →
    s.chars ≠ [] ∧ (∀ c ∈ s.chars, Lexeme.isWordChar c = true) ∧
      s.chars.head?.any Char.isDigit = false ∧ after.head?.any Lexeme.isWordChar = false
  /-- A word is a keyword or a truth value exactly if it is reserved. -/
  reserved : s.IsWord →
    (s.kind?.any TokenKind.isReserved = true ↔ String.ofList s.chars ∈ Script.reserved)
  /-- A number is a digit and a run that is as long as it can be, perhaps behind a sign. -/
  number : s.IsNumber →
    ∃ negative d ds, s.chars = Notation.signed negative (d :: ds) ∧ d.isDigit = true ∧
      (∀ c ∈ ds, Lexeme.isNumberChar c = true) ∧ after.head?.any Lexeme.isNumberChar = false
  /-- A number is a double exactly if it has a point. -/
  point : s.IsNumber → ∀ kind, s.kind? = some kind → ((∃ x, kind = .float x) ↔ '.' ∈ s.chars)
  /-- Outside quoted text, a `-` in front of a digit belongs to a number exactly if the token before
  it does not end a value and is no word that ends right there. -/
  sign : (∀ t, s.kind? ≠ some (.str t)) → ∀ front back, s.chars = front ++ '-' :: back →
    (back ++ after).head?.any Char.isDigit = true →
      (s.IsNumber ↔ ∀ p ∈ previous, p.endsValue = false ∧ ¬ (p.IsWord ∧ s.gap ++ front = []))
  /-- Two characters that are an operator together are that operator. -/
  operator : ∀ op, s.kind? = some (.operator op) → ∀ c d rest, s.chars ++ after = c :: d :: rest →
    ∀ pair : Operator, pair.symbol.toList = [c, d] → op = pair

variable {previous : Option Entry} {s : Entry} {signed : Bool} {after : List Char}

/-- Only numbers have the kind of a number. -/
theorem isNumber_iff (h : s.form.Fits signed s.chars after) : s.IsNumber ↔ s.form = .number := by
  obtain ⟨gap, form, chars⟩ := s
  cases form with
  | gap => exact h.elim
  | number =>
    refine ⟨fun _ => rfl, fun _ => ?_⟩
    show (Lexeme.numberKind? chars).all TokenKind.isNumber = true
    cases hkind : Lexeme.numberKind? chars with
    | none => rfl
    | some kind => exact (Lexeme.numberKind?_cases hkind).1
  | operator =>
    rcases Lexeme.operatorKind_cases h with ⟨op, -, hkind⟩ | ⟨-, hkind⟩ <;>
      simp [IsNumber, kind?, Lexeme.Form.kind?, hkind, TokenKind.isNumber]
  | word =>
    have hword := TokenKind.isNumber_eq_false (Lexeme.isWord_wordKind (String.ofList chars))
    simp [IsNumber, kind?, Lexeme.Form.kind?, hword]
  | _ => simp [IsNumber, kind?, Lexeme.Form.kind?, TokenKind.isNumber]

/-- Of the names, the ones that are no words are `π` and a lone `&` or `|`. -/
theorem isWord_iff (h : s.form.Fits signed s.chars after) : s.IsWord ↔ s.form = .word := by
  obtain ⟨gap, form, chars⟩ := s
  cases form with
  | gap => exact h.elim
  | loneName =>
    have hchars : chars = ['π'] := h
    simp [IsWord, hchars]
  | number =>
    refine ⟨fun hword => ?_, fun hform => (by cases hform)⟩
    have hany : (Lexeme.numberKind? chars).any TokenKind.isWord = true := hword.1
    cases hkind : Lexeme.numberKind? chars with
    | none =>
      rw [hkind] at hany
      cases hany
    | some kind =>
      rw [hkind] at hany
      have hnumber := (Lexeme.numberKind?_cases hkind).1
      rw [TokenKind.isNumber_eq_false hany] at hnumber
      cases hnumber
  | operator =>
    rcases Lexeme.operatorKind_cases h with ⟨op, -, hkind⟩ | ⟨hlone, -⟩
    · simp [IsWord, kind?, Lexeme.Form.kind?, hkind, TokenKind.isWord]
    · exact ⟨fun hword => absurd (List.mem_cons_of_mem _ hlone) hword.2,
        fun hform => (by cases hform)⟩
  | word =>
    obtain ⟨-, -, -, -, hall, -⟩ := h
    refine ⟨fun _ => rfl, fun _ => ⟨Lexeme.isWord_wordKind _, fun hmem => ?_⟩⟩
    have hnone : [['π'], ['&'], ['|']].all (fun cs => !cs.all Lexeme.isWordChar) = true := by decide
    have hchars := List.all_eq_true.mp hnone _ hmem
    rw [List.all_eq_true.mpr hall] at hchars
    cases hchars
  | _ => simp [IsWord, kind?, Lexeme.Form.kind?, TokenKind.isWord]

/-- Only operators have the kind of an operator, and they are written with its symbol. -/
theorem eq_operator (h : s.form.Fits signed s.chars after) {op : Operator}
    (hkind : s.kind? = some (.operator op)) : s.form = .operator ∧ op.symbol.toList = s.chars := by
  have hword : ¬ s.form = .word := by
    intro hform
    have hany := ((isWord_iff h).mpr hform).1
    rw [hkind] at hany
    cases hany
  have hnumber : ¬ s.form = .number := by
    intro hform
    have hall := (isNumber_iff h).mpr hform
    rw [IsNumber, hkind] at hall
    cases hall
  obtain ⟨gap, form, chars⟩ := s
  cases form with
  | number => exact absurd rfl hnumber
  | word => exact absurd rfl hword
  | operator =>
    rcases Lexeme.operatorKind_cases h with ⟨op', hop, hknown⟩ | ⟨-, hname⟩
    · simp only [kind?, Lexeme.Form.kind?, hknown] at hkind
      cases hkind
      exact ⟨rfl, hop⟩
    · simp only [kind?, Lexeme.Form.kind?, hname] at hkind
      cases hkind
  | _ => cases hkind

/-- Where a `-` is a sign. -/
theorem signed_context_iff {gap : List Char} : (context previous gap).signed = true ↔
    ∀ p ∈ previous, p.endsValue = false ∧ ¬ (p.form = .word ∧ gap = []) := by
  cases previous with
  | none => simp [context, Scan.Context.signed, Scan.Context.start]
  | some p => by_cases hform : p.form = .word <;> simp [context, Scan.Context.signed, hform]

/-- An entry is classified by its neighbours. -/
theorem Stands.classified (h : s.Stands previous after)
    (hprevious : ∀ p ∈ previous, ∃ previous after, p.Stands previous after) :
    s.Classified previous after where
  word hword := by
    have hfits := h.2
    rw [(isWord_iff h.2).mp hword] at hfits
    obtain ⟨c, more, hchars, hdigit, hall, hafter⟩ := hfits
    refine ⟨by simp [hchars], hall, ?_, hafter⟩
    rw [hchars]
    exact hdigit
  reserved hword := by
    rw [kind?, (isWord_iff h.2).mp hword]
    exact Lexeme.isReserved_wordKind _
  number hnumber := by
    have hfits := h.2
    rw [(isNumber_iff h.2).mp hnumber] at hfits
    obtain ⟨negative, d, ds, hchars, -, hd, hds, hafter⟩ := hfits
    exact ⟨negative, d, ds, hchars, hd, hds, hafter⟩
  point hnumber kind hkind := by
    rw [kind?, (isNumber_iff h.2).mp hnumber] at hkind
    exact (Lexeme.numberKind?_cases hkind).2
  sign hstr front back hchars hdigit := by
    have hfits := h.2
    have hquoted : ∀ quote, s.form ≠ .quoted quote := by
      intro quote hform
      exact hstr _ (by rw [kind?, hform]; rfl)
    rw [hchars] at hfits
    obtain ⟨rfl, hsigned⟩ := hfits.minus hquoted hdigit
    rw [isNumber_iff h.2, hsigned, signed_context_iff, List.append_nil]
    -- A word is known by its kind.
    refine forall₂_congr fun p hp => ?_
    obtain ⟨_, _, hstands⟩ := hprevious p hp
    rw [isWord_iff hstands.2]
  operator op hkind c d rest htext pair hpair := by
    obtain ⟨hform, hsymbol⟩ := eq_operator h.2 hkind
    have hfits := h.2
    rw [hform] at hfits
    obtain ⟨e, more, hchars, -, -, hmore⟩ := hfits
    rw [hchars, List.cons_append] at htext
    obtain ⟨rfl, hnext⟩ := List.cons.inj htext
    have hpaired : Lexeme.IsPair e d := ⟨pair, hpair⟩
    rcases hmore with ⟨d', rfl, -⟩ | ⟨rfl, hno⟩
    · obtain ⟨rfl, -⟩ := List.cons.inj hnext
      have heq : op.symbol = pair.symbol := String.toList_inj.mp (by rw [hsymbol, hchars, hpair])
      have hread := Operator.ofSymbol?_symbol op
      rw [heq, Operator.ofSymbol?_symbol] at hread
      exact (Option.some.inj hread).symm
    · rw [List.nil_append] at hnext
      exact absurd hpaired (hno d (by rw [hnext]; rfl))

end Layout.Entry

/-! ### Texts -/

namespace Scan

/-- Every text is cut into gaps and lexemes in exactly one way, its tokens are the lexemes up to the
first malformed number, and every lexeme is written as its kind demands. -/
theorem ofText_classified (text : String) :
    ∃ layout : Layout text.toList, (∀ other : Layout text.toList, other = layout) ∧
      ofText text = layout.stream ∧
      ∀ earlier s later, layout.entries = earlier ++ s :: later →
        s.Classified earlier.getLast? (Layout.text later ++ layout.last) := by
  refine ⟨.of _, fun other => other.eq_of, Layout.ofText_eq_stream text _, ?_⟩
  intro earlier s later hentries
  have hlawful := (Layout.of text.toList).lawful
  rw [hentries] at hlawful
  have hs := hlawful.stands
  rw [Option.or_none] at hs
  refine hs.classified fun p hp => ?_
  -- The entry before it is the last of the earlier ones.
  obtain ⟨before, hbefore⟩ := List.getLast?_eq_some_iff.mp hp
  rw [hbefore, List.append_assoc, List.singleton_append] at hlawful
  exact ⟨_, _, hlawful.stands⟩

end Scan

end TagLang
