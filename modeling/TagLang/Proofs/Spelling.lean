import TagLang.Proofs.Scanning
import TagLang.Proofs.Script

/-!
# Reading scripts word by word

The words of a script are read back as they were written (`Script.gives_text`).  A word reads back
in front of a space; the sign of a number belongs to it unless a value stands before it, and in a
script no literal stands behind a value (`Word.Signed`).
-/

namespace TagLang

/-! ### Words of letters -/

namespace Lexeme

theorem isWordChar_eq_false_of_isBreak {c : Char} (h : isBreak c = true) :
    isWordChar c = false := by
  rcases isBreak_iff.mp h with rfl | rfl <;> rfl

/-- A character of words starts a word, unless it is a digit. -/
theorem munch_word {c : Char} (hc : isWordChar c = true) (hdigit : c.isDigit = false)
    (signed : Bool) (cs : List Char) : munch signed c cs = (.word, cs.takeWhile isWordChar) := by
  have hclass := hc
  simp only [isWordChar, Bool.not_eq_true', Bool.or_eq_false_iff] at hclass
  obtain ⟨⟨⟨⟨⟨hfence, hquote⟩, hblank⟩, hmark⟩, hlone⟩, hoperator⟩ := hclass
  have hminus : (c == '-') = false := by
    refine beq_eq_false_iff_ne.mpr ?_
    rintro rfl
    cases hoperator
  have hnone : Mark.ofChar? c = none :=
    Option.isSome_eq_false_iff.mp hmark |> Option.isNone_iff_eq_none.mp
  simp [munch, hfence, hquote, hblank, hnone, hlone, hdigit, hminus, hoperator]

/-- A word is read as what it stands for. -/
theorem reads_word (signed : Bool) {s : String} (hne : s.toList ≠ [])
    (hall : ∀ c ∈ s.toList, isWordChar c = true) (hdigit : digitFollows s.toList = false) :
    Reads signed s.toList (wordKind s) := by
  obtain ⟨first, more, htext⟩ := List.exists_cons_of_ne_nil hne
  rw [htext] at hall hdigit
  refine ⟨.word, first, more, htext, Form.noConfusion, ?_, fun c rest hc => ?_⟩
  · rw [Form.kind?, String.ofList_toList]
  · have hfirst : isWordChar first = true := hall first (List.mem_cons_self ..)
    have hmore : ∀ c ∈ more, isWordChar c = true := fun c hc => hall c (List.mem_cons_of_mem _ hc)
    rw [munch_word hfirst hdigit,
      takeWhile_append_of_all hmore (isWordChar_eq_false_of_isBreak hc)]

theorem wordKind_word (k : Keyword) : wordKind k.word = .keyword k := by
  cases k with
  | convert target => cases target <;> rfl
  | _ => rfl

theorem reads_keyword (signed : Bool) (k : Keyword) : Reads signed k.word.toList (.keyword k) := by
  have hword : k.word.toList ≠ [] ∧ k.word.toList.all isWordChar = true ∧
      digitFollows k.word.toList = false := by
    cases k with
    | convert target => cases target <;> decide
    | _ => decide
  rw [← wordKind_word k]
  exact reads_word signed hword.1 (List.all_eq_true.mp hword.2.1) hword.2.2

end Lexeme

/-! ### Texts that start with a digit -/

namespace Notation

theorem takeSign_signed {c : Char} (hc : c.isDigit = true) (negative : Bool) (cs : List Char) :
    takeSign (signed negative (c :: cs)) = (negative, c :: cs) := by
  cases negative with
  | true => rfl
  | false => exact takeSign_of_isDigit hc cs

/-- What starts with a digit, behind a sign if there is one, is a decimal or nothing. -/
theorem read?_signed {c : Char} (hc : c.isDigit = true) (negative : Bool) (cs : List Char) :
    read? (signed negative (c :: cs)) = decimal? negative (c :: cs) := by
  -- It is none of the words for infinity and for no number.
  have hword : ∀ {first : Char} {more : List Char}, first.isDigit = false →
      String.ofList ((c :: cs).map Char.toLower) ≠ String.ofList (first :: more) := by
    intro first more hfirst he
    have hlist := String.ofList_injective he
    have hlower : c.toLower = c := by
      refine dif_neg fun hupper => ?_
      simp [Char.isDigit, UInt32.le_iff_toNat_le] at hc hupper
      omega
    rw [List.map_cons, hlower] at hlist
    rw [(List.cons.inj hlist).1, hfirst] at hc
    cases hc
  rw [read?, takeSign_signed hc]
  dsimp only
  rw [if_neg, if_neg (hword rfl)]
  rintro (h | h)
  · exact hword rfl h
  · exact hword rfl h

end Notation

namespace Script

theorem wordKind_of_not_mem {s : String} (h : s ∉ reserved) : Lexeme.wordKind s = .name := by
  have hnone : Keyword.ofWord? s = none := by
    refine List.find?_eq_none.mpr fun k hk => ?_
    rw [beq_iff_eq]
    rintro rfl
    exact h (List.mem_cons_of_mem _ (List.mem_cons_of_mem _ (List.mem_map_of_mem hk)))
  have htrue : s ≠ "true" := by
    rintro rfl
    exact h (List.mem_cons_self ..)
  have hfalse : s ≠ "false" := by
    rintro rfl
    exact h (List.mem_cons_of_mem _ (List.mem_cons_self ..))
  rw [Lexeme.wordKind, if_neg htrue, if_neg hfalse, hnone]

theorem reads_name (signed : Bool) {s : String} (hs : isName s = true) :
    Lexeme.Reads signed s.toList .name := by
  rw [isName, Bool.or_eq_true] at hs
  rcases hs with hs | hs
  · -- A name of one character, which is read without a look at the next.
    have hmem : s ∈ ["π", "&", "|"] := List.contains_iff_mem.mp hs
    simp only [List.mem_cons, List.not_mem_nil, or_false] at hmem
    rcases hmem with rfl | rfl | rfl
    · exact ⟨.loneName, 'π', [], by decide, Lexeme.Form.noConfusion, rfl, fun c rest _ => rfl⟩
    · refine ⟨.operator, '&', [], by decide, Lexeme.Form.noConfusion, ?_, fun c rest hc => ?_⟩
      · rw [Lexeme.Form.kind?, String.ofList_toList]
        rfl
      · rcases Lexeme.isBreak_iff.mp hc with rfl | rfl <;> cases signed <;> rfl
    · refine ⟨.operator, '|', [], by decide, Lexeme.Form.noConfusion, ?_, fun c rest hc => ?_⟩
      · rw [Lexeme.Form.kind?, String.ofList_toList]
        rfl
      · rcases Lexeme.isBreak_iff.mp hc with rfl | rfl <;> cases signed <;> rfl
  · simp only [Bool.and_eq_true, Bool.not_eq_true', List.isEmpty_eq_false_iff,
      List.all_eq_true] at hs
    obtain ⟨⟨⟨hne, hall⟩, hdigit⟩, hreserved⟩ := hs
    have hnot : s ∉ reserved := fun hm => by
      rw [List.contains_iff_mem.mpr hm] at hreserved
      cases hreserved
    rw [← wordKind_of_not_mem hnot]
    exact Lexeme.reads_word signed hne hall hdigit

/-! ### Decimals -/

namespace Decimal

variable (d : Decimal)

theorem exists_digit : ∃ c cs, d.whole = c :: cs ∧ c.isDigit = true := by
  obtain ⟨c, cs, hcs⟩ := List.exists_cons_of_ne_nil d.whole_ne_nil
  refine ⟨c, cs, hcs, d.isDigit c (List.mem_append_left _ ?_)⟩
  rw [hcs]
  exact List.mem_cons_self ..

theorem decimal?_eq :
    Notation.decimal? d.negative (d.whole ++ '.' :: d.fraction) = some d.value := by
  have hwhole : ∀ c ∈ d.whole, c.isDigit = true :=
    fun c hc => d.isDigit c (List.mem_append_left _ hc)
  have hfraction : ∀ c ∈ d.fraction, c.isDigit = true :=
    fun c hc => d.isDigit c (List.mem_append_right _ hc)
  have hpoint : '.'.isDigit = false := rfl
  have htake : (d.whole ++ '.' :: d.fraction).takeWhile Char.isDigit = d.whole :=
    Lexeme.takeWhile_append_of_all hwhole hpoint _
  have hdrop : (d.whole ++ '.' :: d.fraction).dropWhile Char.isDigit = '.' :: d.fraction := by
    rw [List.dropWhile_append_of_pos hwhole, List.dropWhile_cons_of_neg (by simp [hpoint])]
  have htake' : (d.fraction ++ []).takeWhile Char.isDigit = d.fraction ++ [] :=
    List.takeWhile_append_of_pos hfraction
  have hdrop' : (d.fraction ++ []).dropWhile Char.isDigit = [] :=
    List.dropWhile_append_of_pos hfraction
  rw [List.append_nil] at htake' hdrop'
  have hne : d.whole.isEmpty = false := List.isEmpty_eq_false_iff.mpr d.whole_ne_nil
  simp [Notation.decimal?, htake, hdrop, htake', hdrop', hne, Notation.exponent?, value]

theorem read?_eq :
    Notation.read? (Notation.signed d.negative (d.whole ++ '.' :: d.fraction)) = some d.value := by
  obtain ⟨c, cs, hwhole, hc⟩ := d.exists_digit
  rw [← d.decimal?_eq, hwhole, List.cons_append, Notation.read?_signed hc]

theorem isDigit_or_of_mem {c : Char} (hc : c ∈ d.whole ++ '.' :: d.fraction) :
    c.isDigit = true ∨ c = '.' := by
  rcases List.mem_append.mp hc with hc | hc
  · exact .inl (d.isDigit c (List.mem_append_left _ hc))
  · rcases List.mem_cons.mp hc with rfl | hc
    · exact .inr rfl
    · exact .inl (d.isDigit c (List.mem_append_right _ hc))

theorem numberKind?_eq :
    Lexeme.numberKind? (Notation.signed d.negative (d.whole ++ '.' :: d.fraction)) =
      some (.float d.value) := by
  have hmem : ∀ c ∈ Notation.signed d.negative (d.whole ++ '.' :: d.fraction),
      c = '-' ∨ c ∈ d.whole ++ '.' :: d.fraction := by
    intro c hc
    cases hn : d.negative with
    | true =>
      rw [hn] at hc
      exact List.mem_cons.mp hc
    | false =>
      rw [hn] at hc
      exact .inr hc
  have hfilter : (Notation.signed d.negative (d.whole ++ '.' :: d.fraction)).filter (· != '_') =
      Notation.signed d.negative (d.whole ++ '.' :: d.fraction) := by
    refine List.filter_eq_self.mpr fun c hc => bne_iff_ne.mpr ?_
    rintro rfl
    rcases hmem _ hc with h | h
    · cases h
    · rcases d.isDigit_or_of_mem h with h | h <;> cases h
  have hpoint : (Notation.signed d.negative (d.whole ++ '.' :: d.fraction)).contains '.' =
      true := by
    have hin : '.' ∈ d.whole ++ '.' :: d.fraction :=
      List.mem_append_right _ (List.mem_cons_self ..)
    refine List.contains_iff_mem.mpr ?_
    cases d.negative with
    | true => exact List.mem_cons_of_mem _ hin
    | false => exact hin
  rw [Lexeme.numberKind?, hfilter, if_pos hpoint, d.read?_eq]
  rfl

/-- A decimal is read back, a negative one only where a sign may belong to a number. -/
theorem reads_text {signed : Bool} (h : d.negative = true → signed = true) :
    Lexeme.Reads signed d.text.toList (.float d.value) := by
  obtain ⟨c, cs, hwhole, hc⟩ := d.exists_digit
  have hkind := d.numberKind?_eq
  have hnumber : ∀ a ∈ cs ++ '.' :: d.fraction, Lexeme.isNumberChar a = true := by
    intro a ha
    have hmem : a ∈ d.whole ++ '.' :: d.fraction := by
      rw [hwhole]
      exact List.mem_cons_of_mem _ ha
    rcases d.isDigit_or_of_mem hmem with ha | rfl
    · exact (Lexeme.class_of_isDigit ha).2.2.2.2.2
    · rfl
  rw [text, String.toList_ofList]
  rw [hwhole, List.cons_append] at hkind ⊢
  exact Lexeme.reads_number hc hnumber hkind h

end Decimal

/-! ### Words -/

namespace Word

/-- The kind of token that a word is. -/
def kind : Word → TokenKind
  | literal (.int n) => .int n
  | literal (.float d) => .float d.value
  | literal (.bool b) => .bool b
  | literal (.str _ s) => .str s
  | name _ => .name
  | keyword k => .keyword k
  | operator op => .operator op
  | mark m => .mark m

/-- The word is written with a sign. -/
def isNegative : Word → Bool
  | literal (.int n) => n.toInt < 0
  | literal (.float d) => d.negative
  | _ => false

/-- The kind and the characters of a word. -/
def spelling (w : Word) : TokenKind × String :=
  (w.kind, w.text)

theorem reads {signed : Bool} {w : Word} (h : w.isNegative = true → signed = true) :
    Lexeme.Reads signed w.text.toList w.kind := by
  cases w with
  | literal l =>
    cases l with
    | int n => exact Lexeme.reads_int fun hn => h (decide_eq_true hn)
    | float d => exact d.reads_text h
    | bool b => exact Lexeme.reads_bool signed b
    | str quote s => exact Lexeme.reads_quoted signed quote.property s.property
  | name n => exact reads_name signed n.property
  | keyword k => exact Lexeme.reads_keyword signed k
  | operator op => exact Lexeme.reads_operator signed op
  | mark m =>
    rw [text, String.toList_singleton]
    exact Lexeme.reads_mark signed m

/-- No word with a sign stands behind a value. -/
def Signed : Bool → List Word → Prop
  | _, [] => True
  | afterValue, w :: rest =>
    (w.isNegative = true → afterValue = false) ∧ Signed w.kind.endsValue rest

theorem Signed.weaken {ws : List Word} (h : Signed true ws) (afterValue : Bool) :
    Signed afterValue ws := by
  cases ws with
  | nil => trivial
  | cons w rest => exact ⟨fun hn => (nomatch h.1 hn), h.2⟩

theorem Signed.of_append {afterValue : Bool} {first second : List Word}
    (h : Signed afterValue (first ++ second)) : Signed afterValue first := by
  induction first generalizing afterValue with
  | nil => trivial
  | cons w first ih => exact ⟨h.1, ih h.2⟩

end Word

/-! ### Signs -/

/-- The passage may stand behind a value if `before` says so, and is one itself if `after` does:
signs belong to the numbers that they stand before. -/
def Passage.Signs (before after : Bool) (p : Passage) : Prop :=
  ∀ rest, Word.Signed after rest → Word.Signed before (p.words ++ rest)

namespace Passage.Signs

variable {a b c : Bool} {p q : Passage}

theorem empty : Signs a a .empty :=
  fun _ h => h

theorem append (hp : Signs a b p) (hq : Signs b c q) : Signs a c (p ++ q) := by
  intro rest h
  show Word.Signed a ((p.words ++ q.words) ++ rest)
  rw [List.append_assoc]
  exact hp _ (hq rest h)

/-- Less may stand behind a value than behind anything else. -/
theorem value (h : Signs a false p) : Signs a true p :=
  fun rest hrest => h rest (hrest.weaken false)

theorem literal (l : Literal) : Signs false true (.literal l) := by
  intro rest h
  have hends : (Word.literal l).kind.endsValue = true := by cases l <;> rfl
  exact ⟨fun _ => rfl, hends ▸ h⟩

theorem reference (n : Name) : Signs a true (.reference n) :=
  fun _ h => ⟨nofun, h⟩

theorem operator (op : Operator) : Signs a false (.operator op) :=
  fun _ h => ⟨nofun, h⟩

theorem comma : Signs a false .comma :=
  fun _ h => ⟨nofun, h⟩

theorem colon : Signs a false .colon :=
  fun _ h => ⟨nofun, h⟩

theorem enclosed (first last : Mark) (kind : NodeKind)
    (hfirst : (TokenKind.mark first).endsValue = false) (h : Signs false true p) :
    Signs a (TokenKind.mark last).endsValue (.enclosed first last kind p) := by
  intro rest hrest
  show Word.Signed a ((.mark first :: (p.words ++ [.mark last])) ++ rest)
  rw [List.cons_append, List.append_assoc]
  refine ⟨nofun, ?_⟩
  show Word.Signed (TokenKind.mark first).endsValue _
  rw [hfirst]
  exact h _ ⟨nofun, hrest⟩

theorem group (h : Signs false true p) : Signs a true (.group p) :=
  enclosed .openGroup .closeGroup .group rfl h

theorem brackets (h : Signs false true p) : Signs a true (.brackets p) :=
  enclosed .openIndex .closeIndex .brackets rfl h

theorem block (h : Signs false false p) : Signs a false (.block p) :=
  enclosed .openBlock .closeBlock .block rfl h.value

theorem keyword (k : Keyword) (h : Signs false b p) : Signs a b (.keyword k p) :=
  fun rest hrest => ⟨nofun, h rest hrest⟩

/-- A name may start a statement. -/
theorem declaration (n : Name) (h : Signs true b p) :
    Signs a b (.headed (.name n) (.declaration n) p) :=
  fun rest hrest => ⟨nofun, h rest hrest⟩

theorem ended (h : Signs a true p) : Signs a false (.ended p) := by
  intro rest hrest
  show Word.Signed a ((p.words ++ [.mark .separator]) ++ rest)
  rw [List.append_assoc]
  exact h _ ⟨nofun, hrest⟩

theorem row {ps : List Passage} (h : ∀ p ∈ ps, Signs false true p) :
    Signs false true (.row ps) := by
  induction ps with
  | nil => exact empty.value
  | cons p ps ih =>
    have hp := h p (List.mem_cons_self ..)
    cases ps with
    | nil => exact hp
    | cons q ps => exact hp.append (comma.append (ih fun r hr => h r (List.mem_cons_of_mem _ hr)))

theorem subscripted (h : Signs a true p) {ss : List Passage} (hss : ∀ s ∈ ss, Signs false true s) :
    Signs a true (p.subscripted ss) := by
  induction ss generalizing p with
  | nil => exact h
  | cons s ss ih =>
    exact ih (h.append (brackets (hss s (List.mem_cons_self ..)))) fun t ht =>
      hss t (List.mem_cons_of_mem _ ht)

theorem call (f : Name) {ps : List Passage} (h : ∀ p ∈ ps, Signs false true p) :
    Signs a true (.call f ps) :=
  keyword .call ((reference f).append (group (row h)))

theorem names (more : List (Bool × Name)) : Signs true true (.names more) := by
  induction more with
  | nil => exact empty
  | cons entry more ih =>
    obtain ⟨behindComma, n⟩ := entry
    cases behindComma with
    | true => exact comma.append ((reference n).append ih)
    | false => exact (reference n).append ih

/-- An expression is a value, and does not stand behind one. -/
theorem composes : Composes (Signs false true) (Signs false true) where
  literal := literal
  name n := reference n
  unit := group empty.value
  group _ h := group h
  array _ h := brackets (row h)
  call f _ h := call f h
  ask := group (keyword .input empty.value)
  input _ h := group (keyword .input h)
  convert target _ h := group (keyword (.convert target) h)
  unary op _ _ h := (operator op).append h
  index _ _ h hs := h.append (brackets hs)
  operand _ h := h
  binary op _ _ _ h hq := h.append ((operator op).append hq)

end Passage.Signs

/-- A statement is no value, and stands behind none. -/
theorem Statement.composes_signs :
    Statement.Composes (Passage.Signs false true) (Passage.Signs false false)
      (Passage.Signs false false) where
  empty := .empty
  append _ _ hp hq := hp.append hq
  assign n _ op _ _ hss hq :=
    .ended (.declaration n ((Passage.Signs.subscripted .empty hss).append
      ((Passage.Signs.operator op).append hq)))
  bare k _ := .ended (.keyword k (.value .empty))
  value k _ _ h := .ended (.keyword k h)
  call f _ h := .ended (.call f h)
  block _ h := .block h
  if_ _ _ _ hq h hr :=
    (Passage.Signs.keyword _ ((Passage.Signs.group hq).append (.block h))).append hr
  loop k _ _ _ hq h := .keyword k ((Passage.Signs.group hq).append (.block h))
  foreach n _ _ hq h :=
    .keyword _ ((Passage.Signs.group ((Passage.Signs.reference n).append
      (Passage.Signs.colon.append hq))).append (.block h))
  function n params _ h := by
    have hparams : ∀ p ∈ params.map .reference, Passage.Signs false true p := by
      intro p hp
      obtain ⟨param, _, rfl⟩ := List.mem_map.mp hp
      exact .reference param
    exact .keyword _ ((Passage.Signs.reference n).append
      ((Passage.Signs.group (.row hparams)).append (.block h)))
  free n more := .ended (.keyword _ ((Passage.Signs.reference n).append (.names more)))
  local_ _ h := .keyword _ (.block h)
  extern_ n _ := .ended (.keyword _ ((Passage.Signs.reference n).append (.names _)))
  done := .empty
  elif _ _ _ hq h hr :=
    (Passage.Signs.keyword _ ((Passage.Signs.group hq).append (.block h))).append hr
  else_ _ h := .keyword _ (.block h)

/-! ### The last word of a script -/

/-- The last word is a mark, if there is any. -/
def Passage.EndsInMark (p : Passage) : Prop :=
  p.words = [] ∨ ∃ ws m, p.words = ws ++ [.mark m]

namespace Passage.EndsInMark

variable {p q : Passage}

theorem append (hp : p.EndsInMark) (hq : q.EndsInMark) : (p ++ q).EndsInMark := by
  have hwords : (p ++ q).words = p.words ++ q.words := rfl
  rcases hq with hq | ⟨ws, m, hq⟩
  · rw [EndsInMark, hwords, hq, List.append_nil]
    exact hp
  · exact .inr ⟨p.words ++ ws, m, by rw [hwords, hq, List.append_assoc]⟩

theorem ended (p : Passage) : p.ended.EndsInMark :=
  .inr ⟨p.words, .separator, rfl⟩

theorem block (p : Passage) : p.block.EndsInMark :=
  .inr ⟨.mark .openBlock :: p.words, .closeBlock, rfl⟩

/-- A statement with a body ends with it. -/
theorem keyword (k : Keyword) (p body : Passage) : (keyword k (p ++ body.block)).EndsInMark := by
  refine .inr ⟨.keyword k :: (p.words ++ .mark .openBlock :: body.words), .closeBlock, ?_⟩
  show Word.keyword k :: (p.words ++ .mark .openBlock :: (body.words ++ [.mark .closeBlock])) = _
  simp

end Passage.EndsInMark

theorem Statement.composes_endsInMark :
    Statement.Composes (fun _ => True) Passage.EndsInMark Passage.EndsInMark where
  empty := .inl rfl
  append _ _ hp hq := hp.append hq
  assign _ _ _ _ _ _ _ := .ended _
  bare _ _ := .ended _
  value _ _ _ _ := .ended _
  call _ _ _ := .ended _
  block p _ := .block p
  if_ _ p _ _ _ hr := (Passage.EndsInMark.keyword _ _ p).append hr
  loop k _ p _ _ _ := .keyword k _ p
  foreach _ _ p _ _ := .keyword _ _ p
  function n params p _ :=
    .keyword _ (.reference n ++ .group (.row (params.map .reference))) p
  free _ _ := .ended _
  local_ p _ := .keyword _ .empty p
  extern_ _ _ := .ended _
  done := .inl rfl
  elif _ p _ _ _ hr := (Passage.EndsInMark.keyword _ _ p).append hr
  else_ p _ := .keyword _ .empty p

end Script

/-! ### Texts -/

namespace Scan

open Script

/-- A mark ends the text. -/
theorem gives_mark (m : Mark) (position : Position) (index : Nat) (context : Context) :
    Gives (ofChars position index context [m.char])
      [(.mark m, String.singleton m.char), (.endOfText, "")] := by
  have hmunch : Lexeme.munch context.signed m.char [] = (.mark m, []) := by
    cases m <;> rfl
  rw [ofChars, hmunch]
  simp [Gives, Lexeme.Form.kind?, ofChars, cons]

/-- Words with spaces between them are read back, if a mark is the last of them. -/
theorem gives_words (ws : List Word) (m : Mark) (position : Position) (index : Nat)
    {context : Context} (hword : context.afterWord = false)
    (hsigned : Word.Signed context.afterValue ws) :
    Gives (ofChars position index context
        (" ".intercalate ((ws ++ [Word.mark m]).map Word.text)).toList)
      ((ws ++ [Word.mark m]).map Word.spelling ++ [(.endOfText, "")]) := by
  induction ws generalizing position index context with
  | nil =>
    rw [List.nil_append, List.map_singleton, String.intercalate_singleton, Word.text,
      String.toList_singleton]
    exact gives_mark m position index context
  | cons w ws ih =>
    have hread : Lexeme.Reads context.signed w.text.toList w.kind := by
      refine Word.reads fun hn => ?_
      rw [Context.signed, hsigned.1 hn, hword]
      rfl
    have htext : (" ".intercalate ((w :: ws ++ [Word.mark m]).map Word.text)).toList =
        w.text.toList ++ ' ' :: (" ".intercalate ((ws ++ [Word.mark m]).map Word.text)).toList := by
      cases ws <;> simp [String.intercalate_cons_cons, String.toList_append]
    rw [htext]
    exact gives_token hread rfl fun next form => gives_space fun next => ih next _ rfl hsigned.2

end Scan

/-- The text of a script is read as its words. -/
theorem Script.gives_text (script : List Statement) :
    (Scan.ofText (text script)).Gives
      ((Statement.passageAll script).words.map Word.spelling ++ [(.endOfText, "")]) := by
  have htrue : Passage.Composes (fun _ => True) (fun _ => True) := by
    constructor <;> intros <;> trivial
  rcases Statement.of_composes_all htrue Statement.composes_endsInMark script with
    hwords | ⟨ws, m, hwords⟩
  · rw [text, hwords, List.map_nil, String.intercalate_nil, Scan.ofText, String.toList_empty,
      Scan.ofChars]
    exact ⟨rfl, rfl⟩
  · have hsigned : Word.Signed false (ws ++ [.mark m]) := by
      have h := Statement.of_composes_all Passage.Signs.composes Statement.composes_signs script
      rw [← hwords, ← List.append_nil (Statement.passageAll script).words]
      exact h [] trivial
    rw [text, hwords]
    exact Scan.gives_words ws m .start 0 rfl hsigned.of_append

end TagLang
