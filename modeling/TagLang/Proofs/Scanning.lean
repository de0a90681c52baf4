import TagLang.Proofs.Expression
import TagLang.Token.Scan

/-!
# Reading tokens back

What is written with one space between the tokens is read as these tokens (`Scan.gives_print`).  A
token reads back wherever a space or a semicolon follows (`Lexeme.Reads`); only the sign of a number
depends on what stands before it, and in an expression no literal stands behind a value
(`Piece.Signed`).
-/

namespace TagLang

/-! ### Decimals -/

theorem Notation.takeSign_of_isDigit {c : Char} (hc : c.isDigit = true) (cs : List Char) :
    takeSign (c :: cs) = (false, c :: cs) := by
  unfold takeSign
  split
  next h => cases h; cases hc
  next h => cases h; cases hc
  next => rfl

theorem Notation.digits?_toDigits (n : Nat) : digits? (Nat.toDigits 10 n) = some n := by
  have hdigits : (Nat.toDigits 10 n).all Char.isDigit = true :=
    List.all_eq_true.mpr fun c hc => Nat.isDigit_of_mem_toDigits (by decide) (by decide) hc
  have hne : (Nat.toDigits 10 n).isEmpty = false :=
    List.isEmpty_eq_false_iff.mpr Nat.toDigits_ne_nil
  have hvalue : ofDigits (Nat.toDigits 10 n) = n := Nat.ofDigitChars_ten_toDigits
  rw [digits?, hne, hdigits, hvalue]
  rfl

/-- The decimal of an integer: digits, with a `-` before them if it is negative. -/
theorem Notation.toList_toString (n : Int) :
    (toString n).toList =
      if n < 0 then '-' :: Nat.toDigits 10 n.natAbs else Nat.toDigits 10 n.natAbs := by
  cases n with
  | ofNat k =>
    rw [if_neg (by simp)]
    exact Nat.toList_repr
  | negSucc k =>
    rw [if_pos (by simp [Int.negSucc_lt_zero])]
    show ("-" ++ Nat.repr (k + 1)).toList = _
    rw [String.toList_append, Nat.toList_repr]
    rfl

/-- A decimal has a first digit. -/
theorem Notation.exists_toList_toString (n : Int) :
    ∃ d ds, (toString n).toList = signed (decide (n < 0)) (d :: ds) ∧ d.isDigit = true ∧
      ∀ c ∈ ds, c.isDigit = true := by
  have hdigit : ∀ c ∈ Nat.toDigits 10 n.natAbs, c.isDigit = true :=
    fun c hc => Nat.isDigit_of_mem_toDigits (by decide) (by decide) hc
  obtain ⟨d, ds, hds⟩ := List.exists_cons_of_ne_nil (Nat.toDigits_ne_nil (n := n.natAbs) (b := 10))
  rw [hds] at hdigit
  refine ⟨d, ds, ?_, hdigit d (List.mem_cons_self ..),
    fun c hc => hdigit c (List.mem_cons_of_mem _ hc)⟩
  rw [toList_toString, hds]
  simp [signed]

theorem Notation.integer?_toString (n : Int) : integer? (toString n).toList = some n := by
  rw [toList_toString]
  split
  next hn =>
    have hvalue : -(n.natAbs : Int) = n := by omega
    simp only [integer?, takeSign, digits?_toDigits]
    exact congrArg some hvalue
  next hn =>
    have hvalue : (n.natAbs : Int) = n := by omega
    obtain ⟨c, cs, hcs⟩ :=
      List.exists_cons_of_ne_nil (Nat.toDigits_ne_nil (n := n.natAbs) (b := 10))
    have hc : c.isDigit = true := by
      have hmem : c ∈ Nat.toDigits 10 n.natAbs := hcs ▸ List.mem_cons_self ..
      exact Nat.isDigit_of_mem_toDigits (by decide) (by decide) hmem
    rw [integer?, hcs, takeSign_of_isDigit hc, ← hcs]
    simp only [digits?_toDigits]
    exact congrArg some hvalue

theorem Integer.ofInt?_toInt (n : Int64) : ofInt? n.toInt = some n := by
  rw [ofInt?, if_pos ⟨Int64.minValue_le_toInt n, Int64.toInt_le n⟩, Int64.ofInt_toInt]

/-! ### Lexemes -/

namespace Lexeme

/-- A digit starts a number and goes on with it. -/
theorem class_of_isDigit {c : Char} (h : c.isDigit = true) :
    isFence c = false ∧ isQuote c = false ∧ Text.isBlank c = false ∧ Mark.ofChar? c = none ∧
      isLoneName c = false ∧ isNumberChar c = true := by
  have hall : ∀ k : Fin 10, let c := Char.ofNat (48 + k)
      isFence c = false ∧ isQuote c = false ∧ Text.isBlank c = false ∧ Mark.ofChar? c = none ∧
        isLoneName c = false ∧ isNumberChar c = true := by decide
  have hrange : 48 ≤ c.toNat ∧ c.toNat ≤ 57 := by
    simpa [Char.isDigit, UInt32.le_iff_toNat_le] using h
  have hlt : c.toNat - 48 < 10 := by omega
  have hc : Char.ofNat (48 + (c.toNat - 48)) = c := by
    rw [Nat.add_sub_cancel' hrange.1, Char.ofNat_toNat]
  have hk := hall ⟨c.toNat - 48, hlt⟩
  rwa [hc] at hk

/-- The characters that end every lexeme but quoted text. -/
def isBreak (c : Char) : Bool :=
  c == ' ' || c == ';'

theorem isBreak_iff {c : Char} : isBreak c = true ↔ c = ' ' ∨ c = ';' := by
  simp [isBreak]

/-- In front of a break, the characters are read as one token of the given kind. -/
def Reads (signed : Bool) (cs : List Char) (kind : TokenKind) : Prop :=
  ∃ form first more, cs = first :: more ∧ form ≠ .gap ∧ form.kind? cs = some kind ∧
    ∀ c rest, isBreak c = true → munch signed first (more ++ c :: rest) = (form, more)

theorem reads_mark (signed : Bool) (m : Mark) : Reads signed [m.char] (.mark m) := by
  refine ⟨.mark m, m.char, [], rfl, Form.noConfusion, rfl, fun c rest _ => ?_⟩
  cases m <;> rfl

theorem reads_operator (signed : Bool) (op : Operator) :
    Reads signed op.symbol.toList (.operator op) := by
  obtain ⟨first, more, hsymbol⟩ : ∃ first more, op.symbol.toList = first :: more :=
    List.exists_cons_of_ne_nil (by cases op <;> decide)
  refine ⟨.operator, first, more, hsymbol, Form.noConfusion, ?_, fun c rest hc => ?_⟩
  · rw [Form.kind?, String.ofList_toList, operatorKind, Operator.ofSymbol?_symbol]
  · -- The second character of the pair is found, and a break is none.
    rcases isBreak_iff.mp hc with rfl | rfl <;> cases op <;> cases hsymbol <;> cases signed <;> rfl

theorem through_append {fence : Char} {cs : List Char} (h : fence ∉ cs) (rest : List Char) :
    through fence (cs ++ fence :: rest) = cs ++ [fence] := by
  induction cs with
  | nil => simp [through]
  | cons c cs ih =>
    have hc : c ≠ fence := fun he => h (he ▸ List.mem_cons_self ..)
    have hcs : fence ∉ cs := fun hm => h (List.mem_cons_of_mem _ hm)
    rw [List.cons_append, through, if_neg hc, ih hcs, List.cons_append]

theorem takeWhile_append_of_all {α : Type} {p : α → Bool} {as : List α} (h : ∀ a ∈ as, p a = true)
    {b : α} (hb : p b = false) (rest : List α) : (as ++ b :: rest).takeWhile p = as := by
  rw [List.takeWhile_append_of_pos h, List.takeWhile_cons_of_neg (by simp [hb]), List.append_nil]

theorem reads_quoted (signed : Bool) {quote : Char} (hq : isQuote quote = true) {s : String}
    (hs : quote ∉ s.toList) :
    Reads signed (String.singleton quote ++ s ++ String.singleton quote).toList (.str s) := by
  have htext : (String.singleton quote ++ s ++ String.singleton quote).toList =
      quote :: (s.toList ++ [quote]) := by
    simp [String.toList_append]
  refine ⟨.quoted quote, quote, s.toList ++ [quote], htext, Form.noConfusion, ?_,
    fun c rest _ => ?_⟩
  · have hin : ∀ a ∈ s.toList, (a != quote) = true := by
      intro a ha
      exact bne_iff_ne.mpr fun he => hs (he ▸ ha)
    rw [htext, Form.kind?, unquote, List.drop_one, List.tail_cons,
      takeWhile_append_of_all hin (bne_self_eq_false quote), String.ofList_toList]
  · have hfence : isFence quote = false := by
      rcases Bool.or_eq_true_iff.mp hq with h | h <;> rw [beq_iff_eq.mp h] <;> rfl
    rw [munch, if_neg (by simp [hfence]), if_pos hq, List.append_assoc, List.singleton_append,
      through_append hs]

theorem reads_bool (signed b : Bool) :
    Reads signed (if b then "true" else "false").toList (.bool b) := by
  cases b with
  | true =>
    refine ⟨.word, 't', ['r', 'u', 'e'], rfl, Form.noConfusion, rfl, fun c rest hc => ?_⟩
    rcases isBreak_iff.mp hc with rfl | rfl <;> cases signed <;> rfl
  | false =>
    refine ⟨.word, 'f', ['a', 'l', 's', 'e'], rfl, Form.noConfusion, rfl, fun c rest hc => ?_⟩
    rcases isBreak_iff.mp hc with rfl | rfl <;> cases signed <;> rfl

theorem munch_digit {c : Char} (hc : c.isDigit = true) (signed : Bool) (cs : List Char) :
    munch signed c cs = (.number, cs.takeWhile isNumberChar) := by
  obtain ⟨hfence, hquote, hblank, hmark, hname, _⟩ := class_of_isDigit hc
  simp [munch, hfence, hquote, hblank, hmark, hname, hc]

theorem munch_sign {c : Char} (hc : c.isDigit = true) (cs : List Char) :
    munch true '-' (c :: cs) = (.number, (c :: cs).takeWhile isNumberChar) := by
  show (if '-'.isDigit || ('-' == '-' && true && c.isDigit) then _ else _) = _
  rw [hc]
  rfl

/-- The decimal of an integer has neither `_` nor `.` in it, and is read as the integer. -/
theorem kind?_toString (n : Int64) :
    Form.number.kind? (toString n.toInt).toList = some (.int n) := by
  have hchars : ∀ c ∈ (toString n.toInt).toList, c = '-' ∨ c.isDigit = true := by
    rw [Notation.toList_toString]
    intro c hc
    split at hc
    · exact (List.mem_cons.mp hc).imp_right (Nat.isDigit_of_mem_toDigits (by decide) (by decide))
    · exact .inr (Nat.isDigit_of_mem_toDigits (by decide) (by decide) hc)
  have hfilter : (toString n.toInt).toList.filter (· != '_') = (toString n.toInt).toList := by
    refine List.filter_eq_self.mpr fun c hc => bne_iff_ne.mpr ?_
    rintro rfl
    rcases hchars _ hc with h | h <;> cases h
  have hpoint : (toString n.toInt).toList.contains '.' = false := by
    refine Bool.eq_false_iff.mpr fun hc => ?_
    rcases hchars _ (List.contains_iff_mem.mp hc) with h | h <;> cases h
  rw [Form.kind?, numberKind?, hfilter, hpoint, Notation.integer?_toString]
  show Option.map TokenKind.int (Integer.ofInt? n.toInt) = _
  rw [Integer.ofInt?_toInt]
  rfl

/-- A number is read to its end, a negative one only where a sign may belong to a number. -/
theorem reads_number {signed negative : Bool} {d : Char} {ds : List Char} {kind : TokenKind}
    (hd : d.isDigit = true) (hds : ∀ c ∈ ds, isNumberChar c = true)
    (hkind : Form.number.kind? (Notation.signed negative (d :: ds)) = some kind)
    (h : negative = true → signed = true) :
    Reads signed (Notation.signed negative (d :: ds)) kind := by
  have hend : ∀ {c}, isBreak c = true → isNumberChar c = false := by
    intro c hc
    rcases isBreak_iff.mp hc with rfl | rfl <;> rfl
  have hfirst : isNumberChar d = true := (class_of_isDigit hd).2.2.2.2.2
  cases negative with
  | true =>
    refine ⟨.number, '-', d :: ds, rfl, Form.noConfusion, hkind, fun c rest hc => ?_⟩
    rw [h rfl, List.cons_append, munch_sign hd, ← List.cons_append,
      takeWhile_append_of_all (List.forall_mem_cons.mpr ⟨hfirst, hds⟩) (hend hc)]
  | false =>
    refine ⟨.number, d, ds, rfl, Form.noConfusion, hkind, fun c rest hc => ?_⟩
    rw [munch_digit hd, takeWhile_append_of_all hds (hend hc)]

/-- An integer is read back, a negative one only where a sign may belong to a number. -/
theorem reads_int {signed : Bool} {n : Int64} (h : n.toInt < 0 → signed = true) :
    Reads signed (toString n.toInt).toList (.int n) := by
  obtain ⟨d, ds, htext, hd, hds⟩ := Notation.exists_toList_toString n.toInt
  have hkind := kind?_toString n
  rw [htext] at hkind ⊢
  refine reads_number hd (fun c hc => ?_) hkind fun hn => h (of_decide_eq_true hn)
  exact (class_of_isDigit (hds c hc)).2.2.2.2.2

end Lexeme

/-! ### Tokens with spaces between them -/

/-- The kind of token that a piece is. -/
def Piece.kind : Piece → TokenKind
  | atom (.int n) => .int n
  | atom (.bool b) => .bool b
  | atom (.str s) => .str s
  | operator op => .operator op
  | mark m => .mark m

/-- The piece is written with a sign. -/
def Piece.isNegative : Piece → Bool
  | atom (.int n) => n.toInt < 0
  | _ => false

/-- No piece with a sign stands behind a value. -/
def Piece.Signed : Bool → List Piece → Prop
  | _, [] => True
  | afterValue, p :: rest =>
    (p.isNegative = true → afterValue = false) ∧ Signed p.kind.endsValue rest

theorem Piece.reads {signed : Bool} {p : Piece} (h : p.isNegative = true → signed = true) :
    Lexeme.Reads signed p.text.toList p.kind := by
  cases p with
  | atom a =>
    cases a with
    | int n => exact Lexeme.reads_int fun hn => h (decide_eq_true hn)
    | bool b => exact Lexeme.reads_bool signed b
    | str s =>
      have hquote : String.singleton '"' = "\"" := by decide
      have hread := Lexeme.reads_quoted signed (show Lexeme.isQuote '"' = true from rfl) s.property
      rw [hquote] at hread
      exact hread
  | operator op => exact Lexeme.reads_operator signed op
  | mark m =>
    rw [Piece.text, String.toList_singleton]
    exact Lexeme.reads_mark signed m

/-! ### Signs in expressions -/

/-- The terms are a value: they may start with a sign, and what stands behind them may not. -/
def Term.IsSignable (terms : List Term) : Prop :=
  ∀ rest, Piece.Signed true rest → Piece.Signed false (piecesAll terms ++ rest)

theorem Term.IsSignable.enclosed {terms : List Term} (h : IsSignable terms) (bound level : Nat) :
    IsSignable (Term.enclosed bound level terms) := by
  unfold Term.enclosed
  split
  · intro rest hrest
    have hclose : Piece.Signed true (.mark .closeGroup :: rest) := ⟨fun hc => (by cases hc), hrest⟩
    have hinner := h _ hclose
    simp only [piecesAll, pieces, List.append_nil, List.cons_append, List.append_assoc]
    exact ⟨fun hc => (by cases hc), hinner⟩
  · exact h

mutual

theorem Expr.isSignable_terms : (e : Expr) → Term.IsSignable e.terms
  | .atom a => by
    intro rest hrest
    have hends : (Piece.atom a).kind.endsValue = true := by cases a <;> rfl
    exact ⟨fun _ => rfl, hends ▸ hrest⟩
  | .array items => by
    intro rest hrest
    have hrow := Expr.signed_row items rest hrest
    simp only [terms, Term.piecesAll, Term.pieces, List.append_nil, List.cons_append,
      List.append_assoc]
    exact ⟨nofun, hrow⟩
  | .index target position => by
    intro rest hrest
    have hclose : Piece.Signed true (.mark .closeIndex :: rest) := ⟨nofun, hrest⟩
    have hposition := Expr.isSignable_terms position _ hclose
    have htarget :=
      (Expr.isSignable_terms target).enclosed (Operator.not.precedence + 1) target.level
    simp only [terms, Term.piecesAll_append, Term.piecesAll, Term.pieces, List.append_nil,
      List.cons_append, List.append_assoc]
    exact htarget _ ⟨nofun, hposition⟩
  | .unary op operand => by
    intro rest hrest
    have hoperand := (Expr.isSignable_terms operand).enclosed Operator.not.precedence operand.level
    exact ⟨nofun, hoperand rest hrest⟩
  | .binary op lhs rhs => by
    intro rest hrest
    have hlhs := (Expr.isSignable_terms lhs).enclosed op.val.precedence lhs.level
    have hrhs := (Expr.isSignable_terms rhs).enclosed (op.val.precedence + 1) rhs.level
    simp only [terms, Term.piecesAll_append, Term.piecesAll, Term.pieces, List.cons_append,
      List.nil_append, List.append_assoc]
    exact hlhs _ ⟨nofun, hrhs rest hrest⟩

theorem Expr.signed_row : (items : List Expr) → ∀ rest, Piece.Signed true rest →
    Piece.Signed false (Term.piecesAll (Expr.row items) ++ .mark .closeIndex :: rest)
  | [] => fun rest hrest => ⟨nofun, hrest⟩
  | [e] => fun rest hrest => Expr.isSignable_terms e _ ⟨nofun, hrest⟩
  | e :: next :: items => by
    intro rest hrest
    have hrow := Expr.signed_row (next :: items) rest hrest
    simp only [row, Term.piecesAll_append, Term.piecesAll, Term.pieces, List.cons_append,
      List.nil_append, List.append_assoc]
    exact Expr.isSignable_terms e _ ⟨nofun, hrow⟩

end

/-! ### Scans -/

namespace Scan

/-- The text is read to its end, as tokens of these kinds with these characters. -/
def Gives (scan : Scan) (tokens : List (TokenKind × String)) : Prop :=
  scan.tokens.map (fun t => (t.kind, t.lexeme)) = tokens ∧ scan.stop = none

theorem Gives.kinds {scan : Scan} {tokens : List (TokenKind × String)} (h : Gives scan tokens) :
    scan.tokens.map (·.kind) = tokens.map (·.1) := by
  rw [← h.1, List.map_map]
  rfl

/-- A token is read in front of a break. -/
theorem gives_token {context : Context} {text : String} {kind : TokenKind}
    (h : Lexeme.Reads context.signed text.toList kind) {c : Char} (hc : Lexeme.isBreak c = true)
    {position : Position} {index : Nat} {rest : List Char} {tokens : List (TokenKind × String)}
    (hrest : ∀ next form,
      Gives (ofChars next (index + 1) (.afterToken form kind) (c :: rest)) tokens) :
    Gives (ofChars position index context (text.toList ++ c :: rest)) ((kind, text) :: tokens) := by
  obtain ⟨form, first, more, htext, hgap, hkind, hmunch⟩ := h
  obtain ⟨htokens, hstop⟩ := hrest (position.after (first :: more)) form
  have hlexeme : String.ofList (first :: more) = text := by rw [← htext, String.ofList_toList]
  rw [htext] at hkind
  rw [htext, List.cons_append, ofChars, hmunch c rest hc]
  simp only [if_neg hgap, hkind, List.drop_left, hlexeme]
  exact ⟨congrArg ((kind, text) :: ·) htokens, hstop⟩

/-- A space is passed over. -/
theorem gives_space {context : Context} {position : Position} {index : Nat} {rest : List Char}
    {tokens : List (TokenKind × String)}
    (h : ∀ next, Gives (ofChars next index context.afterGap rest) tokens) :
    Gives (ofChars position index context (' ' :: rest)) tokens := by
  rw [ofChars, show Lexeme.munch context.signed ' ' rest = (.gap, []) from rfl]
  exact h _

/-- A separator ends the text. -/
theorem gives_separator (position : Position) (index : Nat) (context : Context) :
    Gives (ofChars position index context [';']) [(.mark .separator, ";"), (.endOfText, "")] := by
  rw [ofChars, show Lexeme.munch context.signed ';' [] = (.mark .separator, []) from rfl]
  simp [Gives, Lexeme.Form.kind?, ofChars, cons]

/-- Tokens with spaces between them are read back, up to the separator behind them. -/
theorem gives_pieces (ps : List Piece) (position : Position) (index : Nat) {context : Context}
    (hword : context.afterWord = false) (hsigned : Piece.Signed context.afterValue ps) :
    Gives (ofChars position index context ((" ".intercalate (ps.map Piece.text)).toList ++ [';']))
      (ps.map (fun p => (p.kind, p.text)) ++ [(.mark .separator, ";"), (.endOfText, "")]) := by
  induction ps generalizing position index context with
  | nil => exact gives_separator ..
  | cons p ps ih =>
    have hread : Lexeme.Reads context.signed p.text.toList p.kind := by
      refine Piece.reads fun hn => ?_
      rw [Context.signed, hsigned.1 hn, hword]
      rfl
    cases ps with
    | nil =>
      rw [List.map_singleton, String.intercalate_singleton]
      exact gives_token hread rfl fun next form => gives_separator ..
    | cons q ps =>
      have htext : (" ".intercalate ((p :: q :: ps).map Piece.text)).toList ++ [';'] =
          p.text.toList ++
            ' ' :: ((" ".intercalate ((q :: ps).map Piece.text)).toList ++ [';']) := by
        simp [String.intercalate_cons_cons, String.toList_append]
      rw [htext]
      exact gives_token hread rfl fun next form => gives_space fun next => ih next _ rfl hsigned.2

/-- A `print` statement is read as the keyword, the tokens of the expression, and the separator. -/
theorem gives_print (e : Expr) :
    Gives (ofText ("print " ++ e.text ++ ";"))
      ((.keyword .print, "print") :: ((Term.piecesAll e.terms).map (fun p => (p.kind, p.text)) ++
        [(.mark .separator, ";"), (.endOfText, "")])) := by
  have hread : Lexeme.Reads Context.start.signed "print".toList (.keyword .print) := by
    refine ⟨.word, 'p', ['r', 'i', 'n', 't'], rfl, Lexeme.Form.noConfusion, rfl,
      fun c rest hc => ?_⟩
    rcases Lexeme.isBreak_iff.mp hc with rfl | rfl <;> rfl
  have hsigned : Piece.Signed false (Term.piecesAll e.terms) := by
    have h := e.isSignable_terms [] trivial
    rwa [List.append_nil] at h
  have htext : ("print " ++ e.text ++ ";").toList =
      "print".toList ++ ' ' :: (e.text.toList ++ [';']) := by
    simp [String.toList_append]
  rw [ofText, htext]
  refine gives_token hread rfl fun next form => gives_space fun next => ?_
  exact gives_pieces (Term.piecesAll e.terms) next _ rfl hsigned

end Scan

end TagLang
