import Mathlib.Data.List.TakeWhile
import TagLang.Proofs.Numerals
import TagLang.Value.Convert

/-!
# Integers as text

An integer is written in one way and read in two: a conversion reads a whole text, blanks at its
ends aside, and the scanner reads what looks like a number.  Both read back what is written, for
every 64-bit integer (`Value.int_text_round_trip`).

A conversion accepts more than that.  The texts it accepts are those of numerals
(`Notation.Numeral`): a sign or none, and digits, with a value in range.
-/

namespace TagLang

/-! ### Blanks at the ends of a text -/

namespace Text

/-- A text is what is left of it, between blanks. -/
theorem exists_trim (cs : List Char) : ∃ before after, cs = before ++ trim cs ++ after ∧
    (∀ c ∈ before, isBlank c = true) ∧ ∀ c ∈ after, isBlank c = true := by
  let rest := cs.dropWhile isBlank
  refine ⟨cs.takeWhile isBlank, (rest.reverse.takeWhile isBlank).reverse, ?_, ?_, ?_⟩
  · have hrest : trim cs ++ (rest.reverse.takeWhile isBlank).reverse = rest := by
      rw [trim, dropEnd, ← List.reverse_append, List.takeWhile_append_dropWhile,
        List.reverse_reverse]
    rw [List.append_assoc, hrest, List.takeWhile_append_dropWhile]
  · exact fun c hc => List.mem_takeWhile_imp hc
  · exact fun c hc => List.mem_takeWhile_imp (List.mem_reverse.mp hc)

theorem dropWhile_append_of_blank {before cs : List Char} (hbefore : ∀ c ∈ before, isBlank c = true)
    (hcs : ∀ c ∈ cs, isBlank c = false) (hne : cs ≠ []) (after : List Char) :
    (before ++ cs ++ after).dropWhile isBlank = cs ++ after := by
  obtain ⟨c, cs, rfl⟩ := List.exists_cons_of_ne_nil hne
  have hc : isBlank c = false := hcs c (List.mem_cons_self ..)
  rw [List.append_assoc, List.dropWhile_append_of_pos hbefore, List.cons_append,
    List.dropWhile_cons_of_neg (by simp [hc])]

/-- What is left of a text without blanks between blanks is that text. -/
theorem trim_append {before cs after : List Char} (hbefore : ∀ c ∈ before, isBlank c = true)
    (hafter : ∀ c ∈ after, isBlank c = true) (hcs : ∀ c ∈ cs, isBlank c = false) (hne : cs ≠ []) :
    trim (before ++ cs ++ after) = cs := by
  -- From the back, the text is again blanks and what is left of it.
  have hback : (after.reverse ++ cs.reverse ++ []).dropWhile isBlank = cs.reverse ++ [] := by
    refine dropWhile_append_of_blank ?_ ?_ (by simp [hne]) []
    · exact fun c hc => hafter c (List.mem_reverse.mp hc)
    · exact fun c hc => hcs c (List.mem_reverse.mp hc)
  rw [trim, dropWhile_append_of_blank hbefore hcs hne, dropEnd, List.reverse_append]
  rw [List.append_nil, List.append_nil] at hback
  rw [hback, List.reverse_reverse]

end Text

/-! ### Numerals -/

namespace Notation

/-- The characters are decimal digits, one or more, perhaps behind a sign, and `n` is the number
they denote. -/
def Numeral (cs : List Char) (n : Int) : Prop :=
  ∃ sign ds, cs = sign ++ ds ∧ sign ∈ [[], ['+'], ['-']] ∧ ds ≠ [] ∧ (∀ d ∈ ds, d.isDigit = true) ∧
    n = if sign = ['-'] then -(places ds : Int) else places ds

theorem digits?_eq_some_iff {ds : List Char} {k : Nat} :
    digits? ds = some k ↔ ds ≠ [] ∧ (∀ d ∈ ds, d.isDigit = true) ∧ k = places ds := by
  rw [digits?, ofDigits_eq_places]
  constructor
  · intro h
    split at h
    next hds =>
      simp only [Bool.and_eq_true, Bool.not_eq_true', List.isEmpty_eq_false_iff,
        List.all_eq_true] at hds
      exact ⟨hds.1, hds.2, (Option.some.inj h).symm⟩
    next => cases h
  · rintro ⟨hne, hdigits, rfl⟩
    rw [if_pos]
    simpa [hne] using hdigits

theorem exists_takeSign (cs : List Char) :
    ∃ sign ∈ [[], ['+'], ['-']], cs = sign ++ (takeSign cs).2 ∧
    ((takeSign cs).1 = true ↔ sign = ['-']) := by
  unfold takeSign
  split
  · exact ⟨['-'], by simp, rfl, by simp⟩
  · exact ⟨['+'], by simp, rfl, by simp⟩
  · exact ⟨[], by simp, rfl, by simp⟩

theorem integer?_eq_some_iff_digits? {cs : List Char} {n : Int} : integer? cs = some n ↔
    ∃ k, digits? (takeSign cs).2 = some k ∧ n = if (takeSign cs).1 then -(k : Int) else k := by
  unfold integer?
  rcases takeSign cs with ⟨negative, ds⟩
  cases hds : digits? ds with
  | none => simp [hds]
  | some k => simp [hds, eq_comm]

/-- The integers that can be read are the numerals. -/
theorem integer?_eq_some_iff {cs : List Char} {n : Int} : integer? cs = some n ↔ Numeral cs n := by
  constructor
  · intro h
    obtain ⟨sign, hsign, hcs, hnegative⟩ := exists_takeSign cs
    obtain ⟨k, hk, hn⟩ := integer?_eq_some_iff_digits?.mp h
    obtain ⟨hne, hdigits, rfl⟩ := digits?_eq_some_iff.mp hk
    refine ⟨sign, _, hcs, hsign, hne, hdigits, ?_⟩
    simpa only [hnegative] using hn
  · rintro ⟨sign, ds, rfl, hsign, hne, hdigits, rfl⟩
    have hread : digits? ds = some (places ds) := digits?_eq_some_iff.mpr ⟨hne, hdigits, rfl⟩
    rw [integer?_eq_some_iff_digits?]
    simp only [List.mem_cons, List.not_mem_nil, or_false] at hsign
    rcases hsign with rfl | rfl | rfl
    · -- The first of the digits is no sign.
      obtain ⟨c, ds, rfl⟩ := List.exists_cons_of_ne_nil hne
      rw [List.nil_append, takeSign_of_isDigit (hdigits c (List.mem_cons_self ..))]
      exact ⟨_, hread, rfl⟩
    · exact ⟨_, hread, rfl⟩
    · exact ⟨_, hread, rfl⟩

theorem Numeral.ne_nil {cs : List Char} {n : Int} (h : Numeral cs n) : cs ≠ [] := by
  obtain ⟨sign, ds, rfl, -, hne, -⟩ := h
  simp [hne]

/-- There are no blanks in a numeral. -/
theorem Numeral.isBlank_eq_false {cs : List Char} {n : Int} (h : Numeral cs n) :
    ∀ c ∈ cs, Text.isBlank c = false := by
  obtain ⟨sign, ds, rfl, hsign, -, hdigits, -⟩ := h
  intro c hc
  rcases List.mem_append.mp hc with hc | hc
  · simp only [List.mem_cons, List.not_mem_nil, or_false] at hsign
    rcases hsign with rfl | rfl | rfl
    · cases hc
    · rw [List.mem_singleton.mp hc]
      decide
    · rw [List.mem_singleton.mp hc]
      decide
  · exact (Lexeme.class_of_isDigit (hdigits c hc)).2.2.1

theorem numeral_toString (n : Int) : Numeral (toString n).toList n :=
  integer?_eq_some_iff.mp (integer?_toString n)

end Notation

/-! ### Conversions -/

namespace Value

open Notation

/-- The text is a numeral between blanks, and `n` is the number that it denotes. -/
def Spells (t : String) (n : Int) : Prop :=
  ∃ before cs after, t.toList = before ++ cs ++ after ∧ (∀ c ∈ before, Text.isBlank c = true) ∧
    (∀ c ∈ after, Text.isBlank c = true) ∧ Numeral cs n

theorem spells_iff {t : String} {n : Int} :
    Spells t n ↔ integer? (Text.trim t.toList) = some n := by
  rw [integer?_eq_some_iff]
  constructor
  · rintro ⟨before, cs, after, ht, hbefore, hafter, hn⟩
    rw [ht, Text.trim_append hbefore hafter hn.isBlank_eq_false hn.ne_nil]
    exact hn
  · intro hn
    obtain ⟨before, after, ht, hbefore, hafter⟩ := Text.exists_trim t.toList
    exact ⟨before, _, after, ht, hbefore, hafter, hn⟩

/-- A text becomes the integer that it spells, if that is in range. -/
theorem convert_int_of_spells {t : String} {n : Int64} (h : Spells t n.toInt) :
    convert .int (str t) = .ok (int n) := by
  simp [convert, asInt?, spells_iff.mp h, Integer.ofInt?_toInt]

/-- A text that spells no integer in range is refused. -/
theorem convert_int_of_not_spells {t : String} (h : ∀ n : Int64, ¬ Spells t n.toInt) :
    convert .int (str t) = .error (.conversion .str t .int) := by
  have hnone : (integer? (Text.trim t.toList)).bind Integer.ofInt? = Option.none := by
    rw [Option.bind_eq_none_iff]
    intro r hr
    rw [Integer.ofInt?_eq_none_iff]
    intro hrange
    have hn : (Int64.ofInt r).toInt = r := Int64.toInt_ofInt_of_le hrange.1 hrange.2
    exact h (Int64.ofInt r) (hn.symm ▸ spells_iff.mpr hr)
  simp only [convert, asInt?, hnone]
  rfl

/-- A text can be converted if it spells an integer in range. -/
theorem convert_int_ok_iff {t : String} : (∃ v, convert .int (str t) = .ok v) ↔
    ∃ r, Spells t r ∧ Integer.InRange r := by
  constructor
  · rintro ⟨v, hv⟩
    by_contra hno
    have hnone : ∀ n : Int64, ¬ Spells t n.toInt :=
      fun n hn => hno ⟨n.toInt, hn, Integer.inRange_toInt n⟩
    rw [convert_int_of_not_spells hnone] at hv
    cases hv
  · rintro ⟨r, hr, hrange⟩
    have hn : (Int64.ofInt r).toInt = r := Int64.toInt_ofInt_of_le hrange.1 hrange.2
    exact ⟨_, convert_int_of_spells (hn.symm ▸ hr)⟩

theorem spells_text {n : Int64} {before after : List Char}
    (hbefore : ∀ c ∈ before, Text.isBlank c = true) (hafter : ∀ c ∈ after, Text.isBlank c = true) :
    Spells (String.ofList before ++ (int n).text ++ String.ofList after) n.toInt := by
  refine ⟨before, (int n).text.toList, after, ?_, hbefore, hafter, numeral_toString n.toInt⟩
  simp only [String.toList_append, String.toList_ofList]

end Value

/-! ### Scans -/

/-- A decimal is read to the end of the text, its sign included. -/
theorem Lexeme.munch_toString (n : Int) : ∃ c cs, (toString n).toList = c :: cs ∧
    munch true c cs = (.number, cs) := by
  obtain ⟨d, ds, htext, hd, hds⟩ := Notation.exists_toList_toString n
  have hdigits : ∀ c ∈ d :: ds, c.isDigit = true := List.forall_mem_cons.mpr ⟨hd, hds⟩
  have hall : ∀ c ∈ d :: ds, isNumberChar c = true :=
    fun c hc => (class_of_isDigit (hdigits c hc)).2.2.2.2.2
  rw [htext, Notation.signed]
  split
  · refine ⟨'-', d :: ds, rfl, ?_⟩
    rw [munch_sign hd, List.takeWhile_eq_self_iff.mpr hall]
  · refine ⟨d, ds, rfl, ?_⟩
    rw [munch_digit hd, List.takeWhile_eq_self_iff.mpr (List.forall_mem_cons.mp hall).2]

/-- The decimal of an integer is one token. -/
theorem Scan.ofText_toString (n : Int64) : ofText (toString n.toInt) =
    ⟨[⟨.int n, toString n.toInt, .start, 0⟩,
      ⟨.endOfText, "", Position.start.after (toString n.toInt).toList, 1⟩], none⟩ := by
  obtain ⟨c, cs, htext, hmunch⟩ := Lexeme.munch_toString n.toInt
  have hkind := Lexeme.kind?_toString n
  have hlexeme : String.ofList (c :: cs) = toString n.toInt := by rw [← htext, String.ofList_toList]
  rw [htext] at hkind
  -- Nothing stands before the text, so a `-` is a sign.
  rw [ofText, htext, ofChars, show Context.start.signed = true from rfl, hmunch]
  simp only [reduceCtorEq, if_false, hkind, hlexeme, List.drop_length]
  rw [ofChars]
  rfl

/-! ### Round trips -/

/-- The text of an integer is read back by a conversion, whatever blanks stand around it, and as one
token by the scanner.  A conversion takes the numerals in range and nothing else. -/
theorem Value.int_text_round_trip :
    (∀ n : Int64, convert .str (int n) = .ok (str (int n).text) ∧
      (∀ before after, (∀ c ∈ before, Text.isBlank c = true) →
        (∀ c ∈ after, Text.isBlank c = true) →
        convert .int (str (String.ofList before ++ (int n).text ++ String.ofList after)) =
          .ok (int n)) ∧
      Scan.ofText (int n).text = ⟨[⟨.int n, (int n).text, .start, 0⟩,
        ⟨.endOfText, "", Position.start.after (int n).text.toList, 1⟩], Option.none⟩) ∧
    ∀ t, ((∃ v, convert .int (str t) = .ok v) ↔ ∃ r, Spells t r ∧ Integer.InRange r) ∧
      ∀ n : Int64, Spells t n.toInt → convert .int (str t) = .ok (int n) := by
  constructor
  · intro n
    refine ⟨rfl, fun before after hbefore hafter => ?_, Scan.ofText_toString n⟩
    exact convert_int_of_spells (spells_text hbefore hafter)
  · exact fun t => ⟨convert_int_ok_iff, fun n hn => convert_int_of_spells hn⟩

/-- The least integer is read back from between blanks, and a numeral may have a `+` and leading
zeros. -/
theorem Value.int_text_round_trip_least :
    convert .int (str "\t\u3000-9223372036854775808\u00a0\n") = .ok (int Int64.minValue) ∧
      convert .int (str " +007\n") = .ok (int 7) := by
  constructor
  · have htext : "\t\u3000-9223372036854775808\u00a0\n" = String.ofList ['\t', '\u3000'] ++
        (int Int64.minValue).text ++ String.ofList ['\u00a0', '\n'] := by decide +kernel
    rw [htext]
    exact (int_text_round_trip.1 Int64.minValue).2.1 _ _ (List.all_eq_true.mp (by decide))
      (List.all_eq_true.mp (by decide))
  · have hspells : Spells " +007\n" (7 : Int64).toInt :=
      ⟨[' '], ['+', '0', '0', '7'], ['\n'], by decide, List.all_eq_true.mp (by decide),
        List.all_eq_true.mp (by decide), ['+'], ['0', '0', '7'], rfl, by simp, by simp,
        List.all_eq_true.mp (by decide), by decide⟩
    exact (int_text_round_trip.2 " +007\n").2 7 hspells

end TagLang
