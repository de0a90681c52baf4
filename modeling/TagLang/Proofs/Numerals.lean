import Mathlib.Data.Nat.Digits.Defs
import TagLang.Proofs.Classification
import TagLang.Proofs.Exactness

/-!
# Malformed numbers

A number is malformed if it has two points, or no point and a value out of range
(`Layout.Entry.IsMalformed`).  A text is scanned up to its first malformed number, and to its end if
it has none (`Scan.ofText_stop`); the integers among its tokens have the value that their digits
denote.

The value of digits is the sum of their places (`Notation.Denotes`), and underscores between them do
not count.  A number with one point is a decimal of some double, so it is never malformed.
-/

namespace TagLang

/-! ### Integers as text -/

namespace Notation

/-- The number that a decimal digit stands for. -/
def digit (c : Char) : Nat :=
  c.toNat - '0'.toNat

/-- The number that decimal digits denote: the sum of their places. -/
def places (ds : List Char) : Nat :=
  Nat.ofDigits 10 (ds.reverse.map digit)

/-- The characters are decimal digits, perhaps behind a `-`, and `n` is the number they denote. -/
def Denotes (cs : List Char) (n : Int) : Prop :=
  ∃ negative ds, cs = signed negative ds ∧ ds ≠ [] ∧ (∀ d ∈ ds, d.isDigit = true) ∧
    n = if negative then -(places ds : Int) else places ds

/-- The characters without the underscores. -/
def ungrouped (cs : List Char) : List Char :=
  cs.filter (· != '_')

theorem ofDigits_eq_places (cs : List Char) : ofDigits cs = places cs := by
  rw [places, Nat.ofDigits_eq_foldr, List.foldr_map, List.foldr_reverse, ofDigits]
  congr 1
  funext n c
  exact Nat.add_comm _ _

/-- Digits are read as what they denote. -/
theorem Denotes.integer?_eq {cs : List Char} {n : Int} (h : Denotes cs n) :
    integer? cs = some n := by
  obtain ⟨negative, ds, rfl, hne, hdigits, rfl⟩ := h
  have hread : digits? ds = some (places ds) := by
    rw [digits?, ofDigits_eq_places, if_pos]
    simpa [hne] using hdigits
  obtain ⟨c, ds, rfl⟩ := List.exists_cons_of_ne_nil hne
  rw [integer?, takeSign_signed (hdigits c (List.mem_cons_self ..))]
  simp only [hread]
  rfl

/-! ### Points -/

theorem forall_isDigit {cs : List Char} (h : ∀ c ∈ cs, c.isDigit = true ∨ c = '.')
    (hpoint : '.' ∉ cs) :
    ∀ c ∈ cs, c.isDigit = true := by
  intro c hc
  refine (h c hc).resolve_right ?_
  rintro rfl
  exact hpoint hc

/-- Digits and points up to the first point. -/
theorem exists_first_point {cs : List Char} (h : ∀ c ∈ cs, c.isDigit = true ∨ c = '.')
    (hpoint : '.' ∈ cs) : ∃ whole rest, cs = whole ++ '.' :: rest ∧
      (∀ c ∈ whole, c.isDigit = true) ∧ ∀ c ∈ rest, c.isDigit = true ∨ c = '.' := by
  obtain ⟨whole, rest, rfl, hwhole⟩ := List.eq_append_cons_of_mem hpoint
  exact ⟨whole, rest, rfl, forall_isDigit (fun c hc => h c (by simp [hc])) hwhole,
    fun c hc => h c (by simp [hc])⟩

/-- Nothing can be read across a second point. -/
theorem decimal?_two_points {whole fraction : List Char} (hwhole : ∀ c ∈ whole, c.isDigit = true)
    (hfraction : ∀ c ∈ fraction, c.isDigit = true) (negative : Bool) (rest : List Char) :
    decimal? negative (whole ++ '.' :: (fraction ++ '.' :: rest)) = none := by
  have htake : ∀ {run : List Char}, (∀ c ∈ run, c.isDigit = true) → ∀ rest,
      (run ++ '.' :: rest).takeWhile Char.isDigit = run :=
    fun hrun rest => Lexeme.takeWhile_append_of_all hrun rfl rest
  have hdrop : ∀ {run : List Char}, (∀ c ∈ run, c.isDigit = true) → ∀ rest,
      (run ++ '.' :: rest).dropWhile Char.isDigit = '.' :: rest := by
    intro run hrun rest
    rw [List.dropWhile_append_of_pos hrun, List.dropWhile_cons_of_neg (by decide)]
  simp [decimal?, htake hwhole, hdrop hwhole, htake hfraction, hdrop hfraction, exponent?]

/-- Of the texts with a point, those with one point can be read. -/
theorem read?_eq_none_iff {d : Char} {ds : List Char} (hd : d.isDigit = true)
    (hds : ∀ c ∈ ds, c.isDigit = true ∨ c = '.') (hpoint : '.' ∈ ds) (negative : Bool) :
    read? (signed negative (d :: ds)) = none ↔ 2 ≤ ds.count '.' := by
  obtain ⟨whole, rest, rfl, hwhole, hrest⟩ := exists_first_point hds hpoint
  have hfirst : ∀ c ∈ d :: whole, c.isDigit = true := List.forall_mem_cons.mpr ⟨hd, hwhole⟩
  have hnone : whole.count '.' = 0 := by
    refine List.count_eq_zero.mpr fun hmem => ?_
    exact absurd (hwhole _ hmem) (by decide)
  rw [List.count_append, hnone, List.count_cons_self, read?_signed hd, ← List.cons_append]
  -- The whole part goes up to the first point; what counts is whether there is another one.
  by_cases hmore : '.' ∈ rest
  · obtain ⟨fraction, rest, rfl, hfraction, -⟩ := exists_first_point hrest hmore
    rw [decimal?_two_points hfirst hfraction]
    have hcount := List.count_pos_iff.mpr hmore
    exact ⟨fun _ => by omega, fun _ => rfl⟩
  · have hfraction := forall_isDigit hrest hmore
    have hdigits : ∀ c ∈ d :: whole ++ rest, c.isDigit = true := by
      intro c hc
      exact (List.mem_append.mp hc).elim (hfirst c) (hfraction c)
    have hread := Script.Decimal.decimal?_eq
      ⟨negative, d :: whole, rest, List.cons_ne_nil d whole, hdigits⟩
    dsimp only at hread
    rw [hread, List.count_eq_zero.mpr hmore]
    simp

end Notation

/-! ### Numbers -/

namespace Lexeme

open Notation

/-- What is left of a number without its underscores. -/
theorem Form.Fits.ungrouped_eq {signed : Bool} {cs after : List Char}
    (h : Form.number.Fits signed cs after) :
    ∃ negative d ds, ungrouped cs = Notation.signed negative (d :: ds) ∧ d.isDigit = true ∧
      (∀ c ∈ ds, c.isDigit = true ∨ c = '.') ∧ ds.count '.' = cs.count '.' := by
  obtain ⟨negative, d, ds, rfl, -, hd, hds, -⟩ := h
  have hgroup : (d != '_') = true := by
    refine bne_iff_ne.mpr ?_
    rintro rfl
    cases hd
  have hpoint : d ≠ '.' := by
    rintro rfl
    cases hd
  refine ⟨negative, d, ungrouped ds, ?_, hd, ?_, ?_⟩
  · cases negative <;> simp [ungrouped, Notation.signed, hgroup]
  · intro c hc
    obtain ⟨hc, hne⟩ := List.mem_filter.mp hc
    have hclass := hds c hc
    simp only [isNumberChar, Bool.or_eq_true, beq_iff_eq] at hclass
    rcases hclass with (hclass | rfl) | hclass
    · exact .inl hclass
    · cases hne
    · exact .inr hclass
  · have hcount : (ungrouped ds).count '.' = ds.count '.' := List.count_filter (by decide)
    rw [hcount]
    cases negative <;> simp [Notation.signed, hpoint]

/-- A number without a point is an integer. -/
theorem Form.Fits.exists_denotes {signed : Bool} {cs after : List Char}
    (h : Form.number.Fits signed cs after) (hpoint : '.' ∉ cs) : ∃ n, Denotes (ungrouped cs) n := by
  obtain ⟨negative, d, ds, hcs, hd, hds, hcount⟩ := h.ungrouped_eq
  have hnone : '.' ∉ ds := List.count_eq_zero.mp (hcount.trans (List.count_eq_zero.mpr hpoint))
  have hdigits : ∀ c ∈ d :: ds, c.isDigit = true :=
    List.forall_mem_cons.mpr ⟨hd, forall_isDigit hds hnone⟩
  exact ⟨_, negative, d :: ds, hcs, List.cons_ne_nil d ds, hdigits, rfl⟩

theorem numberKind?_of_denotes {cs : List Char} {n : Int} (hpoint : '.' ∉ cs)
    (hn : Denotes (ungrouped cs) n) : numberKind? cs = (Integer.ofInt? n).map .int := by
  have hread : integer? (cs.filter (· != '_')) = some n := hn.integer?_eq
  simp [numberKind?, hpoint, hread]

/-- The numbers that denote nothing. -/
theorem numberKind?_eq_none_iff {signed : Bool} {cs after : List Char}
    (h : Form.number.Fits signed cs after) : numberKind? cs = none ↔
      2 ≤ cs.count '.' ∨
        cs.count '.' = 0 ∧ ∃ n, Denotes (ungrouped cs) n ∧ ¬ Integer.InRange n := by
  by_cases hpoint : '.' ∈ cs
  · obtain ⟨negative, d, ds, hcs, hd, hds, hcount⟩ := h.ungrouped_eq
    have hpos : 0 < cs.count '.' := List.count_pos_iff.mpr hpoint
    have hmem : '.' ∈ ds := List.count_pos_iff.mp (hcount ▸ hpos)
    have hkind : numberKind? cs = (read? (ungrouped cs)).map .float := by
      rw [numberKind?, if_pos (List.contains_iff_mem.mpr hpoint)]
      rfl
    rw [hkind, Option.map_eq_none_iff, hcs, read?_eq_none_iff hd hds hmem, hcount]
    exact ⟨.inl, fun hor => hor.elim id fun hzero => by omega⟩
  · have hzero : cs.count '.' = 0 := List.count_eq_zero.mpr hpoint
    obtain ⟨n, hn⟩ := h.exists_denotes hpoint
    rw [numberKind?_of_denotes hpoint hn, Option.map_eq_none_iff, Integer.ofInt?_eq_none_iff]
    constructor
    · intro hrange
      exact .inr ⟨hzero, n, hn, hrange⟩
    · rintro (hmany | ⟨-, m, hm, hrange⟩)
      · omega
      · have heq : m = n := Option.some.inj (hm.integer?_eq.symm.trans hn.integer?_eq)
        exact heq ▸ hrange

/-- An integer has the value that its digits denote. -/
theorem denotes_of_numberKind?_eq {signed : Bool} {cs after : List Char} {k : Int64}
    (h : Form.number.Fits signed cs after) (hkind : numberKind? cs = some (.int k)) :
    Denotes (ungrouped cs) k.toInt := by
  have hpoint : '.' ∉ cs := by
    intro hmem
    obtain ⟨x, hx⟩ := (numberKind?_cases hkind).2.mpr hmem
    cases hx
  obtain ⟨n, hn⟩ := h.exists_denotes hpoint
  rw [numberKind?_of_denotes hpoint hn] at hkind
  obtain ⟨k', hk, heq⟩ := Option.map_eq_some_iff.mp hkind
  cases heq
  rw [Integer.ofInt?_eq_some_iff.mp hk]
  exact hn

end Lexeme

namespace Layout

namespace Entry

/-- The lexeme is a number that has two points, or none and a value out of range. -/
def IsMalformed (s : Entry) : Prop :=
  s.form = .number ∧
    (2 ≤ s.chars.count '.' ∨
      s.chars.count '.' = 0 ∧ ∃ n, Notation.Denotes (Notation.ungrouped s.chars) n ∧
        ¬ Integer.InRange n)

variable {s : Entry} {signed : Bool} {after : List Char}

/-- Only malformed numbers are no tokens. -/
theorem kind?_eq_none_iff (h : s.form.Fits signed s.chars after) :
    s.kind? = none ↔ s.IsMalformed := by
  obtain ⟨gap, form, chars⟩ := s
  cases form with
  | gap => exact h.elim
  | number =>
    refine (Lexeme.numberKind?_eq_none_iff h).trans ?_
    exact ⟨fun hbad => ⟨rfl, hbad⟩, fun hbad => hbad.2⟩
  | _ => exact ⟨fun hnone => (by cases hnone), fun hbad => (by cases hbad.1)⟩

theorem denotes_of_kind?_eq (h : s.form.Fits signed s.chars after) {n : Int64}
    (hkind : s.kind? = some (.int n)) : Notation.Denotes (Notation.ungrouped s.chars) n.toInt := by
  have hnumber : s.form = .number := by
    refine (isNumber_iff h).mp ?_
    rw [IsNumber, hkind]
    rfl
  rw [kind?, hnumber] at hkind
  rw [hnumber] at h
  exact Lexeme.denotes_of_numberKind?_eq h hkind

end Entry

/-! ### Streams -/

variable {last before : List Char} {index : Nat} {entries : List Entry}

theorem stop_scan_eq_none_iff :
    (scan last before index entries).stop = none ↔ ∀ s ∈ entries, s.kind? ≠ none := by
  induction entries generalizing before index with
  | nil => simp [scan]
  | cons e rest ih =>
    cases hkind : e.kind? with
    | none => simp [scan, hkind]
    | some kind => simp [scan, hkind, Scan.cons, ih]

/-- A stream stops at the first entry that is no token. -/
theorem stop_scan_eq_some_iff {m : Malformed} : (scan last before index entries).stop = some m ↔
    ∃ earlier s later, entries = earlier ++ s :: later ∧ s.kind? = none ∧
      (∀ t ∈ earlier, t.kind? ≠ none) ∧
      m = ⟨String.ofList s.chars,
        (Position.behind (before ++ Layout.text earlier ++ s.gap)).line⟩ := by
  induction entries generalizing before index with
  | nil => simp [scan]
  | cons e rest ih =>
    cases hkind : e.kind? with
    | none =>
      simp only [scan, hkind, Option.some.injEq]
      constructor
      · rintro rfl
        exact ⟨[], e, rest, rfl, hkind, by simp, by simp [Layout.text]⟩
      · rintro ⟨earlier, s, later, hentries, -, hearlier, rfl⟩
        cases earlier with
        | nil =>
          obtain ⟨rfl, -⟩ := List.cons.inj hentries
          simp [Layout.text]
        | cons t earlier =>
          obtain ⟨rfl, -⟩ := List.cons.inj hentries
          exact absurd hkind (hearlier e (List.mem_cons_self ..))
    | some kind =>
      have hbefore : ∀ earlier, before ++ Layout.text (e :: earlier) =
          before ++ e.text ++ Layout.text earlier := by
        intro earlier
        rw [text_cons, List.append_assoc]
      simp only [scan, hkind, Scan.cons, ih]
      constructor
      · rintro ⟨earlier, s, later, rfl, hnone, hearlier, rfl⟩
        refine ⟨e :: earlier, s, later, rfl, hnone, ?_, ?_⟩
        · exact List.forall_mem_cons.mpr ⟨by simp [hkind], hearlier⟩
        · rw [hbefore]
      · rintro ⟨earlier, s, later, hentries, hnone, hearlier, rfl⟩
        cases earlier with
        | nil =>
          obtain ⟨rfl, -⟩ := List.cons.inj hentries
          exact absurd (hkind.symm.trans hnone) (by simp)
        | cons t earlier =>
          obtain ⟨rfl, rfl⟩ := List.cons.inj hentries
          refine ⟨earlier, s, later, rfl, hnone, (List.forall_mem_cons.mp hearlier).2, ?_⟩
          rw [hbefore]

/-- Every token but the end of the text is an entry. -/
theorem exists_of_mem_tokens_scan {t : Token} (h : t ∈ (scan last before index entries).tokens) :
    t.kind = .endOfText ∨
      ∃ s ∈ entries, s.kind? = some t.kind ∧ t.lexeme = String.ofList s.chars := by
  induction entries generalizing before index with
  | nil =>
    rw [scan, List.mem_singleton] at h
    exact .inl (by rw [h])
  | cons e rest ih =>
    cases hkind : e.kind? with
    | none =>
      simp only [scan, hkind] at h
      cases h
    | some kind =>
      simp only [scan, hkind, Scan.cons] at h
      rcases List.mem_cons.mp h with rfl | h
      · exact .inr ⟨e, List.mem_cons_self .., hkind, rfl⟩
      · rcases ih h with hend | ⟨s, hs, hfound⟩
        · exact .inl hend
        · exact .inr ⟨s, List.mem_cons_of_mem _ hs, hfound⟩

/-- Every entry of a layout is a lexeme. -/
theorem exists_fits {cs : List Char} (layout : Layout cs) {s : Entry} (hs : s ∈ layout.entries) :
    ∃ signed after, s.form.Fits signed s.chars after := by
  obtain ⟨earlier, later, hentries⟩ := List.append_of_mem hs
  have hlawful := layout.lawful
  rw [hentries] at hlawful
  exact ⟨_, _, hlawful.stands.2⟩

end Layout

/-! ### Texts -/

namespace Scan

/-- A text is scanned up to its first malformed number, which is named with the line it stands on,
and to its end if it has none; the integers among its tokens have the value that their digits
denote. -/
theorem ofText_stop (text : String) :
    ∃ layout : Layout text.toList, (∀ other : Layout text.toList, other = layout) ∧
      ((∃ m, (ofText text).stop = some m) ↔ ∃ s ∈ layout.entries, s.IsMalformed) ∧
      (∀ m, (ofText text).stop = some m ↔
        ∃ earlier s later, layout.entries = earlier ++ s :: later ∧ s.IsMalformed ∧
          (∀ t ∈ earlier, ¬ t.IsMalformed) ∧
          m = ⟨String.ofList s.chars, (Position.behind (Layout.text earlier ++ s.gap)).line⟩) ∧
      ∀ t ∈ (ofText text).tokens, ∀ n, t.kind = .int n →
        Notation.Denotes (Notation.ungrouped t.lexeme.toList) n.toInt := by
  let layout := Layout.of text.toList
  have hbad : ∀ s ∈ layout.entries, (s.kind? = none ↔ s.IsMalformed) := by
    intro s hs
    obtain ⟨signed, after, hfits⟩ := layout.exists_fits hs
    exact Layout.Entry.kind?_eq_none_iff hfits
  refine ⟨layout, fun other => other.eq_of, ?_⟩
  rw [Layout.ofText_eq_stream text layout]
  refine ⟨⟨?_, ?_⟩, fun m => ?_, fun t ht n hn => ?_⟩
  · rintro ⟨m, hm⟩
    obtain ⟨earlier, s, later, hentries, hnone, -⟩ := Layout.stop_scan_eq_some_iff.mp hm
    have hs : s ∈ layout.entries := by simp [hentries]
    exact ⟨s, hs, (hbad s hs).mp hnone⟩
  · rintro ⟨s, hs, hmalformed⟩
    refine Option.ne_none_iff_exists'.mp fun hnone => ?_
    exact Layout.stop_scan_eq_none_iff.mp hnone s hs ((hbad s hs).mpr hmalformed)
  · refine Layout.stop_scan_eq_some_iff.trans ?_
    refine exists_congr fun earlier => exists_congr fun s => exists_congr fun later =>
      and_congr_right fun hentries => ?_
    have hs : s ∈ layout.entries := by simp [hentries]
    have hearlier : (∀ t ∈ earlier, t.kind? ≠ none) ↔ ∀ t ∈ earlier, ¬ t.IsMalformed :=
      forall₂_congr fun t ht => not_congr (hbad t (by simp [hentries, ht]))
    rw [hbad s hs, hearlier, List.nil_append]
  · rcases Layout.exists_of_mem_tokens_scan ht with hend | ⟨s, hs, hkind, hlexeme⟩
    · rw [hn] at hend
      cases hend
    · obtain ⟨signed, after, hfits⟩ := layout.exists_fits hs
      rw [hlexeme, String.toList_ofList]
      exact Layout.Entry.denotes_of_kind?_eq hfits (hn ▸ hkind)

end Scan

end TagLang
