import TagLang.Proofs.Scanning

/-!
# A text as gaps and lexemes

Scanning loses nothing.  A text that is read to its end is a sequence of segments, each a gap and
the lexeme of a token behind it, and a last gap (`Scan.ofText_splits`).  A gap holds white space and
comments only (`Scan.Gap`), so every other character belongs to exactly one token, and every token
knows its number and the place where its lexeme starts (`Segment.InPlace`).  Where a malformed
number stops the stream, the same holds of the text before it.

The recursion of `Scan.ofChars` is followed with the text before the place that is being read and
the part of a gap that has been passed already (`Scan.Splits`).
-/

namespace TagLang

/-! ### Places -/

namespace Position

/-- The place behind some characters: lines count the newlines before it, and columns the characters
since the last one. -/
def behind (cs : List Char) : Position :=
  ⟨1 + cs.count '\n', (cs.reverse.takeWhile (· != '\n')).length⟩

theorem behind_snoc (cs : List Char) (c : Char) : behind (cs ++ [c]) = (behind cs).step c := by
  unfold behind step
  by_cases h : c = '\n'
  · simp [h, Nat.add_assoc]
  · simp [h, List.count_eq_zero_of_not_mem]

theorem after_behind (before cs : List Char) :
    (behind before).after cs = behind (before ++ cs) := by
  induction cs generalizing before with
  | nil => rw [List.append_nil]; rfl
  | cons c cs ih =>
    have hstep : (behind before).after (c :: cs) = (behind (before ++ [c])).after cs := by
      rw [behind_snoc]
      rfl
    rw [hstep, ih, List.append_assoc, List.singleton_append]

end Position

/-! ### Gaps -/

namespace Scan

/-- White space and comments, each of them from a `#` up to the next one. -/
inductive Gap : List Char → Prop
  | nil : Gap []
  | blank {c : Char} {cs : List Char} (h : Text.isBlank c = true) (hcs : Gap cs) : Gap (c :: cs)
  | comment {inner cs : List Char} (h : '#' ∉ inner) (hcs : Gap cs) :
    Gap ('#' :: (inner ++ '#' :: cs))

/-- A gap at the end of a text, where the last comment may be open. -/
def LastGap (cs : List Char) : Prop :=
  Gap cs ∨ ∃ gap inner, cs = gap ++ '#' :: inner ∧ Gap gap ∧ '#' ∉ inner

theorem Gap.append {as bs : List Char} (ha : Gap as) (hb : Gap bs) : Gap (as ++ bs) := by
  induction ha with
  | nil => exact hb
  | blank h _ ih => exact .blank h ih
  | @comment inner cs h _ ih =>
    rw [List.cons_append, List.append_assoc, List.cons_append]
    exact .comment h ih

/-- A fence is found, or all characters are taken. -/
theorem through_cases (fence : Char) (cs : List Char) :
    (∃ inner rest, fence ∉ inner ∧ cs = inner ++ fence :: rest ∧
      Lexeme.through fence cs = inner ++ [fence]) ∨
    (fence ∉ cs ∧ Lexeme.through fence cs = cs) := by
  induction cs with
  | nil => exact .inr ⟨List.not_mem_nil, rfl⟩
  | cons c cs ih =>
    rw [Lexeme.through]
    by_cases hc : c = fence
    · refine .inl ⟨[], cs, List.not_mem_nil, by rw [hc]; rfl, by rw [if_pos hc, hc]; rfl⟩
    · rw [if_neg hc]
      rcases ih with ⟨inner, rest, hin, hcs, hthrough⟩ | ⟨hnot, hthrough⟩
      · refine .inl ⟨c :: inner, rest, ?_, by rw [hcs]; rfl, by rw [hthrough]; rfl⟩
        exact fun hm => (List.mem_cons.mp hm).elim (fun he => hc he.symm) hin
      · refine .inr ⟨?_, by rw [hthrough]⟩
        exact fun hm => (List.mem_cons.mp hm).elim (fun he => hc he.symm) hnot

/-- A piece that is a gap is a blank, a closed comment, or an open one that takes all that is
left. -/
theorem munch_gap {signed : Bool} {c : Char} {cs more : List Char}
    (h : Lexeme.munch signed c cs = (.gap, more)) :
    Gap (c :: more) ∨ (c = '#' ∧ '#' ∉ cs ∧ more = cs) := by
  unfold Lexeme.munch at h
  split at h
  next hfence =>
    have hc : c = '#' := beq_iff_eq.mp hfence
    obtain rfl : Lexeme.through c cs = more := congrArg Prod.snd h
    subst hc
    rcases through_cases '#' cs with ⟨inner, rest, hin, _, hthrough⟩ | ⟨hnot, hthrough⟩
    · rw [hthrough]
      exact .inl (.comment hin .nil)
    · exact .inr ⟨rfl, hnot, hthrough⟩
  next =>
    split at h
    · cases h
    next =>
      split at h
      next hblank =>
        cases h
        exact .inl (.blank hblank .nil)
      next =>
        -- What is neither a fence nor a blank starts a lexeme.
        split at h
        · cases h
        · split at h
          · cases h
          · split at h
            · cases h
            · split at h <;> cases h

/-- What belongs to a piece stands right behind its first character. -/
theorem munch_append {signed : Bool} {c : Char} {cs more : List Char} {form : Lexeme.Form}
    (h : Lexeme.munch signed c cs = (form, more)) : more ++ cs.drop more.length = cs := by
  have hprefix : (Lexeme.munch signed c cs).2 <+: cs := by
    have hthrough : Lexeme.through c cs <+: cs := by
      rcases through_cases c cs with ⟨inner, rest, _, hcs, hthrough⟩ | ⟨_, hthrough⟩
      · rw [hthrough]
        exact ⟨rest, by rw [List.append_assoc, List.singleton_append, ← hcs]⟩
      · exact hthrough.symm ▸ List.prefix_rfl
    have hpair : Lexeme.secondOfPair c cs <+: cs := by
      cases cs with
      | nil => exact List.prefix_rfl
      | cons d rest =>
        rw [Lexeme.secondOfPair]
        split
        · exact ⟨rest, rfl⟩
        · exact List.nil_prefix
    unfold Lexeme.munch
    split
    · exact hthrough
    · split
      · exact hthrough
      · split
        · exact List.nil_prefix
        · split
          · exact List.nil_prefix
          · split
            · exact List.nil_prefix
            · split
              · exact List.takeWhile_prefix _
              · split
                · exact hpair
                · exact List.takeWhile_prefix _
  rw [h] at hprefix
  obtain ⟨rest, hrest⟩ := hprefix
  rw [← hrest, List.drop_left]

/-- Only numbers can be malformed. -/
theorem numberKind?_of_kind? {form : Lexeme.Form} (hgap : form ≠ .gap) {cs : List Char}
    (h : form.kind? cs = none) : Lexeme.numberKind? cs = none := by
  cases form with
  | gap => exact absurd rfl hgap
  | number => exact h
  | _ => cases h

/-- No lexeme is read as the end of the text. -/
theorem kind?_ne_endOfText {form : Lexeme.Form} {cs : List Char} :
    form.kind? cs ≠ some .endOfText := by
  intro h
  cases form with
  | number =>
    rw [Lexeme.Form.kind?, Lexeme.numberKind?] at h
    split at h
    · obtain ⟨_, _, h⟩ := Option.map_eq_some_iff.mp h
      cases h
    · obtain ⟨_, _, h⟩ := Option.map_eq_some_iff.mp h
      cases h
  | operator =>
    rw [Lexeme.Form.kind?, Lexeme.operatorKind] at h
    split at h <;> cases h
  | word =>
    rw [Lexeme.Form.kind?, Lexeme.wordKind] at h
    split at h
    · cases h
    · split at h
      · cases h
      · split at h <;> cases h
  | _ => cases h

end Scan

/-! ### Segments -/

/-- A gap and the token that stands behind it. -/
structure Segment where
  gap : List Char
  token : Token

namespace Segment

/-- The characters of a segment. -/
def chars (s : Segment) : List Char :=
  s.gap ++ s.token.lexeme.toList

/-- The characters of segments one behind the other. -/
def text (segments : List Segment) : List Char :=
  segments.flatMap chars

/-- The segment stands behind the characters `before` as number `index`: its gap is one, and its
token is not the end of the text and knows its number and the place where its lexeme starts. -/
structure Stands (before : List Char) (index : Nat) (s : Segment) : Prop where
  gap : Scan.Gap s.gap
  lexeme : s.token.lexeme ≠ ""
  kind : s.token.kind ≠ .endOfText
  index : s.token.index = index
  position : s.token.position = .behind (before ++ s.gap)

/-- The segments stand one behind the other from the start of a text. -/
def InPlace (segments : List Segment) : Prop :=
  ∀ earlier s later, segments = earlier ++ s :: later → s.Stands (text earlier) earlier.length

theorem text_snoc (segments : List Segment) (s : Segment) :
    text (segments ++ [s]) = text segments ++ s.chars := by
  simp [text]

theorem InPlace.nil : InPlace [] := by
  intro earlier s later h
  cases earlier <;> cases h

/-- A further segment may follow. -/
theorem InPlace.snoc {segments : List Segment} (h : InPlace segments) {s : Segment}
    (hs : s.Stands (text segments) segments.length) : InPlace (segments ++ [s]) := by
  intro earlier t later ht
  rcases List.eq_nil_or_concat later with rfl | ⟨later, last, rfl⟩
  · obtain ⟨rfl, hlast⟩ := List.append_inj' ht rfl
    cases hlast
    exact hs
  · rw [List.concat_eq_append, ← List.cons_append, ← List.append_assoc] at ht
    exact h earlier t later (List.append_inj_left' ht rfl)

end Segment

/-! ### Scanning -/

namespace Scan

/-- The scan splits a text: into segments in place and a last gap, behind which comes the end of the
text or a malformed number. -/
def Splits (text : List Char) (scan : Scan) : Prop :=
  ∃ segments last, Segment.InPlace segments ∧
    match scan.stop with
    | none =>
      text = Segment.text segments ++ last ∧ LastGap last ∧
        scan.tokens = segments.map (·.token) ++ [⟨.endOfText, "", .behind text, segments.length⟩]
    | some m =>
      ∃ rest, text = Segment.text segments ++ last ++ m.lexeme.toList ++ rest ∧ Gap last ∧
        scan.tokens = segments.map (·.token) ∧ Lexeme.numberKind? m.lexeme.toList = none ∧
        m.line = (Position.behind (Segment.text segments ++ last)).line

/-- The stream with tokens put in front. -/
def append (tokens : List Token) (scan : Scan) : Scan :=
  { scan with tokens := tokens ++ scan.tokens }

/-- At the end of a text the stream ends. -/
theorem splits_end {segments : List Segment} (hs : Segment.InPlace segments) {last : List Char}
    (hlast : LastGap last) :
    Splits (Segment.text segments ++ last) (append (segments.map (·.token))
      ⟨[⟨.endOfText, "", .behind (Segment.text segments ++ last), segments.length⟩], none⟩) :=
  ⟨segments, last, hs, rfl, hlast, rfl⟩

/-- A scan that goes on behind `segments` and a part of the gap behind them splits the whole
text. -/
theorem ofChars_splits {segments : List Segment} (hs : Segment.InPlace segments) {gap : List Char}
    (hgap : Gap gap) {position : Position} {index : Nat} (context : Context) (cs : List Char)
    (hposition : position = .behind (Segment.text segments ++ gap))
    (hindex : index = segments.length) :
    Splits (Segment.text segments ++ gap ++ cs)
      (append (segments.map (·.token)) (ofChars position index context cs)) := by
  fun_induction ofChars position index context cs generalizing segments gap with
  | case1 position index context =>
    rw [List.append_nil, hposition, hindex]
    exact splits_end hs (.inl hgap)
  | case2 position index context c cs more next rest hmunch =>
    rename_i ih
    have hrest : more ++ rest = cs := munch_append hmunch
    have hnext : next = .behind (Segment.text segments ++ (gap ++ c :: more)) := by
      rw [← List.append_assoc, ← Position.after_behind, ← hposition]
    rcases munch_gap hmunch with hclosed | ⟨rfl, hopen, hmore⟩
    · have hsplit := ih hs (hgap.append hclosed) hnext hindex
      rw [← hrest]
      simpa [List.append_assoc] using hsplit
    · -- An open comment takes the rest of the text.
      have hnil : rest = [] := by
        rw [← hmore] at hrest
        exact List.append_right_eq_self.mp hrest
      rw [hnil, ofChars, hnext, hmore, hindex, List.append_assoc]
      exact splits_end hs (.inr ⟨gap, cs, rfl, hgap, hopen⟩)
  | case3 position index context c cs form more hmunch next rest hform lexeme kind =>
    rename_i hkind ih
    have hrest : more ++ rest = cs := munch_append hmunch
    let s : Segment := ⟨gap, ⟨kind, lexeme, position, index⟩⟩
    have hchars : s.chars = gap ++ c :: more := by
      rw [Segment.chars, String.toList_ofList]
    have hstands : s.Stands (Segment.text segments) segments.length := by
      refine ⟨hgap, fun hempty => ?_, fun hend => ?_, hindex, hposition⟩
      · have hcs := congrArg String.toList hempty
        rw [String.toList_ofList] at hcs
        cases hcs
      · have hkind' : kind = .endOfText := hend
        exact kind?_ne_endOfText (hkind' ▸ hkind)
    have hnext : next = .behind (Segment.text (segments ++ [s]) ++ []) := by
      rw [List.append_nil, Segment.text_snoc, hchars, ← List.append_assoc, ← Position.after_behind,
        ← hposition]
    have hsplit := ih (hs.snoc hstands) .nil hnext (by simp [hindex])
    rw [List.append_nil, Segment.text_snoc, hchars] at hsplit
    simpa [append, cons, List.append_assoc, ← hrest, s] using hsplit
  | case4 position index context c cs form more hmunch hform =>
    rename_i lexeme hkind
    have hlexeme : lexeme.toList = c :: more := String.toList_ofList
    refine ⟨segments, gap, hs, cs.drop more.length, ?_, hgap, List.append_nil _, ?_, ?_⟩
    · rw [hlexeme, List.append_assoc _ (c :: more), List.cons_append, munch_append hmunch]
    · rw [hlexeme]
      exact numberKind?_of_kind? hform hkind
    · rw [hposition]

/-- Scanning loses nothing and places every token.  A text is a sequence of segments, each a gap and
a lexeme, and a last gap: the lexemes are those of the tokens in order, numbered from 0, and each
token has the line and the column at which its lexeme starts.  Behind the last gap stands the end of
the text, which is the last token and the only one of its kind, or the malformed number that has
stopped the stream. -/
theorem ofText_splits (text : String) : Splits text.toList (ofText text) := by
  have h := ofChars_splits .nil .nil .start text.toList (rfl : Position.start = .behind []) rfl
  exact h

end Scan

end TagLang
