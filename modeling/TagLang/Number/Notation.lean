import TagLang.Number.Shortest

/-!
# Doubles as text

`Notation.write` gives a double the fewest digits that read back.  The digits stand around a point
when the first of them is at most 16 places before it and at most 4 after it, and otherwise carry an
exponent.  `Notation.read?` takes what `write` gives and every other decimal: a sign, digits with or
without a point, an exponent, and the words `inf`, `infinity` and `nan` in any case.
-/

namespace TagLang.Notation

/-! ### Writing -/

/-- `n` zeros. -/
def zeros (n : Nat) : List Char :=
  List.replicate n '0'

/-- Digits with the point after the first `point` of them; zeros fill the gap on either side. -/
def positional (digits : List Char) (point : Int) : List Char :=
  if point ≤ 0 then
    '0' :: '.' :: zeros (-point).toNat ++ digits
  else if (digits.length : Int) ≤ point then
    digits ++ zeros (point.toNat - digits.length) ++ ['.', '0']
  else
    digits.take point.toNat ++ '.' :: digits.drop point.toNat

/-- Digits with the point after the first one and the exponent that puts it back. -/
def scientific (digits : List Char) (point : Int) : List Char :=
  let tail := digits.drop 1
  digits.take 1 ++ (if tail.isEmpty then [] else '.' :: tail) ++
  'e' :: (toString (point - 1)).toList

/-- The notation of `m · 2 ^ q`. -/
def magnitude (m : Nat) (q : Int) : List Char :=
  if m = 0 then ['0', '.', '0']
  else
    let decimal := Shortest.decimal m q
    let digits := Nat.toDigits 10 decimal.digits
    let point := (digits.length : Int) + decimal.place
    let digits := (digits.reverse.dropWhile (· == '0')).reverse
    if -3 ≤ point ∧ point ≤ 16 then positional digits point else scientific digits point

/-- The sign in front of a number. -/
def signed (negative : Bool) (cs : List Char) : List Char :=
  if negative then '-' :: cs else cs

/-- The text of a double. -/
def write (x : Float) : String :=
  match Binary.ofFloat x with
  | .nan => "NaN"
  | .infinite negative => String.ofList (signed negative ['i', 'n', 'f'])
  | .finite negative m q => String.ofList (signed negative (magnitude m q))

/-! ### Reading -/

/-- The number that a run of decimal digits denotes. -/
def ofDigits (cs : List Char) : Nat :=
  cs.foldl (fun n c => 10 * n + (c.toNat - '0'.toNat)) 0

/-- A sign, if the text starts with one, and the rest. -/
def takeSign : List Char → Bool × List Char
  | '-' :: cs => (true, cs)
  | '+' :: cs => (false, cs)
  | cs => (false, cs)

/-- One or more decimal digits and nothing else. -/
def digits? (cs : List Char) : Option Nat :=
  if !cs.isEmpty && cs.all Char.isDigit then some (ofDigits cs) else none

/-- An integer: a sign if there is one, then one or more digits. -/
def integer? (cs : List Char) : Option Int :=
  let (negative, cs) := takeSign cs
  (digits? cs).map fun n => if negative then -(n : Int) else n

/-- What may follow the digits of a number: nothing, or a mark with an exponent. -/
def exponent? : List Char → Option Int
  | [] => some 0
  | c :: cs => if c = 'e' ∨ c = 'E' then integer? cs else none

/-- A decimal without its sign. -/
def decimal? (negative : Bool) (cs : List Char) : Option Float :=
  let whole := cs.takeWhile Char.isDigit
  let rest := cs.dropWhile Char.isDigit
  let (fraction, rest) := match rest with
    | '.' :: rest => (rest.takeWhile Char.isDigit, rest.dropWhile Char.isDigit)
    | _ => ([], rest)
  if whole.isEmpty && fraction.isEmpty then none
  else
    (exponent? rest).map fun e =>
      Binary.ofDecimal negative (ofDigits (whole ++ fraction)) (e - fraction.length)

/-- The double nearest to the number that a text denotes. -/
def read? (cs : List Char) : Option Float :=
  let (negative, cs) := takeSign cs
  let word := String.ofList (cs.map Char.toLower)
  if word = "inf" ∨ word = "infinity" then
    some (Binary.infinity negative)
  else if word = "nan" then
    some (0.0 / 0.0)
  else
    decimal? negative cs

end TagLang.Notation
