import TagLang.Number.Binary

/-!
# The fewest digits that read back

The reals that round to a double `m · 2 ^ q` form an interval around it; its ends belong to it when
`m` is even.  `Shortest.decimal` looks for the shortest decimal in the interval: on the grids of 1,
2, ..., 17 significant digits it tests the two grid points next to the double, and the first grid
with a hit wins.  Of two hits the nearer is taken, and of two equally near the larger.

All bounds are compared in units of `2 ^ (q - 2)`, in which they are integers.
-/

namespace TagLang.Shortest

/-- The decimal exponent of the first digit of the positive quotient `num / den`. -/
def leadingPlace (num den : Nat) : Int :=
  if den ≤ num then
    ((Nat.toDigits 10 (num / den)).length : Int) - 1
  else
    -((Nat.toDigits 10 ((den + num - 1) / num - 1)).length : Int)

/-- A point `d · 10 ^ k` of a decimal grid. -/
structure Decimal where
  /-- The digits as one number. -/
  digits : Nat
  /-- The place of the last digit. -/
  place : Int
  deriving DecidableEq, Repr

/-- `10 ^ k` as a numerator and a denominator. -/
def tenPower (k : Int) : Nat × Nat :=
  (Nat.pow 10 k.toNat, Nat.pow 10 (-k).toNat)

/-- The point of the grid `10 ^ k` that stands for `m · 2 ^ q`, if one rounds to it. -/
def onGrid (m : Nat) (q : Int) (k : Int) : Option Decimal :=
  let (unitUp, unitDown) := Binary.ratio 1 (q - 2)
  let (gridUp, gridDown) := tenPower k
  let unit := unitUp * gridDown
  let step := gridUp * unitDown
  let low := if m = Nat.pow 2 52 ∧ Binary.minExponent < q then 4 * m - 1 else 4 * m - 2
  let high := 4 * m + 2
  let hit (d : Nat) : Bool :=
    if m % 2 = 0 then low * unit ≤ d * step && d * step ≤ high * unit
    else low * unit < d * step && d * step < high * unit
  let below := 4 * m * unit / step
  match hit below, hit (below + 1) with
  | true, true => some ⟨if 2 * (4 * m * unit) < (2 * below + 1) * step then below else below + 1, k⟩
  | true, false => some ⟨below, k⟩
  | false, true => some ⟨below + 1, k⟩
  | false, false => none

/-- The shortest decimal that rounds to `m · 2 ^ q`, where `0 < m`; 17 digits always suffice. -/
def decimal (m : Nat) (q : Int) : Decimal :=
  let (num, den) := Binary.ratio m q
  let lead := leadingPlace num den
  ((List.range 17).findSome? fun (n : Nat) => onGrid m q (lead - n)).getD ⟨m, 0⟩

end TagLang.Shortest
