import TagLang.Number.Binary

/-!
# Remainders of doubles

The remainder of a division that truncates toward zero: it has the sign of the dividend and is
computed without rounding, since both operands are integers in units of the smaller last place.
-/

namespace TagLang.Binary

/-- The exact remainder of `x` divided by `y`, with the sign of `x`. -/
def remainder (x y : Float) : Float :=
  match ofFloat x, ofFloat y with
  | nan, _ | _, nan | infinite _, _ => 0.0 / 0.0
  | finite .., infinite _ => x
  | finite negative m q, finite _ n r =>
    if n = 0 then 0.0 / 0.0
    else
      let unit := min q r
      let rest := (m * Nat.pow 2 (q - unit).toNat) % (n * Nat.pow 2 (r - unit).toNat)
      let (num, den) := ratio rest unit
      nearest negative num den

end TagLang.Binary
