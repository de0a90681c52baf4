/-!
# UTF-8

Bytes are cut into units: characters, and stretches that no character starts with.  Such a stretch
is as long as the beginning of some character and at least one byte.  `Utf8.decode?` wants
characters only; `Utf8.decodeLossy` writes U+FFFD for each of the others.
-/

namespace TagLang.Utf8

/-- What a leading byte asks for: the number of further bytes and the range of the first of them. -/
def lead (b : Nat) : Option (Nat × Nat × Nat) :=
  if 0xC2 ≤ b ∧ b ≤ 0xDF then some (1, 0x80, 0xBF)
  else if b = 0xE0 then some (2, 0xA0, 0xBF)
  else if b = 0xED then some (2, 0x80, 0x9F)
  else if 0xE1 ≤ b ∧ b ≤ 0xEF then some (2, 0x80, 0xBF)
  else if b = 0xF0 then some (3, 0x90, 0xBF)
  else if 0xF1 ≤ b ∧ b ≤ 0xF3 then some (3, 0x80, 0xBF)
  else if b = 0xF4 then some (3, 0x80, 0x8F)
  else none

/-- The bytes, at most `n`, that continue a character; the first must lie between `low` and
`high`. -/
def further : Nat → Nat → Nat → List UInt8 → List UInt8
  | n + 1, low, high, b :: bs =>
    if low ≤ b.toNat ∧ b.toNat ≤ high then b :: further n 0x80 0xBF bs else []
  | _, _, _, _ => []

/-- The character made of the bits of a leading byte and of further bytes. -/
def assemble (b : UInt8) (more : List UInt8) : Char :=
  Char.ofNat (more.foldl (fun n m => n * 64 + m.toNat % 64) (b.toNat % Nat.pow 2 (6 - more.length)))

/-- The units of a list of bytes; none stands for bytes that are no character. -/
def units : List UInt8 → List (Option Char)
  | [] => []
  | b :: bs =>
    if b.toNat < 0x80 then some (Char.ofNat b.toNat) :: units bs
    else
      match lead b.toNat with
      | none => none :: units bs
      | some (n, low, high) =>
        let more := further n low high bs
        (if more.length = n then some (assemble b more) else none) :: units (bs.drop more.length)
termination_by bs => bs.length
decreasing_by all_goals simp only [List.length_drop, List.length_cons]; omega

/-- The text that the bytes encode, if they are UTF-8. -/
def decode? (bs : List UInt8) : Option String :=
  ((units bs).mapM id).map String.ofList

/-- The text that the bytes encode, with U+FFFD for what is not UTF-8. -/
def decodeLossy (bs : List UInt8) : String :=
  String.ofList ((units bs).map fun u => u.getD (Char.ofNat 0xFFFD))

/-- The bytes of a text. -/
def encode (s : String) : List UInt8 :=
  s.toUTF8.toList

end TagLang.Utf8
