import Mathlib.Algebra.Ring.Int.Parity
import TagLang.Host.Standard
import TagLang.Proofs.Scanning
import TagLang.Value.Arithmetic

/-!
# Exact integers

Integer arithmetic gives the exact result wherever it is a signed 64-bit integer, and complains
about an overflow where it is not (`Value.Exact`).  Two kinds of results are refused although they
are in range: the remainder of the least integer by `-1`, whose quotient is out of range, and the
powers of `-1`, `0` and `1` with an exponent beyond 32 bits (`Value.integer_arithmetic`).

Every operation checks the exact integer with `Integer.ofInt?`.  Only powers and remainders go
another way: a power with a large exponent is never computed (`Integer.pow?_eq`), and a remainder
looks at its quotient first (`Integer.mod?_eq`).
-/

namespace TagLang

/-! ### Checked results -/

namespace Integer

/-- The number is the value of a signed 64-bit integer. -/
def InRange (r : Int) : Prop :=
  -2 ^ 63 ≤ r ∧ r < 2 ^ 63
  deriving Decidable

theorem inRange_toInt (n : Int64) : InRange n.toInt := by
  have hlow := Int64.minValue_le_toInt n
  have hhigh := Int64.toInt_le n
  rw [Int64.toInt_minValue] at hlow
  rw [Int64.toInt_maxValue] at hhigh
  constructor <;> omega

theorem ofInt?_eq_some_iff {r : Int} {n : Int64} : ofInt? r = some n ↔ n.toInt = r := by
  constructor
  · intro h
    rw [ofInt?, Int64.toInt_minValue, Int64.toInt_maxValue] at h
    split at h
    next hrange =>
      cases h
      exact Int64.toInt_ofInt_of_le hrange.1 (by omega)
    next => cases h
  · rintro rfl
    exact ofInt?_toInt n

theorem ofInt?_eq_none_iff {r : Int} : ofInt? r = none ↔ ¬ InRange r := by
  rw [Option.eq_none_iff_forall_ne_some]
  constructor
  · intro h hrange
    exact h (Int64.ofInt r) (ofInt?_eq_some_iff.mpr (Int64.toInt_ofInt_of_le hrange.1 hrange.2))
  · intro h n hn
    exact h (ofInt?_eq_some_iff.mp hn ▸ inRange_toInt n)

/-! ### Powers -/

/-- From the exponent 64 on, the powers of all but three integers are out of range. -/
theorem not_inRange_pow {r : Int} (hr : 2 ≤ r.natAbs) {n : Nat} (hn : 64 ≤ n) :
    ¬ InRange (r ^ n) := by
  have hle : 2 ^ 64 ≤ (r ^ n).natAbs := by
    calc 2 ^ 64 ≤ 2 ^ n := Nat.pow_le_pow_right (by decide) hn
      _ ≤ r.natAbs ^ n := Nat.pow_le_pow_left hr n
      _ = (r ^ n).natAbs := (Int.natAbs_pow r n).symm
  intro h
  have hlow := h.1
  have hhigh := h.2
  omega

/-- The powers of these three depend on the parity of the exponent, once it is positive. -/
theorem pow_eq_pow_parity {r : Int} (hr : r.natAbs < 2) {n : Nat} (hn : 64 ≤ n) :
    r ^ (64 + n % 2) = r ^ n := by
  have hcases : r = 0 ∨ r = 1 ∨ r = -1 := by omega
  rcases hcases with rfl | rfl | rfl
  · rw [zero_pow (by omega), zero_pow (by omega)]
  · rw [one_pow, one_pow]
  · rw [neg_one_pow_eq_pow_mod_two n, neg_one_pow_eq_pow_mod_two (64 + n % 2)]
    congr 1
    omega

/-- The shortcut for large exponents changes nothing. -/
theorem pow?_eq (a : Int64) (n : Nat) : pow? a n = ofInt? (a.toInt ^ n) := by
  rw [pow?]
  split
  next => rfl
  next hn =>
    split
    next hr => exact (ofInt?_eq_none_iff.mpr (not_inRange_pow hr (by omega))).symm
    next hr =>
      rw [← pow_eq_pow_parity (by omega) (by omega : 64 ≤ n)]
      rfl

/-! ### Remainders -/

/-- The quotient of two integers is in range, but for the least one and `-1`. -/
theorem inRange_tdiv (a b : Int64) (h : ¬ (a.toInt = -2 ^ 63 ∧ b.toInt = -1)) :
    InRange (a.toInt.tdiv b.toInt) := by
  have ha := inRange_toInt a
  have hquot : (a.toInt.tdiv b.toInt).natAbs = a.toInt.natAbs / b.toInt.natAbs :=
    Int.natAbs_tdiv ..
  have hle : a.toInt.natAbs / b.toInt.natAbs ≤ a.toInt.natAbs := Nat.div_le_self ..
  unfold InRange at ha ⊢
  by_cases hlarge : a.toInt.natAbs / b.toInt.natAbs < 2 ^ 63
  · omega
  · -- Only the least integer is that large, and only if it is divided by `1` or `-1`.
    have hleast : a.toInt = -2 ^ 63 := by omega
    have hone : b.toInt.natAbs = 1 := by
      have hpos : b.toInt.natAbs ≠ 0 := by
        intro hzero
        rw [hzero, Nat.div_zero] at hlarge
        omega
      have hlt : ¬ 2 ≤ b.toInt.natAbs := by
        intro htwo
        have hhalf : a.toInt.natAbs / b.toInt.natAbs ≤ a.toInt.natAbs / 2 :=
          Nat.div_le_div_left htwo (by decide)
        omega
      omega
    have hb : b.toInt = 1 := by omega
    rw [hb, Int.tdiv_one]
    omega

/-- A remainder is refused where its quotient is out of range. -/
theorem mod?_eq (a b : Int64) :
    mod? a b =
      if a.toInt = -2 ^ 63 ∧ b.toInt = -1 then none else ofInt? (a.toInt.tmod b.toInt) := by
  rw [mod?, div?]
  split
  next h =>
    have hquot : ofInt? (a.toInt.tdiv b.toInt) = none := by
      rw [h.1, h.2]
      rfl
    rw [hquot]
    rfl
  next h =>
    have hquot : ofInt? (a.toInt.tdiv b.toInt) ≠ none := fun hnone =>
      ofInt?_eq_none_iff.mp hnone (inRange_tdiv a b h)
    obtain ⟨q, hq⟩ := Option.ne_none_iff_exists'.mp hquot
    rw [hq]
    rfl

end Integer

/-! ### Operators -/

namespace Value

/-- The outcome with the wording of its fault. -/
def worded (outcome : Except Fault Value) : Except String Value :=
  outcome.mapError Fault.message

/-- The outcome is that of exact arithmetic with the result `r`: it is the integer `r` where there
is one, and the complaint about an overflow exactly where `r` is out of range. -/
structure Exact (r : Int) (outcome : Except String Value) : Prop where
  eq_ok_iff (n : Int64) : outcome = .ok (int n) ↔ n.toInt = r
  eq_error_iff : outcome = .error "integer overflow" ↔ ¬ Integer.InRange r

theorem exact_ofChecked (r : Int) : Exact r (worded (ofChecked (Integer.ofInt? r))) := by
  cases h : Integer.ofInt? r with
  | none =>
    have hrange := Integer.ofInt?_eq_none_iff.mp h
    refine ⟨fun n => ⟨fun hok => ?_, fun hn => ?_⟩, fun _ => hrange, fun _ => rfl⟩
    · cases hok
    · exact absurd (hn ▸ Integer.inRange_toInt n) hrange
  | some m =>
    have hm := Integer.ofInt?_eq_some_iff.mp h
    refine ⟨fun n => ⟨fun hok => ?_, fun hn => ?_⟩, fun herror => ?_, fun hrange => ?_⟩
    · cases hok
      exact hm
    · rw [Int64.toInt_inj.mp (hn.trans hm.symm)]
      rfl
    · cases herror
    · exact absurd (hm ▸ Integer.inRange_toInt m) hrange

theorem exact_div {a b : Int64} (hb : b.toInt ≠ 0) :
    Exact (a.toInt.tdiv b.toInt) (worded (binary .div (int a) (int b))) := by
  have hne : b ≠ 0 := fun h => hb (congrArg Int64.toInt h)
  have hdiv : binary .div (int a) (int b) = ofChecked (Integer.ofInt? (a.toInt.tdiv b.toInt)) :=
    if_neg hne
  rw [hdiv]
  exact exact_ofChecked _

theorem exact_mod {a b : Int64} (hb : b.toInt ≠ 0) :
    if a.toInt = -2 ^ 63 ∧ b.toInt = -1 then
      worded (binary .mod (int a) (int b)) = .error "integer overflow"
    else Exact (a.toInt.tmod b.toInt) (worded (binary .mod (int a) (int b))) := by
  have hne : b ≠ 0 := fun h => hb (congrArg Int64.toInt h)
  have hmod : binary .mod (int a) (int b) = ofChecked (Integer.mod? a b) := if_neg hne
  rw [hmod, Integer.mod?_eq]
  split
  next => rfl
  next => exact exact_ofChecked _

/-- With an exponent beyond 32 bits, the powers of all but three integers are out of range
anyway. -/
theorem exact_pow {a b : Int64} (hb : 0 ≤ b.toInt) :
    if a.toInt.natAbs ≤ 1 ∧ 2 ^ 32 ≤ b.toInt then
      worded (binary .pow (int a) (int b)) = .error "integer overflow"
    else Exact (a.toInt ^ b.toInt.toNat) (worded (binary .pow (int a) (int b))) := by
  have hpow : binary .pow (int a) (int b) =
      if b.toInt < Int.pow 2 32 then ofChecked (Integer.pow? a b.toInt.toNat)
      else .error .overflow :=
    if_neg (by omega)
  have hlimit : Int.pow 2 32 = 2 ^ 32 := rfl
  rw [hpow, hlimit]
  by_cases hlarge : b.toInt < 2 ^ 32
  · rw [if_pos hlarge, if_neg (by omega), Integer.pow?_eq]
    exact exact_ofChecked _
  · rw [if_neg hlarge]
    split
    next => rfl
    next hbase =>
      have hout : Integer.ofInt? (a.toInt ^ b.toInt.toNat) = Option.none :=
        Integer.ofInt?_eq_none_iff.mpr (Integer.not_inRange_pow (by omega) (by omega))
      have hexact := exact_ofChecked (a.toInt ^ b.toInt.toNat)
      rwa [hout] at hexact

theorem exact_abs (a : Int64) : Exact a.toInt.natAbs (Host.abs [int a]) := by
  have habs : Host.abs [int a] = worded (ofChecked (Integer.abs? a)) := by
    cases h : Integer.abs? a <;> simp only [Host.abs, Host.argument, List.getD_cons_zero, h] <;> rfl
  rw [habs]
  exact exact_ofChecked _

/-- Integer arithmetic is exact.  Sums, differences, products, quotients (truncated toward zero),
remainders (with the sign of the dividend), powers with exponents that are not negative, opposites
and absolute values are what they are in the integers wherever that is in range, and the complaint
about an overflow where it is not.  A remainder is refused where its quotient is out of range, and a
power where its exponent has more than 32 bits; this makes a difference for the least integer and
`-1`, and for the bases `-1`, `0` and `1`.  Division by zero is told for every dividend. -/
theorem integer_arithmetic (now : Float) (a b : Int64) :
    Exact (a.toInt + b.toInt) (worded (binary .add (int a) (int b))) ∧
    Exact (a.toInt - b.toInt) (worded (binary .sub (int a) (int b))) ∧
    Exact (a.toInt * b.toInt) (worded (binary .mul (int a) (int b))) ∧
    (b.toInt ≠ 0 → Exact (a.toInt.tdiv b.toInt) (worded (binary .div (int a) (int b)))) ∧
    (b.toInt ≠ 0 →
      if a.toInt = -2 ^ 63 ∧ b.toInt = -1 then
        worded (binary .mod (int a) (int b)) = .error "integer overflow"
      else Exact (a.toInt.tmod b.toInt) (worded (binary .mod (int a) (int b)))) ∧
    (0 ≤ b.toInt →
      if a.toInt.natAbs ≤ 1 ∧ 2 ^ 32 ≤ b.toInt then
        worded (binary .pow (int a) (int b)) = .error "integer overflow"
      else Exact (a.toInt ^ b.toInt.toNat) (worded (binary .pow (int a) (int b)))) ∧
    Exact (-a.toInt) (worded (unary .sub (int a))) ∧
    (∃ f, (Host.standard now).lookup? "math.abs" = some f ∧
      Exact a.toInt.natAbs (f.call [int a])) ∧
    (b.toInt = 0 →
      worded (binary .div (int a) (int b)) = .error "division by zero" ∧
      worded (binary .mod (int a) (int b)) = .error "division by zero") := by
  refine ⟨exact_ofChecked _, exact_ofChecked _, exact_ofChecked _, exact_div, exact_mod, exact_pow,
    exact_ofChecked _, ⟨_, rfl, exact_abs a⟩, fun hb => ?_⟩
  have hzero : b = 0 := Int64.toInt_inj.mp hb
  subst hzero
  exact ⟨rfl, rfl⟩

/-- The second least integer divided by `-1`, a power of `-1` with the largest exponent that is
taken, and a division by zero. -/
theorem integer_arithmetic_ends :
    worded (binary .div (int (.ofInt (-9223372036854775807))) (int (.ofInt (-1)))) =
        .ok (int .maxValue) ∧
      worded (binary .mod (int (.ofInt (-9223372036854775807))) (int (.ofInt (-1)))) = .ok (int 0) ∧
      worded (binary .pow (int (.ofInt (-1))) (int (.ofInt 4294967295))) = .ok (int (.ofInt (-1))) ∧
      worded (binary .mod (int 7) (int 0)) = .error "division by zero" := by
  obtain ⟨-, -, -, hdiv, hmod, -⟩ :=
    integer_arithmetic 0 (.ofInt (-9223372036854775807)) (.ofInt (-1))
  obtain ⟨-, -, -, -, -, hpow, -⟩ := integer_arithmetic 0 (.ofInt (-1)) (.ofInt 4294967295)
  obtain ⟨-, -, -, -, -, -, -, -, hzero⟩ := integer_arithmetic 0 7 0
  replace hmod := hmod (by decide)
  replace hpow := hpow (by decide)
  rw [if_neg (by decide)] at hmod hpow
  refine ⟨((hdiv (by decide)).eq_ok_iff _).mpr (by decide), (hmod.eq_ok_iff _).mpr (by decide),
    (hpow.eq_ok_iff _).mpr ?_, (hzero (by decide)).2⟩
  exact (Odd.neg_one_pow (by decide : Odd 4294967295)).symm

/-- The least integer leaves the remainder `0` when it is divided by `-1`, and `1` to any power is
`1`, but both are refused. -/
theorem exact_result_refused :
    ¬ Exact (Int64.minValue.toInt.tmod (-1))
        (worded (binary .mod (int .minValue) (int (.ofInt (-1))))) ∧
      ¬ Exact (1 ^ 4294967296) (worded (binary .pow (int 1) (int (.ofInt 4294967296)))) := by
  refine ⟨fun h => h.eq_error_iff.mp rfl (by decide), fun h => h.eq_error_iff.mp rfl ?_⟩
  rw [one_pow]
  decide

end Value

end TagLang
