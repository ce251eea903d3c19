/-!
# Non-negative binary64 numbers, exactly

Every finite binary64 number is a whole multiple of `2⁻¹⁰⁷⁴`, so a non-negative one is the natural
number of those units. Decimal text is read by rounding its exact value once, to the nearest
number and a tie to the even significand; what rounds to `2¹⁰²⁴` or more is infinite.

Modelled are the reading of decimal text as a number (`ofDecimal`), `integral` (`toNat?`) and
`position` (`position?`).

* `ofNat_toNat?`: whole numbers below `2⁵³` are held exactly.
-/

namespace TreePointer

/-- A non-negative binary64 number: `finite u` is `u · 2⁻¹⁰⁷⁴`. -/
inductive Binary64 where
  | finite (units : Nat)
  | infinite
deriving DecidableEq, Repr

namespace Binary64

/-- The number of binary places of the unit. As many decimal places make every number whole. -/
def places : Nat := 1074

/-- The number one, in units. -/
@[irreducible] def one : Nat := Nat.pow 2 places

/-- The least number of units that is too large to be finite, `2¹⁰²⁴`. -/
def overflow : Nat := Nat.pow 2 1024 * one

/-- The whole numbers below this bound, and their sums with one, are all numbers. -/
def exactBound : Nat := Nat.pow 2 53

/-- The distance, in units, between the numbers next to `u` units: there are 53 significant bits,
but no number lies between two neighbouring multiples of the unit. -/
def spacing (u : Nat) : Nat := Nat.pow 2 (Nat.log2 u - 52)

/-- The whole number nearest to `num / den`, of two the even one. -/
def roundDiv (num den : Nat) : Nat :=
  let q := num / den
  let r := num % den
  if 2 * r < den then q else if den < 2 * r then q + 1 else q + q % 2

/-- The number nearest to `num / den`. -/
def ofRatio (num den : Nat) : Binary64 :=
  let s := spacing (num * one / den)
  let u := roundDiv (num * one) (den * s) * s
  if u < overflow then .finite u else .infinite

/-- The number of a string of decimal digits. -/
def digitsValue (ds : List Char) : Nat :=
  ds.foldl (fun n d => 10 * n + (d.toNat - '0'.toNat)) 0

/-- The number nearest to the decimal whose digits before and after the point are given. -/
def ofDecimal (whole fraction : List Char) : Binary64 :=
  ofRatio (digitsValue (whole ++ fraction)) (Nat.pow 10 fraction.length)

/-- The value as a natural number, when it is whole and below `2⁵³`, so that no other whole number
rounds to it. -/
def toNat? : Binary64 → Option Nat
  | .finite u => if u % one = 0 ∧ u / one < exactBound then some (u / one) else none
  | .infinite => none

/-- The value as a positive whole number below `2⁵³`, which is what counts as a position. -/
def position? (x : Binary64) : Option Nat :=
  x.toNat?.filter (0 < ·)

/-- The whole number `n`. -/
def ofNat (n : Nat) : Binary64 := .finite (n * one)

theorem pow_two_pos (n : Nat) : 0 < Nat.pow 2 n :=
  Nat.pow_pos (by decide)

theorem one_pos : 0 < one := by
  unfold one
  exact pow_two_pos _

theorem ofNat_toNat? {n : Nat} (h : n < exactBound) : (ofNat n).toNat? = some n := by
  simp only [ofNat, toNat?, Nat.mul_mod_left, Nat.mul_div_cancel n one_pos, h, and_self, if_true]

end Binary64

end TreePointer
