import TreePointer.Binary64.Basic

/-!
# The text of a number: the fewest digits that read back

A number is written positionally, never with an exponent, and with the fewest significant digits
that still round to it. Among equally short decimals the nearest is taken, and of two equally near
ones the larger. A whole number below `2⁵³` is written in full.

One unit is `10⁻¹⁰⁷⁴ · 5¹⁰⁷⁴`, so a number is a whole multiple of `10⁻¹⁰⁷⁴` and every comparison
below is between natural numbers.

Modelled is the display of a number in tokens and messages (`text`).
-/

namespace TreePointer.Binary64

/-- The number of decimal digits of `n`. -/
def digitCount (n : Nat) : Nat := (Nat.toDigits 10 n).length

/-- Whether the decimal at distance `d` (in steps of `10⁻¹⁰⁷⁴`) above or below `u` units rounds to
`u` units. Halfway decimals round to an even significand, and the distance to the number below
halves at a power of two. -/
def roundsTo (u d : Nat) (below : Bool) : Bool :=
  let s := spacing u
  let halved := below && decide (1 < s) && u == Nat.pow 2 (Nat.log2 u)
  let reach := (if halved then 1 else 2) * (s * Nat.pow 5 places)
  decide (4 * d < reach) || (4 * d == reach && (u / s) % 2 == 0)

/-- Among the multiples of `10 ^ scale` steps that round to `u` units, the nearest, divided by
`10 ^ scale`. -/
def nearestAt (u scale : Nat) : Option Nat :=
  let x := u * Nat.pow 5 places
  let step := Nat.pow 10 scale
  let d := x % step
  let down := roundsTo u d true
  let up := roundsTo u (step - d) false
  if up && (!down || decide (step ≤ 2 * d)) then some (x / step + 1)
  else if down then some (x / step)
  else none

/-- The shortest decimal that rounds to `u` units, as its digits and the number of places of
`10⁻¹⁰⁷⁴` they are scaled by. Seventeen digits always suffice. -/
def shortest (u : Nat) : Nat × Nat :=
  let count := digitCount (u * Nat.pow 5 places)
  let found := (List.range 17).findSome? fun n =>
    let scale := count - (n + 1)
    (nearestAt u scale).map fun digits => (digits, scale)
  found.getD (u * Nat.pow 5 places, 0)

/-- The text of `digits · 10 ^ (scale - 1074)`, without trailing zeros in the fraction. -/
def positional (digits scale : Nat) : String :=
  if places ≤ scale then toString (digits * Nat.pow 10 (scale - places))
  else
    let width := places - scale
    let fraction := Nat.toDigits 10 (digits % Nat.pow 10 width)
    let padded := List.replicate (width - fraction.length) '0' ++ fraction
    let kept := (padded.reverse.dropWhile (· == '0')).reverse
    let whole := toString (digits / Nat.pow 10 width)
    if kept.isEmpty then whole else whole ++ "." ++ String.ofList kept

/-- The text of a number that is fractional, infinite, or at least `2⁵³`. -/
def shortestText : Binary64 → String
  | .finite u => positional (shortest u).1 (shortest u).2
  | .infinite => "inf"

/-- The text of a number. -/
def text (x : Binary64) : String :=
  match x.toNat? with
  | some n => toString n
  | none => x.shortestText

theorem text_of_toNat? {x : Binary64} {n : Nat} (h : x.toNat? = some n) : x.text = toString n := by
  rw [text, h]

theorem text_ofNat {n : Nat} (h : n < exactBound) : (ofNat n).text = toString n :=
  text_of_toNat? (ofNat_toNat? h)

end TreePointer.Binary64
