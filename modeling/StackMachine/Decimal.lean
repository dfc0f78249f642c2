import StackMachine.Numeral

/-!
# Decimal text of ratios

A ratio is first rounded to the nearest binary fraction with a significand of 53 bits and then
written with a fixed number of decimal places.  Both roundings are to the nearest value, and a tie
goes to the even neighbour; the second one starts from the exact value of the binary fraction.
-/

namespace StackMachine.Decimal

/-- The quotient rounded to the nearest integer, a tie to the even one. -/
def roundQuotient (numerator denominator : Nat) : Nat :=
  let quotient := numerator / denominator
  let twice := 2 * (numerator % denominator)
  if twice < denominator then quotient
  else if denominator < twice then quotient + 1
  else quotient + quotient % 2

/-- The number `significand · 2 ^ exponent`. -/
structure BinaryFraction where
  significand : Nat
  exponent : Int
  deriving DecidableEq, Repr

/-- Bits of a significand. -/
def precision : Nat := 53

/-- The ratio of two numbers, each scaled by a power of two, as a single ratio. -/
def scaled (numerator denominator : Nat) (exponent : Int) : Nat × Nat :=
  (numerator <<< exponent.toNat, denominator <<< (-exponent).toNat)

/-- The greatest exponent of a power of two that is at most the ratio of two positive numbers. -/
def binaryExponent (numerator denominator : Nat) : Int :=
  let guess : Int := numerator.log2 - denominator.log2
  let (dividend, divisor) := scaled numerator denominator (-guess)
  if divisor ≤ dividend then guess else guess - 1

def nearest (numerator denominator : Nat) : BinaryFraction :=
  if numerator = 0 then ⟨0, 0⟩
  else
    let exponent := binaryExponent numerator denominator - (precision - 1 : Nat)
    let (dividend, divisor) := scaled numerator denominator (-exponent)
    -- A significand rounded up to a power of two may have one bit more; the number is the same.
    ⟨roundQuotient dividend divisor, exponent⟩

/-- The number of units of the last place in one, for `places` decimal places. -/
def unitsPerOne : (places : Nat) → Nat
  | 0 => 1
  | places + 1 => 10 * unitsPerOne places

/-- The text of a binary fraction with `places` decimal places. -/
def fixed (places : Nat) (fraction : BinaryFraction) : String :=
  let one := unitsPerOne places
  let (dividend, divisor) := scaled (fraction.significand * one) 1 fraction.exponent
  let units := roundQuotient dividend divisor
  Numeral.decimal (units / one) ++ "." ++
    Numeral.padLeft places '0' (Numeral.decimal (units % one))

/-- The text of a ratio with `places` decimal places. -/
def ratio (places numerator denominator : Nat) : String :=
  fixed places (nearest numerator denominator)

end StackMachine.Decimal
