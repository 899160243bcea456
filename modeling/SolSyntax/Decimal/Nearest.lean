/-!
# The binary value nearest to a decimal

Reads `digits * 10 ^ exponent` as the nearest 64-bit binary value, in exact integer arithmetic: the
quotient is rounded once, a half goes to the even neighbour, what is too large becomes infinity.

A finite value with the biased exponent `b` and the fraction `f` has the bits `b * 2 ^ 52 + f`, so
the rounded significand can simply be added to the place of its exponent: a carry out of the
significand moves on to the next exponent by itself.
-/

namespace SolSyntax.Decimal

/-- The quotient rounded to a natural number, a half to the even one. -/
def roundHalfEven (num den : Nat) : Nat :=
  let q := num / den
  match compare (2 * (num % den)) den with
  | .lt => q
  | .gt => q + 1
  | .eq => if q % 2 = 0 then q else q + 1

/-- The `l` with `2 ^ l ≤ num / den < 2 ^ (l + 1)`. -/
def binade (num den : Nat) : Int :=
  let l := (num.log2 : Int) - (den.log2 : Int)
  if den <<< l.toNat ≤ num <<< (-l).toNat then l else l - 1

/-- The exponent of the last place of the least values. -/
def minExponent : Int := -1074

/-- The bits of infinity. -/
def infinityBits : Nat := 0x7FF <<< 52

/-- The bits of the value nearest to the positive quotient `num / den`. -/
def nearestQuotient (num den : Nat) : Nat :=
  let q := max (binade num den - 52) minExponent
  let significand := roundHalfEven (num <<< (-q).toNat) (den <<< q.toNat)
  min (((q - minExponent).toNat <<< 52) + significand) infinityBits

/-- The bits of the value nearest to `digits * 10 ^ exponent`.  Exponents that are out of reach
whatever the digits are not computed with. -/
def nearest (digits : Nat) (exponent : Int) : UInt64 :=
  if digits = 0 then 0
  else if 400 < exponent then infinityBits.toUInt64
  else if exponent < -(400 + digits.log2 + 1 : Int) then 0
  else
    (nearestQuotient (digits * Nat.pow 10 exponent.toNat) (Nat.pow 10 (-exponent).toNat)).toUInt64

end SolSyntax.Decimal
