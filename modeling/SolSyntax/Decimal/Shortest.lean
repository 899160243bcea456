/-!
# The shortest decimal that reads back

A 64-bit binary value is written with the fewest decimal digits that still read back as the same
value, and with the nearest such digits.  All comparisons are exact, in natural numbers.

* `Dyadic.ofBits` decodes a finite value into `mantissa * 2 ^ exponent`.
* `Dyadic.readsBack` says whether a decimal lies among the reals that round to a value.
* `Dyadic.shortest` looks at the two neighbours of the value on ever finer decimal grids.
-/

namespace SolSyntax.Decimal

/-- A finite value `mantissa * 2 ^ exponent`. -/
structure Dyadic where
  mantissa : Nat
  exponent : Int
  /-- The gap to the next smaller value is half the gap to the next larger one. -/
  narrowBelow : Bool
  deriving DecidableEq, Repr

/-- The decimal `digits * 10 ^ exponent`. -/
structure Scaled where
  digits : Nat
  exponent : Int
  deriving DecidableEq, Repr

/-- The fields of a bit pattern: sign, biased exponent and fraction. -/
def signBit (bits : UInt64) : Bool := bits >>> 63 == 1

def exponentField (bits : UInt64) : Nat := ((bits >>> 52) &&& 0x7FF).toNat

def fractionField (bits : UInt64) : Nat := (bits &&& 0xFFFFFFFFFFFFF).toNat

namespace Dyadic

/-- The size of a finite value, its sign left out. -/
def ofBits (bits : UInt64) : Dyadic :=
  let e := exponentField bits
  let f := fractionField bits
  if e = 0 then ⟨f, -1074, false⟩ else ⟨(1 <<< 52) + f, (e : Int) - 1075, f == 0 && decide (1 < e)⟩

/-- Compares `digits * 10 ^ exponent` with `units * 2 ^ place`. -/
def compareScaled (d : Scaled) (units : Nat) (place : Int) : Ordering :=
  compare ((d.digits * Nat.pow 10 d.exponent.toNat) <<< (-place).toNat)
    ((units <<< place.toNat) * Nat.pow 10 (-d.exponent).toNat)

/-- Whether a decimal lies among the reals that round to `x`.  They reach halfway to the
neighbours on both sides, the ends included when the mantissa is even; the bounds are counted in
quarters of the last place. -/
def readsBack (x : Dyadic) (d : Scaled) : Bool :=
  let lower := if x.narrowBelow then 4 * x.mantissa - 1 else 4 * x.mantissa - 2
  let upper := 4 * x.mantissa + 2
  let closed := x.mantissa % 2 == 0
  let atLower := compareScaled d lower (x.exponent - 2)
  let atUpper := compareScaled d upper (x.exponent - 2)
  (atLower == .gt || closed && atLower == .eq) && (atUpper == .lt || closed && atUpper == .eq)

/-- The multiple of `10 ^ place` at or below the value, in units of `10 ^ place`. -/
def floorOn (x : Dyadic) (place : Int) : Nat :=
  ((x.mantissa <<< x.exponent.toNat) * Nat.pow 10 (-place).toNat) /
    (Nat.pow 10 place.toNat <<< (-x.exponent).toNat)

/-- The better of the value's two neighbours on the grid of `10 ^ place`, among those that read
back: the nearer one, and of two equally near ones the upper. -/
def nearestOn (x : Dyadic) (place : Int) : Option Scaled :=
  let below : Scaled := ⟨x.floorOn place, place⟩
  let above : Scaled := ⟨x.floorOn place + 1, place⟩
  match x.readsBack below, x.readsBack above with
  | false, false => none
  | true, false => some below
  | false, true => some above
  | true, true =>
    let middle : Scaled := ⟨2 * below.digits + 1, place⟩
    if compareScaled middle (2 * x.mantissa) x.exponent == .gt then some below else some above

/-- The place of the leading digit: the greatest `k ≤ start` with `10 ^ k` at or below the value,
`steps` bounding the search. -/
def leadingPlace (x : Dyadic) (start : Int) : Nat → Int
  | 0 => start
  | steps + 1 =>
    if compareScaled ⟨1, start⟩ x.mantissa x.exponent == .gt then
      x.leadingPlace (start - 1) steps
    else start

/-- The first hit on grids of ever smaller place, `grids` of them; the last resort is the value's
lower neighbour on the last grid. -/
def searchFrom (x : Dyadic) (place : Int) : Nat → Scaled
  | 0 => ⟨x.floorOn place, place⟩
  | grids + 1 =>
    match x.nearestOn place with
    | some d => d
    | none => x.searchFrom (place - 1) grids

/-- Moves the zeros at the end of the digits into the exponent. -/
def stripZeros (exponent : Int) : Nat → Nat → Scaled
  | 0, digits => ⟨digits, exponent⟩
  | steps + 1, digits =>
    if digits % 10 = 0 ∧ digits ≠ 0 then stripZeros (exponent + 1) steps (digits / 10)
    else ⟨digits, exponent⟩

/-- The shortest decimal that reads back as a positive value.  Every value lies below `10 ^ 309`
and above `10 ^ -325`, and seventeen digits tell any two apart. -/
def shortest (x : Dyadic) : Scaled :=
  let d := x.searchFrom (x.leadingPlace 309 640) 17
  stripZeros d.exponent 20 d.digits

end Dyadic

/-! ## Layout -/

/-- The digits `ds`, whose first has the place `lead`, with a point; at least one digit stands on
either side of it. -/
def positional (ds : String) (lead : Int) : String :=
  if lead < 0 then "0." ++ String.ofList (List.replicate ((-lead).toNat - 1) '0') ++ ds
  else
    let whole := lead.toNat + 1
    let digits := ds.toList
    if digits.length ≤ whole then
      ds ++ String.ofList (List.replicate (whole - digits.length) '0') ++ ".0"
    else String.ofList (digits.take whole) ++ "." ++ String.ofList (digits.drop whole)

/-- The digits `ds` with one digit before the point, if there are more, and the exponent. -/
def scientific (ds : String) (lead : Int) : String :=
  match ds.toList with
  | [] => ""
  | [d] => d.toString ++ "e" ++ toString lead
  | d :: rest => d.toString ++ "." ++ String.ofList rest ++ "e" ++ toString lead

/-- The text of a finite positive value: positional from `1e-4` up to `1e16`, else with an
exponent. -/
def finiteText (x : Dyadic) : String :=
  let d := x.shortest
  let ds := Nat.repr d.digits
  let lead := d.exponent + (ds.length : Int) - 1
  if -4 ≤ lead ∧ lead < 16 then positional ds lead else scientific ds lead

/-- The text of the value with the given bits. -/
def floatText (bits : UInt64) : String :=
  let sign := if signBit bits then "-" else ""
  if exponentField bits = 0x7FF then
    if fractionField bits = 0 then sign ++ "inf" else "NaN"
  else if exponentField bits = 0 ∧ fractionField bits = 0 then sign ++ "0.0"
  else sign ++ finiteText (Dyadic.ofBits bits)

end SolSyntax.Decimal
