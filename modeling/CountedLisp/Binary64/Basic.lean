/-!
# Binary64 numbers

A double-precision number is the 64 bits of its interchange format. Its value is read off the
bits by `Binary64.decode`: a sign, an integer significand `m` and a power of two `2 ^ q`, or an
infinity, or no number at all. Arithmetic is done exactly on these values and rounded once, by
`Binary64.round`, to the nearest number, where a tie goes to the even significand.

Keeping the bits, and not a value, keeps the sign of zero and the payload of a NaN.
-/

namespace CountedLisp

/-- A double-precision number, by its bits. -/
structure Binary64 where
  /-- Sign, eleven bits of exponent, 52 bits of significand. -/
  bits : UInt64
  deriving DecidableEq, Inhabited

namespace Binary64

/-! ### Reading the bits -/

/-- What the bits of a number say. -/
inductive Value where
  /-- Not a number. -/
  | nan
  /-- An infinity with its sign. -/
  | infinite (negative : Bool)
  /-- The number `± significand * 2 ^ exponent`. -/
  | finite (negative : Bool) (significand : Nat) (exponent : Int)
  deriving DecidableEq

/-- The bits without the sign. -/
def magnitude (x : Binary64) : Nat :=
  x.bits.toNat % Nat.pow 2 63

/-- Whether the sign bit is set. -/
def isNegative (x : Binary64) : Bool :=
  Nat.pow 2 63 ≤ x.bits.toNat

/-- The magnitude of the infinities; NaNs lie above it. -/
def infinityBits : Nat :=
  0x7FF * Nat.pow 2 52

/-- Whether the bits stand for no number. -/
def isNaN (x : Binary64) : Bool :=
  infinityBits < x.magnitude

/-- Whether the bits stand for an infinity. -/
def isInfinite (x : Binary64) : Bool :=
  x.magnitude = infinityBits

/-- The value that the bits stand for. A number whose exponent field is zero has no hidden bit. -/
def decode (x : Binary64) : Value :=
  if x.isNaN then .nan
  else if x.isInfinite then .infinite x.isNegative
  else
    let field : Nat := x.magnitude / Nat.pow 2 52
    let fraction : Nat := x.magnitude % Nat.pow 2 52
    if field = 0 then .finite x.isNegative fraction (-1074)
    else .finite x.isNegative (Nat.pow 2 52 + fraction) ((field : Int) - 1075)

/-! ### Making numbers -/

/-- The number with the given sign and magnitude. -/
def ofMagnitude (negative : Bool) (magnitude : Nat) : Binary64 :=
  ⟨((if negative then Nat.pow 2 63 else 0) + magnitude).toUInt64⟩

/-- A zero with its sign. -/
def zero (negative : Bool) : Binary64 :=
  ofMagnitude negative 0

/-- An infinity with its sign. -/
def infinity (negative : Bool) : Binary64 :=
  ofMagnitude negative infinityBits

/-- The NaN that an undefined operation gives. -/
def undefinedResult : Binary64 :=
  ofMagnitude true (infinityBits + Nat.pow 2 51)

/-- The quiet form of a NaN: the same payload with the leading significand bit set. -/
def quiet (x : Binary64) : Binary64 :=
  if x.bits.toNat / Nat.pow 2 51 % 2 = 1 then x else ⟨(x.bits.toNat + Nat.pow 2 51).toUInt64⟩

/-! ### Rounding -/

/-- The quotient of two naturals rounded to the nearest natural, a tie to the even one. -/
def roundQuotient (num den : Nat) : Nat :=
  let q := num / den
  let r := num % den
  if den < 2 * r then q + 1
  else if 2 * r = den && q % 2 = 1 then q + 1
  else q

/-- The quotient `num / den` divided by `2 ^ e`, again as a quotient. -/
def scale (num den : Nat) (e : Int) : Nat × Nat :=
  if 0 ≤ e then (num, den * Nat.pow 2 e.toNat) else (num * Nat.pow 2 (-e).toNat, den)

/-- The exponent at which `num / den` has a significand of 53 bits, or the least exponent if it
is too small for that. -/
def roundingExponent (num den : Nat) : Int :=
  let e := (Nat.log2 num : Int) - Nat.log2 den - 52
  let s := scale num den e
  max (-1074) (if s.1 / s.2 < Nat.pow 2 52 then e - 1 else e)

/-- The number nearest to `± num / den`, a tie going to the even significand; beyond the largest
number an infinity. The significand is added onto the exponent field, so that a carry out of it
is a carry into the exponent. -/
def round (negative : Bool) (num den : Nat) : Binary64 :=
  if num = 0 then zero negative
  else
    let e := roundingExponent num den
    let s := scale num den e
    let magnitude := (e + 1074).toNat * Nat.pow 2 52 + roundQuotient s.1 s.2
    ofMagnitude negative (min magnitude infinityBits)

/-- The number nearest to `± significand * 2 ^ exponent`. -/
def roundScaled (negative : Bool) (significand : Nat) (exponent : Int) : Binary64 :=
  if 0 ≤ exponent then round negative (significand * Nat.pow 2 exponent.toNat) 1
  else round negative significand (Nat.pow 2 (-exponent).toNat)

/-- The number nearest to an integer. -/
def ofInt (i : Int) : Binary64 :=
  round (i < 0) i.natAbs 1

end Binary64

end CountedLisp
