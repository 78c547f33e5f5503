import CountedLisp.Binary64.Basic

/-!
# Arithmetic on Binary64 numbers

Each operation takes the exact result of the two values and rounds it once. A NaN among the
operands is the result, the first of two. Zero has a sign: a sum that is exactly zero is positive
unless both operands are negative, and products and quotients multiply the signs.

Order and equality go by `Binary64.orderKey`, an integer that grows with the value and is the same
for the two zeros. `Binary64.toInt?` gives the integer that a number is, if it is one.
-/

namespace CountedLisp

namespace Binary64

/-- The result of an operation with a NaN among its operands, and otherwise `result`. -/
def propagate (x y : Binary64) (result : Binary64) : Binary64 :=
  if x.isNaN then x.quiet else if y.isNaN then y.quiet else result

/-- A significand with its sign, brought to the exponent `e` below its own. -/
def signedAt (negative : Bool) (m : Nat) (q e : Int) : Int :=
  let i : Int := m * Nat.pow 2 (q - e).toNat
  if negative then -i else i

/-- The sum of two numbers. -/
def add (x y : Binary64) : Binary64 :=
  propagate x y <|
    match x.decode, y.decode with
    | .finite s m q, .finite t n r =>
      let e := min q r
      let sum := signedAt s m q e + signedAt t n r e
      if sum = 0 then zero (s && t) else roundScaled (sum < 0) sum.natAbs e
    | .infinite s, .infinite t => if s = t then x else undefinedResult
    | .infinite _, _ => x
    | _, _ => y

/-- A number with its sign turned. -/
def neg (x : Binary64) : Binary64 :=
  ofMagnitude (!x.isNegative) x.magnitude

/-- The difference of two numbers. -/
def sub (x y : Binary64) : Binary64 :=
  if y.isNaN then propagate x y y else x.add y.neg

/-- The product of two numbers. -/
def mul (x y : Binary64) : Binary64 :=
  propagate x y <|
    match x.decode, y.decode with
    | .finite s m q, .finite t n r => roundScaled (s != t) (m * n) (q + r)
    | .infinite s, .finite t n _ => if n = 0 then undefinedResult else infinity (s != t)
    | .finite s m _, .infinite t => if m = 0 then undefinedResult else infinity (s != t)
    | .infinite s, .infinite t => infinity (s != t)
    | _, _ => undefinedResult

/-- The quotient of two numbers. -/
def div (x y : Binary64) : Binary64 :=
  propagate x y <|
    match x.decode, y.decode with
    | .finite s m q, .finite t n r =>
      if n = 0 then
        if m = 0 then undefinedResult else infinity (s != t)
      else
        let e := q - r
        if 0 ≤ e then round (s != t) (m * Nat.pow 2 e.toNat) n
        else round (s != t) m (n * Nat.pow 2 (-e).toNat)
    | .infinite s, .finite t _ _ => infinity (s != t)
    | .finite s _ _, .infinite t => zero (s != t)
    | _, _ => undefinedResult

/-! ### Order -/

/-- An integer that orders the numbers as their values do. -/
def orderKey (x : Binary64) : Int :=
  if x.isNegative then -(x.magnitude : Int) else x.magnitude

/-- Whether `x` is less than `y`; a NaN is less than nothing. -/
def lt (x y : Binary64) : Bool :=
  !x.isNaN && !y.isNaN && x.orderKey < y.orderKey

/-- Whether `x` and `y` have the same value; a NaN has none. -/
def eq (x y : Binary64) : Bool :=
  !x.isNaN && !y.isNaN && x.orderKey = y.orderKey

/-! ### Integers -/

/-- The integer that a number is, if it is one. -/
def toInt? (x : Binary64) : Option Int :=
  match x.decode with
  | .finite s m q =>
    let i : Int := if 0 ≤ q then m * Nat.pow 2 q.toNat else m / Nat.pow 2 (-q).toNat
    if 0 ≤ q || m % Nat.pow 2 (-q).toNat = 0 then some (if s then -i else i) else none
  | _ => none

/-- The least integer that is not below a finite number. -/
def ceil? (x : Binary64) : Option Int :=
  match x.decode with
  | .finite s m q =>
    let i : Int := signedAt s m (max q 0) 0
    some (if 0 ≤ q then i else -((-i) / Nat.pow 2 (-q).toNat))
  | _ => none

/-- An integer as a word of 64 bits; one that does not fit is the least word. -/
def toWord (i : Int) : Int64 :=
  if Int64.minValue.toInt ≤ i && i ≤ Int64.maxValue.toInt then Int64.ofInt i else Int64.minValue

end Binary64

end CountedLisp
