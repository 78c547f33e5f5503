import CountedLisp.Binary64.Basic
import CountedLisp.Text.Basic

/-!
# Decimal numerals

`Binary64.ofDecimal?` reads a numeral of the form `-12.50`: the exact decimal is rounded once.
A numeral beyond the largest number has no value.

`Binary64.shortest` finds the fewest decimal digits that read back as the number, and of those the
nearest. The reals that round to a number form an interval around it; for one digit, two digits
and so on up to seventeen the two decimals next to the value are tried, and the first grid with a
decimal in the interval wins. `Binary64.text` lays the digits out, in scientific form if the first
digit stands at or above the sixth place before the point, or below the fourth after it.
-/

namespace CountedLisp

namespace Binary64

/-! ### Reading -/

/-- The number nearest to `± digits / 10 ^ places`, if it is finite. -/
def ofDecimal? (negative : Bool) (digits places : Nat) : Option Binary64 :=
  let x := round negative digits (Nat.pow 10 places)
  if x.isInfinite then none else some x

/-! ### Shortest digits -/

/-- The quotient `m * 2 ^ q * 10 ^ k`, as numerator and denominator. -/
def decimalScale (m : Nat) (q k : Int) : Nat × Nat :=
  (m * Nat.pow 2 q.toNat * Nat.pow 10 k.toNat, Nat.pow 2 (-q).toNat * Nat.pow 10 (-k).toNat)

/-- The interval of reals that round to `m * 2 ^ q`, in quarters of `2 ^ q`. Below a power of two
the numbers lie twice as close, except at the least exponent. -/
def interval (m : Nat) (q : Int) : Nat × Nat :=
  (4 * m - (if m = Nat.pow 2 52 && -1074 < q then 1 else 2), 4 * m + 2)

/-- Whether the decimal `d / 10 ^ k` rounds to `m * 2 ^ q`. The ends of the interval do so if `m`
is even. -/
def readsBack (m : Nat) (q k : Int) (d : Nat) : Bool :=
  let lo := decimalScale (interval m q).1 (q - 2) k
  let hi := decimalScale (interval m q).2 (q - 2) k
  if m % 2 = 0 then lo.1 ≤ d * lo.2 && d * hi.2 ≤ hi.1
  else lo.1 < d * lo.2 && d * hi.2 < hi.1

/-- The decimals next to `m * 2 ^ q` on the grid `10 ^ -k` that round to it, the nearest first; of
two that are equally near the even one. -/
def candidate? (m : Nat) (q k : Int) : Option Nat :=
  let v := decimalScale m q k
  let low := v.1 / v.2
  let near := roundQuotient v.1 v.2
  let far := if near = low then low + 1 else low
  if readsBack m q k near then some near
  else if readsBack m q k far then some far
  else none

/-- The place of the first digit of `m * 2 ^ q`: the greatest `p` with `10 ^ p ≤ m * 2 ^ q`,
searched downwards from `p`. -/
def leadingPlace (m : Nat) (q : Int) : (fuel : Nat) → (p : Int) → Int
  | 0, p => p
  | fuel + 1, p =>
    let v := decimalScale m q (-p)
    if v.2 ≤ v.1 then p else leadingPlace m q fuel (p - 1)

/-- Tries grids of ever more digits from `n` on, and gives the digits with the number of places
they are to be shifted by. -/
def searchDigits (m : Nat) (q place : Int) : (fuel n : Nat) → Nat × Int
  | 0, _ => (0, 0)
  | fuel + 1, n =>
    let k := (n : Int) - 1 - place
    match candidate? m q k with
    | some d => (d, k)
    | none => searchDigits m q place fuel (n + 1)

/-- Drops the zeros at the end of a digit sequence, counting them into the shift. -/
def stripZeros (d : Nat) (k : Int) : Nat × Int :=
  if d = 0 then (0, k)
  else if d % 10 = 0 then stripZeros (d / 10) (k - 1) else (d, k)
termination_by d

/-- The fewest decimal digits `d` and the shift `k` such that `d / 10 ^ k` rounds to `m * 2 ^ q`,
for `m` above zero; `d` does not end in a zero. -/
def shortest (m : Nat) (q : Int) : Nat × Int :=
  let r := searchDigits m q (leadingPlace m q 700 310) 20 1
  stripZeros r.1 r.2

/-! ### Layout -/

/-- Digits whose first one stands at the given place, without an exponent. -/
def positional (digits : Text) (place : Int) : Text :=
  if place < 0 then
    Text.ofString "0." ++ List.replicate (-place - 1).toNat (Text.byte '0') ++ digits
  else
    let whole := place.toNat + 1
    let padded := digits ++ List.replicate (whole - digits.length) (Text.byte '0')
    let fraction := padded.drop whole
    padded.take whole ++ (if fraction.isEmpty then [] else Text.byte '.' :: fraction)

/-- Digits with one of them before the point, and an exponent of at least two digits. -/
def scientific (digits : Text) (place : Int) : Text :=
  let fraction := digits.drop 1
  let exponent := Text.ofNat place.natAbs
  digits.take 1 ++ (if fraction.isEmpty then [] else Text.byte '.' :: fraction) ++
    [Text.byte 'e', if place < 0 then Text.byte '-' else Text.byte '+'] ++
    (if exponent.length < 2 then Text.byte '0' :: exponent else exponent)

/-- The text of a number: its shortest digits, in scientific form from a million on and below one
in ten thousand. -/
def text (x : Binary64) : Text :=
  match x.decode with
  | .nan => "NaN"
  | .infinite negative => if negative then "-Inf" else "+Inf"
  | .finite negative m q =>
    let body :=
      if m = 0 then Text.ofString "0"
      else
        let r := shortest m q
        let digits := Text.ofNat r.1
        let place := (digits.length : Int) - 1 - r.2
        if place < -4 || 6 ≤ place then scientific digits place else positional digits place
    if negative then Text.byte '-' :: body else body

end Binary64

end CountedLisp
