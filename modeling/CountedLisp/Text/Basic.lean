/-!
# Texts

A text is a sequence of bytes. Source lines, strings and messages are texts and not `String`s,
because a line may hold bytes that are no valid UTF-8 and these have to survive up to the message
that quotes them.

`Text.ofString` gives the bytes of a literal and is a coercion, so that a message is written as
`"index " ++ Text.ofNat i`. `Text.ofNat` and `Text.ofInt` write numbers in decimal,
`Text.hex` in lower-case hexadecimal with a least width.
-/

namespace CountedLisp

/-- A text is a sequence of bytes. -/
abbrev Text := List UInt8

namespace Text

/-- The UTF-8 bytes of a string. -/
def ofString (s : String) : Text :=
  s.toUTF8.data.toList

instance : Coe String Text := ⟨ofString⟩

/-- The byte of an ASCII character. -/
def byte (c : Char) : UInt8 :=
  c.toNat.toUInt8

/-! ### Numbers -/

/-- The digit of `d`, in lower case above nine. -/
def digit (d : Nat) : UInt8 :=
  if d < 10 then 48 + d.toUInt8 else 87 + d.toUInt8

/-- A natural number in decimal, without leading zeros. -/
def ofNat (n : Nat) : Text :=
  if n < 10 then [digit n] else ofNat (n / 10) ++ [digit (n % 10)]

/-- An integer in decimal, with a minus sign if it is negative. -/
def ofInt : Int → Text
  | .ofNat n => ofNat n
  | .negSucc n => byte '-' :: ofNat (n + 1)

/-- The lowest `width` hexadecimal digits of a number, in lower case. -/
def hex : (width : Nat) → Nat → Text
  | 0, _ => []
  | w + 1, n => hex w (n / 16) ++ [digit (n % 16)]

/-- The number written by a sequence of decimal digits. -/
def toNat (digits : Text) : Nat :=
  digits.foldl (fun n d => 10 * n + (d.toNat - 48)) 0

/-! ### Pieces -/

/-- Cuts a text at every byte `sep`; there is always at least one piece. -/
def cutAt (sep : UInt8) : Text → List Text
  | [] => [[]]
  | b :: t =>
    if b = sep then [] :: cutAt sep t
    else match cutAt sep t with
      | [] => [[b]]
      | p :: ps => (b :: p) :: ps

/-- The texts one after the other, with `sep` between two of them. -/
def join (sep : Text) (parts : List Text) : Text :=
  sep.intercalate parts

/-- A text filled up with blanks on the right to at least `width` bytes. -/
def padRight (width : Nat) (t : Text) : Text :=
  t ++ List.replicate (width - t.length) (byte ' ')

end Text

end CountedLisp
