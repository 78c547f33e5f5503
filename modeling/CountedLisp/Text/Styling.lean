import CountedLisp.Text.Basic

/-!
# Styling codes

A terminal takes the escape byte, an opening bracket, one or more parameter bytes and the letter
`m` for a change of style, not for text. `Text.unstyled` leaves such codes out. It goes once from
left to right: what comes together when a code between it is left out is not looked at again. What
counts as a code is an assumption about the library that the program prints its notices with.
-/

namespace CountedLisp

namespace Text

/-- The byte that a styling code begins with. -/
def escapeByte : UInt8 := 27

/-- Whether a byte can be a parameter of a styling code, or part of one. -/
def isStyleParameter (b : UInt8) : Bool :=
  (byte '0' ≤ b && b ≤ byte '9') || b == byte ';' || b == byte '?'

/-- The number of bytes of the styling code that a text begins with, zero if there is none. -/
def styleLength : Text → Nat
  | e :: o :: t =>
    let parameters := t.takeWhile isStyleParameter
    if e = escapeByte && o = byte '[' && !parameters.isEmpty &&
        (t.drop parameters.length).head? = some (byte 'm') then
      parameters.length + 3
    else 0
  | _ => 0

/-- A text without its first `skip` bytes and without the styling codes after them. -/
def unstyledAfter (skip : Nat) : Text → Text
  | [] => []
  | b :: t =>
    match skip with
    | n + 1 => unstyledAfter n t
    | 0 =>
      match styleLength (b :: t) with
      | n + 1 => unstyledAfter n t
      | 0 => b :: unstyledAfter 0 t

/-- A text without styling codes. -/
def unstyled (t : Text) : Text :=
  unstyledAfter 0 t

end Text

end CountedLisp
