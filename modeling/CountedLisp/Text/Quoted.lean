import CountedLisp.Text.Printable
import CountedLisp.Text.Utf8

/-!
# Quoted texts

`Text.quoted` writes a text between double quotes, so that it fits on one line and shows every
byte: printable characters stand for themselves, the usual control characters have a short
escape, other bytes below a blank and stray bytes are written in two hexadecimal digits, and
characters that cannot be printed in four or eight.
-/

namespace CountedLisp

namespace Text

/-- The letter of the short escape of a control character. -/
def shortEscape (n : Nat) : Option Char :=
  match n with
  | 0x07 => some 'a'
  | 0x08 => some 'b'
  | 0x09 => some 't'
  | 0x0A => some 'n'
  | 0x0B => some 'v'
  | 0x0C => some 'f'
  | 0x0D => some 'r'
  | _ => none

/-- How one piece is written between quotes. -/
def Piece.escaped : Piece → Text
  | .stray b => ofString "\\x" ++ hex 2 b.toNat
  | .char c =>
    if c = '"' || c = '\\' then [byte '\\', byte c]
    else if isPrintable c then String.utf8EncodeChar c
    else match shortEscape c.toNat with
      | some l => [byte '\\', byte l]
      | none =>
        if c.toNat < 0x80 then ofString "\\x" ++ hex 2 c.toNat
        else if c.toNat < 0x10000 then ofString "\\u" ++ hex 4 c.toNat
        else ofString "\\U" ++ hex 8 c.toNat

/-- A text between double quotes, with escapes for all that cannot be printed. -/
def quoted (t : Text) : Text :=
  byte '"' :: (t.pieces.flatMap Piece.escaped ++ [byte '"'])

end Text

end CountedLisp
