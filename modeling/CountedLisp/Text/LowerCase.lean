import CountedLisp.Text.Utf8

/-!
# Lower case

`Text.lower` is for comparing a text with words of ASCII letters. Besides the capital letters of
ASCII there are two characters whose lower case is such a letter, the dotted capital I and the
kelvin sign; all other characters are left alone, since their lower case is in no such word.
-/

namespace CountedLisp

namespace Text

/-- The lower case of a character, if it is an ASCII letter. -/
def lowerChar (c : Char) : Char :=
  if c.toNat = 0x130 then 'i'
  else if c.toNat = 0x212A then 'k'
  else c.toLower

/-- A text with its letters in lower case, as far as they become ASCII letters. -/
def lower (t : Text) : Text :=
  t.pieces.flatMap fun
    | .char c => String.utf8EncodeChar (lowerChar c)
    | .stray b => [b]

end Text

end CountedLisp
