import CountedLisp.Text.Utf8

/-!
# Blanks

White space is the Unicode property of that name. `Text.trim` cuts it off both ends of a text,
`Text.fields` splits a text at it. A stray byte is never white space.
-/

namespace CountedLisp

namespace Text

/-- Whether a character is white space. -/
def isBlank (c : Char) : Bool :=
  let n := c.toNat
  (0x09 ≤ n && n ≤ 0x0D) || n == 0x20 || n == 0x85 || n == 0xA0 || n == 0x1680 ||
    (0x2000 ≤ n && n ≤ 0x200A) || n == 0x2028 || n == 0x2029 || n == 0x202F || n == 0x205F ||
    n == 0x3000

/-- Whether a piece of a text is white space. -/
def Piece.isBlank : Piece → Bool
  | .char c => Text.isBlank c
  | .stray _ => false

/-- A text without the white space at its ends. -/
def trim (t : Text) : Text :=
  let front := t.pieces.dropWhile Piece.isBlank
  ofPieces (front.reverse.dropWhile Piece.isBlank).reverse

/-- The longest runs of pieces without white space, in order. -/
def runs : List Piece → List (List Piece)
  | [] => []
  | p :: ps =>
    if p.isBlank then runs ps
    else match ps with
      | [] => [[p]]
      | q :: _ =>
        if q.isBlank then [p] :: runs ps
        else match runs ps with
          | [] => [[p]]
          | r :: rs => (p :: r) :: rs

/-- The words of a text: what stands between white space. -/
def fields (t : Text) : List Text :=
  (runs t.pieces).map ofPieces

end Text

end CountedLisp
