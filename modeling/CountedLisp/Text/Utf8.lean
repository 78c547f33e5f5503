import CountedLisp.Text.Basic

/-!
# Characters of a text

A text need not be valid UTF-8. `Text.pieces` cuts it into the characters that it encodes and the
single bytes that belong to none of them; putting the bytes of the pieces together again gives
the text. A surrogate, an overlong form or a value above `10FFFF` is no character: each of its
bytes is a piece of its own.
-/

namespace CountedLisp

namespace Text

/-- A piece of a text: an encoded character, or a byte that is part of none. -/
inductive Piece where
  /-- A character that is encoded here. -/
  | char (c : Char)
  /-- A byte that starts no character. -/
  | stray (b : UInt8)
  deriving DecidableEq

/-- The bytes of a piece. -/
def Piece.bytes : Piece → Text
  | .char c => String.utf8EncodeChar c
  | .stray b => [b]

/-- Whether `b` continues a character. -/
def isTail (b : UInt8) : Bool :=
  0x80 ≤ b && b ≤ 0xBF

/-- The least and the greatest second byte after the first byte `b` of a longer character. The
narrower ranges rule out overlong forms, surrogates and values above `10FFFF`. -/
def secondRange (b : UInt8) : UInt8 × UInt8 :=
  if b = 0xE0 then (0xA0, 0xBF)
  else if b = 0xED then (0x80, 0x9F)
  else if b = 0xF0 then (0x90, 0xBF)
  else if b = 0xF4 then (0x80, 0x8F)
  else (0x80, 0xBF)

/-- The payload bits of a byte that continues a character. -/
def tailBits (b : UInt8) : Nat :=
  b.toNat % 64

/-- The piece at the front of the text `b :: t`, and how many bytes of `t` belong to it. -/
def firstPiece (b : UInt8) (t : Text) : Piece × Nat :=
  let second (c : UInt8) : Bool := (secondRange b).1 ≤ c && c ≤ (secondRange b).2
  if b < 0x80 then (.char (Char.ofNat b.toNat), 0)
  else if 0xC2 ≤ b && b ≤ 0xDF then
    match t with
    | c :: _ =>
      if second c then (.char (Char.ofNat (b.toNat % 32 * 64 + tailBits c)), 1) else (.stray b, 0)
    | _ => (.stray b, 0)
  else if 0xE0 ≤ b && b ≤ 0xEF then
    match t with
    | c :: d :: _ =>
      if second c && isTail d then
        (.char (Char.ofNat ((b.toNat % 16 * 64 + tailBits c) * 64 + tailBits d)), 2)
      else (.stray b, 0)
    | _ => (.stray b, 0)
  else if 0xF0 ≤ b && b ≤ 0xF4 then
    match t with
    | c :: d :: e :: _ =>
      if second c && isTail d && isTail e then
        (.char (Char.ofNat
          (((b.toNat % 8 * 64 + tailBits c) * 64 + tailBits d) * 64 + tailBits e)), 3)
      else (.stray b, 0)
    | _ => (.stray b, 0)
  else (.stray b, 0)

/-- The characters and stray bytes of a text, in order. -/
def pieces : Text → List Piece
  | [] => []
  | b :: t => (firstPiece b t).1 :: pieces (t.drop (firstPiece b t).2)
termination_by t => t.length
decreasing_by simp only [List.length_drop, List.length_cons]; omega

/-- The text made of some pieces. -/
def ofPieces (ps : List Piece) : Text :=
  ps.flatMap Piece.bytes

/-- Whether a text is valid UTF-8. -/
def isValid (t : Text) : Bool :=
  t.pieces.all fun
    | .char _ => true
    | .stray _ => false

end Text

end CountedLisp
