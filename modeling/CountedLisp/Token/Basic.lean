import CountedLisp.Text.Quoted

/-!
# Tokens

A token is a piece of a source line: its category, its bytes and the columns of its first and
last byte. Columns count from one and start anew after every line break.
-/

namespace CountedLisp

/-- The categories of tokens. -/
inductive TokenKind where
  | leftParen
  | rightParen
  | quoteMark
  | integer
  | double
  | string
  | char
  | boolean
  | identifier
  deriving DecidableEq

namespace TokenKind

/-- The number of a category. -/
def code : TokenKind → Nat
  | .leftParen => 1
  | .rightParen => 2
  | .quoteMark => 3
  | .integer => 4
  | .double => 5
  | .string => 6
  | .char => 7
  | .boolean => 8
  | .identifier => 9

/-- The name of a category in messages. -/
def name : TokenKind → Text
  | .leftParen => "("
  | .rightParen => ")"
  | .quoteMark => "'"
  | .integer => "INT"
  | .double => "DOUBLE"
  | .string => "STRING"
  | .char => "CHAR"
  | .boolean => "BOOL"
  | .identifier => "ID"

end TokenKind

/-- The columns of the first and the last byte of a token. -/
structure Span where
  /-- Column of the first byte. -/
  first : Nat
  /-- Column of the last byte. -/
  last : Nat
  deriving DecidableEq

/-- A span in messages. -/
def Span.text (s : Span) : Text :=
  "(" ++ Text.ofNat s.first ++ "…" ++ Text.ofNat s.last ++ ")"

/-- A token of a source line. -/
structure Token where
  /-- Its category. -/
  kind : TokenKind
  /-- Its bytes. -/
  lexeme : Text
  /-- Where it stands. -/
  span : Span
  deriving DecidableEq

/-- A token in messages: category, quoted bytes and place. -/
def Token.text (t : Token) : Text :=
  t.kind.name ++ " " ++ t.lexeme.quoted ++ " @" ++ t.span.text

end CountedLisp
