import CountedLisp.Binary64.Decimal
import CountedLisp.Failure
import CountedLisp.Token.Lexer

/-!
# Literals

The constants of the language and the tokens that denote them. A numeral that is too large for
its type is a failure, as is a text that is no numeral, or a token that denotes no constant. It is a
fault to take the value of a string or a character out of a lexeme that is too short for it, which
no token of a text has.
-/

namespace CountedLisp

/-- A constant: a value that owns nothing. -/
inductive Constant where
  /-- A signed word. -/
  | integer (v : Int64)
  /-- A double-precision number. -/
  | double (v : Binary64)
  /-- A truth value. -/
  | boolean (v : Bool)
  /-- A character of one byte. -/
  | char (v : UInt8)
  /-- A string of bytes. -/
  | string (v : Text)
  deriving DecidableEq

namespace Token

/-- The failure of a numeral that its type cannot hold. -/
def outOfRange (reader : Text) (lexeme : Text) : Failure :=
  .plain ("strconv." ++ reader ++ ": parsing " ++ lexeme.quoted ++ ": value out of range")

/-- The failure of a text that is no numeral. -/
def invalidSyntax (reader : Text) (lexeme : Text) : Failure :=
  .plain ("strconv." ++ reader ++ ": parsing " ++ lexeme.quoted ++ ": invalid syntax")

/-- Whether a numeral has a minus sign, and its bytes without a sign. -/
def signed : Text → Bool × Text
  | b :: t =>
    if b = Text.byte '-' then (true, t)
    else if b = Text.byte '+' then (false, t)
    else (false, b :: t)
  | [] => (false, [])

/-- The value of an integer numeral. -/
def integerValue (lexeme : Text) : Int :=
  let (negative, digits) := signed lexeme
  if negative then -(Text.toNat digits : Int) else Text.toNat digits

/-- What is wrong with a numeral. -/
inductive NumeralFault where
  /-- It has no digits, or something else than digits. -/
  | malformed
  /-- Its value is too large. -/
  | tooLarge
  deriving DecidableEq

/-- The number of 64 bits that digits write after others that write `n`. The leftmost fault
counts. -/
def accumulate? : (n : Nat) → Text → Except NumeralFault Nat
  | n, [] => .ok n
  | n, b :: t =>
    let next := 10 * n + (b.toNat - 48)
    if !isDigit b then .error .malformed
    else if UInt64.size ≤ next then .error .tooLarge
    else accumulate? next t

/-- The number of 64 bits that digits write. -/
def magnitude? (digits : Text) : Except NumeralFault Nat :=
  if digits.isEmpty then .error .malformed else accumulate? 0 digits

/-- The word that an integer numeral denotes. -/
def integer? (lexeme : Text) : Except Failure Int64 :=
  let (negative, digits) := signed lexeme
  match magnitude? digits with
  | .error .malformed => .error (invalidSyntax "ParseInt" lexeme)
  | .error .tooLarge => .error (outOfRange "ParseInt" lexeme)
  | .ok n =>
    let v : Int := if negative then -n else n
    if Int64.minValue.toInt ≤ v && v ≤ Int64.maxValue.toInt then .ok (Int64.ofInt v)
    else .error (outOfRange "ParseInt" lexeme)

/-- The number that a numeral with a point denotes. An exponent is not read, as there is no token
with one. -/
def double? (lexeme : Text) : Except Failure Binary64 :=
  let (negative, digits) := signed lexeme
  let whole := digits.takeWhile (· != Text.byte '.')
  let fraction := (digits.dropWhile (· != Text.byte '.')).drop 1
  if (whole ++ fraction).isEmpty || !(whole ++ fraction).all isDigit then
    .error (invalidSyntax "ParseFloat" lexeme)
  else match Binary64.ofDecimal? negative (Text.toNat (whole ++ fraction)) fraction.length with
    | some x => .ok x
    | none => .error (outOfRange "ParseFloat" lexeme)

/-- The failure of a token that denotes no constant. -/
def notALiteral (t : Token) : Failure :=
  .plain ("not a literal: " ++ t.text)

/-- The bytes between the first and the last byte of a text. -/
def between (lexeme : Text) : Option Text :=
  if lexeme.length < 2 then none else some (lexeme.drop 1).dropLast

/-- A constant that is read off the bytes of a lexeme, which have to be there. -/
def orFault (c : Option Constant) : Except Halt Constant :=
  match c with
  | some c => .ok c
  | none => .error .fault

/-- The constant that a token denotes. -/
def literal (t : Token) : Except Halt Constant :=
  match t.kind with
  | .integer => ((integer? t.lexeme).map .integer).mapError .failure
  | .double => ((double? t.lexeme).map .double).mapError .failure
  | .string => orFault ((between t.lexeme).map .string)
  | .char => orFault (t.lexeme[2]?.map .char)
  | .boolean => .ok (.boolean (t.lexeme == Text.ofString "#t"))
  | .leftParen | .rightParen | .quoteMark | .identifier => .error (.failure t.notALiteral)

end Token

end CountedLisp
