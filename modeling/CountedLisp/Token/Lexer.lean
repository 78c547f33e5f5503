import CountedLisp.Failure
import CountedLisp.Token.Basic
import CountedLisp.Token.Pattern

/-!
# Cutting a line into tokens

`Token.rules` lists the patterns of comments, blanks and the nine categories of tokens. At every
position the longest prefix that any rule matches is cut off; if several rules match it, the first
one of the list decides the category. Comments and blanks give no token.

`Token.munch` runs all rules at once by their derivatives and remembers the longest match so far
until no rule can go on. If there is no match at all, the line has no tokens: the failure tells how
far the scan has looked.

The program states the rules and leaves the scan to a lexer generator. That the generator takes the
longest match, that it prefers the earlier rule, how far it has looked when it fails and how it
counts columns (`Token.nextColumn`, `Token.spanAfter`) is therefore assumed here, not derived from
the program's own code.
-/

namespace CountedLisp

namespace Token

/-! ### Rules -/

/-- The decimal digits. -/
def isDigit (b : UInt8) : Bool :=
  48 ≤ b && b ≤ 57

/-- The bytes that may start an identifier. -/
def isNameStart (b : UInt8) : Bool :=
  (97 ≤ b && b ≤ 122) || (65 ≤ b && b ≤ 90) || (Text.ofString "!$%&*/:<=>?^_~+-").contains b

/-- The bytes that may follow in an identifier. -/
def isNamePart (b : UInt8) : Bool :=
  isNameStart b || isDigit b || b == Text.byte '.'

/-- The blanks between tokens. -/
def isGap (b : UInt8) : Bool :=
  b == 32 || b == 9 || b == 10 || b == 13

/-- One or more digits, with or without a minus sign. -/
def numeral : Pattern :=
  .seq (.optional (.char '-')) (.some (.one isDigit))

/-- The patterns in order of precedence, each with the category of its tokens; comments and blanks
have none. -/
def rules : List (Pattern × Option TokenKind) :=
  [(.seq (.char ';') (.many (.one (· != 10))), none),
    (.some (.one isGap), none),
    (.char '(', some .leftParen),
    (.char ')', some .rightParen),
    (.char '\'', some .quoteMark),
    (.seq numeral (.seq (.char '.') (.some (.one isDigit))), some .double),
    (numeral, some .integer),
    (.seq (.char '"') (.seq (.many (.one (· != Text.byte '"'))) (.char '"')), some .string),
    (.seq (.literal (Text.ofString "#\\")) (.one fun _ => true), some .char),
    (.alt (.literal (Text.ofString "#t")) (.literal (Text.ofString "#f")), some .boolean),
    (.seq (.one isNameStart) (.many (.one isNamePart)), some .identifier)]

/-! ### Longest match -/

/-- The rules that can still go on after a byte. -/
def advance {α : Type} (b : UInt8) (live : List (Pattern × α)) : List (Pattern × α) :=
  (live.map fun r => (r.1.derivative b, r.2)).filter fun r => !r.1.isVoid

/-- The longest prefix of a text that some rule matches, as the payload of the first such rule and
the length less one. `live` holds what is left of the rules after `n` bytes and `best` the longest
match up to there. If there is none, the answer is the number of bytes that were looked at. -/
def munch {α : Type} (live : List (Pattern × α)) (best : Option (α × Nat)) (n : Nat) :
    Text → Except Nat (α × Nat)
  | [] =>
    match best with
    | some m => .ok m
    | none => .error n
  | b :: t =>
    let next := advance b live
    if next.isEmpty then
      match best with
      | some m => .ok m
      | none => .error (n + 1)
    else
      match next.find? (·.1.nullable) with
      | some r => munch next (some (r.2, n)) (n + 1) t
      | none => munch next best (n + 1) t

/-! ### Columns -/

/-- The column of a byte after one in column `column`. A line break has column zero, which is an
assumption about the lexer generator. -/
def nextColumn (column : Nat) (b : UInt8) : Nat :=
  if b = 10 then 0 else column + 1

/-- The columns of a segment that follows a byte in column `column`, as the lexer generator is
assumed to report them: those of the first and of the last byte. -/
def spanAfter (column : Nat) (segment : Text) : Span :=
  { first := (segment.take 1).foldl nextColumn column
    last := segment.foldl nextColumn column }

/-! ### The tokens of a text -/

/-- The failure of a scan that has looked at `read` bytes of the text. -/
def unexpectedInput (read : Nat) : Failure :=
  .plain ("unexpected input at column " ++ Text.ofNat (read + 1))

/-- The tokens of the rest of a text, after those in `found`, the last of which comes first. The
rest starts at `offset`, after a byte in column `column`. -/
def scan (found : List Token) (offset column : Nat) (text : Text) : Except Failure (List Token) :=
  match text with
  | [] => .ok found.reverse
  | b :: t =>
    match munch rules none 0 (b :: t) with
    | .error read => .error (unexpectedInput (offset + read))
    | .ok (kind, n) =>
      let segment := (b :: t).take (n + 1)
      let span := spanAfter column segment
      let found := match kind with
        | some k => { kind := k, lexeme := segment, span := span } :: found
        | none => found
      scan found (offset + n + 1) span.last (t.drop n)
termination_by text.length
decreasing_by simp only [List.length_drop, List.length_cons]; omega

/-- The tokens of a text. -/
def tokenize (text : Text) : Except Failure (List Token) :=
  scan [] 0 0 text

end Token

end CountedLisp
