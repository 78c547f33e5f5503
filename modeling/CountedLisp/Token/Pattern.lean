import CountedLisp.Text.Basic

/-!
# Patterns

Regular expressions over bytes, matched by derivatives: `Pattern.derivative b p` matches exactly
what may follow the byte `b` in a match of `p`. A pattern whose derivative has become `void` can
match no continuation any more, which is how a scan knows that it may stop.

The constructors `Pattern.seq` and `Pattern.alt` drop parts that contribute nothing, so that
derivatives stay as small as the pattern that they come from.
-/

namespace CountedLisp

/-- Regular expressions over bytes. -/
inductive Pattern where
  /-- Matches nothing at all. -/
  | void
  /-- Matches the empty text. -/
  | blank
  /-- Matches one byte of a class. -/
  | one (inClass : UInt8 → Bool)
  /-- Matches a text of the first pattern followed by one of the second. -/
  | concat (p q : Pattern)
  /-- Matches what either pattern matches. -/
  | either (p q : Pattern)
  /-- Matches any number of texts of a pattern, one after the other. -/
  | many (p : Pattern)

namespace Pattern

/-! ### Building patterns -/

/-- Concatenation, without parts that contribute nothing. -/
def seq : Pattern → Pattern → Pattern
  | .void, _ => .void
  | .blank, q => q
  | _, .void => .void
  | p, q => .concat p q

/-- Alternative, without parts that contribute nothing. -/
def alt : Pattern → Pattern → Pattern
  | .void, q => q
  | p, .void => p
  | p, q => .either p q

/-- Matches a single byte, given as a character. -/
def char (c : Char) : Pattern :=
  .one (· == Text.byte c)

/-- Matches a given text. -/
def literal (t : Text) : Pattern :=
  t.foldr (fun b p => .seq (.one (· == b)) p) .blank

/-- Matches one or more texts of a pattern. -/
def some (p : Pattern) : Pattern :=
  .seq p (.many p)

/-- Matches a text of a pattern or the empty text. -/
def optional (p : Pattern) : Pattern :=
  .alt p .blank

/-! ### Matching -/

/-- Whether a pattern matches the empty text. -/
def nullable : Pattern → Bool
  | .void => false
  | .blank => true
  | .one _ => false
  | .concat p q => p.nullable && q.nullable
  | .either p q => p.nullable || q.nullable
  | .many _ => true

/-- The pattern of what may follow a byte. -/
def derivative (b : UInt8) : Pattern → Pattern
  | .void => .void
  | .blank => .void
  | .one inClass => if inClass b then .blank else .void
  | .concat p q =>
    if p.nullable then alt (seq (p.derivative b) q) (q.derivative b)
    else seq (p.derivative b) q
  | .either p q => alt (p.derivative b) (q.derivative b)
  | .many p => seq (p.derivative b) (.many p)

/-- Whether a pattern can match no text, so that a scan may give it up. -/
def isVoid : Pattern → Bool
  | .void => true
  | _ => false

/-- Whether a pattern matches a text. -/
def accepts (p : Pattern) : Text → Bool
  | [] => p.nullable
  | b :: t => (p.derivative b).accepts t

end Pattern

end CountedLisp
