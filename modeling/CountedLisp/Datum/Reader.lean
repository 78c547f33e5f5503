import CountedLisp.Datum.Basic
import CountedLisp.Failure

/-!
# Reading data

`Datum.read` groups a sequence of tokens into data. It goes through the tokens once and keeps the
quote marks and parentheses that are still open, the innermost first; a finished datum goes to the
innermost of them, or to the data of the text if nothing is open.
-/

namespace CountedLisp

namespace Datum

/-- What waits for further data. -/
inductive Frame where
  /-- A quote mark at `span` that waits for the datum that it quotes. -/
  | quoteMark (span : Span)
  /-- A list opened at `span` with the items so far, the last one first. -/
  | openList (span : Span) (items : List Datum)

/-- Hands a finished datum to the innermost open frame, or to the finished data of the text, of
which the last one comes first. A quote mark is finished by its datum. -/
def deliver (done : List Datum) : List Frame → Datum → List Datum × List Frame
  | [], d => (d :: done, [])
  | .quoteMark span :: frames, d => deliver done frames (quotation span d)
  | .openList span items :: frames, d => (done, .openList span (d :: items) :: frames)

/-- The failure of a closing parenthesis that nothing is open for. -/
def unbalanced (span : Span) : Failure :=
  .plain ("unbalanced ')' at " ++ span.text)

/-- The failure of a text that ends within a list or after a quote mark. -/
def unfinished : Frame → Failure
  | .quoteMark _ => .plain "unexpected end of input"
  | .openList span _ => .plain ("missing ')' for '(' at " ++ span.text)

/-- Reads the rest of a token sequence. -/
def readRest (done : List Datum) (frames : List Frame) : List Token → Except Failure (List Datum)
  | [] =>
    match frames with
    | [] => .ok done.reverse
    | frame :: _ => .error (unfinished frame)
  | t :: ts =>
    match t.kind with
    | .leftParen => readRest done (.openList t.span [] :: frames) ts
    | .quoteMark => readRest done (.quoteMark t.span :: frames) ts
    | .rightParen =>
      match frames with
      | .openList _ items :: outer =>
        let (done, frames) := deliver done outer (.list items.reverse)
        readRest done frames ts
      | _ => .error (unbalanced t.span)
    | _ =>
      let (done, frames) := deliver done frames (.atom t)
      readRest done frames ts

/-- The data that a token sequence writes. -/
def read (tokens : List Token) : Except Failure (List Datum) :=
  readRest [] [] tokens

end Datum

end CountedLisp
