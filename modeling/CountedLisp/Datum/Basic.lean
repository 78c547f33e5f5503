import CountedLisp.Token.Basic

/-!
# Data

A datum is what the reader makes of a text: a single token or a list of data. Programs are data,
so this is also the type of expressions.
-/

namespace CountedLisp

/-- An s-expression. -/
inductive Datum where
  /-- A single token. -/
  | atom (token : Token)
  /-- Data in parentheses. -/
  | list (items : List Datum)

namespace Datum

mutual
/-- A datum as it is written: tokens as they stood, lists with one blank between their items. -/
def text : Datum → Text
  | .atom token => token.lexeme
  | .list items => Text.byte '(' :: (textItems items ++ [Text.byte ')'])
termination_by structural d => d

/-- The items of a list with one blank between two of them. -/
def textItems : List Datum → Text
  | [] => []
  | d :: ds => text d ++ textRest ds
termination_by structural ds => ds

/-- The further items of a list, each after a blank. -/
def textRest : List Datum → Text
  | [] => []
  | d :: ds => Text.byte ' ' :: (text d ++ textRest ds)
termination_by structural ds => ds
end

/-- The name that a datum is, if it is an identifier. -/
def identifier? : Datum → Option Text
  | .atom token => if token.kind = .identifier then some token.lexeme else none
  | .list _ => none

/-- The datum that a quote mark before `d` stands for. -/
def quotation (span : Span) (d : Datum) : Datum :=
  .list [.atom { kind := .identifier, lexeme := Text.ofString "quote", span := span }, d]

end Datum

end CountedLisp
