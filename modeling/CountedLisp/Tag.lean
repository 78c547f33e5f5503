import CountedLisp.Text.Basic

/-!
# Type tags

Every object carries the tag of its type, which predicates test and messages name.
-/

namespace CountedLisp

/-- The types of objects. -/
inductive Tag where
  | integer
  | double
  | boolean
  | char
  | string
  | pair
  | emptyList
  | vector
  | lambda
  | evaluable
  | unspecified
  /-- The tag of no object. -/
  | unknown
  deriving DecidableEq

namespace Tag

/-- The tag with a given number. -/
def ofCode (code : Int8) : Tag :=
  match code.toInt with
  | 0 => .integer
  | 1 => .double
  | 2 => .boolean
  | 3 => .char
  | 4 => .string
  | 5 => .pair
  | 6 => .emptyList
  | 7 => .vector
  | 8 => .lambda
  | 9 => .evaluable
  | 10 => .unspecified
  | _ => .unknown

/-- The name of a tag in messages. -/
def name : Tag → Text
  | .integer => "INTEGER"
  | .double => "DOUBLE"
  | .boolean => "BOOLEAN"
  | .char => "CHAR"
  | .string => "STRING"
  | .pair => "PAIR"
  | .emptyList => "EMPTY_LIST"
  | .vector => "VECTOR"
  | .lambda => "LAMBDA"
  | .evaluable => "EVALUABLE"
  | .unspecified => "UNSPECIFIED"
  | .unknown => "UNKNOWN"

end Tag

end CountedLisp
