import CountedLisp.Failure
import CountedLisp.Tag
import CountedLisp.Text.Blank
import CountedLisp.Text.LowerCase

/-!
# Foreign types

The types that arguments and results of foreign functions can have, each with the tag that an
object needs in order to be passed as one.
-/

namespace CountedLisp

/-- The types of foreign signatures. -/
inductive ForeignType where
  | integer
  | double
  | char
  | string
  | void
  /-- A code that stands for no type. -/
  | unlisted (code : Int8)
  deriving DecidableEq

namespace ForeignType

/-- The type with a given code. -/
def ofCode (code : Int8) : ForeignType :=
  match code.toInt with
  | 0 => .integer
  | 1 => .double
  | 2 => .char
  | 3 => .string
  | 4 => .void
  | _ => .unlisted code

/-- The code of a type. -/
def code : ForeignType → Int8
  | .integer => 0
  | .double => 1
  | .char => 2
  | .string => 3
  | .void => 4
  | .unlisted n => n

/-- The name of a type. -/
def name : ForeignType → Text
  | .integer => "integer"
  | .double => "double"
  | .char => "char"
  | .string => "string"
  | .void => "void"
  | .unlisted n => "native type " ++ Text.ofInt n.toInt

/-- Whether a type can be the type of a result. -/
def isListed : ForeignType → Bool
  | .unlisted _ => false
  | _ => true

/-- Whether a type can be the type of an argument. -/
def isArgument : ForeignType → Bool
  | .void | .unlisted _ => false
  | _ => true

/-- The tag of the objects that are passed as a type. -/
def tag : ForeignType → Tag
  | .integer => .integer
  | .double => .double
  | .char => .char
  | .string => .string
  | .void | .unlisted _ => .unspecified

/-- The spellings of the types. -/
def spellings : List (Text × ForeignType) :=
  [(Text.ofString "integer", .integer), (Text.ofString "int", .integer),
    (Text.ofString "double", .double), (Text.ofString "float", .double),
    (Text.ofString "char", .char), (Text.ofString "string", .string),
    (Text.ofString "void", .void)]

/-- The type with a given name; blanks around it and the case of its letters do not matter. -/
def parse? (name : Text) : Except Failure ForeignType :=
  match spellings.lookup name.trim.lower with
  | some t => .ok t
  | none => .error (.of .typeMismatch "native" "integer|double|char|string|void" name)

end ForeignType

end CountedLisp
