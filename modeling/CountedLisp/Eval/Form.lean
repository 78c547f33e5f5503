import CountedLisp.Datum.Basic
import CountedLisp.Failure

/-!
# Special forms

Lists that start with one of seven names are not applications: their operands are not all
evaluated. This module holds their names and the checks on the shape of their operands.
-/

namespace CountedLisp

/-- The special forms. -/
inductive Form where
  | quote
  | define
  | assign
  | lambda
  | delay
  | conditional
  | sequence
  deriving DecidableEq

namespace Form

/-- The name of a form. -/
def name : Form → Text
  | .quote => "quote"
  | .define => "define"
  | .assign => "set!"
  | .lambda => "lambda"
  | .delay => "delay"
  | .conditional => "if"
  | .sequence => "begin"

/-- The form of a given name. -/
def ofName? (t : Text) : Option Form :=
  [.quote, .define, .assign, .lambda, .delay, .conditional, .sequence].find? fun f => f.name == t

/-- The form that a list with the given head is, if it is one. -/
def ofHead? (head : Datum) : Option Form :=
  head.identifier?.bind ofName?

/-- A number of operands in messages. -/
def operands (n : Nat) : Text :=
  Text.ofNat n ++ " operands"

/-- The failure of a form with the wrong number of operands. -/
def wrongCount (f : Form) (expected : Text) (given : List Datum) : Failure :=
  .of .arityMismatch f.name expected (operands given.length)

/-- The name that an operand has to be. -/
def identifier (f : Form) (d : Datum) : Except Failure Text :=
  match d.identifier? with
  | some name => .ok name
  | none => .error (.of .typeMismatch f.name "identifier" d.text)

/-- The names that the operands in a list have to be. -/
def identifiers (f : Form) : List Datum → Except Failure (List Text)
  | [] => .ok []
  | d :: ds => do
    let name ← f.identifier d
    return name :: (← f.identifiers ds)

end Form

end CountedLisp
