import CountedLisp.Binary64.Arithmetic
import CountedLisp.Eval.Library

/-!
# Arithmetic, comparison and display

Numbers of both types are calculated with in double precision. A result is an integer if all
arguments are integers and the result is whole; otherwise it is a double-precision number.
-/

namespace CountedLisp

namespace Library

/-- The values of numbers, in order. -/
def numbers : List Ref → Run (List Binary64)
  | [] => return []
  | a :: rest => do
    let v ← Object.numericValue a
    return v :: (← numbers rest)

/-- Combines numbers from the left; a single one is combined with the unit. -/
def combine (unit : Binary64) (f : Binary64 → Binary64 → Binary64) : List Binary64 → Binary64
  | [] => unit
  | [v] => f unit v
  | v :: w :: rest => (w :: rest).foldl f v

/-- The constant for the result of a calculation. -/
def resultOf (integral : Bool) (v : Binary64) : Constant :=
  match integral, v.toInt? with
  | true, some i => .integer (Binary64.toWord i)
  | _, _ => .double v

/-- A calculation with any number of arguments. -/
def arithmetic (unit : Int) (f : Binary64 → Binary64 → Binary64) (args : List Ref) : Run Ref := do
  let values ← numbers args
  let heap := (← get).heap
  let integral := args.all (Object.hasTag heap .integer)
  Object.constant (resultOf integral (combine (Binary64.ofInt unit) f values))

/-- A comparison of two numbers. -/
def comparison (op : Text) (f : Binary64 → Binary64 → Bool) : List Ref → Run Ref :=
  two op fun a b => do
    let x ← Object.numericValue a
    let y ← Object.numericValue b
    boolean (f x y)

/-- The negation of a truth value; what is not false is true. -/
def negation : List Ref → Run Ref :=
  one "not" fun a => do boolean (!(← Object.truthy a))

/-- Prints objects one after the other; a string is printed as its bytes. -/
def displayAll : List Ref → Run Unit
  | [] => return ()
  | a :: rest => do
    match (← get).heap.get? a with
    | some { payload := .constant (.string s), dead := false, .. } => Run.print s
    | _ => Run.print (← Object.print a)
    displayAll rest

/-- Prints objects and ends the line. -/
def display (args : List Ref) : Run Ref := do
  displayAll args
  Run.print "\n"
  nothing

end Library

end CountedLisp
