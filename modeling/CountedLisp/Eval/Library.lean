import CountedLisp.Eval.Arguments
import CountedLisp.Store.Pair
import CountedLisp.Store.Slots

/-!
# The core library

Pairs, lists, vectors, predicates and thunks as functions of the language. Arguments are borrowed
and the result is owned by the caller, so what is taken out of a pair or vector gets a new owner.
All but `promise?` and `force` evaluate their arguments first, before even counting them.
-/

namespace CountedLisp

namespace Library

/-- The result of a function without one. -/
def nothing : Run Ref :=
  Object.make .unspecified

/-- A new truth value. -/
def boolean (b : Bool) : Run Ref :=
  Object.constant (.boolean b)

/-- A new integer. -/
def natural (n : Nat) : Run Ref :=
  Object.constant (.integer (Int64.ofNat n))

/-- A function of one value. -/
def one (op : Text) (f : Ref → Run Ref) (args : List Ref) : Run Ref := do
  Arguments.exactly op args 1
  match args with
  | a :: _ => f a
  | [] => nothing

/-- A function of two values. -/
def two (op : Text) (f : Ref → Ref → Run Ref) (args : List Ref) : Run Ref := do
  Arguments.exactly op args 2
  match args with
  | a :: b :: _ => f a b
  | _ => nothing

/-- The left side of a pair. -/
def car : List Ref → Run Ref :=
  one "car" fun a => do Object.retain (← Pair.left a)

/-- The right side of a pair. -/
def cdr : List Ref → Run Ref :=
  one "cdr" fun a => do Object.retain (← Pair.right a)

/-- Replaces the left side of a pair. -/
def setCar : List Ref → Run Ref :=
  two "set-car!" fun a b => do
    Pair.setLeft a b
    nothing

/-- Replaces the right side of a pair. -/
def setCdr : List Ref → Run Ref :=
  two "set-cdr!" fun a b => do
    Pair.setRight a b
    nothing

/-- The number of items of a list. -/
def length : List Ref → Run Ref :=
  one "length" fun a => do natural (← Pair.length a)

/-- An item of a list. -/
def listRef : List Ref → Run Ref :=
  two "list-ref" fun a b => do
    let i ← Object.integerValue b
    Object.retain (← Pair.item a i.toInt)

/-- The object in a slot of a vector. -/
def vectorRef : List Ref → Run Ref :=
  two "vector-ref" fun a b => do
    let i ← Object.integerValue b
    Object.retain (← Slots.item a i.toInt)

/-- The number of slots of a vector. -/
def vectorLength : List Ref → Run Ref :=
  one "vector-length" fun a => do natural (← Slots.length a)

/-- Whether an object is a list. -/
def isList : List Ref → Run Ref :=
  one "list?" fun a => do boolean (← Pair.isList a)

/-- Whether an object is a number. -/
def isNumber : List Ref → Run Ref :=
  one "number?" fun a => do boolean (Object.isNumeric (← get).heap a)

/-- Whether an object is alive and of a type. -/
def isOfType (op : Text) (tag : Tag) : List Ref → Run Ref :=
  one op fun a => do
    let heap := (← get).heap
    boolean (heap.isAlive a && Object.hasTag heap tag a)

/-- Whether an object is a thunk. -/
def isPromise : List Ref → Run Ref :=
  one "promise?" fun a => do boolean ((← get).heap.isThunk a)

/-- The value of a thunk, or the object itself if it is none. -/
def force (engine : Engine) : List Ref → Run Ref :=
  one "force" fun a => do
    if (← get).heap.isThunk a then Thunk.force engine a else Object.retain a

end Library

end CountedLisp
