import CountedLisp.Store.Counting

/-!
# Typed access

Reading the value of an object of a given type. It is a failure if there is no object, if it has
been destroyed, or if it has another type; they are looked for in this order.
-/

namespace CountedLisp

namespace Object

/-- An object in messages. -/
def describe (r : Ref) : Run Text := do
  Run.orExhausted ((← get).heap.describe? r)

/-- The written form of an object. -/
def print (r : Ref) : Run Text := do
  Run.orExhausted ((← get).heap.print? r)

/-- A failure with a description of the object that caused it. -/
def mismatch {α : Type} (op expected : Text) (r : Ref) : Run α := do
  Run.fail (.of .typeMismatch op expected (← describe r))

/-- The living object of the given type that a reference points to. -/
def expect (op : Text) (tag : Tag) (r : Ref) : Run Object := do
  match (← get).heap.get? r with
  | none => Run.fail (.of .typeMismatch op tag.name "nil")
  | some o =>
    if o.dead then Run.fail (.of .typeMismatch op ("live " ++ tag.name) ("released " ++ o.tag.name))
    else if o.tag = tag then return o
    else mismatch op tag.name r

/-! ### Constants -/

/-- The value of an integer. -/
def integerValue (r : Ref) : Run Int64 := do
  match (← expect "int-value" .integer r).payload with
  | .constant (.integer v) => return v
  | _ => return 0

/-- The value of a double-precision number. -/
def doubleValue (r : Ref) : Run Binary64 := do
  match (← expect "double-value" .double r).payload with
  | .constant (.double v) => return v
  | _ => return default

/-- The value of a truth value. -/
def booleanValue (r : Ref) : Run Bool := do
  match (← expect "boolean-value" .boolean r).payload with
  | .constant (.boolean v) => return v
  | _ => return false

/-- The value of a character. -/
def charValue (r : Ref) : Run UInt8 := do
  match (← expect "char-value" .char r).payload with
  | .constant (.char v) => return v
  | _ => return 0

/-- The bytes of a string, for the given operation. -/
def stringFor (op : Text) (r : Ref) : Run Text := do
  match (← expect op .string r).payload with
  | .constant (.string v) => return v
  | _ => return []

/-- The bytes of a string. -/
def stringValue (r : Ref) : Run Text :=
  stringFor "string-value" r

/-- The number of bytes of a string. -/
def stringLength (r : Ref) : Run Nat := do
  return (← stringFor "string-length" r).length

/-! ### Numbers -/

/-- The value of a living number of either type. -/
def number? (h : Heap) (r : Ref) : Option Binary64 :=
  match h.get? r with
  | some { payload := .constant (.integer v), dead := false, .. } => some (Binary64.ofInt v.toInt)
  | some { payload := .constant (.double v), dead := false, .. } => some v
  | _ => none

/-- The value of a number of either type. -/
def numericValue (r : Ref) : Run Binary64 := do
  match number? (← get).heap r with
  | some v => return v
  | none => mismatch "numeric-value" "INTEGER or DOUBLE" r

/-- Whether an object has the given type, living or dead. -/
def hasTag (h : Heap) (tag : Tag) (r : Ref) : Bool :=
  match h.get? r with
  | some o => o.tag = tag
  | none => false

/-- Whether an object is a number of either type, living or dead. -/
def isNumeric (h : Heap) (r : Ref) : Bool :=
  hasTag h .integer r || hasTag h .double r

/-! ### Truth -/

/-- The failure of asking a thunk whether it is true. -/
def unforced : Failure :=
  .of .typeMismatch "truthy" "forced value" "unforced EVALUABLE"

/-- Whether an object counts as true: everything does, except for the truth value false. A thunk
has to be evaluated first. -/
def truthy (r : Ref) : Run Bool := do
  match (← get).heap.get? r with
  | none => Run.fail (.of .typeMismatch "truthy" "object" "nil")
  | some o =>
    match o.payload with
    | .thunk _ => Run.fail unforced
    | .constant (.boolean v) => return v
    | _ => return true

end Object

end CountedLisp
