import CountedLisp.Eval.Arguments
import CountedLisp.Foreign.Library
import CountedLisp.Store.Access

/-!
# Calling foreign functions

A call is checked against the signature before it would leave the program: the function has to be
there, the number of arguments has to be right, thunks among them are evaluated, and every value has
to be alive, of the right type and, for an integer, within 32 bits. Only then is the bridge asked
for, which this build does not have.
-/

namespace CountedLisp

namespace Foreign

/-- Checks the value that is passed as the argument at a place, counted from one. -/
def checkArgument (op : Text) (place : Nat) (t : ForeignType) (arg : Ref) : Run Unit := do
  let heap := (← get).heap
  if heap.isAlive arg && Object.hasTag heap t.tag arg then
    if t = .integer then
      let v := (← Object.integerValue arg).toInt
      if v < Int32.minValue.toInt || Int32.maxValue.toInt < v then
        Run.fail (.of .argTypeMismatch op ("C int range for argument " ++ Text.ofNat place)
          (Text.ofInt v))
      else return ()
    else return ()
  else
    let actual ← match heap.get? arg with
      | none => pure (Text.ofString "nil")
      | some o => do pure (o.tag.name ++ " " ++ (← Object.print arg))
    Run.fail (.of .argTypeMismatch op (t.tag.name ++ " for argument " ++ Text.ofNat place) actual)

/-- Checks the values that are passed as arguments, from the left. -/
def checkArguments (op : Text) : (place : Nat) → List ForeignType → List Ref → Run Unit
  | place, t :: types, arg :: args => do
    checkArgument op place t arg
    checkArguments op (place + 1) types args
  | _, _, _ => return ()

/-- Leaves the program for a foreign function. -/
def cross (signature : Signature) : Run Ref :=
  Run.fail (.of .nativeCallFault (Signature.operation signature.symbol) "native call bridge"
    noBridge)

/-- Checks a call of a foreign function, and lets `crossing` make it with the values of the
arguments. -/
def guarded (engine : Engine) (signature : Signature) (args : List Ref)
    (crossing : List Ref → Run Ref) : Run Ref := do
  let op := Signature.operation signature.symbol
  if !signature.resolved then
    Run.fail (.of .symbolNotFound op "resolved function" "freed signature")
  else
    Arguments.exactly op args signature.args.length
    Arguments.forcing engine args fun values => do
      checkArguments op 1 signature.args values
      crossing values

/-- Calls a foreign function. -/
def invoke (engine : Engine) (signature : Signature) (args : List Ref) : Run Ref :=
  guarded engine signature args fun _ => cross signature

/-- The bytes of strings, in order. -/
def strings : List Ref → Run (List Text)
  | [] => return []
  | a :: rest => do
    let s ← Object.stringValue a
    return s :: (← strings rest)

/-- The types with given names, in order. -/
def types : List Text → Except Failure (List ForeignType)
  | [] => return []
  | name :: rest => do
    let t ← ForeignType.parse? name
    return t :: (← types rest)

/-- A new procedure for the foreign function that is described by strings: symbol, library, type of
the result and types of the arguments. -/
def describeFunction (values : List Ref) : Run Ref := do
  match ← strings values with
  | symbol :: lib :: result :: args =>
    let result ← Run.ofExcept (ForeignType.parse? result)
    let args ← Run.ofExcept (types args)
    make symbol lib result args
  | _ => Run.fail (.of .arityMismatch "native" "at least 3 arguments" [])

end Foreign

end CountedLisp
