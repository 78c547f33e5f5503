import CountedLisp.Eval.Thunk

/-!
# Arguments

Checks on the number of arguments of a procedure, and the evaluation of those arguments that are
thunks. `Arguments.force` gives the values together with the references that this added;
`Arguments.forcing` gives these up again after a function has used the values, however it ends.
-/

namespace CountedLisp

/-- How a number of arguments is compared with what a procedure takes. -/
inductive CountMode where
  | exactly
  | atLeast
  /-- No comparison. -/
  | any
  deriving DecidableEq

namespace Arguments

/-- Checks the number of arguments of an operation. -/
def checkCount (op : Text) (count : Nat) (n : Int) : CountMode → Except Failure Unit
  | .exactly =>
    if (count : Int) = n then .ok ()
    else .error (.of .arityMismatch op (Text.ofInt n ++ " arguments")
      (Text.ofNat count ++ " arguments"))
  | .atLeast =>
    if n ≤ count then .ok ()
    else .error (.of .arityMismatch op ("at least " ++ Text.ofInt n ++ " arguments")
      (Text.ofNat count ++ " arguments"))
  | .any => .ok ()

/-- Stops unless there are exactly `n` arguments. -/
def exactly (op : Text) (args : List Ref) (n : Nat) : Run Unit :=
  Run.ofExcept (checkCount op args.length n .exactly)

/-- Stops unless there are at least `n` arguments. -/
def atLeast (op : Text) (args : List Ref) (n : Nat) : Run Unit :=
  Run.ofExcept (checkCount op args.length n .atLeast)

/-- The values of arguments, and the references added to get them after those in `owned`. If a
thunk fails, all of these are given up. -/
def forceAfter (engine : Engine) (owned : List Ref) : List Ref → Run (List Ref × List Ref)
  | [] => return ([], owned)
  | arg :: rest => do
    if (← get).heap.isThunk arg then
      let v ← (Thunk.force engine arg).onFailure (World.releaseAll owned)
      let (values, owned) ← forceAfter engine (owned ++ [v]) rest
      return (v :: values, owned)
    else
      let (values, owned) ← forceAfter engine owned rest
      return (arg :: values, owned)

/-- The values of arguments, and the references added to get them. -/
def force (engine : Engine) (args : List Ref) : Run (List Ref × List Ref) :=
  forceAfter engine [] args

/-- Applies a function to the values of arguments. -/
def forcing (engine : Engine) (args : List Ref) (f : List Ref → Run Ref) : Run Ref := do
  let (values, owned) ← force engine args
  (f values).ensuring (World.releaseAll owned)

end Arguments

end CountedLisp
