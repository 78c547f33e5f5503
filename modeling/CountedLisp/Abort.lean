import CountedLisp.World

/-!
# Giving up

Some failures end the process at once: the message goes to the log and to the error channel, and the
process exits with the code of an abort.
-/

namespace CountedLisp

namespace Abort

/-- The exit code of an abort. -/
def exitCode : Nat := 134

/-- The world after giving up for a failure. -/
def abort (f : Failure) (w : World) : World :=
  let w := w.record (.message .runtime .error none ("fatal: " ++ f.text))
  { w with errors := w.errors ++ f.text ++ "\n", exits := w.exits ++ [exitCode] }

/-- The failure of an operation that cannot get `size` bytes of memory. -/
def allocationFailure (op : Text) (size : Nat) : Failure :=
  .of .allocationFailure op "memory" (Text.ofNat size ++ " bytes not available")

/-- The result of a computation that must not fail; if it does, that is the end. -/
def must (act : Run Ref) : Run Ref := do
  match ← act.attempt with
  | .ok r => return r
  | .error f =>
    modify (abort f)
    return none

end Abort

end CountedLisp
