import CountedLisp.Foreign.Kind

/-!
# Signatures

What is known about a foreign function: its name, the library it is looked for in, and the types
of its result and arguments. A signature that has been freed refers to no function any more.
-/

namespace CountedLisp

/-- The signature of a foreign function. -/
structure Signature where
  /-- The name of the function. -/
  symbol : Text
  /-- The alias of its library; empty for functions of the process itself. -/
  library : Text
  /-- The type of the result. -/
  result : ForeignType
  /-- The types of the arguments. -/
  args : List ForeignType
  /-- Whether the signature refers to a function. -/
  resolved : Bool := true
  deriving DecidableEq

namespace Signature

/-- A signature in messages. -/
def text (s : Signature) : Text :=
  let library : Text := if s.library.isEmpty then "process" else s.library
  s.result.name ++ " " ++ s.symbol ++ "(" ++ Text.join ", " (s.args.map ForeignType.name) ++
    ") [" ++ library ++ "]"

/-- The operation that messages about a foreign function name. -/
def operation (symbol : Text) : Text :=
  "native " ++ symbol

/-- The signature without its function. -/
def freed (s : Signature) : Signature :=
  { s with resolved := false }

end Signature

end CountedLisp
