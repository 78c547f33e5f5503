import CountedLisp.Store.Counting
import CountedLisp.Text.Blank

/-!
# Libraries and symbols

A library is named by an alias that stands for the file names under which it may be found. The
configuration can replace the file names of an alias; an alias that is not known is taken for a
file name itself or for the stem of one.

There is no bridge to foreign code in this build: no library can be opened and the process has no
symbols of its own, so a symbol is found only if it is in the cache already.
-/

namespace CountedLisp

namespace Foreign

/-- Why a library cannot be opened and a foreign function cannot be called. -/
def noBridge : Text :=
  "native calls need cgo on linux or darwin"

/-! ### File names -/

/-- The known aliases with their file names, ordered by alias. -/
def aliases : List (Text × List Text) :=
  let system : Text := "/usr/lib/libSystem.B.dylib"
  [("c", ["libc.so.6", "libc.so", "libc.dylib", system]),
    ("dl", ["libdl.so.2", "libdl.so", "libdl.dylib", system]),
    ("m", ["libm.so.6", "libm.so", "libm.dylib", system]),
    ("pthread", ["libpthread.so.0", "libpthread.so", "libpthread.dylib", system])]

/-- The names in a list that is divided by colons, without blanks around them. -/
def splitNames (t : Text) : List Text :=
  ((t.cutAt (Text.byte ':')).map Text.trim).filter fun n => !n.isEmpty

/-- The file names to try for an alias, given how it is configured. The empty alias has none. -/
def candidates (configured : Text) (lib : Text) : List Text :=
  if lib.isEmpty then []
  else if !configured.isEmpty then splitNames configured
  else match aliases.lookup lib with
    | some names => names
    | none =>
      if (Text.ofString "lib").isPrefixOf lib then [lib]
      else ["lib" ++ lib ++ ".so", "lib" ++ lib ++ ".dylib", lib]

end Foreign

/-- The file names to try for an alias in this world. -/
def World.candidates (w : World) (lib : Text) : List Text :=
  Foreign.candidates (w.setting ("native.lib." ++ lib)) lib

namespace Foreign

/-! ### Symbols -/

/-- Tries to open libraries, and tells whether one of them could not be opened. -/
def openAll : List Text → Run Bool
  | [] => return false
  | name :: rest => do
    if (← get).foreign.libraries.contains name then openAll rest
    else
      Run.trace .native .debug none ("cannot load " ++ name ++ ": " ++ noBridge)
      let _ ← openAll rest
      return true

/-- Finds a symbol of the process or of the library with an alias. -/
def findSymbol (symbol lib : Text) : Run Unit := do
  if (← get).foreign.hasSymbol symbol lib then return ()
  else
    let names := (← get).candidates lib
    let closed ← openAll names
    let report : Report :=
      { kind := .symbolNotFound
        op := Signature.operation symbol
        expected := "exported symbol"
        actual := "not found in " ++ Text.join ", " ("process" :: names) }
    if closed then Run.fail (.caused report (.wrap "last library error" (.plain noBridge)))
    else Run.fail (.report report)

/-- The failure of a signature whose arguments cannot be passed. -/
def badArgument? (symbol : Text) : (place : Nat) → List ForeignType → Option Failure
  | _, [] => none
  | place, t :: rest =>
    if t.isArgument then badArgument? symbol (place + 1) rest
    else some (.of .typeMismatch (Signature.operation symbol) "integer|double|char|string"
      (t.name ++ " for argument " ++ Text.ofNat place))

/-- A new procedure for a foreign function. -/
def make (symbol lib : Text) (result : ForeignType) (args : List ForeignType) : Run Ref := do
  if !result.isListed then
    Run.fail (.of .typeMismatch (Signature.operation symbol) "return type" result.name)
  else match badArgument? symbol 1 args with
    | some f => Run.fail f
    | none =>
      findSymbol symbol lib
      let signature : Signature :=
        { symbol := symbol, library := lib, result := result, args := args }
      Run.trace .native .debug none ("native function " ++ signature.text)
      Object.make (.lambda (.native (some signature)))

/-- The world without any opened library and found symbol. -/
def closeLibraries (w : World) : World :=
  { w with foreign := {} }

end Foreign

end CountedLisp
