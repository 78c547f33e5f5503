import CountedLisp.Sandbox.Options
import CountedLisp.Sandbox.Session

/-!
# A whole session

The course of the sandbox program: greeting, the expression on the command line, the lines of the
init file, the lines typed by the user, and the closing of the workspace.
-/

namespace CountedLisp

namespace Transcript

/-! ### Start -/

/-- Greets the user and makes the workspace. -/
def start (options : Options) : Run Workspace := do
  modify (World.record (.levelSet .sandbox .info))
  Session.notify .info "Welcome to the CLisp sandbox"
  Session.trace .info ("Trace level is " ++ options.trace)
  modify (World.record (.levelSet .sandbox (Level.ofName options.trace)))
  let ws ← Workspace.make [Builtin.foreign, Builtin.sandbox]
  Session.notify .warning "native calls are not available in this build"
  return ws

/-- Takes one line and goes on with the workspace after it; a failure changes no workspace. -/
def attemptLine (engine : Engine) (ws : Workspace) (text : Text) :
    Run (Except Failure Bool × Workspace) := do
  match ← (Session.line engine ws text).attempt with
  | .ok (quit, ws) => return (.ok quit, ws)
  | .error f => return (.error f, ws)

/-- Takes the words of the command line as a line, unless there are none. -/
def takeWords (engine : Engine) (ws : Workspace) (options : Options) : Run Workspace := do
  let text := (Text.join " " options.words).trim
  if text.isEmpty then return ws
  else return (← attemptLine engine ws text).2

/-! ### The init file -/

/-- The longest line of an init file, with its line break. -/
def lineLimit : Nat := 65536

/-- A line without a carriage return at its end. -/
def dropReturn (line : Text) : Text :=
  if line.getLast? = some 13 then line.dropLast else line

/-- The lines before the first one that is too long, and whether there is one. -/
def withinLimit : List Text → List Text × Bool
  | [] => ([], false)
  | line :: rest =>
    if lineLimit ≤ line.length then ([], true)
    else
      let (lines, tooLong) := withinLimit rest
      (dropReturn line :: lines, tooLong)

/-- The lines of a file; a line break at its end starts no further line. -/
def fileLines (contents : Text) : List Text × Bool :=
  let pieces := contents.cutAt Notice.newline
  withinLimit (if pieces.getLast? = some [] then pieces.dropLast else pieces)

/-- Takes the lines of an init file, from line `n` on. -/
def takeFile (engine : Engine) (ws : Workspace) (n : Nat) : List Text → Run Workspace
  | [] => return ws
  | line :: rest => do
    if line.trim.isEmpty then takeFile engine ws (n + 1) rest
    else
      let (result, ws) ← attemptLine engine ws line.trim
      match result with
      | .ok _ => pure ()
      | .error f => Session.trace .error ("Error line " ++ Text.ofNat n ++ ": " ++ f.text)
      takeFile engine ws (n + 1) rest

/-- Takes the init file, given its contents if it could be opened. -/
def takeInit (engine : Engine) (ws : Workspace) (name : Text) (contents : Option Text) :
    Run Workspace := do
  if name.isEmpty then return ws
  else match contents with
    | none =>
      Session.trace .error ("Unable to open init file: " ++ name)
      return ws
    | some contents =>
      let (lines, tooLong) := fileLines contents
      let ws ← takeFile engine ws 1 lines
      if tooLong then
        Session.trace .error "Error while reading init file: bufio.Scanner: token too long"
      return ws

/-! ### The user's lines -/

/-- Takes one line of the user, and tells whether it was the last. -/
def takeLine (engine : Engine) (ws : Workspace) (line : Text) : Run (Bool × Workspace) := do
  if line.trim.isEmpty then return (false, ws)
  else
    let (result, ws) ← attemptLine engine ws line.trim
    match result with
    | .ok quit => return (quit, ws)
    | .error _ => return (false, ws)

/-- Takes the lines of the user up to the end. -/
def takeLines (engine : Engine) (ws : Workspace) : List Text → Run Workspace
  | [] => return ws
  | line :: rest => do
    let (quit, ws) ← takeLine engine ws line
    if quit then return ws else takeLines engine ws rest

/-! ### End -/

/-- Closes the workspace and all libraries. -/
def finish (ws : Workspace) : Run Unit := do
  let (forced, _) ← ws.close
  if 0 < forced then
    Session.trace .info (Text.ofNat forced ++ " environments were kept alive by cycles")
  modify Foreign.closeLibraries

/-! ### The whole course -/

/-- What comes before the user's lines. -/
def opening (engine : Engine) (options : Options) (contents : Option Text) : Run Workspace := do
  let ws ← start options
  let ws ← takeWords engine ws options
  Session.trace .info "Quit with <ctrl>D"
  takeInit engine ws options.init contents

/-- A session from its command line to its end; `file` gives the contents of files. -/
def run (engine : Engine) (options : Options) (file : Text → Option Text) (lines : List Text) :
    Run Unit := do
  let ws ← opening engine options (file options.init)
  let ws ← takeLines engine ws lines
  finish ws

end Transcript

end CountedLisp
