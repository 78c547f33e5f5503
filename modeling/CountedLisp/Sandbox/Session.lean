import CountedLisp.Datum.Reader
import CountedLisp.Sandbox.Notice
import CountedLisp.Sandbox.ScopeTree
import CountedLisp.Token.Lexer

/-!
# Sessions

A session takes lines: commands, which start with a colon, and s-expressions, whose values are
printed. A failure is printed, and the session goes on with the next line. The whole line is read
before any of it is evaluated.
-/

namespace CountedLisp

namespace Session

/-- Prints a notice. -/
def notify (kind : Notice.Kind) (message : Text) : Run Unit :=
  Run.print (Notice.render kind message)

/-- Prints the failure of a computation, if it fails. -/
def reporting {α : Type} (act : Run α) : Run α := fun w =>
  match act w with
  | .error (.failure f) w' => .error (.failure f) (w'.print (Notice.render .error f.text))
  | r => r

/-- Adds an entry to the log of the sandbox. -/
def trace (level : Level) (body : Text) : Run Unit :=
  Run.trace .sandbox level none body

/-! ### Expressions -/

/-- The tokens of a text. -/
def tokenize (text : Text) : Run (List Token) := do
  let tokens ← Run.ofExcept (Token.tokenize text)
  trace .debug (Text.ofNat tokens.length ++ " tokens")
  return tokens

/-- The data that a text writes. -/
def read (text : Text) : Run (List Datum) := do
  Run.ofExcept (Datum.read (← tokenize text))

/-- Logs the type and the count of a value. -/
def traceResult (tag : Tag) (r : Ref) : Run Unit := do
  let refs := (← get).heap.refs r
  trace .debug ("result " ++ tag.name ++ " has " ++ Text.ofNat refs.toNat ++ " references")

/-- Prints a value, unless it is unspecified. There has to be one. -/
def printResult (r : Ref) : Run Unit := do
  match (← get).heap.get? r with
  | none => throw .fault
  | some o =>
    if o.tag = .unspecified then return ()
    else
      traceResult o.tag r
      notify .info (← Object.print r)

/-- Evaluates expressions and prints their values. -/
def evalAll (engine : Engine) (ws : Workspace) : List Datum → Run Unit
  | [] => return ()
  | d :: ds => do
    trace .debug ("eval " ++ d.text)
    let v ← Eval.eval engine (some (← ws.current)) d
    printResult v
    Object.release v
    evalAll engine ws ds

/-! ### Commands -/

/-- Sets the level of all logs. -/
def setLevel (level : Level) : Run Unit := do
  modify (World.record (.levelSet .sandbox level))
  modify (World.record (.levelSet .runtime level))
  modify (World.record (.levelSet .native level))

/-- Prints the known libraries with their file names. -/
def printLibraries : List Text → Run Unit
  | [] => return ()
  | lib :: rest => do
    let names := (← get).candidates lib
    notify .info (lib.padRight 8 ++ " " ++ Text.join ", " names)
    printLibraries rest

/-- The commands. -/
inductive Command where
  | nothing
  | quit
  /-- Shows the active scopes, with the bindings of the global one or without. -/
  | scopes (all : Bool)
  | push
  | pop
  /-- Sets the level of the logs, if one is given. -/
  | trace (level : Option Text)
  | libraries
  | unknown (name : Text)

/-- The command that some words give. -/
def Command.ofWords : List Text → Command
  | [] => .nothing
  | name :: args =>
    if name = Text.ofString "quit" || name = Text.ofString "q" then .quit
    else if name = Text.ofString "env" then .scopes (args.head? == some (Text.ofString "all"))
    else if name = Text.ofString "push" then .push
    else if name = Text.ofString "pop" then .pop
    else if name = Text.ofString "trace" then .trace args.head?
    else if name = Text.ofString "libs" then .libraries
    else .unknown name

/-- Carries out a command, and tells whether it ends the session. -/
def command (ws : Workspace) : Command → Run (Bool × Workspace)
  | .nothing => return (false, ws)
  | .quit => return (true, ws)
  | .scopes all => do
    ScopeTree.print ws all
    return (false, ws)
  | .push => do
    let (s, ws) ← ws.pushScope
    notify .info ("entered scope " ++ (← Scope.nameOf s))
    return (false, ws)
  | .pop => do
    return (false, ← ws.popScope)
  | .trace level => do
    match level with
    | some name => setLevel (Level.ofName name)
    | none => pure ()
    return (false, ws)
  | .libraries => do
    printLibraries (Foreign.aliases.map (·.1))
    return (false, ws)
  | .unknown name => Run.fail (.plain ("unknown command :" ++ name))

/-! ### Lines -/

/-- Takes one line, and tells whether it ends the session. -/
def line (engine : Engine) (ws : Workspace) (text : Text) : Run (Bool × Workspace) :=
  reporting <|
    match text with
    | b :: rest =>
      if b = Text.byte ':' then command ws (.ofWords (Text.fields rest))
      else do
        evalAll engine ws (← read text)
        return (false, ws)
    | [] => do
      evalAll engine ws (← read [])
      return (false, ws)

end Session

end CountedLisp
