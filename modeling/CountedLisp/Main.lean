import CountedLisp.Sandbox.Transcript

/-!
# The sandbox program

Reads the command line, the init file and the lines of the user, and prints what the session prints.
Log entries go to the error channel, as far as the level of their log lets them through.
-/

namespace CountedLisp

/-- The bytes of a text. -/
def Text.toBytes (t : Text) : ByteArray :=
  ⟨t.toArray⟩

/-- Whether a log entry is shown at a level. -/
def Event.isShown (level : Level) : Event → Bool
  | .message _ .debug _ _ => level == .debug
  | .message _ .info _ _ => level != .error
  | .message _ .error _ _ => true
  | .levelSet _ _ => false

/-- The level of the logs after some entries. -/
def Level.after (level : Level) (log : Array Event) : Level :=
  log.foldl (fun l e => match e with
    | .levelSet _ l' => l'
    | .message _ _ _ _ => l) level

/-- Writes out what a world has printed and logged, and gives the world without it. -/
def World.flush (level : Level) (w : World) : IO (Level × World) := do
  let out ← IO.getStdout
  let err ← IO.getStderr
  out.write ⟨w.output⟩
  out.flush
  err.write (Text.toBytes w.errors)
  let mut current := level
  for e in w.log do
    current := current.after #[e]
    if e.isShown current then err.write (Text.toBytes (e.text ++ "\n"))
  return (current, { w with log := #[], output := #[], errors := [] })

/-- Runs a computation and writes out what it prints; `none` if it stops early. -/
def Run.perform {α : Type} (act : Run α) (level : Level) (w : World) :
    IO (Option α × Level × World) := do
  match act w with
  | .ok a w =>
    let (level, w) ← w.flush level
    return (some a, level, w)
  | .error e w =>
    let (level, w) ← w.flush level
    match e with
    | .failure f => (← IO.getStderr).write (Text.toBytes (f.text ++ "\n"))
    | .breach m => (← IO.getStderr).write (Text.toBytes (m ++ "\n"))
    | .fault => (← IO.getStderr).write (Text.toBytes "use of something that is not there\n")
    | .exhausted => (← IO.getStderr).write (Text.toBytes "stack overflow\n")
    return (none, level, w)

/-- The next line of an input with the byte that ends it, after the bytes `taken`, the last one
first; empty if the input has ended. -/
partial def readLine (input : IO.FS.Stream) (taken : Text) : IO Text := do
  match (← input.read 1).data.toList with
  | [] => return taken.reverse
  | b :: _ =>
    if b = Text.byte '\n' then return (b :: taken).reverse else readLine input (b :: taken)

/-- Takes lines of the user until they end or ask for the end. -/
partial def Transcript.interact (ws : Workspace) (level : Level) (w : World) :
    IO (Option Workspace × Level × World) := do
  (← IO.getStdout).putStr "clisp> "
  (← IO.getStdout).flush
  let line ← readLine (← IO.getStdin) []
  if line.isEmpty then return (some ws, level, w)
  match ← (Transcript.takeLine .standard ws line).perform level w with
  | (some (true, ws), level, w) => return (some ws, level, w)
  | (some (false, ws), level, w) => interact ws level w
  | (none, level, w) => return (none, level, w)

/-- The contents of a file, if it can be read. -/
def readContents (name : String) : IO (Option Text) := do
  try
    return some (← IO.FS.readBinFile name).data.toList
  catch _ => return none

end CountedLisp

open CountedLisp in
/-- The sandbox program. -/
def main (args : List String) : IO UInt32 := do
  match Options.parse (args.map Text.ofString) with
  | .error .help =>
    IO.eprintln "Usage: [-trace LEVEL] [-init FILE] [EXPRESSION]"
    return 0
  | .error (.wrong message) =>
    (← IO.getStderr).write (Text.toBytes (message ++ "\n"))
    return 2
  | .ok options =>
    let contents ← readContents ((String.fromUTF8? (Text.toBytes options.init)).getD "")
    match ← (Transcript.opening .standard options contents).perform .info {} with
    | (none, _, _) => return 2
    | (some ws, level, w) =>
      match ← Transcript.interact ws level w with
      | (none, _, _) => return 2
      | (some ws, level, w) =>
        IO.eprintln "Good bye!"
        let _ ← (Transcript.finish ws).perform level w
        return 0
