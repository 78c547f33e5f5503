import CountedLisp.Text.Basic

/-!
# Traces

The program writes messages about its own working to three logs, each at a level of importance. A
message may name the scope that it is about.
-/

namespace CountedLisp

/-- The logs. -/
inductive Topic where
  | runtime
  | native
  | sandbox
  deriving DecidableEq

/-- The name of a log. -/
def Topic.name : Topic → Text
  | .runtime => "clisp.runtime"
  | .native => "clisp.native"
  | .sandbox => "clisp.sandbox"

/-- The levels of importance. -/
inductive Level where
  | error
  | info
  | debug
  deriving DecidableEq

namespace Level

/-- A level as it stands in messages. -/
def mark : Level → Text
  | .error => "ERROR"
  | .info => "INFO"
  | .debug => "DEBUG"

/-- The name by which users ask for a level. -/
def name : Level → Text
  | .error => "Error"
  | .info => "Info"
  | .debug => "Debug"

/-- The level that a user asks for; the case of the letters does not matter, and every other name
asks for information. -/
def ofName (t : Text) : Level :=
  let lower := t.map fun b => if 65 ≤ b && b ≤ 90 then b + 32 else b
  if lower = Text.ofString "debug" then .debug
  else if lower = Text.ofString "error" then .error
  else .info

end Level

/-- An entry of a log. -/
inductive Event where
  /-- A message, possibly about a scope. -/
  | message (topic : Topic) (level : Level) (scope : Option Text) (body : Text)
  /-- From here on the log takes messages of this level. -/
  | levelSet (topic : Topic) (level : Level)
  deriving DecidableEq

/-- An entry as it is written. -/
def Event.text : Event → Text
  | .message topic level scope body =>
    let about : Text := match scope with
      | some name => "[env=" ++ name ++ "] "
      | none => []
    topic.name ++ " " ++ level.mark ++ " " ++ about ++ body
  | .levelSet topic level => topic.name ++ " LEVEL " ++ level.name

end CountedLisp
