import CountedLisp.Text.Basic

/-!
# Command line options

Options come before the other words of the command line. `-trace LEVEL` sets the level of the logs
and `-init FILE` names a file with lines to start with; both may be written with two dashes, and
with an equals sign before the value. Two dashes alone end the options.
-/

namespace CountedLisp

/-- What the command line asks for. -/
structure Options where
  /-- The level of the logs. -/
  trace : Text := "Info"
  /-- The file to start with, if the name is not empty. -/
  init : Text := []
  /-- The words after the options. -/
  words : List Text := []

namespace Options

/-- Why a command line cannot be used. -/
inductive Usage where
  /-- It asks for help. -/
  | help
  /-- It is wrong. -/
  | wrong (message : Text)

/-- A word as an option: its name without dashes, and what stands after an equals sign. -/
inductive Word where
  /-- No option. -/
  | plain
  /-- The end of the options. -/
  | stop
  /-- An option without a proper name. -/
  | malformed
  | option (name : Text) (value : Option Text)

/-- A word without its dashes, split at the first equals sign. -/
def splitOption (t : Text) : Word :=
  match t with
  | [] => .malformed
  | b :: _ =>
    if b = Text.byte '-' || b = Text.byte '=' then .malformed
    else
      match t.dropWhile (· != Text.byte '=') with
      | [] => .option t none
      | _ :: value => .option (t.takeWhile (· != Text.byte '=')) (some value)

/-- What a word of the command line is. -/
def Word.ofText : Text → Word
  | b :: c :: rest =>
    if b != Text.byte '-' then .plain
    else if c != Text.byte '-' then splitOption (c :: rest)
    else if rest.isEmpty then .stop
    else splitOption rest
  | _ => .plain

/-- The options with one of them set. -/
def set (o : Options) (name value : Text) : Options :=
  if name = Text.ofString "trace" then { o with trace := value } else { o with init := value }

/-- Whether there is an option of this name. -/
def isKnown (name : Text) : Bool :=
  name == Text.ofString "trace" || name == Text.ofString "init"

/-- The options of a command line, after those in `o`. -/
def parseAfter (o : Options) : List Text → Except Usage Options
  | [] => .ok o
  | word :: rest =>
    match Word.ofText word with
    | .plain => .ok { o with words := word :: rest }
    | .stop => .ok { o with words := rest }
    | .malformed => .error (.wrong ("bad flag syntax: " ++ word))
    | .option name value =>
      if !isKnown name then
        if name = Text.ofString "help" || name = Text.ofString "h" then .error .help
        else .error (.wrong ("flag provided but not defined: -" ++ name))
      else
        match value with
        | some v => parseAfter (o.set name v) rest
        | none =>
          match rest with
          | v :: rest => parseAfter (o.set name v) rest
          | [] => .error (.wrong ("flag needs an argument: -" ++ name))

/-- The options of a command line. -/
def parse (words : List Text) : Except Usage Options :=
  parseAfter {} words

end Options

end CountedLisp
