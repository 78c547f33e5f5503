import CountedLisp.Text.Styling

/-!
# Notices

A notice is a message to the user with a label in front of it. Further lines of the message are
indented to the width of the label, and line breaks at its end are drawn together to one. Notices
have a style of their own, so the styling codes of a message are left out.

The program hands its messages to a library for terminal output. The layout of `Notice.render` is
an assumption about this library: where the label stands, how further lines are indented and what
becomes of line breaks and styling codes. The theorems about sessions only name the function, so
they would hold of any other layout.
-/

namespace CountedLisp

namespace Notice

/-- The kinds of notices. -/
inductive Kind where
  | info
  | error
  | warning
  deriving DecidableEq

/-- The label of a notice. -/
def Kind.label : Kind → Text
  | .info => "  >>"
  | .error => "  Error"
  | .warning => "WARNING"

/-- The line break. -/
def newline : UInt8 := 10

/-- The lines of a message, the first after the label, the others indented. -/
def layout (label : Text) : List Text → Text
  | [] => []
  | line :: rest =>
    " " ++ label ++ "  " ++ line ++
      rest.flatMap fun l => newline :: (List.replicate (label.length + 3) (Text.byte ' ') ++ l)

/-- A notice as the library for terminal output is assumed to print it. -/
def render (kind : Kind) (message : Text) : Text :=
  let body := (message.reverse.dropWhile (· == newline)).reverse
  let close : Text := if body.length = message.length then "\n" else "\n\n"
  layout kind.label ((Text.cutAt newline body).map Text.unstyled) ++ close

end Notice

end CountedLisp
