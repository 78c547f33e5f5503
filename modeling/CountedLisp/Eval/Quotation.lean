import CountedLisp.Datum.Basic
import CountedLisp.Store.Pair

/-!
# Quoted data

`Quotation.build` makes the object that a datum writes: a list for a list, a constant for a literal
and a string for an identifier, as there are no symbols. All that it makes is owned by the result
alone; if a literal is out of range, nothing that was made is left.
-/

namespace CountedLisp

/-- A new constant for a literal token. -/
def Token.evaluate (t : Token) : Run Ref := do
  Object.constant (← Run.ofResult t.literal)

namespace Quotation

mutual
/-- The object that a datum writes, owned by the caller. -/
def build : Datum → Run Ref
  | .atom t =>
    if t.kind = .identifier then Object.constant (.string t.lexeme) else t.evaluate
  | .list items => do
    let objects ← buildAll [] items
    (Pair.makeList objects).ensuring (World.releaseAll objects)
termination_by structural d => d

/-- The objects that data write, after those in `made`. If one of them fails, all that were made
are given up. -/
def buildAll (made : List Ref) : List Datum → Run (List Ref)
  | [] => return made
  | d :: ds => do
    let o ← (build d).onHalt (World.releaseAll made)
    buildAll (made ++ [o]) ds
termination_by structural ds => ds
end

end Quotation

end CountedLisp
