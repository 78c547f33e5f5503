import CountedLisp.Eval.Call
import CountedLisp.Eval.Form
import CountedLisp.Eval.Quotation

/-!
# Evaluation

`Eval.eval` gives the value of an expression in a scope, owned by the caller. The recursion is on
the expression; what a call or a thunk runs is not part of it and is left to the engine.

References that an expression takes on the way are given up again, whatever way it ends: operator
and operands of an application, the value that a name gets, the condition of a conditional together
with what it was evaluated to.

`Engine.ofDepth n` is the engine that goes at most `n` levels deeper.
-/

namespace CountedLisp

namespace Eval

/-- The value of an atom: that of a name, or a constant. -/
def atom (scope : ScopeRef) (t : Token) : Run Ref := do
  if t.kind = .identifier then Object.retain (← Scope.lookup scope t.lexeme) else t.evaluate

/-- Notes a condition and what it was evaluated to. -/
def noteCondition (condition forced : Ref) (w : World) : World :=
  w.note fun c =>
    { c with knotted := c.knotted || (w.heap.isThunk condition && forced = condition) }

/-- Runs what a condition selects; a condition that is a thunk is evaluated first. Condition and
value are given up afterwards. -/
def branch (engine : Engine) (condition : Ref) (next : Bool → Run Ref) : Run Ref := do
  let forced ← (Thunk.force engine condition).onFailure (World.release condition)
  modify (noteCondition condition forced)
  let both := if forced = condition then [condition] else [condition, forced]
  Run.ensuring (do next (← Object.truthy forced)) (World.releaseAll both)

/-- The next value of a sequence, in the place of the one before it, which is given up. -/
def replace (result : Ref) (next : Run Ref) : Run Ref := do
  let v ← next.onFailure (World.release result)
  Object.release result
  return v

mutual
/-- The value of an expression in a scope. -/
def eval (engine : Engine) (scope : ScopeRef) : Datum → Run Ref
  | .atom t => atom scope t
  | .list [] => return Heap.emptyList
  | .list (head :: operands) =>
    match Form.ofHead? head with
    | some f => form engine scope f operands
    | none => do
      let procedure ← eval engine scope head
      Run.ensuring
        (do
          let args ← evalAll engine scope [] operands
          (Procedure.call engine procedure args).ensuring (World.releaseAll args))
        (World.release procedure)
termination_by structural d => d

/-- The values of operands, after those in `args`. If there is no value, all of these are given
up. -/
def evalAll (engine : Engine) (scope : ScopeRef) (args : List Ref) : List Datum → Run (List Ref)
  | [] => return args
  | d :: ds => do
    let v ← (eval engine scope d).onHalt (World.releaseAll args)
    evalAll engine scope (args ++ [v]) ds
termination_by structural ds => ds

/-- The value of the last of some expressions, which are evaluated in order. The values of the
others are given up; `result` is the value before them. -/
def evalLast (engine : Engine) (scope : ScopeRef) (result : Ref) : List Datum → Run Ref
  | [] => return result
  | d :: ds => do
    let v ← replace result (eval engine scope d)
    evalLast engine scope v ds
termination_by structural ds => ds

/-- The value of a special form. -/
def form (engine : Engine) (scope : ScopeRef) (f : Form) (operands : List Datum) : Run Ref :=
  match f with
  | .quote =>
    match operands with
    | [d] => Quotation.build d
    | _ => Run.fail (Form.quote.wrongCount (Form.operands 1) operands)
  | .define =>
    match operands with
    | [target, d] => do
      let name ← Run.ofExcept (Form.define.identifier target)
      let v ← eval engine scope d
      Run.ensuring
        (do
          Scope.bind scope name v
          Library.nothing)
        (World.release v)
    | _ => Run.fail (Form.define.wrongCount (Form.operands 2) operands)
  | .assign =>
    match operands with
    | [target, d] => do
      let name ← Run.ofExcept (Form.assign.identifier target)
      let v ← eval engine scope d
      (Scope.assign scope name v).ensuring (World.release v)
    | _ => Run.fail (Form.assign.wrongCount (Form.operands 2) operands)
  | .lambda =>
    match operands with
    | .list params :: d :: body => do
      let names ← Run.ofExcept (Form.lambda.identifiers params)
      Procedure.close names true (d :: body) scope
    | _ => Run.fail (Form.lambda.wrongCount "parameter list and body" operands)
  | .delay =>
    match operands with
    | [d] => Thunk.make (.expression d) scope
    | _ => Run.fail (Form.delay.wrongCount (Form.operands 1) operands)
  | .conditional =>
    match operands with
    | [c, a] => do
      let condition ← eval engine scope c
      branch engine condition fun b => if b then eval engine scope a else Library.nothing
    | [c, a, b] => do
      let condition ← eval engine scope c
      branch engine condition fun t => if t then eval engine scope a else eval engine scope b
    | _ => Run.fail (Form.conditional.wrongCount "2 or 3 operands" operands)
  | .sequence =>
    match operands with
    | [] => Library.nothing
    | d :: ds => do
      let start ← Library.nothing
      let v ← replace start (eval engine scope d)
      evalLast engine scope v ds
termination_by structural operands
end

/-- The value of the last of some expressions, which are evaluated in order; unspecified if there is
none. -/
def sequence (engine : Engine) (scope : ScopeRef) (body : List Datum) : Run Ref := do
  let start ← Library.nothing
  evalLast engine scope start body

/-- Runs a piece of program in a scope. -/
def code (engine : Engine) (c : Code) (scope : ScopeRef) : Run Ref :=
  match c with
  | .expression d => eval engine scope d
  | .sequence body => sequence engine scope body

end Eval

namespace Engine

/-- The engine that goes at most so many levels deeper. -/
def ofDepth : Nat → Engine
  | 0 => .none
  | n + 1 =>
    { run := fun c scope => Eval.code (ofDepth n) c scope
      call := fun f args => Procedure.call (ofDepth n) f args }

/-- How deep calls and thunks may be nested. -/
def depth : Nat := 1000000

/-- The engine of a program. -/
def standard : Engine := ofDepth depth

end Engine

end CountedLisp
