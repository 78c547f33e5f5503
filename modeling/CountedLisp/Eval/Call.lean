import CountedLisp.Eval.Arithmetic
import CountedLisp.Foreign.Call
import CountedLisp.Store.Scope

/-!
# Calling procedures

Arguments are borrowed from the caller and the result is owned by the caller, whatever kind of
procedure is called. A function of the program gets a new scope for each call, inside the scope that
it was made in; the scope lives as long as the function, since thunks made during the call may still
refer to it.
-/

namespace CountedLisp

namespace Procedure

/-- A new function of the program in a scope, which gets a new owner. -/
def close (params : List Text) (strict : Bool) (body : List Datum) (scope : ScopeRef) :
    Run Ref := do
  let scope ← Scope.retain scope
  Object.make (.lambda (.user
    { params := params, strict := strict, body := body, scope := scope, calls := [] }))

/-- Binds names to arguments in a scope, as far as there are both. -/
def bindAll (scope : ScopeRef) : List Text → List Ref → Run Unit
  | name :: names, arg :: args => do
    Scope.bind scope name arg
    bindAll scope names args
  | _, _ => return ()

/-- The heap with the scope of a call entered into a function of the program. -/
def addCall (id : ObjectId) (scope : ScopeId) (h : Heap) : Heap :=
  match h.object? id with
  | some o =>
    match o.payload with
    | .lambda (.user c) =>
      h.setObject id { o with payload := .lambda (.user { c with calls := scope :: c.calls }) }
    | _ => h
  | none => h

/-- Logs a call in its scope, given how many there were of the same function. -/
def traceCall (scope : ScopeId) (n : Nat) : Run Unit := do
  if (← get).traceRefs then
    Run.traceScope (← Scope.nameOf scope) ("closure call #" ++ Text.ofNat n)

/-- Calls a function of the program in a new scope, which the function keeps. -/
def callIn (engine : Engine) (id : ObjectId) (c : Closure) (args : List Ref) (scope : ScopeId) :
    Run Ref := do
  Run.modifyHeap (addCall id scope)
  traceCall scope (c.calls.length + 1)
  Run.within ⟨id, some scope⟩ do
    Run.ofExcept (Arguments.checkCount "lambda" args.length c.params.length
      (if c.strict then .exactly else .any))
    bindAll (some scope) c.params args
    engine.run (.sequence c.body) (some scope)

/-- Calls a function of the program. -/
def callUser (engine : Engine) (id : ObjectId) (c : Closure) (args : List Ref) : Run Ref := do
  callIn engine id c args (← Scope.make c.scope)

/-- Notes the end of a call that took its arguments out of a list, given all references used in
it. -/
def noteSpread (refs : List Ref) (w : World) : World :=
  w.note fun c =>
    { c with
      applied := true
      orphaned := c.orphaned || refs.any fun r => r.isSome && !w.heap.isAlive r }

/-- Calls a function with the leading arguments and the items of the list that is the last one. -/
def spread (engine : Engine) (f : Ref) (args : List Ref) : Run Ref := do
  if Object.hasTag (← get).heap .lambda f then
    match args.getLast? with
    | none =>
      Run.fail (.of .arityMismatch "apply" "trailing list argument" "no arguments")
    | some last =>
      if ← Pair.isList last then
        let items ← Pair.items last
        let all := args.dropLast ++ items
        (engine.call f all).ensuring (noteSpread (f :: all))
      else Object.mismatch "apply" "list as last argument" last
  else Object.mismatch "apply" Tag.lambda.name f

/-- Calls a function of the library. -/
def callLibrary (engine : Engine) (f : Builtin) (args : List Ref) : Run Ref :=
  let forcing := Arguments.forcing engine args
  match f with
  | .list => forcing Pair.makeList
  | .cons => forcing (Library.two "cons" Pair.make)
  | .car => forcing Library.car
  | .cdr => forcing Library.cdr
  | .setCar => forcing Library.setCar
  | .setCdr => forcing Library.setCdr
  | .length => forcing Library.length
  | .listRef => forcing Library.listRef
  | .isList => forcing Library.isList
  | .isPair => forcing (Library.isOfType "pair?" .pair)
  | .isNull => forcing (Library.isOfType "null?" .emptyList)
  | .vector => forcing Slots.make
  | .vectorRef => forcing Library.vectorRef
  | .vectorLength => forcing Library.vectorLength
  | .isVector => forcing (Library.isOfType "vector?" .vector)
  | .isNumber => forcing Library.isNumber
  | .isInteger => forcing (Library.isOfType "integer?" .integer)
  | .isDouble => forcing (Library.isOfType "double?" .double)
  | .isChar => forcing (Library.isOfType "char?" .char)
  | .isString => forcing (Library.isOfType "string?" .string)
  | .isBoolean => forcing (Library.isOfType "boolean?" .boolean)
  | .isProcedure => forcing (Library.isOfType "procedure?" .lambda)
  | .isPromise => Library.isPromise args
  | .force => Library.force engine args
  | .apply => do
    modify (World.note fun c => { c with applied := true })
    forcing fun values => do
      Arguments.atLeast "apply" values 2
      match values with
      | f :: rest => spread engine f rest
      | [] => Library.nothing
  | .native => do
    Arguments.atLeast "native" args 3
    forcing Foreign.describeFunction
  | .plus => forcing (Library.arithmetic 0 Binary64.add)
  | .times => forcing (Library.arithmetic 1 Binary64.mul)
  | .minus => forcing (Library.arithmetic 0 Binary64.sub)
  | .quotient => forcing (Library.arithmetic 1 Binary64.div)
  | .less => do
    Arguments.exactly "<" args 2
    forcing (Library.comparison "<" Binary64.lt)
  | .equal => do
    Arguments.exactly "=" args 2
    forcing (Library.comparison "=" Binary64.eq)
  | .not => do
    Arguments.exactly "not" args 1
    forcing Library.negation
  | .display => forcing Library.display

/-- Calls an object with arguments. -/
def call (engine : Engine) (f : Ref) (args : List Ref) : Run Ref := do
  match f, (← get).heap.get? f with
  | some id, some { payload := .lambda p, dead := false, .. } =>
    match p with
    | .user c => callUser engine id c args
    | .library b => callLibrary engine b args
    | .native (some signature) => Foreign.invoke engine signature args
    | .native none => throw .fault
  | _, _ => Object.mismatch "call" Tag.lambda.name f

end Procedure

end CountedLisp
