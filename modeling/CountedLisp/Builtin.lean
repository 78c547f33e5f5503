import CountedLisp.Text.Basic

/-!
# Library functions

The functions that programs find in the global scope. `Builtin.core` is bound in every workspace;
the functions of `Builtin.foreign` and `Builtin.sandbox` are bound on request. A table gives each
function the name it is bound to.
-/

namespace CountedLisp

/-- The library functions. -/
inductive Builtin where
  | list
  | cons
  | car
  | cdr
  | setCar
  | setCdr
  | length
  | listRef
  | isList
  | isPair
  | isNull
  | vector
  | vectorRef
  | vectorLength
  | isVector
  | isNumber
  | isInteger
  | isDouble
  | isChar
  | isString
  | isBoolean
  | isProcedure
  | isPromise
  | force
  | apply
  | native
  | plus
  | times
  | minus
  | quotient
  | less
  | equal
  | not
  | display
  deriving DecidableEq

namespace Builtin

/-- The name of a function. -/
def name : Builtin → Text
  | .list => "list"
  | .cons => "cons"
  | .car => "car"
  | .cdr => "cdr"
  | .setCar => "set-car!"
  | .setCdr => "set-cdr!"
  | .length => "length"
  | .listRef => "list-ref"
  | .isList => "list?"
  | .isPair => "pair?"
  | .isNull => "null?"
  | .vector => "vector"
  | .vectorRef => "vector-ref"
  | .vectorLength => "vector-length"
  | .isVector => "vector?"
  | .isNumber => "number?"
  | .isInteger => "integer?"
  | .isDouble => "double?"
  | .isChar => "char?"
  | .isString => "string?"
  | .isBoolean => "boolean?"
  | .isProcedure => "procedure?"
  | .isPromise => "promise?"
  | .force => "force"
  | .apply => "apply"
  | .native => "native"
  | .plus => "+"
  | .times => "*"
  | .minus => "-"
  | .quotient => "/"
  | .less => "<"
  | .equal => "="
  | .not => "not"
  | .display => "display"

/-- A table of functions and the names they are bound to. -/
abbrev Table := List (Text × Builtin)

/-- The table that binds each function to its own name. -/
def table (functions : List Builtin) : Table :=
  functions.map fun f => (f.name, f)

/-- Pairs, lists, vectors, predicates, thunks and application. -/
def core : Table :=
  table [.list, .cons, .car, .cdr, .setCar, .setCdr, .length, .listRef, .isList, .isPair, .isNull,
    .vector, .vectorRef, .vectorLength, .isVector, .isNumber, .isInteger, .isDouble, .isChar,
    .isString, .isBoolean, .isProcedure, .isPromise, .force, .apply]

/-- Access to foreign functions. -/
def foreign : Table :=
  table [.native]

/-- Arithmetic, comparison, logic and display. -/
def sandbox : Table :=
  table [.plus, .times, .minus, .quotient, .less, .equal, .not, .display]

/-- The function of a given name. -/
def find? (name : Text) : Option Builtin :=
  (core ++ foreign ++ sandbox).lookup name

end Builtin

end CountedLisp
