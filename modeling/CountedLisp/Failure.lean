import CountedLisp.Text.Basic

/-!
# Failures

A `Report` is a one-line diagnostic: the kind of the error, the operation that failed, what it
expected and what it found. A `Failure` is a chain of errors, each wrapping the next: reports,
labels put before another failure, and plain texts, which wrap nothing.

`Failure.text` is the message. `Failure.kind` goes inwards to the first report of the chain and
takes its kind. `Failure.is` tells whether a failure counts as an instance of another one: it goes
inwards to a report that has the kind of the target, where the target names nothing but a kind.

A failure is one of the reasons why a computation stops early (`Halt`).
-/

namespace CountedLisp

/-! ### Kinds -/

/-- The kinds of errors. -/
inductive ErrorKind where
  | noError
  | allocationFailure
  | unboundVariable
  | typeMismatch
  | arityMismatch
  | argTypeMismatch
  | symbolNotFound
  | nativeCallFault
  | indexOutOfRange
  /-- A code that stands for no kind. -/
  | unlisted (code : Int8)
  deriving DecidableEq, Inhabited

namespace ErrorKind

/-- The kind with a given code. -/
def ofCode (code : Int8) : ErrorKind :=
  match code.toInt with
  | 0 => .noError
  | 1 => .allocationFailure
  | 2 => .unboundVariable
  | 3 => .typeMismatch
  | 4 => .arityMismatch
  | 5 => .argTypeMismatch
  | 6 => .symbolNotFound
  | 7 => .nativeCallFault
  | 8 => .indexOutOfRange
  | _ => .unlisted code

/-- The name of a kind, as messages give it. -/
def name : ErrorKind → Text
  | .noError => "no error"
  | .allocationFailure => "allocation failure"
  | .unboundVariable => "unbound variable"
  | .typeMismatch => "type mismatch"
  | .arityMismatch => "arity mismatch"
  | .argTypeMismatch => "argument type mismatch"
  | .symbolNotFound => "symbol not found"
  | .nativeCallFault => "native call fault"
  | .indexOutOfRange => "index out of range"
  | .unlisted code => "error kind " ++ Text.ofInt code.toInt

/-- The kinds that a failure can be asked for, in the order of their codes. -/
def listed : List ErrorKind :=
  [.allocationFailure, .unboundVariable, .typeMismatch, .arityMismatch, .argTypeMismatch,
    .symbolNotFound, .nativeCallFault, .indexOutOfRange]

end ErrorKind

/-! ### Reports -/

/-- A one-line diagnostic. An empty part is left out of the message. -/
structure Report where
  /-- What kind of error it is. -/
  kind : ErrorKind
  /-- The operation that failed. -/
  op : Text := []
  /-- What it expected. -/
  expected : Text := []
  /-- What it found instead. -/
  actual : Text := []
  deriving DecidableEq

namespace Report

/-- The message of a report. -/
def text (r : Report) : Text :=
  let operation : Text := if r.op.isEmpty then [] else r.op ++ ": "
  let expectation : Text := if r.expected.isEmpty then [] else ": expected " ++ r.expected
  let link : Text := if r.expected.isEmpty then ": " else ", got "
  let finding : Text := if r.actual.isEmpty then [] else link ++ r.actual
  operation ++ r.kind.name ++ expectation ++ finding

/-- Whether a report names nothing but its kind. -/
def isBare (r : Report) : Bool :=
  r.op.isEmpty && r.expected.isEmpty && r.actual.isEmpty

end Report

/-! ### Chains -/

/-- An error with the errors that it wraps. -/
inductive Failure where
  /-- An error that is only a text. -/
  | plain (text : Text)
  /-- A label before the error that it wraps. -/
  | wrap (label : Text) (cause : Failure)
  /-- A report that wraps nothing. -/
  | report (r : Report)
  /-- A report with its cause. -/
  | caused (r : Report) (cause : Failure)
  deriving DecidableEq, Inhabited

namespace Failure

/-- The message of a failure. -/
def text : Failure → Text
  | .plain t => t
  | .wrap label cause => label ++ ": " ++ cause.text
  | .report r => r.text
  | .caused r cause => r.text ++ " (" ++ cause.text ++ ")"

/-- The failure that is wrapped directly, if any. -/
def cause? : Failure → Option Failure
  | .wrap _ cause | .caused _ cause => some cause
  | .plain _ | .report _ => none

/-- The failure, the one that it wraps, and so on inwards. -/
def chain : Failure → List Failure
  | .plain t => [.plain t]
  | .wrap label cause => .wrap label cause :: cause.chain
  | .report r => [.report r]
  | .caused r cause => .caused r cause :: cause.chain

/-- The report that a failure is, leaving its cause aside. -/
def report? : Failure → Option Report
  | .report r | .caused r _ => some r
  | .plain _ | .wrap _ _ => none

/-- The kind of the outermost report of the chain, or no error if there is none. -/
def kind : Failure → ErrorKind
  | .plain _ => .noError
  | .wrap _ cause => cause.kind
  | .report r | .caused r _ => r.kind

/-- The failure that stands for all failures of a kind. -/
def ofKind (kind : ErrorKind) : Failure :=
  .report { kind := kind }

/-- Whether a failure is a report of the kind that the target stands for. -/
def answersTo (f target : Failure) : Bool :=
  match f.report?, target.report? with
  | some r, some t => t.isBare && r.kind = t.kind
  | _, _ => false

/-- Whether a failure counts as the target: it is the target itself or answers to it, or what it
wraps counts as the target. Two errors of the same text are different errors, so `same` tells which
errors are the target itself. -/
def is (same : Failure → Bool) (f target : Failure) : Bool :=
  same f || f.answersTo target ||
    match f with
    | .wrap _ cause | .caused _ cause => cause.is same target
    | .plain _ | .report _ => false

end Failure

/-- The failure of an operation that expected one thing and found another. -/
def Failure.of (kind : ErrorKind) (op expected actual : Text) : Failure :=
  .report { kind := kind, op := op, expected := expected, actual := actual }

/-! ### Stopping -/

/-- Why a computation stopped early. -/
inductive Halt where
  /-- The program did something that it reports as an error. -/
  | failure (f : Failure)
  /-- A rule of counting was broken: something destroyed was to get a new owner, a count would have
  passed its maximum, or there was no scope to work in. -/
  | breach (message : Text)
  /-- Something was used that is not there: nothing in the place of an object or a function, or a
  byte beyond the end of a text. -/
  | fault
  /-- There was no end in sight. -/
  | exhausted

end CountedLisp
