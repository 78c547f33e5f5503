import CountedLisp.Failure
import CountedLisp.Heap.Drop
import CountedLisp.Heap.Printer
import CountedLisp.Trace

/-!
# The state of a run

`World` is all that a run can read and change: the heap, the configuration, the foreign functions
and libraries found so far, and what was written to the logs and printed.

`Run α` is a computation on a world. It can stop early for the reasons that `Halt` keeps apart: a
failure that the program reports, a breach of the rules of counting, the use of something that is
not there, and running out of the number of nested calls that it was given. The world is kept in all
these cases.

Some steps have to be undone however a computation ends, which is `Run.ensuring`; others only if it
fails, which is `Run.onFailure`, or if it does not come to its end, which is `Run.onHalt`.

Four parts of a world are there for statements about runs, and nothing in a run depends on them:
the bodies that are being run (`World.frames`), what has happened that the rules of counting do not
provide for (`World.conduct`), what has happened to thunks (`World.history`), and whether one of
them has a thunk as its value (`World.nested`).
-/

namespace CountedLisp

/-! ### Worlds -/

/-- The foreign functions and libraries found so far. -/
structure ForeignCache where
  /-- The keys of the functions. -/
  symbols : List Text := []
  /-- Opened libraries by file name. -/
  libraries : List Text := []

namespace ForeignCache

/-- The key of a function: its library alias and its name, both written as they are. A quotation
mark in one of them can thus give two functions the same key. -/
def key (symbol lib : Text) : Text :=
  "\x7bLibrary:\"" ++ lib ++ "\",Symbol:\"" ++ symbol ++ "\"\x7d"

/-- Whether a function has been found. -/
def hasSymbol (c : ForeignCache) (symbol lib : Text) : Bool :=
  c.symbols.contains (key symbol lib)

/-- The cache with a function that has been found. -/
def addSymbol (c : ForeignCache) (symbol lib : Text) : ForeignCache :=
  if c.hasSymbol symbol lib then c else { c with symbols := c.symbols ++ [key symbol lib] }

/-- The cache with a library that has been opened. -/
def addLibrary (c : ForeignCache) (name : Text) : ForeignCache :=
  if c.libraries.contains name then c else { c with libraries := c.libraries ++ [name] }

end ForeignCache

/-- A body that is being run: that of a function in the scope of a call, or that of a thunk. -/
structure Frame where
  /-- The function or thunk. -/
  owner : ObjectId
  /-- The scope that the body runs in. -/
  scope : ScopeRef
  deriving DecidableEq

/-- What has happened in a run that the rules of counting do not provide for. Once true, a mark
stays so. -/
structure Conduct where
  /-- `apply` was called. -/
  applied : Bool := false
  /-- Something that a call took out of a list, or the function called, was destroyed before the end
  of the call. -/
  orphaned : Bool := false
  /-- A thunk was evaluated while it was being evaluated. -/
  reentered : Bool := false
  /-- A thunk was destroyed while it was being evaluated. -/
  abandoned : Bool := false
  /-- A condition was a thunk that is its own value. -/
  knotted : Bool := false
  /-- The count of a scope started again from zero. -/
  wrapped : Bool := false
  deriving DecidableEq

/-- What happens to a thunk. -/
inductive Happening where
  /-- Its code is going to be run, `again` if it is being run already. -/
  | entered (id : ObjectId) (again : Bool)
  /-- Its code has given a value, `late` if the thunk was destroyed meanwhile. -/
  | returned (id : ObjectId) (late : Bool)
  deriving DecidableEq

/-- All that a run can read and change. -/
structure World where
  /-- Objects, scopes and registries. -/
  heap : Heap := .initial
  /-- Configured values by key. -/
  conf : List (Text × Text) := []
  /-- Whether creation and destruction are logged. -/
  traceRefs : Bool := false
  /-- Whether objects are counted and destroyed. If not, everything lives forever, which is the
  measure for whether counting can be noticed. -/
  reclaim : Bool := true
  /-- Foreign functions and libraries. -/
  foreign : ForeignCache := {}
  /-- The logs. -/
  log : Array Event := #[]
  /-- The bytes that were printed. -/
  output : Array UInt8 := #[]
  /-- What was written to the error channel. -/
  errors : Text := []
  /-- The codes with which the process was asked to exit. -/
  exits : List Nat := []
  /-- The bodies that are being run, the innermost first. -/
  frames : List Frame := []
  /-- What has happened against the rules of counting. -/
  conduct : Conduct := {}
  /-- What has happened to thunks, the latest first. -/
  history : List Happening := []
  /-- Whether some thunk has come to have a value that is not plain, but a thunk again. -/
  nested : Bool := false

namespace World

/-- The configured value of a key, empty if there is none. -/
def setting (w : World) (key : Text) : Text :=
  (w.conf.lookup key).getD []

/-- Whether a key is configured to be true. -/
def flag (w : World) (key : Text) : Bool :=
  w.setting key == Text.ofString "true"

/-- The world with an entry added to a log. -/
def record (e : Event) (w : World) : World :=
  { w with log := w.log.push e }

/-- The world after printing a text. -/
def print (t : Text) (w : World) : World :=
  { w with output := w.output ++ t }

/-- The world with a change to the record of its conduct. -/
def note (f : Conduct → Conduct) (w : World) : World :=
  { w with conduct := f w.conduct }

/-- The world with something that happens to a thunk. -/
def witness (e : Happening) (w : World) : World :=
  { w with history := e :: w.history }

end World

/-- The log entry for a destruction. -/
def Demise.event : Demise → Event
  | .object tag => .message .runtime .debug none ("destroy " ++ tag.name)
  | .scope name n =>
    .message .runtime .debug (some name)
      ("destroying environment with " ++ Text.ofNat n ++ " bindings")

namespace World

/-- The world after giving up some references. -/
def drop (work : List Handle) (w : World) : World :=
  if w.reclaim then
    let (heap, died) := w.heap.drop #[] work
    { w with
      heap := heap
      log := if w.traceRefs then w.log ++ died.map Demise.event else w.log }
  else w

/-- The world after destroying a scope, whatever its count is. -/
def destroy (id : ScopeId) (w : World) : World :=
  let (heap, died) := w.heap.destroy id
  { w with
    heap := heap
    log := if w.traceRefs then w.log ++ died.map Demise.event else w.log }

/-- The world after giving up a reference to an object. -/
def release (r : Ref) (w : World) : World :=
  w.drop (Handle.objects [r])

/-- The world after giving up references to objects, in order. -/
def releaseAll (rs : List Ref) (w : World) : World :=
  w.drop (Handle.objects rs)

/-- The world after giving up a reference to a scope. -/
def releaseScope (s : ScopeRef) (w : World) : World :=
  w.drop (Handle.ofScope s)

end World

/-! ### Runs -/

/-- A computation on a world. -/
abbrev Run := EStateM Halt World

namespace Run

variable {α : Type}

/-- Stops with a failure. -/
def fail (f : Failure) : Run α :=
  throw (.failure f)

/-- Stops with a breach. -/
def breach (message : Text) : Run α :=
  throw (.breach message)

/-- Goes on with a result or stops with its failure. -/
def ofExcept : Except Failure α → Run α
  | .ok a => pure a
  | .error f => fail f

/-- Goes on with a result or stops for the reason given. -/
def ofResult : Except Halt α → Run α
  | .ok a => pure a
  | .error e => throw e

/-- Stops if there is no result, since looking for it does not end. -/
def orExhausted : Option α → Run α
  | some a => pure a
  | none => throw .exhausted

/-- Changes the world after a computation, however it ends. -/
def ensuring (act : Run α) (after : World → World) : Run α := fun w =>
  match act w with
  | .ok a w' => .ok a (after w')
  | .error e w' => .error e (after w')

/-- Changes the world after a computation that stops early. -/
def onHalt (act : Run α) (after : World → World) : Run α := fun w =>
  match act w with
  | .ok a w' => .ok a w'
  | .error e w' => .error e (after w')

/-- Changes the world after a computation that fails. -/
def onFailure (act : Run α) (after : World → World) : Run α := fun w =>
  match act w with
  | .error (.failure f) w' => .error (.failure f) (after w')
  | r => r

/-- The result of a computation, or its failure. -/
def attempt (act : Run α) : Run (Except Failure α) := fun w =>
  match act w with
  | .ok a w' => .ok (.ok a) w'
  | .error (.failure f) w' => .ok (.error f) w'
  | .error e w' => .error e w'

/-- Runs a body. -/
def within (f : Frame) (act : Run α) : Run α := fun w =>
  match act { w with frames := f :: w.frames } with
  | .ok a w' => .ok a { w' with frames := w.frames }
  | .error e w' => .error e { w' with frames := w.frames }

/-- Adds an entry to a log. -/
def trace (topic : Topic) (level : Level) (scope : Option Text) (body : Text) : Run Unit :=
  modify (World.record (.message topic level scope body))

/-- Adds an entry on a scope to the runtime log, if creation and destruction are logged. -/
def traceScope (scope body : Text) : Run Unit := do
  if (← get).traceRefs then trace .runtime .debug (some scope) body

/-- Prints a text. -/
def print (t : Text) : Run Unit :=
  modify (World.print t)

end Run

end CountedLisp
