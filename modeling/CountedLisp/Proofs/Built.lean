import CountedLisp.Proofs.Failures
import CountedLisp.Sandbox.Session
import Mathlib.Tactic.SplitIfs

/-!
# What runs are built from

`Run.Built engine act` says that `act` is put together from the operations on the store, which make
objects and scopes and change or give up what is there, from printing and logging, and from what
`engine` runs one level deeper. It is shown of every function that programs call on.

What holds of the operations and is kept when runs are put together thus holds of all programs. Two
such things are that a run makes elementary changes only, and that it does not depend on what is
written down and never read, which are the logs and the record of conduct.

Nothing that is built in this way makes a thunk that has its value from the beginning. And whether
something is true is asked in two places only, which are listed as a whole: by a conditional and by
the negation. Each of them evaluates it first. No other failure is that of asking a thunk.
-/

namespace CountedLisp

/-- The world with nothing in its logs. -/
def World.unlogged (w : World) : World :=
  { w with log := #[] }

/-- The world without what is written down and never read. -/
def World.bare (w : World) : World :=
  { w with log := #[], conduct := {} }

/-- Marks on the conduct that stay once they are there. -/
structure Conduct.Stays (c c' : Conduct) : Prop where
  reentered : c.reentered = true → c'.reentered = true
  abandoned : c.abandoned = true → c'.abandoned = true
  wrapped : c.wrapped = true → c'.wrapped = true

/-- It is not a thunk with a value. -/
def Payload.isFresh : Payload → Bool
  | .thunk { progress := .done _, .. } => false
  | _ => true

/-- What is not fresh is a thunk with a value. -/
theorem Payload.isFresh_eq_false_iff {p : Payload} :
    p.isFresh = false ↔ ∃ t v, p = .thunk t ∧ t.progress = .done v := by
  unfold isFresh
  split
  · next code v => exact iff_of_true rfl ⟨_, v, rfl, rfl⟩
  · next hne =>
    refine iff_of_false (by simp) ?_
    rintro ⟨⟨code, progress⟩, v, rfl, rfl⟩
    exact hne code v rfl

/-- It is not the failure of asking a thunk whether it is true. -/
def Failure.isClear : Failure → Bool
  | .report r => r.kind ≠ .typeMismatch || r.expected ≠ Text.ofString "forced value"
  | _ => true

/-- A report that expects anything but a forced value is clear. -/
theorem Failure.isClear_of {kind : ErrorKind} {op expected actual : Text}
    (h : expected ≠ Text.ofString "forced value") :
    (Failure.of kind op expected actual).isClear = true := by
  simp [Failure.of, Failure.isClear, h]

/-- A run that is built from the operations on the store and from what an engine runs. -/
inductive Run.Built (engine : Engine) : {α : Type} → (act : Run α) → Prop where
  | pure {α : Type} (a : α) : Built engine (pure a)
  | throw {α : Type} (e : Halt) (he : ∀ f, e = .failure f → f.isClear = true) :
    Built engine (throw e : Run α)
  | bind {α β : Type} {act : Run α} {k : α → Run β} (h : Built engine act)
    (hk : ∀ a, Built engine (k a)) : Built engine (act >>= k)
  /-- What follows depends on the world, but not on what is only written down in it. -/
  | reading {α : Type} {k : World → Run α} (hbare : ∀ w, k w.bare = k w)
    (hk : ∀ w, Built engine (k w)) : Built engine (get >>= k)
  | record (e : Event) : Built engine (modify (World.record e))
  | print (t : Text) : Built engine (Run.print t)
  /-- A note on the conduct. -/
  | note (f : World → Conduct → Conduct) (hbare : ∀ w, f w.bare = f w)
    (hf : ∀ w c, Conduct.Stays c (f w c)) : Built engine (modify fun w => World.note (f w) w)
  /-- A note on the conduct at the end. -/
  | ensuringNote {α : Type} {act : Run α} (h : Built engine act) (f : World → Conduct → Conduct)
    (hbare : ∀ w, f w.bare = f w) (hf : ∀ w c, Conduct.Stays c (f w c)) :
    Built engine (act.ensuring fun w => World.note (f w) w)
  /-- Giving up references. -/
  | drop (work : List Handle) : Built engine (modify (World.drop work))
  | ensuring {α : Type} {act : Run α} (h : Built engine act) (work : List Handle) :
    Built engine (act.ensuring (World.drop work))
  | onHalt {α : Type} {act : Run α} (h : Built engine act) (work : List Handle) :
    Built engine (act.onHalt (World.drop work))
  | onFailure {α : Type} {act : Run α} (h : Built engine act) (work : List Handle) :
    Built engine (act.onFailure (World.drop work))
  | within {α : Type} {act : Run α} (h : Built engine act) (f : Frame) :
    Built engine (Run.within f act)
  | makeObject (p : Payload) (hp : p.isFresh = true) : Built engine (Object.make p)
  | retain (r : Ref) : Built engine (Object.retain r)
  | append (r item : Ref) : Built engine (Slots.append r item)
  | setLeft (r v : Ref) : Built engine (Pair.setLeft r v)
  | setRight (r v : Ref) : Built engine (Pair.setRight r v)
  | addCall (id : ObjectId) (s : ScopeId) : Built engine (Run.modifyHeap (Procedure.addCall id s))
  | force (r : Ref) : Built engine (Thunk.force engine r)
  /-- Asking for the truth of a condition. -/
  | branch (r : Ref) {next : Bool → Run Ref} (hnext : ∀ b, Built engine (next b)) :
    Built engine (Eval.branch engine r next)
  /-- Asking for the truth of an argument. -/
  | negation {args : List Ref} (hforce : Built engine (Arguments.forceAfter engine [] args)) :
    Built engine (Arguments.forcing engine args Library.negation)
  | makeScope (parent : ScopeRef) : Built engine (Scope.make parent)
  | retainScope (s : ScopeRef) : Built engine (Scope.retain s)
  | bindName (s : ScopeRef) (name : Text) (value : Ref) : Built engine (Scope.bind s name value)
  | assignName (s : ScopeRef) (name : Text) (value : Ref) : Built engine (Scope.assign s name value)
  | adopt (s : ScopeRef) : Built engine (Scope.adopt s)
  | run (code : Code) (s : ScopeRef) : Built engine (engine.run code s)
  | call (f : Ref) (args : List Ref) : Built engine (engine.call f args)

open Run

variable {engine : Engine}

namespace Run.Built

variable {α β : Type}

/-- A failure is all that such a run consists of, so it has to be a clear one. -/
theorem fail {f : Failure} (hf : f.isClear = true) : (Run.fail f : Run α).Built engine :=
  .throw _ fun _ he => by
    injection he with he
    exact he ▸ hf

theorem ofExcept {x : Except Failure α} (hx : ∀ f, x = .error f → f.isClear = true) :
    (Run.ofExcept x).Built engine := by
  cases x with
  | ok a => exact .pure a
  | error f => exact .fail (hx f rfl)

/-- A result that was found without a world; it may also be an early stop that is no failure. -/
theorem ofResult {x : Except Halt α}
    (hx : ∀ e, x = .error e → ∀ f, e = .failure f → f.isClear = true) :
    (Run.ofResult x).Built engine := by
  cases x with
  | ok a => exact .pure a
  | error e => exact .throw e (hx e rfl)

/-- Running out of steps is no failure. -/
theorem orExhausted (x : Option α) : (Run.orExhausted x).Built engine := by
  cases x with
  | some a => exact .pure a
  | none => exact .throw _ (by simp)

theorem trace (topic : Topic) (level : Level) (scope : Option Text) (body : Text) :
    (Run.trace topic level scope body).Built engine :=
  .record _

/-- What is computed from a result makes no difference. -/
theorem map {act : Run α} (h : act.Built engine) (f : α → β) : (f <$> act).Built engine := by
  rw [map_eq_pure_bind]
  exact h.bind fun _ => .pure _

end Run.Built

/-! ### Objects -/

namespace Object

theorem built_constant (c : Constant) : (constant c).Built engine :=
  .makeObject _ rfl

/-- Descriptions are read off the heap. That one of them may have no end does no harm. -/
theorem built_describe (r : Ref) : (describe r).Built engine :=
  .reading (fun _ => rfl) fun _ => .orExhausted _

theorem built_print (r : Ref) : (print r).Built engine :=
  .reading (fun _ => rfl) fun _ => .orExhausted _

/-- The report of a mismatch names what was expected, and no function expects a forced value but the
one that asks for the truth of something. -/
theorem built_mismatch {α : Type} (op : Text) {expected : Text}
    (he : expected ≠ Text.ofString "forced value") (r : Ref) :
    (mismatch op expected r : Run α).Built engine :=
  (built_describe r).bind fun _ => .fail (Failure.isClear_of he)

/-- No type is called a forced value. -/
theorem name_ne (tag : Tag) : tag.name ≠ Text.ofString "forced value" := by
  cases tag <;> decide

/-- All three failures of a type check name the type, with or without saying that the object has to
live. -/
theorem built_expect (op : Text) (tag : Tag) (r : Ref) : (expect op tag r).Built engine := by
  refine .reading (fun _ => rfl) fun w => ?_
  split
  · exact .fail (Failure.isClear_of (name_ne tag))
  · split_ifs
    · exact .fail (Failure.isClear_of (by cases tag <;> decide))
    · exact .pure _
    · exact built_mismatch _ (name_ne tag) _

theorem built_integerValue (r : Ref) : (integerValue r).Built engine := by
  refine (built_expect _ _ r).bind fun o => ?_
  split <;> exact .pure _

theorem built_stringValue (r : Ref) : (stringValue r).Built engine := by
  refine (built_expect _ _ r).bind fun o => ?_
  split <;> exact .pure _

theorem built_numericValue (r : Ref) : (numericValue r).Built engine := by
  refine .reading (fun _ => rfl) fun w => ?_
  split
  · exact .pure _
  · exact built_mismatch _ (by decide) _

end Object

/-! ### Vectors, pairs and lists -/

namespace Slots

/-- By induction on the items, each of which gets an owner. -/
theorem built_retainAll (items : List Ref) : (retainAll items).Built engine := by
  induction items with
  | nil => exact .pure _
  | cons r rest ih => exact (Built.retain r).bind fun _ => ih

theorem built_make (items : List Ref) : (make items).Built engine :=
  (built_retainAll items).bind fun _ => .makeObject _ rfl

theorem built_contents (op : Text) (r : Ref) : (contents op r).Built engine := by
  refine (Object.built_expect _ _ r).bind fun o => ?_
  split <;> exact .pure _

theorem built_item (r : Ref) (i : Int) : (item r i).Built engine := by
  refine (built_contents _ r).bind fun items => ?_
  dsimp only
  split
  · exact .pure _
  · exact .fail rfl

theorem built_length (r : Ref) : (length r).Built engine :=
  (built_contents _ r).bind fun _ => .pure _

end Slots

namespace Pair

theorem built_make (left right : Ref) : (make left right).Built engine :=
  (Built.retain left).bind fun _ => (Built.retain right).bind fun _ =>
    .makeObject _ rfl

theorem built_sides (op : Text) (r : Ref) : (sides op r).Built engine := by
  refine (Object.built_expect _ _ r).bind fun o => ?_
  split <;> exact .pure _

/-- A list is made from its end, so the induction on the items goes the same way. -/
theorem built_makeList (items : List Ref) : (makeList items).Built engine := by
  induction items with
  | nil => exact .pure _
  | cons item rest ih =>
    exact ih.bind fun _ => (Built.retain item).bind fun _ => .makeObject _ rfl

/-- A walk along a list only reads the heap, whatever the loop looks for. -/
theorem built_along {α : Type} (r : Ref) (loop : Heap → Nat → Ref → Option α) :
    (along r loop).Built engine :=
  .reading (fun _ => rfl) fun _ => .orExhausted _

theorem built_isList (r : Ref) : (isList r).Built engine :=
  built_along r _

theorem built_length (r : Ref) : (length r).Built engine := by
  refine (built_isList r).bind fun isList => ?_
  split_ifs
  · exact built_along r _
  · exact Object.built_mismatch _ (by decide) _

/-- There are two ways to miss an item, by a negative index and by walking off the end. Both ask for
the length of the list to say so. -/
theorem built_item (r : Ref) (i : Int) : (item r i).Built engine := by
  refine (built_isList r).bind fun isList => ?_
  have houtside : (noItem r i).Built engine := (built_length r).bind fun _ => .fail rfl
  split_ifs
  · refine (built_along r _).bind fun found => ?_
    split
    · exact .pure _
    · exact houtside
  · exact houtside
  · exact Object.built_mismatch _ (by decide) _

theorem built_items (r : Ref) : (items r).Built engine :=
  (built_length r).bind fun _ => built_along r _

end Pair

/-! ### Scopes -/

namespace Scope

theorem built_traceScope (name body : Text) : (Run.traceScope name body).Built engine := by
  refine .reading (fun _ => rfl) fun w => ?_
  split_ifs
  · exact .trace _ _ _ _
  · exact .pure _

/-- A scope can be missing or destroyed, and the reports speak of scopes. -/
theorem built_expect (op : Text) (s : ScopeRef) : (expect op s).Built engine := by
  refine .reading (fun _ => rfl) fun w => ?_
  split
  · split_ifs
    · exact .fail (Failure.isClear_of (by decide))
    · exact .pure _
  · exact .fail (Failure.isClear_of (by decide))

/-- A name that is not found is looked for in a scope that has to be checked first. -/
theorem built_lookup (s : ScopeRef) (name : Text) : (lookup s name).Built engine := by
  refine .reading (fun _ => rfl) fun w => ?_
  split
  · exact .pure _
  · exact (built_expect _ s).bind fun _ => .fail rfl

end Scope

/-! ### Thunks and arguments -/

namespace Thunk

theorem built_make (code : Code) (s : ScopeRef) : (make code s).Built engine :=
  (Built.retainScope s).bind fun _ => .makeObject _ rfl

end Thunk

namespace Arguments

/-- Whatever the mode, a wrong number of arguments is reported as such. -/
theorem built_checkCount (op : Text) (count : Nat) (n : Int) (mode : CountMode) :
    (Run.ofExcept (checkCount op count n mode)).Built engine :=
  .ofExcept fun _ h => by
    obtain ⟨_, _, rfl⟩ := checkCount_error h
    rfl

/-- By induction on the arguments that are left. A failure gives up the values before it. -/
theorem built_forceAfter (owned args : List Ref) :
    (forceAfter engine owned args).Built engine := by
  induction args generalizing owned with
  | nil => exact .pure _
  | cons arg rest ih =>
    refine .reading (fun _ => rfl) fun w => ?_
    split_ifs
    · exact ((Built.force arg).onFailure _).bind fun _ => (ih _).bind fun _ => .pure _
    · exact (ih _).bind fun _ => .pure _

/-- A function of values, applied to what its arguments evaluate to. The values are given up at the
end. -/
theorem built_forcing (args : List Ref) {f : List Ref → Run Ref}
    (hf : ∀ values, (f values).Built engine) : (forcing engine args f).Built engine :=
  (built_forceAfter [] args).bind fun p => (hf p.1).ensuring _

end Arguments

/-! ### The library -/

namespace Library

/-- All functions of one value share the check of the number of arguments. -/
theorem built_one (op : Text) {f : Ref → Run Ref} (hf : ∀ a, (f a).Built engine)
    (args : List Ref) : (one op f args).Built engine := by
  refine (Arguments.built_checkCount _ _ _ _).bind fun _ => ?_
  split
  · exact hf _
  · exact .makeObject _ rfl

/-- All functions of two values share the check of the number of arguments. -/
theorem built_two (op : Text) {f : Ref → Ref → Run Ref} (hf : ∀ a b, (f a b).Built engine)
    (args : List Ref) : (two op f args).Built engine := by
  refine (Arguments.built_checkCount _ _ _ _).bind fun _ => ?_
  split
  · exact hf _ _
  · exact .makeObject _ rfl

theorem built_car (args : List Ref) : (car args).Built engine :=
  built_one _ (fun a => ((Pair.built_sides _ a).bind fun _ => .pure _).bind fun _ =>
    .retain _) args

theorem built_cdr (args : List Ref) : (cdr args).Built engine :=
  built_one _ (fun a => ((Pair.built_sides _ a).bind fun _ => .pure _).bind fun _ =>
    .retain _) args

theorem built_setCar (args : List Ref) : (setCar args).Built engine :=
  built_two _ (fun a b => (Built.setLeft a b).bind fun _ => .makeObject _ rfl) args

theorem built_setCdr (args : List Ref) : (setCdr args).Built engine :=
  built_two _ (fun a b => (Built.setRight a b).bind fun _ => .makeObject _ rfl) args

theorem built_length (args : List Ref) : (length args).Built engine :=
  built_one _ (fun a => (Pair.built_length a).bind fun _ =>
    .makeObject _ rfl) args

theorem built_listRef (args : List Ref) : (listRef args).Built engine :=
  built_two _ (fun a b => (Object.built_integerValue b).bind fun _ =>
    (Pair.built_item a _).bind fun _ => .retain _) args

theorem built_vectorRef (args : List Ref) : (vectorRef args).Built engine :=
  built_two _ (fun a b => (Object.built_integerValue b).bind fun _ =>
    (Slots.built_item a _).bind fun _ => .retain _) args

theorem built_vectorLength (args : List Ref) : (vectorLength args).Built engine :=
  built_one _ (fun a => (Slots.built_length a).bind fun _ => .makeObject _ rfl) args

theorem built_isList (args : List Ref) : (isList args).Built engine :=
  built_one _ (fun a => (Pair.built_isList a).bind fun _ =>
    .makeObject _ rfl) args

/-- A new truth value that is read off the heap. -/
theorem built_test (f : Heap → Ref → Bool) (a : Ref) :
    (do boolean (f (← get).heap a) : Run Ref).Built engine :=
  .reading (fun _ => rfl) fun _ => .makeObject _ rfl

theorem built_isNumber (args : List Ref) : (isNumber args).Built engine :=
  built_one _ (built_test Object.isNumeric) args

/-- The type predicates are one definition, of which the type is a parameter. -/
theorem built_isOfType (op : Text) (tag : Tag) (args : List Ref) :
    (isOfType op tag args).Built engine :=
  built_one _ (built_test fun h a => h.isAlive a && Object.hasTag h tag a) args

theorem built_isPromise (args : List Ref) : (isPromise args).Built engine :=
  built_one _ (built_test fun h a => h.isThunk a) args

/-- Only a thunk is evaluated; anything else gets an owner and is its own value. -/
theorem built_force (args : List Ref) : (force engine args).Built engine := by
  refine built_one _ (fun a => .reading (fun _ => rfl) fun w => ?_) args
  split_ifs
  · exact .force a
  · exact .retain a

theorem built_numbers (args : List Ref) : (numbers args).Built engine := by
  induction args with
  | nil => exact .pure _
  | cons a rest ih => exact (Object.built_numericValue a).bind fun _ => ih.bind fun _ => .pure _

/-- The four operations differ in their unit and in the operation on numbers. -/
theorem built_arithmetic (unit : Int) (f : Binary64 → Binary64 → Binary64) (args : List Ref) :
    (arithmetic unit f args).Built engine :=
  (built_numbers args).bind fun _ => .reading (fun _ => rfl) fun _ => Object.built_constant _

theorem built_comparison (op : Text) (f : Binary64 → Binary64 → Bool) (args : List Ref) :
    (comparison op f args).Built engine :=
  built_two _ (fun a b => (Object.built_numericValue a).bind fun _ =>
    (Object.built_numericValue b).bind fun _ => .makeObject _ rfl) args

/-- By induction on what is shown. Strings are shown as they are, and anything else as it is
written. -/
theorem built_displayAll (args : List Ref) : (displayAll args).Built engine := by
  induction args with
  | nil => exact .pure _
  | cons a rest ih =>
    refine .reading (fun _ => rfl) fun w => ?_
    dsimp only
    split
    · exact (Built.print _).bind fun _ => ih
    · exact (Object.built_print a).bind fun _ => (Built.print _).bind fun _ => ih

theorem built_display (args : List Ref) : (display args).Built engine :=
  (built_displayAll args).bind fun _ => (Built.print _).bind fun _ => .makeObject _ rfl

end Library

/-! ### Foreign functions -/

namespace Foreign

/-- An argument for a foreign function is only read, and written out if it is refused. -/
theorem built_checkArgument (op : Text) (place : Nat) (t : ForeignType) (arg : Ref) :
    (checkArgument op place t arg).Built engine := by
  refine .reading (fun _ => rfl) fun w => ?_
  dsimp only
  split_ifs
  · refine (Object.built_integerValue arg).bind fun v => ?_
    split_ifs
    · exact .fail rfl
    · exact .pure _
  · exact .pure _
  · split
    · exact (Built.pure _).bind fun _ => .fail rfl
    · exact (Object.built_print arg).bind fun _ => (Built.pure _).bind fun _ => .fail rfl

theorem built_checkArguments (op : Text) (place : Nat) (types : List ForeignType)
    (args : List Ref) : (checkArguments op place types args).Built engine := by
  induction types generalizing place args with
  | nil => exact .pure _
  | cons t types ih =>
    cases args with
    | nil => exact .pure _
    | cons arg args => exact (built_checkArgument _ _ _ _).bind fun _ => ih _ _

/-- There is no bridge to foreign functions: a call that passes all checks fails in the end. -/
theorem built_invoke (signature : Signature) (args : List Ref) :
    (invoke engine signature args).Built engine := by
  unfold invoke guarded
  dsimp only
  split_ifs
  · exact .fail rfl
  · exact (Arguments.built_checkCount _ _ _ _).bind fun _ =>
      Arguments.built_forcing args fun values =>
        (built_checkArguments _ _ _ _).bind fun _ => .fail rfl

theorem built_strings (args : List Ref) : (strings args).Built engine := by
  induction args with
  | nil => exact .pure _
  | cons a rest ih => exact (Object.built_stringValue a).bind fun _ => ih.bind fun _ => .pure _

/-- Libraries that cannot be opened leave nothing but a line in the log. -/
theorem built_openAll (names : List Text) : (openAll names).Built engine := by
  induction names with
  | nil => exact .pure _
  | cons name rest ih =>
    refine .reading (fun _ => rfl) fun w => ?_
    split_ifs
    · exact ih
    · exact (Built.trace _ _ _ _).bind fun _ => ih.bind fun _ => .pure _

/-- A symbol is looked for in the process and then in the libraries that are configured. -/
theorem built_findSymbol (symbol lib : Text) : (findSymbol symbol lib).Built engine := by
  refine .reading (fun _ => rfl) fun w => ?_
  split_ifs
  · exact .pure _
  · refine .reading (fun _ => rfl) fun _ => (built_openAll _).bind fun closed => ?_
    dsimp only
    split_ifs <;> exact .fail rfl

theorem built_make (symbol lib : Text) (result : ForeignType) (args : List ForeignType) :
    (make symbol lib result args).Built engine := by
  unfold make
  split_ifs
  · exact .fail (Failure.isClear_of (by decide))
  · split
    · next f hf =>
      obtain ⟨_, _, rfl⟩ := badArgument?_eq_some hf
      exact .fail (Failure.isClear_of (by decide))
    · exact (built_findSymbol _ _).bind fun _ => (Built.trace _ _ _ _).bind fun _ =>
        .makeObject _ rfl

/-- The names of types are checked before a symbol is looked for. -/
theorem built_describeFunction (values : List Ref) : (describeFunction values).Built engine := by
  refine (built_strings values).bind fun texts => ?_
  split
  · refine (Built.ofExcept fun _ h => ?_).bind fun _ =>
      (Built.ofExcept fun _ h => ?_).bind fun _ => built_make _ _ _ _
    · obtain rfl := ForeignType.parse?_error h
      exact Failure.isClear_of (by decide)
    · obtain ⟨_, -, rfl⟩ := types_error h
      exact Failure.isClear_of (by decide)
  · exact .fail rfl

end Foreign

/-! ### Calls -/

namespace Procedure

theorem built_close (params : List Text) (strict : Bool) (body : List Datum) (s : ScopeRef) :
    (close params strict body s).Built engine :=
  (Built.retainScope s).bind fun _ => .makeObject _ rfl

theorem built_bindAll (s : ScopeRef) (names : List Text) (args : List Ref) :
    (bindAll s names args).Built engine := by
  induction names generalizing args with
  | nil => exact .pure _
  | cons name names ih =>
    cases args with
    | nil => exact .pure _
    | cons arg args => exact (Built.bindName s name arg).bind fun _ => ih _

theorem built_traceCall (s : ScopeId) (n : Nat) : (traceCall s n).Built engine := by
  refine .reading (fun _ => rfl) fun w => ?_
  split_ifs
  · exact .reading (fun _ => rfl) fun _ => Scope.built_traceScope _ _
  · exact .pure _

/-- The body of a function is what the engine runs, one level deeper. -/
theorem built_callIn (id : ObjectId) (c : Closure) (args : List Ref) (scope : ScopeId) :
    (callIn engine id c args scope).Built engine :=
  (Built.addCall _ _).bind fun _ => (built_traceCall _ _).bind fun _ => Built.within
    ((Arguments.built_checkCount _ _ _ _).bind fun _ =>
      (built_bindAll _ _ _).bind fun _ => .run _ _) _

theorem built_callUser (id : ObjectId) (c : Closure) (args : List Ref) :
    (callUser engine id c args).Built engine :=
  (Built.makeScope _).bind fun _ => built_callIn _ _ _ _

/-- The last argument is walked along to see that it is a list, and again to get its items. What
`apply` notes on the conduct afterwards leaves the marks alone that have to stay. -/
theorem built_spread (f : Ref) (args : List Ref) :
    (spread engine f args).Built engine := by
  refine .reading (fun _ => rfl) fun w => ?_
  split_ifs
  · split
    · exact .fail rfl
    · refine (Pair.built_isList _).bind fun isList => ?_
      split_ifs
      · refine (Pair.built_items _).bind fun items => ?_
        exact (Built.call _ _).ensuringNote (fun _ _ => _) (by exact fun _ => rfl)
          (by exact fun _ _ => ⟨id, id, id⟩)
      · exact Object.built_mismatch _ (by decide) _
  · exact Object.built_mismatch _ (Object.name_ne _) _

/-- Every function of the library is built from the operations. Only the negation asks for the truth
of an argument. -/
theorem built_callLibrary (f : Builtin) (args : List Ref) :
    (callLibrary engine f args).Built engine := by
  have forcing : ∀ {g : List Ref → Run Ref}, (∀ values, (g values).Built engine) →
      (Arguments.forcing engine args g).Built engine := Arguments.built_forcing args
  cases f with
  | list => exact forcing Pair.built_makeList
  | cons => exact forcing (Library.built_two _ Pair.built_make)
  | car => exact forcing Library.built_car
  | cdr => exact forcing Library.built_cdr
  | setCar => exact forcing Library.built_setCar
  | setCdr => exact forcing Library.built_setCdr
  | length => exact forcing Library.built_length
  | listRef => exact forcing Library.built_listRef
  | isList => exact forcing Library.built_isList
  | vector => exact forcing Slots.built_make
  | vectorRef => exact forcing Library.built_vectorRef
  | vectorLength => exact forcing Library.built_vectorLength
  | isNumber => exact forcing Library.built_isNumber
  | isPair | isNull | isVector | isInteger | isDouble | isChar | isString | isBoolean
  | isProcedure => exact forcing (Library.built_isOfType _ _)
  | isPromise => exact Library.built_isPromise args
  | force => exact Library.built_force args
  | apply =>
    refine Built.bind
      (.note (fun _ _ => _) (by exact fun _ => rfl) (by exact fun _ _ => ⟨id, id, id⟩))
      fun _ => forcing fun values => (Arguments.built_checkCount _ _ _ _).bind fun _ => ?_
    split
    · exact built_spread _ _
    · exact .makeObject _ rfl
  | native =>
    exact (Arguments.built_checkCount _ _ _ _).bind fun _ => forcing Foreign.built_describeFunction
  | plus | times | minus | quotient => exact forcing (Library.built_arithmetic _ _)
  | less | equal =>
    exact (Arguments.built_checkCount _ _ _ _).bind fun _ => forcing (Library.built_comparison _ _)
  | not =>
    exact (Arguments.built_checkCount _ _ _ _).bind fun _ =>
      .negation (Arguments.built_forceAfter [] args)
  | display => exact forcing Library.built_display

/-- A function is one of the program, of the library or a foreign one. -/
theorem built_call (f : Ref) (args : List Ref) :
    (call engine f args).Built engine := by
  refine .reading (fun _ => rfl) fun w => ?_
  split
  · split
    · exact built_callUser _ _ _
    · exact built_callLibrary _ _
    · exact Foreign.built_invoke _ _
    · exact .throw _ (by simp)
  · exact Object.built_mismatch _ (Object.name_ne _) _

end Procedure

/-! ### Programs -/

theorem Token.built_evaluate (t : Token) : t.evaluate.Built engine := by
  refine (Built.ofResult fun _ h f hf => ?_).bind fun _ => Object.built_constant _
  obtain rfl | ⟨x, rfl⟩ := literal_error h
  · cases hf
  · cases hf
    rfl

namespace Quotation

mutual
/-- A quoted datum, by recursion on it. If a part of a list fails, then the parts before it are
given up. -/
theorem built_build (d : Datum) : (build d).Built engine := by
  match d with
  | .atom t =>
    unfold build
    split_ifs
    · exact Object.built_constant _
    · exact t.built_evaluate
  | .list items =>
    unfold build
    exact (built_buildAll [] items).bind fun _ => (Pair.built_makeList _).ensuring _
termination_by structural d

theorem built_buildAll (made : List Ref) (ds : List Datum) : (buildAll made ds).Built engine := by
  match ds with
  | [] =>
    unfold buildAll
    exact .pure _
  | d :: ds =>
    unfold buildAll
    exact ((built_build d).onHalt _).bind fun _ => built_buildAll _ ds
termination_by structural ds
end

end Quotation

namespace Form

theorem built_identifier (f : Form) (d : Datum) :
    (Run.ofExcept (f.identifier d)).Built engine :=
  .ofExcept fun _ h => by
    obtain rfl := identifier_error h
    exact Failure.isClear_of (by decide)

theorem built_identifiers (f : Form) (ds : List Datum) :
    (Run.ofExcept (f.identifiers ds)).Built engine :=
  .ofExcept fun _ h => by
    obtain ⟨_, -, rfl⟩ := identifiers_error h
    exact Failure.isClear_of (by decide)

end Form

namespace Eval

theorem built_atom (s : ScopeRef) (t : Token) : (atom s t).Built engine := by
  unfold atom
  split_ifs
  · exact (Scope.built_lookup _ _).bind fun _ => .retain _
  · exact t.built_evaluate

theorem built_replace (result : Ref) {next : Run Ref} (hnext : next.Built engine) :
    (replace result next).Built engine :=
  (hnext.onFailure _).bind fun _ => (Built.drop _).bind fun _ => .pure _

mutual
/-- **Every expression is built from the operations**, by recursion on it. Bodies of functions and
thunks are not part of the expression: the engine runs them. -/
theorem built_eval (s : ScopeRef) (d : Datum) : (eval engine s d).Built engine := by
  match d with
  | .atom t => exact built_atom s t
  | .list [] => exact .pure _
  | .list (head :: operands) =>
    unfold eval
    split
    · exact built_form s _ operands
    · exact (built_eval s head).bind fun _ => Built.ensuring
        ((built_evalAll s [] operands).bind fun _ => (Procedure.built_call _ _).ensuring _) _
termination_by structural d

theorem built_evalAll (s : ScopeRef) (args : List Ref) (ds : List Datum) :
    (evalAll engine s args ds).Built engine := by
  match ds with
  | [] => exact .pure _
  | d :: ds =>
    unfold evalAll
    exact ((built_eval s d).onHalt _).bind fun _ => built_evalAll s _ ds
termination_by structural ds

theorem built_evalLast (s : ScopeRef) (result : Ref) (ds : List Datum) :
    (evalLast engine s result ds).Built engine := by
  match ds with
  | [] => exact .pure _
  | d :: ds =>
    unfold evalLast
    exact (built_replace _ (built_eval s d)).bind fun _ => built_evalLast s _ ds
termination_by structural ds

/-- A form with its operands. Only the conditional asks for the truth of something. -/
theorem built_form (s : ScopeRef) (f : Form) (operands : List Datum) :
    (form engine s f operands).Built engine := by
  match f, operands with
  | .quote, [d] => exact Quotation.built_build d
  | .define, [target, d] =>
    exact (Form.built_identifier _ target).bind fun _ =>
      (built_eval s d).bind fun _ => Built.ensuring
      ((Built.bindName _ _ _).bind fun _ => .makeObject _ rfl) _
  | .assign, [target, d] =>
    exact (Form.built_identifier _ target).bind fun _ =>
      (built_eval s d).bind fun _ => (Built.assignName _ _ _).ensuring _
  | .lambda, .list params :: d :: body =>
    exact (Form.built_identifiers _ params).bind fun _ =>
      Procedure.built_close _ _ _ _
  | .delay, [d] => exact Thunk.built_make _ _
  | .conditional, [c, a] =>
    refine (built_eval s c).bind fun _ => Built.branch _ fun b => ?_
    cases b with
    | true => exact built_eval s a
    | false => exact .makeObject _ rfl
  | .conditional, [c, a, b] =>
    refine (built_eval s c).bind fun _ => Built.branch _ fun t => ?_
    cases t with
    | true => exact built_eval s a
    | false => exact built_eval s b
  | .sequence, [] => exact .makeObject _ rfl
  | .sequence, d :: ds =>
    exact (Built.makeObject _ rfl).bind fun _ => (built_replace _ (built_eval s d)).bind fun _ =>
      built_evalLast s _ ds
  | .quote, [] | .quote, _ :: _ :: _ => exact .fail rfl
  | .define, [] | .define, [_] | .define, _ :: _ :: _ :: _ => exact .fail rfl
  | .assign, [] | .assign, [_] | .assign, _ :: _ :: _ :: _ => exact .fail rfl
  | .lambda, [] | .lambda, [.atom _] | .lambda, [.list _] | .lambda, .atom _ :: _ :: _ =>
    exact .fail rfl
  | .delay, [] | .delay, _ :: _ :: _ => exact .fail rfl
  | .conditional, [] | .conditional, [_] | .conditional, _ :: _ :: _ :: _ :: _ => exact .fail rfl
termination_by structural operands
end

theorem built_code (c : Code) (s : ScopeRef) : (code engine c s).Built engine := by
  cases c with
  | expression d => exact built_eval s d
  | sequence body => exact (Built.makeObject _ rfl).bind fun _ => built_evalLast s _ body

end Eval

/-! ### Sessions -/

theorem Workspace.built_current (ws : Workspace) : ws.current.Built engine := by
  unfold Workspace.current
  split
  · exact .pure _
  · exact .throw _ (by simp)

namespace Session

theorem built_read (text : Text) : (read text).Built engine := by
  refine Built.bind ((Built.ofExcept fun _ h => ?_).bind fun _ =>
    (Built.trace _ _ _ _).bind fun _ => .pure _) fun _ => .ofExcept fun _ h => ?_
  · obtain ⟨_, rfl⟩ := Token.scan_error_plain h
    rfl
  · obtain ⟨_, rfl⟩ := Datum.readRest_error_plain h
    rfl

/-- A value is printed unless it is unspecified; one that is missing stops the program. -/
theorem built_printResult (r : Ref) : (printResult r).Built engine := by
  refine .reading (fun _ => rfl) fun w => ?_
  split
  · exact .throw _ (by simp)
  · next o _ =>
    split_ifs
    · exact .pure _
    · have htrace : (traceResult o.tag r).Built engine :=
        .reading (fun _ => rfl) fun _ => .trace _ _ _ _
      exact htrace.bind fun _ => (Object.built_print r).bind fun _ => .print _

/-- The expressions of a line, each of which is evaluated and printed before the next one. -/
theorem built_evalAll (ws : Workspace) (ds : List Datum) : (evalAll engine ws ds).Built engine := by
  induction ds with
  | nil => exact .pure _
  | cons d ds ih =>
    exact (Built.trace _ _ _ _).bind fun _ => ws.built_current.bind fun _ =>
      (Eval.built_eval _ d).bind fun v => (built_printResult v).bind fun _ =>
        (Built.drop _).bind fun _ => ih

end Session

end CountedLisp
