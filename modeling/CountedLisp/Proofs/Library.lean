import CountedLisp.Eval.Arithmetic
import CountedLisp.Foreign.Call
import CountedLisp.Proofs.Failures
import CountedLisp.Proofs.Thunks

/-!
# The library is sound

Every function of the library, and every step towards a foreign function, is sound: arguments are
lent or owned by the caller, and the result is owned by the caller. Whatever is taken out of a pair,
a list or a vector gets a new owner while its container lives.
-/

namespace CountedLisp

open Run

variable {P : Prop} {C S B : Share} {w : World} {engine : Engine} {args : List Ref}

/-! ### Counting arguments -/

namespace Arguments

/-- A wrong number of arguments says nothing about anything destroyed. -/
theorem reportsLoss_checkCount {op : Text} {count : Nat} {n : Int} {mode : CountMode}
    {f : Failure} (h : checkCount op count n mode = .error f) : f.reportsLoss = false := by
  obtain ⟨_, _, rfl⟩ := checkCount_error h
  rfl

theorem reads_exactly (op : Text) (args : List Ref) (n : Nat) :
    (exactly op args n).Reads P S w :=
  .ofExcept fun _ => reportsLoss_checkCount

theorem reads_atLeast (op : Text) (args : List Ref) (n : Nat) :
    (atLeast op args n).Reads P S w :=
  .ofExcept fun _ => reportsLoss_checkCount

end Arguments

namespace Library

/-! ### Results -/

/-- Functions that are called for their effect give a new object that holds nothing. -/
theorem sound_nothing (hb : w.Books C) : nothing.Sound P C S w Share.ref B :=
  Object.sound_make_plain rfl rfl hb

theorem sound_boolean (b : Bool) (hb : w.Books C) : (boolean b).Sound P C S w Share.ref B :=
  Object.sound_constant _ hb

theorem sound_natural (n : Nat) (hb : w.Books C) : (natural n).Sound P C S w Share.ref B :=
  Object.sound_constant _ hb

/-- Something that was read gets a new owner. -/
theorem sound_retain {r : Ref} (hb : w.Books C) (hr : w.Sees S (Share.ref r)) :
    (Object.retain r).Sound P C S w Share.ref B := by
  have := Object.sound_retain (P := P) (B := B) (hb.cast (zero_add C)) hr
  simpa using this

/-! ### Functions of one and of two values -/

/-- Functions of one value: if the number of arguments is right, then the value lives, since the
arguments do. -/
theorem sound_one {op : Text} {f : Ref → Run Ref} (hb : w.Books C)
    (ha : Share.refs args ⊆ S + C)
    (hf : ∀ {a}, Share.ref a ⊆ S + C → (f a).Sound P C S w Share.ref 0) :
    (one op f args).Sound P C S w Share.ref 0 := by
  refine (Arguments.reads_exactly op args 1).bind (hb.cast (zero_add C)) fun _ => ?_
  cases args with
  | nil => exact sound_nothing hb
  | cons a rest =>
    rw [Share.refs_cons, Share.add_subset] at ha
    exact hf ha.1

/-- Functions of two values. -/
theorem sound_two {op : Text} {f : Ref → Ref → Run Ref} (hb : w.Books C)
    (ha : Share.refs args ⊆ S + C)
    (hf : ∀ {a b}, Share.ref a ⊆ S + C → Share.ref b ⊆ S + C →
      (f a b).Sound P C S w Share.ref 0) :
    (two op f args).Sound P C S w Share.ref 0 := by
  refine (Arguments.reads_exactly op args 2).bind (hb.cast (zero_add C)) fun _ => ?_
  match args with
  | [] => exact sound_nothing hb
  | [_] => exact sound_nothing hb
  | a :: b :: rest =>
    simp only [Share.refs_cons, Share.add_subset] at ha
    exact hf ha.1 ha.2.1

/-! ### Pairs, lists and vectors -/

/-- The left side lives as long as the pair does, and gets an owner of its own. -/
theorem sound_car (hb : w.Books C) (ha : Share.refs args ⊆ S + C) :
    (car args).Sound P C S w Share.ref 0 :=
  have hb0 := hb.cast (zero_add C)
  sound_one hb ha fun hr => (Pair.reads_left hb (hb0.sees hr)).bind hb0 fun h =>
    sound_retain hb (Pair.sees_left hb h)

theorem sound_cdr (hb : w.Books C) (ha : Share.refs args ⊆ S + C) :
    (cdr args).Sound P C S w Share.ref 0 :=
  have hb0 := hb.cast (zero_add C)
  sound_one hb ha fun hr => (Pair.reads_right hb (hb0.sees hr)).bind hb0 fun h =>
    sound_retain hb (Pair.sees_right hb h)

/-- What the pair owned before is given up after the new side has got its owner. -/
theorem sound_setCar (hb : w.Books C) (ha : Share.refs args ⊆ S + C) :
    (setCar args).Sound P C S w Share.ref 0 :=
  sound_two hb ha fun hr hv => (Pair.sound_setLeft hb hr hv).bind fun _ hb1 _ =>
    sound_nothing (hb1.cast (zero_add C).symm)

theorem sound_setCdr (hb : w.Books C) (ha : Share.refs args ⊆ S + C) :
    (setCdr args).Sound P C S w Share.ref 0 :=
  sound_two hb ha fun hr hv => (Pair.sound_setRight hb hr hv).bind fun _ hb1 _ =>
    sound_nothing (hb1.cast (zero_add C).symm)

theorem sound_length (hb : w.Books C) (ha : Share.refs args ⊆ S + C) :
    (length args).Sound P C S w Share.ref 0 :=
  have hb0 := hb.cast (zero_add C)
  sound_one hb ha fun hr => (Pair.reads_length hb (hb0.sees hr)).bind hb0 fun _ =>
    sound_natural _ hb

/-- The item is owned by one of the pairs of the list until it gets another owner. -/
theorem sound_listRef (hb : w.Books C) (ha : Share.refs args ⊆ S + C) :
    (listRef args).Sound P C S w Share.ref 0 :=
  have hb0 := hb.cast (zero_add C)
  sound_two hb ha fun hr hi => (Object.reads_integerValue hb (hb0.sees hi)).bind hb0 fun _ =>
    (Pair.reads_item _ hb (hb0.sees hr)).bind hb0 fun h => sound_retain hb (Pair.sees_item hb h)

theorem sound_vectorRef (hb : w.Books C) (ha : Share.refs args ⊆ S + C) :
    (vectorRef args).Sound P C S w Share.ref 0 :=
  have hb0 := hb.cast (zero_add C)
  sound_two hb ha fun hr hi => (Object.reads_integerValue hb (hb0.sees hi)).bind hb0 fun _ =>
    (Slots.reads_item _ hb (hb0.sees hr)).bind hb0 fun h => sound_retain hb (Slots.sees_item hb h)

theorem sound_vectorLength (hb : w.Books C) (ha : Share.refs args ⊆ S + C) :
    (vectorLength args).Sound P C S w Share.ref 0 :=
  have hb0 := hb.cast (zero_add C)
  sound_one hb ha fun hr => (Slots.reads_length hb (hb0.sees hr)).bind hb0 fun _ =>
    sound_natural _ hb

/-! ### Predicates -/

theorem sound_isList (hb : w.Books C) (ha : Share.refs args ⊆ S + C) :
    (isList args).Sound P C S w Share.ref 0 :=
  have hb0 := hb.cast (zero_add C)
  sound_one hb ha fun hr => (Pair.reads_isList hb (hb0.sees hr)).bind hb0 fun _ =>
    sound_boolean _ hb

/-- What a predicate asks of a living object is the same in every mirror. -/
theorem sound_isNumber (hb : w.Books C) (ha : Share.refs args ⊆ S + C) :
    (isNumber args).Sound P C S w Share.ref 0 :=
  have hb0 := hb.cast (zero_add C)
  sound_one hb ha fun hr => .get_bind (sound_boolean _ hb) fun _ u hm ht hS => by
    have hlive := hb0.sees hr ht hS
    rw [Object.isNumeric, Object.isNumeric, hm.heap.hasTag hlive, hm.heap.hasTag hlive]

theorem sound_isOfType {op : Text} {tag : Tag} (hb : w.Books C) (ha : Share.refs args ⊆ S + C) :
    (isOfType op tag args).Sound P C S w Share.ref 0 :=
  have hb0 := hb.cast (zero_add C)
  sound_one hb ha fun hr => .get_bind (sound_boolean _ hb) fun _ u hm ht hS => by
    have hlive := hb0.sees hr ht hS
    rw [hm.heap.isAlive hlive, hm.heap.hasTag hlive]

theorem sound_isPromise (hb : w.Books C) (ha : Share.refs args ⊆ S + C) :
    (isPromise args).Sound P C S w Share.ref 0 :=
  have hb0 := hb.cast (zero_add C)
  sound_one hb ha fun hr => .get_bind (sound_boolean _ hb) fun _ u hm ht hS => by
    rw [hm.heap.isThunk (hb0.sees hr ht hS)]

/-! ### Thunks -/

/-- A thunk is evaluated; anything else is its own value and gets an owner. -/
theorem sound_force (he : engine.Sound P) (hb : w.Books C) (ha : Share.refs args ⊆ S + C) :
    (force engine args).Sound P C S w Share.ref 0 := by
  have hb0 := hb.cast (zero_add C)
  refine sound_one hb ha fun {a} hr => .get_bind ?_ fun _ u hm ht hS => by
    rw [hm.heap.isThunk (hb0.sees hr ht hS)]
  split
  · next hthunk =>
    have := Thunk.sound_force he hb hr
    simp only [hthunk, if_true] at this
    exact this
  · exact sound_retain hb (hb0.sees hr)

/-! ### Arithmetic -/

/-- By induction on the arguments, each of which is only read. -/
theorem reads_numbers (hb : w.Books C) (ha : w.Sees S (Share.refs args)) :
    (numbers args).Reads P S w := by
  induction args with
  | nil => exact .pure []
  | cons a rest ih =>
    rw [Share.refs_cons] at ha
    refine (Object.reads_numericValue hb (ha.mono fun x hx => by simp [hx])).andThen fun _ => ?_
    exact (ih (ha.mono fun x hx => by simp [hx])).map _

/-- The arguments are read, and the result is a new number. -/
theorem sound_arithmetic {unit : Int} {f : Binary64 → Binary64 → Binary64} (hb : w.Books C)
    (ha : Share.refs args ⊆ S + C) : (arithmetic unit f args).Sound P C S w Share.ref 0 := by
  have hb0 := hb.cast (zero_add C)
  refine (reads_numbers hb (hb0.sees ha)).bind hb0 fun _ => ?_
  refine .get_bind (Object.sound_constant _ hb) fun _ u hm ht hS => ?_
  have hlive := hb0.sees ha ht hS
  -- the type of the result depends on the types of the arguments, which the mirror shares
  have hall : args.all (Object.hasTag u.heap .integer) =
      args.all (Object.hasTag w.heap .integer) := by
    rw [Bool.eq_iff_iff, List.all_eq_true, List.all_eq_true]
    refine forall₂_congr fun a hmem => ?_
    rw [hm.heap.hasTag (Heap.keeps_refs.mp hlive a hmem)]
  rw [hall]

theorem sound_comparison {op : Text} {f : Binary64 → Binary64 → Bool} (hb : w.Books C)
    (ha : Share.refs args ⊆ S + C) : (comparison op f args).Sound P C S w Share.ref 0 :=
  have hb0 := hb.cast (zero_add C)
  sound_two hb ha fun hx hy => (Object.reads_numericValue hb (hb0.sees hx)).bind hb0 fun _ =>
    (Object.reads_numericValue hb (hb0.sees hy)).bind hb0 fun _ => sound_boolean _ hb

/-- The truth of the argument is read, and the result is a new truth value. -/
theorem sound_negation (hb : w.Books C) (ha : Share.refs args ⊆ S + C) :
    (negation args).Sound P C S w Share.ref 0 :=
  have hb0 := hb.cast (zero_add C)
  sound_one hb ha fun hr => (Object.reads_truthy (hb0.sees hr)).bind hb0 fun _ =>
    sound_boolean _ hb

/-! ### Display -/

/-- By induction on what is shown; printing changes nothing that is counted. -/
theorem sound_displayAll (hb : w.Books C) (ha : Share.refs args ⊆ S + C) :
    (displayAll args).Sound P C S w (fun _ => 0) 0 := by
  induction args generalizing w with
  | nil => exact .pure (hb.cast (zero_add C))
  | cons a rest ih =>
    have hb0 := hb.cast (zero_add C)
    rw [Share.refs_cons, Share.add_subset] at ha
    have hprint : ∀ {t}, (Run.print t).Sound P C S w (fun _ => 0) 0 := Sound.print _ hb0
    have hrest : ∀ {w1 : World}, w1.Books (0 + C) →
        (displayAll rest).Sound P C S w1 (fun _ => 0) 0 := fun hb1 =>
      ih (hb1.cast (zero_add C).symm) ha.2
    refine .get_bind ?_ fun _ u hm ht hS => ?_
    · split
      · exact hprint.bind fun _ hb1 _ => hrest hb1
      · refine (Object.reads_print hb (hb0.sees ha.1)).bind hb0 fun _ => ?_
        exact hprint.bind fun _ hb1 _ => hrest hb1
    · -- strings are shown without quotes; which objects are strings is the same in the mirror
      obtain ⟨h1, h2⟩ | ⟨o, n, h1, hd, h2⟩ := hm.heap.get? (hb0.sees ha.1 ht hS)
      · simp only [h1, h2]
      · obtain ⟨refs, dead, payload⟩ := o
        simp only at hd
        subst hd
        simp only [h1, h2]
        cases payload with
        | constant c => cases c <;> rfl
        | _ => rfl

theorem sound_display (hb : w.Books C) (ha : Share.refs args ⊆ S + C) :
    (display args).Sound P C S w Share.ref 0 :=
  (sound_displayAll hb ha).bind fun _ hb1 _ =>
    (Sound.print (G := fun _ => 0) "\n" hb1).bind fun _ hb2 _ =>
      sound_nothing (hb2.cast (zero_add C).symm)

end Library

/-! ### Foreign functions -/

namespace Foreign

/-- An argument for a foreign function is read, and written out if it is refused. -/
theorem reads_checkArgument {op : Text} {place : Nat} {t : ForeignType} {arg : Ref}
    (hb : w.Books C) (ha : w.Sees S (Share.ref arg)) :
    (checkArgument op place t arg).Reads P S w := by
  refine .get_bind ?_ fun _ u hm ht hS => ?_
  · dsimp only
    split
    · split
      · refine (Object.reads_integerValue hb ha).andThen fun _ => ?_
        split
        · exact .fail fun _ _ _ => rfl
        · exact .pure ()
      · exact .pure ()
    · split
      · exact .fail fun _ _ _ => rfl
      · exact (Object.reads_print hb ha).andThen fun _ => .fail fun _ _ _ => rfl
  · have hlive := ha ht hS
    simp only [hm.heap.isAlive hlive, hm.heap.hasTag hlive]
    obtain ⟨h1, h2⟩ | ⟨o, n, h1, -, h2⟩ := hm.heap.get? hlive
    · simp only [h1, h2]
    · simp only [h1, h2]
      rfl

/-- By induction on the types; arguments beyond them are not looked at. -/
theorem reads_checkArguments {op : Text} (place : Nat) (types : List ForeignType)
    (hb : w.Books C) (ha : w.Sees S (Share.refs args)) :
    (checkArguments op place types args).Reads P S w := by
  induction types generalizing place args with
  | nil => exact .pure ()
  | cons t types ih =>
    cases args with
    | nil => exact .pure ()
    | cons a rest =>
      rw [Share.refs_cons] at ha
      refine (reads_checkArgument hb (ha.mono fun x hx => by simp [hx])).andThen fun _ => ?_
      exact ih (place + 1) (ha.mono fun x hx => by simp [hx])

/-- A call of a foreign function fails in the end, and gives up the values of the arguments. -/
theorem sound_invoke (he : engine.Sound P) {signature : Signature} (hb : w.Books C)
    (ha : Share.refs args ⊆ S + C) : (invoke engine signature args).Sound P C S w Share.ref 0 := by
  have hb0 := hb.cast (zero_add C)
  unfold invoke guarded
  dsimp only
  split
  · exact .fail hb0 fun _ _ _ => rfl
  · -- the checks only read, and then there is no bridge to call the function
    refine (Arguments.reads_exactly _ args _).bind hb0 fun _ => ?_
    refine Arguments.sound_forcing he hb ha fun {values H w'} hb' hv => ?_
    have hb0' := hb'.cast (zero_add (H + C))
    exact (reads_checkArguments 1 signature.args hb' (hb0'.sees hv)).bind hb0' fun _ =>
      .fail hb0' fun _ _ _ => rfl

/-! ### Finding foreign functions -/

theorem reads_strings (hb : w.Books C) (ha : w.Sees S (Share.refs args)) :
    (strings args).Reads P S w := by
  induction args with
  | nil => exact .pure []
  | cons a rest ih =>
    rw [Share.refs_cons] at ha
    refine (Object.reads_stringValue hb (ha.mono fun x hx => by simp [hx])).andThen fun _ => ?_
    exact (ih (ha.mono fun x hx => by simp [hx])).map _

theorem reportsLoss_parse? {name : Text} {f : Failure} (h : ForeignType.parse? name = .error f) :
    f.reportsLoss = false := by
  obtain rfl := ForeignType.parse?_error h
  rfl

theorem reportsLoss_types {names : List Text} {f : Failure} (h : types names = .error f) :
    f.reportsLoss = false := by
  obtain ⟨_, -, rfl⟩ := types_error h
  rfl

/-- What cannot be opened is only noted in the log. -/
theorem sound_openAll (names : List Text) (hb : w.Books (0 + C)) :
    (openAll names).Sound P C S w (fun _ => 0) B := by
  induction names generalizing w with
  | nil => exact .pure hb
  | cons name rest ih =>
    refine .get_bind ?_ fun _ u hm _ _ => by rw [hm.foreign]
    split
    · exact ih hb
    · exact (Sound.trace (G := fun _ => 0) _ _ _ _ hb).bind fun _ hb1 _ =>
        (ih hb1).bind fun _ hb2 _ => .pure hb2

/-- The libraries that are tried depend on the configuration, which mirrors share. -/
theorem candidates_mirror {u : World} (hm : w.Mirrors u) (lib : Text) :
    u.candidates lib = w.candidates lib := by
  simp only [World.candidates, World.setting, hm.conf]

/-- No library can be opened, so that a symbol is found in the process or not at all. -/
theorem sound_findSymbol (symbol lib : Text) (hb : w.Books (0 + C)) :
    (findSymbol symbol lib).Sound P C S w (fun _ => 0) 0 := by
  refine .get_bind ?_ fun _ u hm _ _ => by rw [hm.foreign]
  split
  · exact .pure hb
  · refine .get_bind ?_ fun _ u hm _ _ => by rw [candidates_mirror hm]
    -- no library can be opened, so that the symbol is not found
    refine (sound_openAll _ hb).bind fun {closed w1} _ hb1 _ => ?_
    dsimp only
    split
    · exact .fail hb1 fun _ _ _ => rfl
    · exact .fail hb1 fun _ _ _ => rfl

theorem reportsLoss_badArgument? {symbol : Text} {place : Nat} {types : List ForeignType}
    {f : Failure} (h : badArgument? symbol place types = some f) : f.reportsLoss = false := by
  obtain ⟨t, n, rfl⟩ := badArgument?_eq_some h
  cases t <;> rfl

/-- A foreign function owns nothing. -/
theorem sound_make {symbol lib : Text} {result : ForeignType} {types : List ForeignType}
    (hb : w.Books C) : (make symbol lib result types).Sound P C S w Share.ref 0 := by
  have hb0 := hb.cast (zero_add C)
  unfold make
  split
  · refine .fail hb0 fun _ _ _ => ?_
    cases result <;> rfl
  · split
    · next f hf => exact .fail hb0 fun _ _ _ => reportsLoss_badArgument? hf
    · refine (sound_findSymbol symbol lib hb0).bind fun {_ w1} _ hb1 _ => ?_
      refine (Sound.trace (G := fun _ => 0) _ _ _ _ hb1).bind fun {_ w2} _ hb2 _ => ?_
      exact Object.sound_make_plain rfl rfl (hb2.cast (zero_add C).symm)

/-- The description is a list of strings, which are read before anything is made. -/
theorem sound_describeFunction (hb : w.Books C) (ha : Share.refs args ⊆ S + C) :
    (describeFunction args).Sound P C S w Share.ref 0 := by
  have hb0 := hb.cast (zero_add C)
  refine (reads_strings hb (hb0.sees ha)).bind hb0 fun {texts} _ => ?_
  split
  · refine (Reads.ofExcept fun _ => reportsLoss_parse?).bind hb0 fun _ => ?_
    exact (Reads.ofExcept fun _ => reportsLoss_types).bind hb0 fun _ => sound_make hb
  · exact .fail hb0 fun _ _ _ => rfl

end Foreign

end CountedLisp
