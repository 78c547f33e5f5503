import CountedLisp.Proofs.Traversals
import CountedLisp.Proofs.Truth

/-!
# Checks before a foreign call

`Foreign.guarded` makes a foreign call only if all checks are passed. These are stated twice without
the function: `Passes` says that a call passes all of them, and with which values of the arguments;
`Stops` names the first check that it does not pass, with the failure that this gives and the world
that is left. A call does one or the other (`passes_or_stops`).

The call itself is a parameter. `Reaches` says that it is made: what happens from some world on is
up to it. A call that stops has the same end whatever the parameter is, so that both cannot be
(`Stops.not_reaches`), and what is reached is what passes.

The message about an argument of a wrong type shows its written form. An argument that contains
itself has none (`Heap.print?_eq_none_iff`), and there looking for it does not end.
-/

namespace CountedLisp

open Run

/-! ### Single arguments -/

namespace Foreign

/-- A value can be passed as an argument of a type: it lives, it has the tag of the type, and an
integer has no more than 32 bits. -/
def Passable (h : Heap) (t : ForeignType) (v : Ref) : Prop :=
  ∃ o, h.get? v = some o ∧ o.dead = false ∧ o.tag = t.tag ∧
    ∀ n, o.payload = .constant (.integer n) → -2 ^ 31 ≤ n.toInt ∧ n.toInt ≤ 2 ^ 31 - 1

/-- What is said about a value that cannot be passed at a place, counted from one. -/
inductive Objection (h : Heap) (op : Text) (place : Nat) (t : ForeignType) (v : Ref) :
    Halt → Prop where
  /-- There is no value. -/
  | missing (hv : h.get? v = none) : Objection h op place t v (.failure (.of .argTypeMismatch op
      (t.tag.name ++ " for argument " ++ Text.ofNat place) "nil"))
  /-- The value has been destroyed, or it has another type. -/
  | mismatch {o : Object} {text : Text} (hv : h.get? v = some o)
      (hbad : o.dead = true ∨ o.tag ≠ t.tag) (htext : h.print? v = some text) :
    Objection h op place t v (.failure (.of .argTypeMismatch op
      (t.tag.name ++ " for argument " ++ Text.ofNat place) (o.tag.name ++ " " ++ text)))
  /-- The value is such that its written form, which the message is to show, has no end. -/
  | endless {o : Object} (hv : h.get? v = some o) (hbad : o.dead = true ∨ o.tag ≠ t.tag)
      (hcycle : ¬h.Acyclic v) : Objection h op place t v .exhausted
  /-- The value is an integer with more than 32 bits. -/
  | range {o : Object} {n : Int64} (hv : h.get? v = some o) (hlive : o.dead = false)
      (htype : t = .integer) (hn : o.payload = .constant (.integer n))
      (hrange : ¬(-2 ^ 31 ≤ n.toInt ∧ n.toInt ≤ 2 ^ 31 - 1)) :
    Objection h op place t v (.failure (.of .argTypeMismatch op
      ("C int range for argument " ++ Text.ofNat place) (Text.ofInt n.toInt)))

section Argument

variable {w : World} {op : Text} {place : Nat} {t : ForeignType} {v : Ref} {o : Object} {e : Halt}

theorem tag_eq_integer : t.tag = .integer ↔ t = .integer := by
  cases t <;> simp [ForeignType.tag]

/-- The payload of an object with the tag of integers. -/
theorem exists_integer (htag : o.tag = .integer) : ∃ n, o.payload = .constant (.integer n) := by
  obtain ⟨refs, dead, payload⟩ := o
  cases payload with
  | constant c => cases c <;> simp_all [Object.tag, Payload.tag, Constant.tag]
  | _ => simp [Object.tag, Payload.tag] at htag

theorem outOfRange_iff {n : Int64} :
    (n.toInt < Int32.minValue.toInt || Int32.maxValue.toInt < n.toInt) = true ↔
      ¬(-2 ^ 31 ≤ n.toInt ∧ n.toInt ≤ 2 ^ 31 - 1) := by
  have hmin : Int32.minValue.toInt = -2 ^ 31 := by decide
  have hmax : Int32.maxValue.toInt = 2 ^ 31 - 1 := by decide
  rw [hmin, hmax, Bool.or_eq_true, decide_eq_true_eq, decide_eq_true_eq]
  omega

theorem integerValue_eq {n : Int64} (hv : w.heap.get? v = some o) (hlive : o.dead = false)
    (hn : o.payload = .constant (.integer n)) : Object.integerValue v w = .ok n w := by
  have htag : o.tag = .integer := by rw [Object.tag, hn]; rfl
  have hexpect : Object.expect "int-value" .integer v w = .ok o w := by
    unfold Object.expect
    rw [get_bind, hv]
    dsimp only
    rw [hlive, htag]
    rfl
  unfold Object.integerValue
  rw [bind_ok hexpect, hn]
  rfl

/-- The check of a value that lives and has the right type is a check of its range. -/
theorem checkArgument_of_tag (hv : w.heap.get? v = some o) (hlive : o.dead = false)
    (htag : o.tag = t.tag) : checkArgument op place t v w =
      if t = .integer then (do
        let n := (← Object.integerValue v).toInt
        if n < Int32.minValue.toInt || Int32.maxValue.toInt < n then
          Run.fail (.of .argTypeMismatch op ("C int range for argument " ++ Text.ofNat place)
            (Text.ofInt n))
        else return ()) w
      else .ok () w := by
  unfold checkArgument
  rw [get_bind]
  have hgood : (w.heap.isAlive v && Object.hasTag w.heap t.tag v) = true := by
    simp [Heap.isAlive, Object.hasTag, hv, hlive, htag]
  dsimp only
  rw [if_pos hgood]
  split_ifs
  · rfl
  · rfl

/-- The check of a value that has been destroyed or has another type. -/
theorem checkArgument_of_bad (hv : w.heap.get? v = some o) (hbad : o.dead = true ∨ o.tag ≠ t.tag) :
    checkArgument op place t v w = (do
      let text ← Run.orExhausted (w.heap.print? v)
      Run.fail (.of .argTypeMismatch op (t.tag.name ++ " for argument " ++ Text.ofNat place)
        (o.tag.name ++ " " ++ text)) : Run Unit) w := by
  unfold checkArgument
  rw [get_bind]
  have hnot : ¬(w.heap.isAlive v && Object.hasTag w.heap t.tag v) = true := by
    rcases hbad with hdead | htag
    · simp [Heap.isAlive, hv, hdead]
    · simp [Object.hasTag, hv, htag]
  dsimp only
  rw [if_neg hnot, hv]
  dsimp only
  have hprint : Object.print v w = Run.orExhausted (w.heap.print? v) w := rfl
  cases htext : w.heap.print? v with
  | none =>
    have hstop : Object.print v w = .error .exhausted w := by rw [hprint, htext]; rfl
    exact bind_error hstop
  | some text =>
    have hok : Object.print v w = .ok text w := by rw [hprint, htext]; rfl
    exact bind_ok hok

theorem checkArgument_ok (hv : Passable w.heap t v) : checkArgument op place t v w = .ok () w := by
  obtain ⟨o, hget, hlive, htag, hrange⟩ := hv
  rw [checkArgument_of_tag hget hlive htag]
  split_ifs with ht
  · obtain ⟨n, hn⟩ := exists_integer (htag.trans (tag_eq_integer.2 ht))
    rw [bind_ok (integerValue_eq hget hlive hn),
      if_neg fun hout => outOfRange_iff.1 hout (hrange n hn)]
    rfl
  · rfl

/-- What is said about a value is how its check ends. -/
theorem checkArgument_error (hobj : Objection w.heap op place t v e) :
    checkArgument op place t v w = .error e w := by
  cases hobj with
  | missing hv =>
    unfold checkArgument
    rw [get_bind]
    have hnot : ¬(w.heap.isAlive v && Object.hasTag w.heap t.tag v) = true := by
      simp [Heap.isAlive, hv]
    dsimp only
    rw [if_neg hnot, hv]
    rfl
  | mismatch hv hbad htext =>
    rw [checkArgument_of_bad hv hbad, htext]
    rfl
  | endless hv hbad hcycle =>
    rw [checkArgument_of_bad hv hbad, Heap.print?_eq_none_iff.2 hcycle]
    rfl
  | range hv hlive htype hn hrange =>
    have htag : t.tag = .integer := tag_eq_integer.2 htype
    rw [checkArgument_of_tag hv hlive (by rw [htag, Object.tag, hn]; rfl), if_pos htype,
      bind_ok (integerValue_eq hv hlive hn), if_pos (outOfRange_iff.2 hrange)]
    rfl

/-- Something is said about every value that cannot be passed. -/
theorem exists_objection (h : Heap) (op : Text) (place : Nat) (hbad : ¬Passable h t v) :
    ∃ e, Objection h op place t v e := by
  cases hv : h.get? v with
  | none => exact ⟨_, .missing hv⟩
  | some o =>
    by_cases hgood : o.dead = false ∧ o.tag = t.tag
    · obtain ⟨hlive, htag⟩ := hgood
      -- only the range is left to object to
      have hn : ∃ n, o.payload = .constant (.integer n) ∧
          ¬(-2 ^ 31 ≤ n.toInt ∧ n.toInt ≤ 2 ^ 31 - 1) := by
        by_contra hall
        refine hbad ⟨o, hv, hlive, htag, fun n hn => ?_⟩
        by_contra hrange
        exact hall ⟨n, hn, hrange⟩
      obtain ⟨n, hn, hrange⟩ := hn
      have htype : t = .integer := by
        rw [← tag_eq_integer, ← htag, Object.tag, hn]
        rfl
      exact ⟨_, .range hv hlive htype hn hrange⟩
    · have hbad' : o.dead = true ∨ o.tag ≠ t.tag := by
        rw [not_and_or, Bool.not_eq_false] at hgood
        exact hgood
      cases htext : h.print? v with
      | none => exact ⟨_, .endless hv hbad' (Heap.print?_eq_none_iff.1 htext)⟩
      | some text => exact ⟨_, .mismatch hv hbad' htext⟩

end Argument

/-! ### All arguments -/

section Arguments

variable {w : World} {op : Text} {types : List ForeignType} {values : List Ref}

theorem checkArguments_ok (place : Nat) (hall : List.Forall₂ (Passable w.heap) types values) :
    checkArguments op place types values w = .ok () w := by
  induction hall generalizing place with
  | nil => rfl
  | cons hv _ ih =>
    rw [checkArguments, bind_ok (checkArgument_ok hv)]
    exact ih (place + 1)

/-- The arguments before the first one that cannot be passed are passed over. -/
theorem checkArguments_error {fine : List ForeignType} {earlier later : List Ref}
    {t : ForeignType} {v : Ref} {e : Halt} (place : Nat)
    (hfine : List.Forall₂ (Passable w.heap) fine earlier)
    (hobj : Objection w.heap op (place + fine.length) t v e) :
    checkArguments op place (fine ++ t :: types) (earlier ++ v :: later) w = .error e w := by
  induction hfine generalizing place with
  | nil =>
    rw [List.nil_append, List.nil_append, checkArguments]
    exact bind_error (checkArgument_error hobj)
  | cons hv _ ih =>
    rw [List.cons_append, List.cons_append, checkArguments, bind_ok (checkArgument_ok hv)]
    apply ih
    rwa [List.length_cons, Nat.add_comm _ 1, ← Nat.add_assoc] at hobj

/-- All values can be passed, or there is a first one that cannot. -/
theorem passable_or_first (h : Heap) (hlength : values.length = types.length) :
    List.Forall₂ (Passable h) types values ∨ ∃ fine t others earlier v later,
      types = fine ++ t :: others ∧ values = earlier ++ v :: later ∧
      List.Forall₂ (Passable h) fine earlier ∧ ¬Passable h t v := by
  induction types generalizing values with
  | nil =>
    rw [List.length_nil, List.length_eq_zero_iff] at hlength
    exact .inl (hlength ▸ .nil)
  | cons t types ih =>
    obtain ⟨v, values, rfl⟩ := List.exists_cons_of_length_eq_add_one hlength
    by_cases hv : Passable h t v
    · rcases ih (Nat.succ.inj hlength) with
        hall | ⟨fine, t', others, earlier, v', later, rfl, rfl, hfine, hbad⟩
      · exact .inl (.cons hv hall)
      · exact .inr ⟨t :: fine, t', others, v :: earlier, v', later, rfl, rfl, .cons hv hfine, hbad⟩
    · exact .inr ⟨[], t, types, [], v, values, rfl, rfl, .nil, hv⟩

end Arguments

/-! ### Calls -/

/-- A call passes all checks, and the arguments have these values. -/
structure Passes (engine : Engine) (s : Signature) (args : List Ref) (w : World)
    (values owned : List Ref) (u : World) : Prop where
  /-- The signature has not been freed. -/
  resolved : s.resolved = true
  count : args.length = s.args.length
  /-- All thunks among the arguments can be evaluated, which adds the references in `owned`. -/
  forced : Arguments.force engine args w = .ok (values, owned) u
  passable : List.Forall₂ (Passable u.heap) s.args values

/-- A call does not pass a check, and this is the first one. -/
inductive Stops (engine : Engine) (s : Signature) (args : List Ref) (w : World) :
    Halt → World → Prop where
  /-- The signature has been freed. -/
  | freed (hs : s.resolved = false) :
    Stops engine s args w (.failure (.of .symbolNotFound (Signature.operation s.symbol)
      "resolved function" "freed signature")) w
  /-- The number of arguments is wrong. -/
  | count (hs : s.resolved = true) (hcount : args.length ≠ s.args.length) :
    Stops engine s args w (.failure (.of .arityMismatch (Signature.operation s.symbol)
      (Text.ofInt s.args.length ++ " arguments") (Text.ofNat args.length ++ " arguments"))) w
  /-- A thunk cannot be evaluated, after the arguments before it have been. What they added is
  given up if this is a failure. -/
  | thunk {before after values owned : List Ref} {arg : Ref} {u u' : World} {e : Halt}
      (hs : s.resolved = true) (hcount : args.length = s.args.length)
      (hargs : args = before ++ arg :: after)
      (hbefore : Arguments.force engine before w = .ok (values, owned) u)
      (hthunk : u.heap.isThunk arg = true) (hforce : Thunk.force engine arg u = .error e u') :
    Stops engine s args w e (if e.isFailure then u'.releaseAll owned else u')
  /-- All arguments have values, and this is the first one that cannot be passed. -/
  | argument {values owned earlier later : List Ref} {u : World} {fine others : List ForeignType}
      {t : ForeignType} {v : Ref} {e : Halt}
      (hs : s.resolved = true) (hcount : args.length = s.args.length)
      (hforced : Arguments.force engine args w = .ok (values, owned) u)
      (htypes : s.args = fine ++ t :: others) (hvalues : values = earlier ++ v :: later)
      (hfine : List.Forall₂ (Passable u.heap) fine earlier) (hbad : ¬Passable u.heap t v)
      (hobj : Objection u.heap (Signature.operation s.symbol) (fine.length + 1) t v e) :
    Stops engine s args w e (u.releaseAll owned)

/-- A call is made, with some values and in some world: how it ends is up to `crossing`. -/
def Reaches (engine : Engine) (s : Signature) (args : List Ref) (w : World) : Prop :=
  ∃ values u after, ∀ crossing,
    guarded engine s args crossing w = (crossing values).ensuring after u

section Call

variable {engine : Engine} {s : Signature} {args values owned : List Ref} {w w' u : World}
  {e : Halt}

/-- What is left of a call whose signature and number of arguments are right. -/
theorem guarded_eq (hs : s.resolved = true) (hcount : args.length = s.args.length)
    (crossing : List Ref → Run Ref) : guarded engine s args crossing w =
      Arguments.forcing engine args (fun values => do
        checkArguments (Signature.operation s.symbol) 1 s.args values
        crossing values) w := by
  have hexactly : Arguments.exactly (Signature.operation s.symbol) args s.args.length w =
      .ok () w := by
    simp only [Arguments.exactly, Arguments.checkCount, hcount, if_true]
    rfl
  unfold guarded
  simp only [hs, Bool.not_true, Bool.false_eq_true, if_false]
  exact bind_ok hexactly

theorem guarded_forced (hs : s.resolved = true) (hcount : args.length = s.args.length)
    (hforced : Arguments.force engine args w = .ok (values, owned) u)
    (crossing : List Ref → Run Ref) : guarded engine s args crossing w =
      (do checkArguments (Signature.operation s.symbol) 1 s.args values
          crossing values : Run Ref).ensuring (World.releaseAll owned) u := by
  rw [guarded_eq hs hcount]
  exact bind_ok hforced

/-- A call that passes all checks is made. -/
theorem Passes.guarded_eq (h : Passes engine s args w values owned u)
    (crossing : List Ref → Run Ref) : guarded engine s args crossing w =
      (crossing values).ensuring (World.releaseAll owned) u := by
  rw [guarded_forced h.resolved h.count h.forced]
  exact ensuring_congr (bind_ok (checkArguments_ok 1 h.passable))

/-- A call that does not pass a check ends there. -/
theorem Stops.guarded_eq (h : Stops engine s args w e w') (crossing : List Ref → Run Ref) :
    guarded engine s args crossing w = .error e w' := by
  cases h with
  | freed hs =>
    unfold guarded
    simp only [hs, Bool.not_false, if_true]
    rfl
  | count hs hcount =>
    have hne : ¬(args.length : Int) = (s.args.length : Int) := fun h => hcount (Int.ofNat.inj h)
    have hexactly : Arguments.exactly (Signature.operation s.symbol) args s.args.length w =
        .error (.failure (.of .arityMismatch (Signature.operation s.symbol)
          (Text.ofInt s.args.length ++ " arguments")
          (Text.ofNat args.length ++ " arguments"))) w := by
      simp only [Arguments.exactly, Arguments.checkCount, hne, if_false]
      rfl
    unfold guarded
    simp only [hs, Bool.not_true, Bool.false_eq_true, if_false]
    exact bind_error hexactly
  | thunk hs hcount hargs hbefore hthunk hforce =>
    rw [Foreign.guarded_eq hs hcount]
    refine bind_error ?_
    rw [hargs]
    unfold Arguments.force at hbefore ⊢
    rw [Arguments.forceAfter_append hbefore _, map_eq_error]
    exact Arguments.forceAfter_stop hthunk (onFailure_of_error hforce) _
  | argument hs hcount hforced htypes hvalues hfine hbad hobj =>
    rw [guarded_forced hs hcount hforced, htypes, hvalues]
    refine ensuring_error (bind_error (checkArguments_error 1 hfine ?_))
    rwa [Nat.add_comm]

/-- A call passes all checks, or there is a first one that it does not pass. -/
theorem passes_or_stops (engine : Engine) (s : Signature) (args : List Ref) (w : World) :
    (∃ values owned u, Passes engine s args w values owned u) ∨
      ∃ e w', Stops engine s args w e w' := by
  by_cases hs : s.resolved = true
  · by_cases hcount : args.length = s.args.length
    · cases hforced : Arguments.force engine args w with
      | ok p u =>
        obtain ⟨values, owned⟩ := p
        have hlength : values.length = s.args.length :=
          (Arguments.length_forceAfter hforced).trans hcount
        rcases passable_or_first u.heap hlength with
          hall | ⟨fine, t, others, earlier, v, later, htypes, hvalues, hfine, hbad⟩
        · exact .inl ⟨values, owned, u, hs, hcount, hforced, hall⟩
        · obtain ⟨e, hobj⟩ :=
            exists_objection u.heap (Signature.operation s.symbol) (fine.length + 1) hbad
          exact .inr ⟨e, _, .argument hs hcount hforced htypes hvalues hfine hbad hobj⟩
      | error e w' =>
        obtain ⟨before, arg, after, values, owned, u, hargs, hbefore, hstop, hothers⟩ :=
          Arguments.forceAfter_error hforced
        obtain ⟨u', hforce, -⟩ := onFailure_error hstop
        -- only a thunk can stop it
        have hthunk : u.heap.isThunk arg = true := by
          by_contra hplain
          have hok := hothers []
          rw [Arguments.forceAfter_append hbefore _, map_eq_error,
            Arguments.forceAfter_plain hplain, map_eq_error] at hok
          cases hok
        exact .inr ⟨e, _, .thunk hs hcount hargs hbefore hthunk hforce⟩
    · exact .inr ⟨_, w, .count hs hcount⟩
  · exact .inr ⟨_, w, .freed (Bool.eq_false_iff.2 hs)⟩

/-- A call that stops is not made: how it ends does not depend on the crossing. -/
theorem Stops.not_reaches (h : Stops engine s args w e w') : ¬Reaches engine s args w := by
  rintro ⟨values, u, after, hreach⟩
  have hpure := (h.guarded_eq fun _ => pure none).symm.trans (hreach fun _ => pure none)
  cases hpure

theorem reaches_iff : Reaches engine s args w ↔
    ∃ values owned u, Passes engine s args w values owned u := by
  constructor
  · intro hreach
    rcases passes_or_stops engine s args w with hpasses | ⟨e, w', hstops⟩
    · exact hpasses
    · exact absurd hreach hstops.not_reaches
  · rintro ⟨values, owned, u, hpasses⟩
    exact ⟨values, u, World.releaseAll owned, hpasses.guarded_eq⟩

end Call

/-- **A foreign call is guarded by its checks.** It is made if and only if the signature has not
been freed, the number of arguments is right, all thunks among them can be evaluated, and all values
can be passed. Otherwise it ends with the first of these checks that it does not pass, whatever the
call would have done.

What the evaluation of thunks has added is given up at the end of the call and on every failure. If
the caller owns the arguments in a world whose counts are exact, they are exact again after a
failure, and every call fails in a build without a bridge. -/
theorem crossing_guarded (engine : Engine) (s : Signature) (args : List Ref) (w : World) :
    (Reaches engine s args w ↔ ∃ values owned u, Passes engine s args w values owned u) ∧
    (¬Reaches engine s args w → ∃ e w', Stops engine s args w e w') ∧
    (∀ e w', Stops engine s args w e w' →
      ∀ crossing, guarded engine s args crossing w = .error e w') ∧
    (∀ values owned u, Passes engine s args w values owned u →
      (∀ crossing, guarded engine s args crossing w =
        (crossing values).ensuring (World.releaseAll owned) u) ∧
      invoke engine s args w = .error (.failure (.of .nativeCallFault
        (Signature.operation s.symbol) "native call bridge" noBridge)) (u.releaseAll owned)) ∧
    ∀ C, engine.Neutral → w.Exact C → Share.refs args ⊆ C →
      (∀ values owned u, Arguments.force engine args w = .ok (values, owned) u →
        u.conduct.Tidy → u.conduct.wrapped = false → u.Exact (Share.refs owned + C)) ∧
      ∀ f w', invoke engine s args w = .error (.failure f) w' →
        w'.conduct.Tidy → w'.conduct.wrapped = false → w'.Exact C := by
  refine ⟨reaches_iff, fun hnot => ?_, fun e w' => Stops.guarded_eq, ?_, ?_⟩
  · rcases passes_or_stops engine s args w with hpasses | hstops
    · exact absurd (reaches_iff.2 hpasses) hnot
    · exact hstops
  · intro values owned u hpasses
    exact ⟨hpasses.guarded_eq, hpasses.guarded_eq _⟩
  · intro C he hexact hargs
    obtain ⟨⟨P, hsound⟩, -⟩ := he
    have hbooks := hexact.books.cast (zero_add C)
    constructor
    · intro values owned u hforced htidy hwrapped
      have hforce : (Arguments.force engine args).Sound P C 0 w (fun p => Share.refs p.2) 0 :=
        Arguments.sound_forceAfter hsound [] hbooks (by simpa using hargs)
      exact (hforce.ok hforced).exact htidy hwrapped
    · intro f w' hfail htidy hwrapped
      have hinvoke : (invoke engine s args).Sound P C 0 w Share.ref 0 :=
        sound_invoke hsound hexact.books (by simpa using hargs)
      exact ((hinvoke.failed hfail).cast (zero_add C).symm).exact htidy hwrapped

/-- A scope, a thunk that gives an integer, an integer and one with 33 bits. -/
def integerArguments : List Client.Call :=
  [.scope none, .thunk (.expression (.atom ⟨.integer, "-7", ⟨1, 2⟩⟩)) (some ⟨0⟩),
    .constant (.integer 5), .constant (.integer 2147483648)]

/-- A function of two integers. -/
def maxSignature : Signature :=
  { symbol := "max", library := [], result := .integer, args := [.integer, .integer] }

/-- Whether both calls of the function fail, the first one only when it is made and the second one
before, with a clean record. -/
def bothCallsFail (s : Client.Holdings) : Bool :=
  match guarded (.ofDepth 1) maxSignature [some ⟨1⟩, some ⟨2⟩] (fun _ => pure none) s.world,
    invoke (.ofDepth 1) maxSignature [some ⟨1⟩, some ⟨2⟩] s.world,
    invoke (.ofDepth 1) maxSignature [some ⟨1⟩, some ⟨3⟩] s.world with
  | .ok none _, .error (.failure f₁) w₁, .error (.failure f₂) w₂ =>
    decide ((∀ x ∈ Share.refs [some ⟨1⟩, some ⟨2⟩], x ∈ s.owned) ∧
      (∀ x ∈ Share.refs [some ⟨1⟩, some ⟨3⟩], x ∈ s.owned) ∧
      s.world.conduct = {} ∧ w₁.conduct = {} ∧ w₂.conduct = {} ∧ f₁.kind = .nativeCallFault ∧
      f₂ = .of .argTypeMismatch "native max" "C int range for argument 2" "2147483648")
  | _, _, _ => false

theorem crossing_guarded_max : ∃ (s : Client.Holdings) (f : Failure) (w₁ w₂ : World),
    Client.Holdings.afterAll .none ⟨0, {}⟩ integerArguments = some s ∧ s.world.Exact s.owned ∧
    Reaches (.ofDepth 1) maxSignature [some ⟨1⟩, some ⟨2⟩] s.world ∧
    invoke (.ofDepth 1) maxSignature [some ⟨1⟩, some ⟨2⟩] s.world = .error (.failure f) w₁ ∧
    f.kind = .nativeCallFault ∧ w₁.Exact s.owned ∧
    ¬Reaches (.ofDepth 1) maxSignature [some ⟨1⟩, some ⟨3⟩] s.world ∧
    invoke (.ofDepth 1) maxSignature [some ⟨1⟩, some ⟨3⟩] s.world = .error (.failure (.of
      .argTypeMismatch "native max" "C int range for argument 2" "2147483648")) w₂ ∧
    w₂.Exact s.owned := by
  have hends :
      (Client.Holdings.afterAll .none ⟨0, {}⟩ integerArguments).any bothCallsFail = true := by
    decide +kernel
  obtain ⟨s, hrun, hends⟩ := Option.any_eq_true _ _ |>.mp hends
  unfold bothCallsFail at hends
  split at hends
  · next w₀ f₁ w₁ f₂ w₂ hmade hfault hrange =>
    obtain ⟨hfits, hlarge, hc, hc₁, hc₂, hkind, rfl⟩ := of_decide_eq_true hends
    have hbooks := (Client.Holdings.books_afterAll (C := 0) (Engine.sound_none False) hrun
      (World.Fresh.books ⟨rfl, rfl, rfl, rfl⟩)).1
    have hexact : s.world.Exact s.owned :=
      (hbooks.cast (add_zero _).symm).exact (by rw [hc]; exact ⟨rfl, rfl, rfl⟩) (by rw [hc])
    obtain ⟨hreaches, hstops, hsame, -, hcounts⟩ :=
      crossing_guarded (.ofDepth 1) maxSignature [some ⟨1⟩, some ⟨2⟩] s.world
    obtain ⟨hreaches', -, -, hfault', hcounts'⟩ :=
      crossing_guarded (.ofDepth 1) maxSignature [some ⟨1⟩, some ⟨3⟩] s.world
    refine ⟨s, f₁, w₁, w₂, hrun, hexact, ?_, hfault, hkind, ?_, ?_, hrange, ?_⟩
    · by_contra hnot
      obtain ⟨e, w', hstop⟩ := hstops hnot
      have herror := hsame e w' hstop fun _ => pure none
      rw [hmade] at herror
      cases herror
    · exact (hcounts s.owned (Engine.neutral_ofDepth 1) hexact hfits).2 f₁ w₁ hfault
        (by rw [hc₁]; exact ⟨rfl, rfl, rfl⟩) (by rw [hc₁])
    · intro hreach
      obtain ⟨values, owned, u, hpasses⟩ := hreaches'.1 hreach
      have hcall := (hfault' values owned u hpasses).2
      rw [hrange] at hcall
      cases hcall
    · exact (hcounts' s.owned (Engine.neutral_ofDepth 1) hexact hlarge).2 _ w₂ hrange
        (by rw [hc₂]; exact ⟨rfl, rfl, rfl⟩) (by rw [hc₂])
  · cases hends

/-- A pair that is its own right side, and a thunk with a value that cannot have one more owner. -/
def cyclicAndFull : World :=
  { heap := { Heap.initial with
      objects := #[⟨1, false, .emptyList⟩, ⟨2, false, .pair Heap.emptyList (some ⟨1⟩)⟩,
        ⟨maxCount, false, .constant (.integer 7)⟩,
        ⟨1, false, .thunk ⟨.expression (.atom ⟨.integer, "7", ⟨1, 1⟩⟩), .done (some ⟨2⟩)⟩⟩] } }

/-- The function of one integer. -/
def absSignature : Signature :=
  { symbol := "abs", library := [], result := .integer, args := [.integer] }

/-- Not every call that is not made fails. The written form of a pair that contains itself has no
end, and with it the check of the argument; and a thunk whose value cannot have one more owner
breaches the rules of counting. -/
theorem invoke_not_failure :
    invoke (.ofDepth 1) absSignature [some ⟨1⟩] cyclicAndFull = .error .exhausted cyclicAndFull ∧
    invoke (.ofDepth 1) absSignature [some ⟨3⟩] cyclicAndFull =
      .error (.breach Object.overflowBreach.text) cyclicAndFull := by
  constructor
  · have hforced : Arguments.force (.ofDepth 1) [some ⟨1⟩] cyclicAndFull =
        .ok ([some ⟨1⟩], []) cyclicAndFull := rfl
    have hcheck : checkArguments (Signature.operation "abs") 1 [.integer] [some ⟨1⟩] cyclicAndFull =
        .error .exhausted cyclicAndFull := rfl
    rw [invoke, guarded_forced rfl rfl hforced, ensuring_releaseAll_nil]
    exact bind_error hcheck
  · have hforced : Arguments.force (.ofDepth 1) [some ⟨3⟩] cyclicAndFull =
        .error (.breach Object.overflowBreach.text) cyclicAndFull := rfl
    rw [invoke, guarded_eq rfl rfl]
    exact bind_error hforced

end Foreign

end CountedLisp
