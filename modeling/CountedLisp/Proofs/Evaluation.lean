import CountedLisp.Eval.Basic
import CountedLisp.Proofs.Calls

/-!
# Evaluation is sound

The evaluator gives up every reference that it takes, whatever way an expression ends, and it is not
misled by anything destroyed. The argument is by recursion on the expression, like the evaluator
itself. `Engine.sound_ofDepth` puts the levels on top of each other: an engine of any depth is sound
for the code of programs, and so is a program.
-/

namespace CountedLisp

open Run

variable {C S B : Share} {w : World} {engine : Engine}

/-! ### Quoted data -/

theorem Token.noLoss_literal {t : Token} {e : Halt} (h : t.literal = .error e) :
    e.NoLoss := by
  obtain rfl | ⟨_, rfl⟩ := literal_error h
  · trivial
  · rfl

theorem Token.sound_evaluate (t : Token) {P : Prop} (hb : w.Books C) :
    t.evaluate.Sound P C S w Share.ref 0 :=
  (Reads.ofResult fun _ => noLoss_literal).bind (hb.cast (zero_add C)) fun _ =>
    Object.sound_constant _ hb

namespace Quotation

mutual
theorem sound_build (d : Datum) {P : Prop} {C : Share} {w : World} (hb : w.Books C) :
    (build d).Sound P C S w Share.ref 0 := by
  match d with
  | .atom t =>
    unfold build
    split
    · exact Object.sound_constant _ hb
    · exact t.sound_evaluate hb
  | .list items =>
    unfold build
    -- the items are owned until the list has become another owner of them
    refine (sound_buildAll [] items (hb.cast (zero_add C))).bind fun {objects w1} _ hb1 _ => ?_
    exact Sound.ensuring _ (Pair.sound_makeList hb1 Share.subset_owned)
termination_by structural d

theorem sound_buildAll (made : List Ref) (ds : List Datum) {P : Prop} {C : Share} {w : World}
    (hb : w.Books (Share.refs made + C)) :
    (buildAll made ds).Sound P C S w Share.refs 0 := by
  match ds with
  | [] => exact .pure hb
  | d :: ds =>
    unfold buildAll
    refine (Sound.onHalt (Handle.objects made) (sound_build d hb)).bind
      fun {o w1} _ hb1 _ => sound_buildAll (made ++ [o]) ds (hb1.cast ?_)
    rw [Share.refs_concat]
    rfl
termination_by structural ds
end

end Quotation

/-! ### Special forms -/

namespace Form

theorem reportsLoss_identifier {f : Form} {d : Datum} {e : Failure}
    (h : f.identifier d = .error e) : e.reportsLoss = false := by
  obtain rfl := identifier_error h
  rfl

theorem reportsLoss_identifiers {f : Form} {ds : List Datum} {e : Failure}
    (h : f.identifiers ds = .error e) : e.reportsLoss = false := by
  obtain ⟨_, -, rfl⟩ := identifiers_error h
  rfl

end Form

namespace Eval

theorem sound_atom {s : ScopeRef} (t : Token) {P : Prop} (hb : w.Books C)
    (hs : Share.scope s ⊆ S + C) : (atom s t).Sound P C S w Share.ref 0 := by
  have hb0 := hb.cast (zero_add C)
  unfold atom
  split
  · exact (Scope.reads_lookup t.lexeme hb (hb0.sees hs)).bind hb0 fun h =>
      Library.sound_retain hb (Scope.sees_lookup hb h)
  · exact t.sound_evaluate hb

/-! ### Conditions -/

theorem leads_knot (b : Bool) (c : Conduct) :
    c.Leads True { c with knotted := c.knotted || b } where
  applied := id
  orphaned := id
  reentered := id
  abandoned := id
  knotted h := by simp [h]
  wrapped := id
  spread := .inl
  plain h := absurd trivial h

theorem force_of_not_isThunk {r v : Ref} {w' : World} (hr : w.heap.isThunk r = false)
    (h : Thunk.force engine r w = .ok v w') : v = r := by
  rw [Thunk.force_eq_self hr] at h
  cases h
  rfl

theorem isThunk_of_leads {h h' : Heap} (hl : h.Leads h') {r : Ref} (hr : h.isThunk r = true) :
    h'.isThunk r = true := by
  rw [Thunk.isThunk_eq, Option.isSome_iff_exists] at hr ⊢
  obtain ⟨⟨id, o, t⟩, hf⟩ := hr
  obtain ⟨rfl, ho, ht⟩ := Thunk.find?_eq_some hf
  obtain ⟨o', t', hf'⟩ := Thunk.find?_of_leads hl ho ht
  exact ⟨_, hf'⟩

/-- The books when a condition has been evaluated: condition and value are owned, and count once if
they are the same. A thunk that is its own value is owned twice, so that this loses a reference. -/
theorem books_condition {condition forced : Ref} {thunk : Bool}
    (hb : w.Books ((if thunk then Share.ref forced else 0) + (Share.ref condition + C)))
    (hthunk : thunk = true → w.heap.isThunk condition = true)
    (hvalue : thunk = false → forced = condition) :
    (noteCondition condition forced w).Books
      (Share.refs (if forced = condition then [condition] else [condition, forced]) + C) := by
  have hnote : (noteCondition condition forced w).Books _ := hb.note (leads_knot _ w.conduct)
  cases thunk with
  | false =>
    rw [if_pos (hvalue rfl)]
    exact hnote.cast (by simp)
  | true =>
    split
    · next heq =>
      -- a thunk that is its own value: it is owned twice but given up once
      refine (World.Books.lose (D := Share.ref forced) (hnote.cast (by simp)) fun ht => ?_)
      have := ht.knotted
      simp [noteCondition, World.note, hthunk rfl, heq] at this
    · exact hnote.cast (by simp [add_assoc, add_left_comm])

/-- **What a condition selects.** Condition and value are owned until the end. -/
theorem sound_branch (he : engine.Sound True) {condition : Ref} {next : Bool → Run Ref}
    (hb : w.Books (Share.ref condition + C))
    (hnext : ∀ (b : Bool) {H : Share} {w' : World}, w'.Books (H + C) →
      (next b).Sound True (H + C) S w' Share.ref 0) :
    (branch engine condition next).Sound True C S w Share.ref 0 := by
  have hforce := Thunk.sound_force (S := S) (r := condition) he hb Share.subset_owned
  refine (Sound.onFailure (Handle.objects [condition]) hforce).bind
    fun {forced w1} h1 hb1 hl1 => ?_
  have hcond := books_condition (hb1.cast (add_assoc _ _ _).symm) (isThunk_of_leads hl1.heap)
    fun hr => force_of_not_isThunk hr (onFailure_ok h1)
  refine Sound.bind (G := fun _ => Share.refs (if forced = condition then [condition]
    else [condition, forced])) (.modify ⟨.refl _, rfl, leads_knot _ _⟩ hcond
      (fun _ u hm _ _ _ => { hm with }) fun _ _ _ => rfl) fun {_ w2} _ hb2 _ => ?_
  dsimp only
  -- a condition that is its own value is given up once
  generalize hboth : (if forced = condition then [condition] else [condition, forced]) = both
    at hb2 ⊢
  have hmem : forced ∈ both := by
    rw [← hboth]
    split
    · next heq => simp [heq]
    · simp
  refine Sound.ensuring (Handle.objects both) ?_
  have hsees : w2.Sees S (Share.ref forced) := hb2.sees_of_subset fun x hx =>
    Multiset.mem_add.mpr (.inl (Share.mem_refs.mpr ⟨forced, hmem, hx⟩))
  exact (Object.reads_truthy hsees).bind (hb2.cast (zero_add _)) fun _ => hnext _ hb2

/-- The next value of a sequence. -/
theorem sound_replace {P : Prop} {result : Ref} {next : Run Ref}
    (h : next.Sound P (Share.ref result + C) S w Share.ref 0) :
    (replace result next).Sound P C S w Share.ref 0 := by
  refine (Sound.onFailure (Handle.objects [result]) h).bind fun {v w1} _ hb1 _ => ?_
  have hrelease : (Object.release result).Sound P C S w1 (fun _ => Share.ref v) 0 :=
    sound_drop (hb1.cast (by rw [add_left_comm, ← add_assoc]))
  exact hrelease.bind fun _ hb2 _ => .pure hb2

/-! ### Expressions -/

mutual
/-- **The value of an expression** in a scope that is lent or owned. -/
theorem sound_eval (he : engine.Sound True) {s : ScopeRef} (d : Datum) {C : Share} {w : World}
    (hb : w.Books C) (hs : Share.scope s ⊆ S + C) :
    (eval engine s d).Sound True C S w Share.ref 0 := by
  match d with
  | .atom t => exact sound_atom t hb hs
  | .list [] => exact .pure hb.emptyList
  | .list (head :: operands) =>
    unfold eval
    split
    · exact sound_form he _ operands hb hs
    · -- function and arguments are owned until the call has ended, so that they can be lent
      refine (sound_eval he head hb hs).bind fun {f w1} _ hb1 _ => ?_
      refine Sound.ensuring (Handle.objects [f]) ?_
      refine (sound_evalAll he [] operands (hb1.cast (zero_add _))
        (Share.subset_frame hs)).bind fun {args w2} _ hb2 _ => ?_
      refine Sound.ensuring (Handle.objects args) (Procedure.sound_call he hb2 ?_)
      rw [Share.refs_cons, Share.add_subset]
      exact ⟨Share.subset_frame Share.subset_owned, Share.subset_owned⟩
termination_by structural d

theorem sound_evalAll (he : engine.Sound True) {s : ScopeRef} (args : List Ref) (ds : List Datum)
    {C : Share} {w : World} (hb : w.Books (Share.refs args + C)) (hs : Share.scope s ⊆ S + C) :
    (evalAll engine s args ds).Sound True C S w Share.refs 0 := by
  match ds with
  | [] => exact .pure hb
  | d :: ds =>
    unfold evalAll
    refine (Sound.onHalt (Handle.objects args)
      (sound_eval he d hb (Share.subset_frame hs))).bind fun {v w1} _ hb1 _ =>
        sound_evalAll he (args ++ [v]) ds (hb1.cast ?_) hs
    rw [Share.refs_concat]
    rfl
termination_by structural ds

theorem sound_evalLast (he : engine.Sound True) {s : ScopeRef} (result : Ref) (ds : List Datum)
    {C : Share} {w : World} (hb : w.Books (Share.ref result + C)) (hs : Share.scope s ⊆ S + C) :
    (evalLast engine s result ds).Sound True C S w Share.ref 0 := by
  match ds with
  | [] => exact .pure hb
  | d :: ds =>
    unfold evalLast
    exact (sound_replace (sound_eval he d hb (Share.subset_frame hs))).bind fun {v _} _ hb1 _ =>
      sound_evalLast he v ds hb1 hs
termination_by structural ds

theorem sound_form (he : engine.Sound True) {s : ScopeRef} (f : Form) (operands : List Datum)
    {C : Share} {w : World} (hb : w.Books C) (hs : Share.scope s ⊆ S + C) :
    (form engine s f operands).Sound True C S w Share.ref 0 := by
  have hb0 := hb.cast (zero_add C)
  match f, operands with
  | .quote, [d] => exact Quotation.sound_build d hb
  | .define, [target, d] =>
    refine (Reads.ofExcept fun _ => Form.reportsLoss_identifier).bind hb0 fun {name} _ => ?_
    refine (sound_eval he d hb hs).bind fun {v w1} _ hb1 _ => ?_
    refine Sound.ensuring (Handle.objects [v]) ?_
    exact (Scope.sound_bind hb1 (Share.subset_frame hs) Share.subset_owned).bind fun _ hb2 _ =>
      Library.sound_nothing (hb2.cast (zero_add _).symm)
  | .assign, [target, d] =>
    refine (Reads.ofExcept fun _ => Form.reportsLoss_identifier).bind hb0 fun {name} _ => ?_
    refine (sound_eval he d hb hs).bind fun {v w1} _ hb1 _ => ?_
    exact Sound.ensuring (Handle.objects [v])
      (Scope.sound_assign hb1 (Share.subset_frame hs) Share.subset_owned)
  | .lambda, .list params :: d :: body =>
    exact (Reads.ofExcept fun _ => Form.reportsLoss_identifiers).bind hb0 fun _ =>
      Procedure.sound_close hb (hb0.sees hs)
  | .delay, [d] => exact Thunk.sound_make hb (hb0.sees hs)
  | .conditional, [c, a] =>
    refine (sound_eval he c hb hs).bind fun {v w1} _ hb1 _ =>
      sound_branch he hb1 fun b _ _ hb2 => ?_
    cases b with
    | true => exact sound_eval he a hb2 (Share.subset_frame hs)
    | false => exact Library.sound_nothing hb2
  | .conditional, [c, a, b] =>
    refine (sound_eval he c hb hs).bind fun {v w1} _ hb1 _ =>
      sound_branch he hb1 fun t _ _ hb2 => ?_
    cases t with
    | true => exact sound_eval he a hb2 (Share.subset_frame hs)
    | false => exact sound_eval he b hb2 (Share.subset_frame hs)
  | .sequence, [] => exact Library.sound_nothing hb
  | .sequence, d :: ds =>
    refine (Library.sound_nothing hb).bind fun {start w1} _ hb1 _ => ?_
    exact (sound_replace (sound_eval he d hb1 (Share.subset_frame hs))).bind fun {v _} _ hb2 _ =>
      sound_evalLast he v ds hb2 hs
  -- forms with the wrong number or kind of operands fail before anything is evaluated
  | .quote, [] | .quote, _ :: _ :: _ => exact .fail hb0 fun _ _ _ => rfl
  | .define, [] | .define, [_] | .define, _ :: _ :: _ :: _ => exact .fail hb0 fun _ _ _ => rfl
  | .assign, [] | .assign, [_] | .assign, _ :: _ :: _ :: _ => exact .fail hb0 fun _ _ _ => rfl
  | .lambda, [] | .lambda, [.atom _] | .lambda, [.list _] | .lambda, .atom _ :: _ :: _ =>
    exact .fail hb0 fun _ _ _ => rfl
  | .delay, [] | .delay, _ :: _ :: _ => exact .fail hb0 fun _ _ _ => rfl
  | .conditional, [] | .conditional, [_] | .conditional, _ :: _ :: _ :: _ :: _ =>
    exact .fail hb0 fun _ _ _ => rfl
termination_by structural operands
end

theorem sound_code (he : engine.Sound True) {s : ScopeRef} (c : Code) (hb : w.Books C)
    (hs : Share.scope s ⊆ S + C) : (code engine c s).Sound True C S w Share.ref 0 := by
  cases c with
  | expression d => exact sound_eval he d hb hs
  | sequence body =>
    exact (Library.sound_nothing hb).bind fun {start _} _ hb1 _ =>
      sound_evalLast he start body hb1 hs

end Eval

/-! ### Engines -/

namespace Engine

theorem sound_none (P : Prop) : Engine.none.Sound P where
  run _ _ hb := .halt trivial rfl (hb.cast (zero_add _))
  call _ _ hb := .halt trivial rfl (hb.cast (zero_add _))

/-- **Programs are sound**, however deep their calls and thunks are nested. -/
theorem sound_ofDepth (n : Nat) : (ofDepth n).Sound True := by
  induction n with
  | zero => exact sound_none True
  | succ n ih =>
    exact ⟨fun code s hb => Eval.sound_code ih code hb
        (Multiset.subset_of_le (Multiset.le_add_right _ _)),
      fun f args hb => Procedure.sound_call ih hb
        (Multiset.subset_of_le (Multiset.le_add_right _ _))⟩

end Engine

end CountedLisp
