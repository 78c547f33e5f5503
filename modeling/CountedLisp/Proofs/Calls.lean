import CountedLisp.Eval.Call
import CountedLisp.Proofs.Library

/-!
# Calls are sound

Calling is sound if going one level deeper is: function and arguments are lent or owned by the
caller. A function of the program keeps the scopes of its calls, so that the scope of a call lives
as long as the function is lent.

A call that takes its arguments out of a list is the exception: nobody lends the items, and nothing
keeps them but the list. `Procedure.sound_spread` rests on the record of conduct for that they lived
to the end of the call.
-/

namespace CountedLisp

open Run

variable {P : Prop} {C S B : Share} {w w' : World} {engine : Engine} {args : List Ref}

/-- What is lent or owned is so while more is owned. -/
theorem Share.subset_frame {D H : Share} (h : D ⊆ S + C) : D ⊆ S + (H + C) := fun x hx => by
  rcases Multiset.mem_add.mp (h hx) with h | h <;> simp [h]

theorem Share.subset_owned {D : Share} : D ⊆ S + (D + C) := fun x hx => by simp [hx]

namespace Procedure

/-! ### Functions of the program -/

theorem sound_close {params : List Text} {strict : Bool} {body : List Datum} {s : ScopeRef}
    (hb : w.Books C) (hs : w.Sees S (Share.scope s)) :
    (close params strict body s).Sound P C S w Share.ref B := by
  refine (Scope.sound_retain (hb.cast (zero_add C)) hs).bind fun {v w1} _ hb1 _ => ?_
  let c : Closure := { params := params, strict := strict, body := body, scope := v, calls := [] }
  have hmake := Object.sound_make (P := P) (S := S) (T := 0) (C := C) (B := B)
    (p := .lambda (.user c)) rfl (hb1.cast (by simp [c]))
  simpa using hmake

theorem sound_bindAll {s : ScopeRef} {names : List Text} (hb : w.Books C)
    (hs : Share.scope s ⊆ S + C) (ha : Share.refs args ⊆ S + C) :
    (bindAll s names args).Sound P C S w (fun _ => 0) 0 := by
  induction names generalizing args w with
  | nil => exact .pure (hb.cast (zero_add C))
  | cons name names ih =>
    cases args with
    | nil => exact .pure (hb.cast (zero_add C))
    | cons arg args =>
      rw [Share.refs_cons, Share.add_subset] at ha
      exact (Scope.sound_bind hb hs ha.1).bind fun _ hb1 _ =>
        ih (hb1.cast (zero_add C).symm) ha.2

theorem addCall_user {h : Heap} {id : ObjectId} {o : Object} {c : Closure} (s : ScopeId)
    (ho : h.object? id = some o) (hp : o.payload = .lambda (.user c)) :
    addCall id s h = h.setObject id
      { o with payload := .lambda (.user { c with calls := s :: c.calls }) } := by
  simp only [addCall, ho, hp]

/-- A living function takes over the reference to the scope of a call. -/
theorem passes_addCall {h : Heap} {id : ObjectId} {o : Object} {c : Closure} (s : ScopeId)
    (ho : h.object? id = some o) (hd : o.dead = false) (hp : o.payload = .lambda (.user c)) :
    h.Passes (addCall id s h) (Share.scope (some s)) 0 := by
  rw [addCall_user s ho hp]
  refine .setPayload ho hd (by rw [hp]; rfl) (fun _ => nofun) (fun s' hs' => ?_) ?_
  · rw [hp, Share.owned_user] at hs'
    refine fun x hx => ?_
    have := hs' hx
    simp only [Multiset.mem_add, Multiset.mem_coe] at this
    simp only [Share.owned_user, Multiset.mem_add, Multiset.mem_coe, List.map_cons, List.mem_cons]
    rcases this with h | h <;> simp [h]
  · rw [hp, zero_add, Share.owned_user, Share.owned_user, List.map_cons, ← Multiset.cons_coe,
      Multiset.cons_add]
    rfl

theorem mirrors_addCall {h k : Heap} (hm : h.Mirrors k) {id : ObjectId} {o : Object} {c : Closure}
    (s : ScopeId) (ho : h.object? id = some o) (hd : o.dead = false)
    (hp : o.payload = .lambda (.user c)) : (addCall id s h).Mirrors (addCall id s k) := by
  obtain ⟨n, hn⟩ := hm.object ho hd
  rw [addCall_user s ho hp, addCall_user s hn hp]
  exact hm.setObject ho _ rfl

/-- The function holds the scope of its call. -/
theorem holds_addCall {h : Heap} {id : ObjectId} {o : Object} {c : Closure} (s : ScopeId)
    (ho : h.object? id = some o) (hp : o.payload = .lambda (.user c)) :
    (addCall id s h).Holds ⟨id, some s⟩ := by
  rw [addCall_user s ho hp]
  refine ⟨_, Heap.object?_setObject_self _ ho, fun _ => ⟨fun x hx => ?_, fun t => nofun⟩⟩
  simp only [Share.owned_user, List.map_cons, Multiset.mem_add, Multiset.mem_coe, List.mem_cons]
  rw [Share.scope_some, Multiset.mem_singleton] at hx
  exact .inl (.inl hx)

theorem logs_traceCall (s : ScopeId) (n : Nat) (w : World) :
    ∃ l, traceCall s n w = .ok ⟨⟩ { w with log := l } := by
  unfold traceCall
  rw [get_bind]
  split
  · exact Sound.logs_traceScope _ _ w
  · exact ⟨w.log, rfl⟩

/-- **A call of a function of the program**, which is lent or owned like its arguments. -/
theorem sound_callUser (he : engine.Sound P) {id : ObjectId} {o : Object} {c : Closure}
    (hb : w.Books C) (hid : .object id ∈ S + C) (ha : Share.refs args ⊆ S + C)
    (ho : w.heap.object? id = some o) (hd : o.dead = false)
    (hp : o.payload = .lambda (.user c)) :
    (callUser engine id c args).Sound P C S w Share.ref 0 := by
  -- the function lives and owns the scope that it was made in
  have hscope : w.Sees S (Share.scope c.scope) :=
    (hb.sees_owned S (r := some id) ho hd).mono fun x hx => by simp [hp, Share.owned_user, hx]
  refine (Scope.sound_make (hb.cast (zero_add C)) hscope).bind fun {s w1} h1 hb1 _ => ?_
  unfold callIn
  -- making the scope of the call does not touch the function, which takes the scope over
  have ho1 : w1.heap.object? id = some o := (Scope.make_object? h1 id).trans ho
  refine (sound_modifyHeap (passes_addCall s ho1 hd hp) (hb1.cast (by simp))
    fun _ u hm _ _ => mirrors_addCall hm.heap s ho1 hd hp).bind fun {_ w2} h2 hb2 _ => ?_
  cases h2
  obtain ⟨l, hl⟩ := logs_traceCall s (c.calls.length + 1) { w1 with heap := addCall id s w1.heap }
  refine (Sound.logs (logs_traceCall s _) (G := fun _ => 0) hb2).bind fun {_ w3} h3 hb3 _ => ?_
  rw [hl] at h3
  cases h3
  -- from here on the scope of the call is lent by the function
  refine .within hb3 (fun _ => holds_addCall s ho1 hp) hid fun hb4 => ?_
  refine (Reads.ofExcept fun _ => Arguments.reportsLoss_checkCount).bind hb4 fun _ => ?_
  have hargs : Share.refs args ⊆ Share.scope (some s) + S + C := fun x hx => by
    rcases Multiset.mem_add.mp (ha hx) with h | h <;> simp [h]
  refine (sound_bindAll (hb4.cast (zero_add C).symm) (fun x hx => by simp [hx]) hargs).bind
    fun {_ w5} _ hb5 _ => ?_
  exact (he.run _ _ (hb5.cast (zero_add C).symm)).relax hb5 fun x hx => by simp [hx]

/-! ### Calls that take their arguments out of a list -/

theorem leads_spread (P : Prop) (b : Bool) (c : Conduct) :
    c.Leads P { c with applied := true, orphaned := c.orphaned || b } where
  applied _ := rfl
  orphaned h := by simp [h]
  reentered := id
  abandoned := id
  knotted := id
  wrapped := id
  spread _ := .inr rfl
  plain _ := rfl

theorem lives_of_isAlive {h : Heap} {id : ObjectId} (hid : h.isAlive (some id) = true) :
    h.Lives (.object id) := by
  unfold Heap.isAlive at hid
  split at hid
  · next o ho => exact ⟨o, ho, by simpa using hid⟩
  · cases hid

/-- If nothing was left without owner, what the call used has lived to its end. -/
theorem keeps_of_noteSpread {refs : List Ref} (h : (noteSpread refs w).conduct.orphaned = false) :
    w.heap.Keeps (Share.refs refs) := by
  intro x hx
  obtain ⟨r, hr, hx⟩ := Share.mem_refs.mp hx
  obtain ⟨id, rfl, rfl⟩ := Share.mem_ref.mp hx
  have hany : (refs.any fun r => r.isSome && !w.heap.isAlive r) = false :=
    (Bool.or_eq_false_iff.mp h).2
  have := List.any_eq_false.mp hany (some id) hr
  simp only [Option.isSome_some, Bool.true_and, Bool.not_eq_true', Bool.not_eq_false] at this
  exact lives_of_isAlive this

/-- **A call with arguments out of a list.** The items are not owned by anyone but the list. -/
theorem sound_spread (he : engine.Sound P) {f : Ref} (hb : w.Books C)
    (ha : Share.refs (f :: args) ⊆ S + C) : (spread engine f args).Sound P C S w Share.ref 0 := by
  have hb0 := hb.cast (zero_add C)
  have hf : Share.ref f ⊆ S + C := fun x hx => ha (by simp [hx])
  simp only [spread, Pair.if_isList_eq]
  refine .get_bind ?_ fun _ u hm ht hS => by rw [hm.heap.hasTag (hb0.sees hf ht hS)]
  split
  · cases hlast : args.getLast? with
    | none => exact .fail hb0 fun _ _ _ => rfl
    | some last =>
      have hmem : Share.ref last ⊆ S + C := fun x hx => ha (Share.mem_refs.mpr
        ⟨last, List.mem_cons_of_mem f (List.mem_of_getLast? hlast), hx⟩)
      refine (Pair.reads_items? hb (hb0.sees hmem)).bind hb0 fun {items} hi => ?_
      cases items with
      | none => exact Object.sound_mismatch hb0 (hb0.sees hmem) rfl
      | some items =>
        -- the call is made as if function and arguments were lent to it
        have hcall := he.call f (args.dropLast ++ items) hb
        have hnote : ∀ w' : World, w'.Leads P (noteSpread (f :: (args.dropLast ++ items)) w') :=
          fun w' => ⟨.refl _, rfl, leads_spread P _ _⟩
        refine hcall.ensuring_of hnote (fun hb' => hb'.note (leads_spread P _ _))
          (fun _ ht hk _ => ⟨?_, keeps_of_noteSpread ht.orphaned⟩) (fun hm => { hm with })
          (fun ht _ => (keeps_of_noteSpread ht.orphaned).spares) fun _ => rfl
        -- at the beginning the list owns the items
        have ht0 := (hcall.leads.trans (hnote _)).conduct.tame ht
        have hlead : Share.refs (f :: args.dropLast) ⊆ S + C := fun x hx => ha (by
          obtain ⟨r, hr, hx⟩ := Share.mem_refs.mp hx
          exact Share.mem_refs.mpr ⟨r, List.cons_subset_cons f (List.dropLast_subset args) hr, hx⟩)
        rw [← List.cons_append, Share.refs_append, Heap.keeps_add]
        exact ⟨hb0.sees hlead ht0 hk, Pair.sees_items? hb hi ht0 hk⟩
  · exact Object.sound_mismatch hb0 (hb0.sees hf) rfl

/-! ### The library -/

theorem leads_apply (P : Prop) (c : Conduct) : c.Leads P { c with applied := true } where
  applied _ := rfl
  orphaned := id
  reentered := id
  abandoned := id
  knotted := id
  wrapped := id
  spread := .inl
  plain _ := rfl

theorem sound_callLibrary (he : engine.Sound P) (f : Builtin) (hb : w.Books C)
    (ha : Share.refs args ⊆ S + C) : (callLibrary engine f args).Sound P C S w Share.ref 0 := by
  have hb0 := hb.cast (zero_add C)
  cases f with
  | list => exact Arguments.sound_forcing he hb ha Pair.sound_makeList
  | cons =>
    exact Arguments.sound_forcing he hb ha fun hb' hv => Library.sound_two hb' hv fun hl hr =>
      Pair.sound_make hb' (Share.add_subset.mpr ⟨hl, hr⟩)
  | vector => exact Arguments.sound_forcing he hb ha Slots.sound_make
  | isPromise => exact Library.sound_isPromise hb ha
  | force => exact Library.sound_force he hb ha
  | apply =>
    -- the only function of the library that is noted in the record of conduct
    refine (Sound.note (G := fun _ => 0) (g := fun _ c => { c with applied := true })
      (fun _ => ⟨_, rfl⟩) (leads_apply P w.conduct) rfl hb0).bind fun {_ w1} _ hb1 _ => ?_
    refine Arguments.sound_forcing he (hb1.cast (zero_add C).symm) ha fun {values H w'} hb' hv => ?_
    refine (Arguments.reads_atLeast "apply" values 2).bind (hb'.cast (zero_add _)) fun _ => ?_
    cases values with
    | nil => exact Library.sound_nothing hb'
    | cons f rest => exact sound_spread he hb' hv
  | native =>
    exact (Arguments.reads_atLeast "native" args 3).bind hb0 fun _ =>
      Arguments.sound_forcing he hb ha Foreign.sound_describeFunction
  | less =>
    exact (Arguments.reads_exactly "<" args 2).bind hb0 fun _ =>
      Arguments.sound_forcing he hb ha Library.sound_comparison
  | equal =>
    exact (Arguments.reads_exactly "=" args 2).bind hb0 fun _ =>
      Arguments.sound_forcing he hb ha Library.sound_comparison
  | not =>
    exact (Arguments.reads_exactly "not" args 1).bind hb0 fun _ =>
      Arguments.sound_forcing he hb ha Library.sound_negation
  | car => exact Arguments.sound_forcing he hb ha Library.sound_car
  | cdr => exact Arguments.sound_forcing he hb ha Library.sound_cdr
  | setCar => exact Arguments.sound_forcing he hb ha Library.sound_setCar
  | setCdr => exact Arguments.sound_forcing he hb ha Library.sound_setCdr
  | length => exact Arguments.sound_forcing he hb ha Library.sound_length
  | listRef => exact Arguments.sound_forcing he hb ha Library.sound_listRef
  | isList => exact Arguments.sound_forcing he hb ha Library.sound_isList
  | vectorRef => exact Arguments.sound_forcing he hb ha Library.sound_vectorRef
  | vectorLength => exact Arguments.sound_forcing he hb ha Library.sound_vectorLength
  | isNumber => exact Arguments.sound_forcing he hb ha Library.sound_isNumber
  | plus | times | minus | quotient =>
    exact Arguments.sound_forcing he hb ha Library.sound_arithmetic
  | display => exact Arguments.sound_forcing he hb ha Library.sound_display
  | isPair | isNull | isVector | isInteger | isDouble | isChar | isString | isBoolean
  | isProcedure => exact Arguments.sound_forcing he hb ha Library.sound_isOfType

/-! ### Calls -/

/-- **A call** of something that is lent or owned, with such arguments. -/
theorem sound_call (he : engine.Sound P) {f : Ref} (hb : w.Books C)
    (ha : Share.refs (f :: args) ⊆ S + C) : (call engine f args).Sound P C S w Share.ref 0 := by
  have hb0 := hb.cast (zero_add C)
  rw [Share.refs_cons, Share.add_subset] at ha
  refine .get_bind ?_ fun _ u hm ht hS => ?_
  · split
    · next id refs p ho =>
      -- a function of the program, of the library, a foreign one, and no function at all
      split
      · exact sound_callUser he hb (ha.1 (by simp [Share.ref_some])) ha.2 ho rfl rfl
      · exact sound_callLibrary he _ hb ha.2
      · exact Foreign.sound_invoke he hb ha.2
      · exact .halt trivial rfl hb0
    · exact Object.sound_mismatch hb0 (hb0.sees ha.1) rfl
  · obtain ⟨h1, h2⟩ | ⟨o, n, h1, -, h2⟩ := hm.heap.get? (hb0.sees ha.1 ht hS)
    · simp only [h1, h2]
    · obtain ⟨refs, dead, payload⟩ := o
      simp only [h1, h2]
      cases f <;> cases dead <;> cases payload <;> rfl

end Procedure

end CountedLisp
