import CountedLisp.Proofs.Conditions
import CountedLisp.Proofs.ScopeStack

/-!
# Truth

Everything is true or false except for a thunk, so that a thunk is evaluated before a program
decides anything by it. It is evaluated once, which is enough if the value is plain: no thunk again.

`World.Plain` says that all values that thunks have are plain, unless it has been noted that some
value was not. Whatever is run keeps this (`World.elementary_keepsPlain`), since thunks are made
without values and get them only where the note is taken. So the failure of deciding by a thunk
cannot come up as long as there is no such note: `Run.Frank` says this of a run, and all runs that
are built from the operations on the store are frank, down to whole lines.
-/

namespace CountedLisp

open Run

/-! ### Plain values -/

namespace Heap

variable {h h' : Heap} {r : Ref}

theorem isPlain_some_iff {id : ObjectId} :
    h.isPlain (some id) = true ↔ ∃ o, h.object? id = some o ∧ o.tag ≠ .evaluable := by
  simp [isPlain, Option.any_eq_true]

/-- What is plain stays plain. -/
theorem isPlain_of_leads (hl : h.Leads h') (hr : h.isPlain r = true) : h'.isPlain r = true := by
  cases r with
  | none => rfl
  | some id =>
    obtain ⟨o, ho, ht⟩ := isPlain_some_iff.mp hr
    obtain ⟨o', ho', htag, -⟩ := hl.object ho
    exact isPlain_some_iff.mpr ⟨o', ho', htag ▸ ht⟩

theorem not_isThunk_of_isPlain (hr : h.isPlain r = true) : h.isThunk r = false := by
  cases r with
  | none => rfl
  | some id =>
    obtain ⟨o, ho, ht⟩ := isPlain_some_iff.mp hr
    refine Bool.eq_false_iff.mpr fun hthunk => ?_
    obtain ⟨o', ho', ht'⟩ := isThunk_iff.mp hthunk
    obtain rfl : o = o' := Option.some.inj (ho.symm.trans ho')
    exact ht ht'

/-- The values that thunks have are plain. -/
def Plain (h : Heap) : Prop :=
  ∀ id o t v, h.object? id = some o → o.payload = .thunk t → t.progress = .done v →
    h.isPlain v = true

theorem plain_initial : Heap.initial.Plain := by
  intro id o t v ho ht
  rw [object?_initial ho] at ht
  cases ht

/-- Values stay plain as long as no thunk gets one. -/
theorem Plain.tends (hp : h.Plain) (ht : h.Tends h') : h'.Plain := by
  intro id o' t' v ho' ht' hv
  cases ho : h.object? id with
  | none =>
    have hfresh := ht.fresh ho ho'
    rw [Payload.isFresh_eq_false_iff.mpr ⟨t', v, ht', hv⟩] at hfresh
    cases hfresh
  | some o =>
    obtain ⟨o₁, ho₁, hx⟩ := ht.object ho
    obtain rfl : o₁ = o' := Option.some.inj (ho₁.symm.trans ho')
    obtain ⟨t, u, hto, hu, rfl | rfl⟩ := hx.of_done ht' hv
    · exact isPlain_of_leads ht.leads (hp id o t v ho hto hu)
    · rfl

/-- What a thunk keeps as its value is plain. -/
theorem Plain.isPlain_value (hp : h.Plain) (r : Ref) : h.isPlain (Thunk.value h r) = true := by
  unfold Thunk.value
  split
  · next hfind =>
    obtain ⟨-, ho, ht⟩ := Thunk.find?_eq_some hfind
    exact hp _ _ _ _ ho ht rfl
  · rfl

end Heap

/-- The values that thunks have are plain, unless it is noted that some value was not. -/
def World.Plain (w : World) : Prop :=
  w.nested = false → w.heap.Plain

/-- The note stays, and without it so do plain values. -/
structure World.KeepsPlain (w w' : World) : Prop where
  nested : w.nested = true → w'.nested = true
  plain : w.Plain → w'.Plain

instance : IsPreorder World World.KeepsPlain where
  refl _ := ⟨id, id⟩
  trans _ _ _ h1 h2 := ⟨h2.nested ∘ h1.nested, h2.plain ∘ h1.plain⟩

namespace World.KeepsPlain

variable {w w' : World}

theorem of_tends (h : w.Tends w') : w.KeepsPlain w' where
  nested hn := h.nested.trans hn
  plain hw hn := (hw (h.nested.symm.trans hn)).tends h.heap

theorem drop (work : List Handle) (w : World) : w.KeepsPlain (w.drop work) :=
  of_tends (.drop work w)

end World.KeepsPlain

namespace Thunk

variable {engine : Engine} {w w' : World}

/-- A value that is not plain is noted. -/
theorem keepsPlain_keep {id : ObjectId} {o : Object} {t : Thunk} (ho : w.heap.object? id = some o)
    (ht : o.payload = .thunk t) (value : Ref) : w.KeepsPlain (keep id o t value w) where
  nested hn := by
    show (w.nested || _) = true
    rw [hn, Bool.true_or]
  plain hw hn := by
    obtain ⟨hn, hvalue⟩ : w.nested = false ∧ (!w.heap.isPlain value) = false :=
      Bool.or_eq_false_iff.mp hn
    have hleads : w.heap.Leads (keep id o t value w).heap :=
      .setObject ho (by rw [Object.tag, Object.tag, ht]; rfl) fun hd => hd
    intro id' o' t' v ho' ht' hv
    refine Heap.isPlain_of_leads hleads ?_
    rcases Heap.object?_setObject_cases ho ho' with ⟨-, rfl⟩ | ⟨-, hold⟩
    · cases ht'
      cases hv
      exact Bool.not_eq_eq_eq_not.mp hvalue
    · exact hw hn id' o' t' v hold ht' hv

theorem keepsPlain_settle (r value : Ref) (w : World) : w.KeepsPlain (settle r value w) := by
  unfold settle
  split
  · exact refl w
  · next hfind =>
    obtain ⟨-, ho, ht⟩ := find?_eq_some hfind
    have hkeep := keepsPlain_keep ho ht value
    split
    · exact IsTrans.trans _ _ _ hkeep (.drop _ _)
    · exact hkeep

theorem keepsPlain_force (he : engine.Respects World.KeepsPlain) (r : Ref) :
    (force engine r).Respects World.KeepsPlain := by
  refine .reading fun _ => ?_
  split
  · exact .pure _
  · next id o t hfind =>
    split_ifs
    · exact .fail _
    · split
      · exact fun w => .of_tends (Object.tends_retain _ w)
      · next s hp =>
        refine Respects.bind (.modify fun w => ⟨fun h => h, fun h => h⟩) fun _ =>
          Respects.bind (fun w => ?_) fun v => Respects.bind (.modify (keepsPlain_settle r v))
            fun _ => .reading fun _ w => .of_tends (Object.tends_retain _ w)
        rw [final_within]
        have hrun := he.run t.code s { w with frames := ⟨id, s⟩ :: w.frames }
        exact ⟨hrun.nested, hrun.plain⟩

end Thunk

/-- **The operations on the store** keep values plain. -/
theorem World.elementary_keepsPlain : World.Elementary World.KeepsPlain :=
  .of_tends .of_tends (fun h => { h with }) Thunk.keepsPlain_force

/-! ### What is found when a thunk has been evaluated -/

namespace Thunk

variable {engine : Engine} {w w' : World} {r v : Ref}

theorem not_isThunk_of_retain (hw : w.Plain) (hr : w.heap.Plain → w.heap.isPlain r = true)
    (hretain : Object.retain r w = .ok v w') (hn : w'.nested = false) :
    w'.heap.isThunk v = false := by
  obtain ⟨rfl, -⟩ := Object.retain_ok hretain
  have htends := Object.tends_retain r w
  rw [final_ok hretain] at htends
  have hplain := hr (hw (htends.nested.symm.trans hn))
  exact Heap.not_isThunk_of_isPlain (Heap.isPlain_of_leads htends.heap.leads hplain)

/-- **Evaluating a thunk once is enough**, unless it is noted that some value is not plain. -/
theorem not_isThunk_of_force (he : engine.Respects World.KeepsPlain) (hw : w.Plain)
    (hforce : force engine r w = .ok v w') (hn : w'.nested = false) :
    w'.heap.isThunk v = false := by
  cases hr : w.heap.isThunk r with
  | false =>
    rw [force_eq_self hr] at hforce
    cases hforce
    exact hr
  | true =>
    rw [isThunk_eq, Option.isSome_iff_exists] at hr
    obtain ⟨⟨id, o, ⟨code, progress⟩⟩, hfind⟩ := hr
    obtain ⟨rfl, ho, ht⟩ := find?_eq_some hfind
    rw [force, get_bind, hfind] at hforce
    dsimp only at hforce
    split_ifs at hforce with hd
    · cases hforce
    · cases progress with
      | done u => exact not_isThunk_of_retain hw (fun hp => hp id o _ u ho ht rfl) hforce hn
      | pending s =>
        -- the value is read off the thunk after it has been put there
        obtain ⟨_, w₁, henter, hforce⟩ := of_bind_ok hforce
        obtain ⟨value, w₂, hwithin, hforce⟩ := of_bind_ok hforce
        obtain ⟨_, w₃, hsettle, hforce⟩ := of_bind_ok hforce
        cases henter
        cases hsettle
        obtain ⟨w₂, hrun, rfl⟩ := within_ok hwithin
        have hkeeps := he.run code s (inside id s w)
        rw [final_ok (w := inside id s w) hrun] at hkeeps
        have hplain := (keepsPlain_settle (some id) value { w₂ with frames := w.frames }).plain
          (hkeeps.plain hw)
        exact not_isThunk_of_retain hplain (fun hp => hp.isPlain_value (some id)) hforce hn

end Thunk

theorem Arguments.length_forceAfter {engine : Engine} {w w' : World} {owned owned' : List Ref}
    {args values : List Ref} (h : forceAfter engine owned args w = .ok (values, owned') w') :
    values.length = args.length := by
  induction args generalizing owned values w with
  | nil =>
    cases h
    rfl
  | cons arg rest ih =>
    obtain ⟨v, w₁, values', -, -, hrest, rfl⟩ | ⟨values', -, hrest, rfl⟩ := of_forceAfter_cons h
    · simp [ih hrest]
    · simp [ih hrest]

/-- A single argument is no thunk after it has been evaluated. -/
theorem Arguments.not_isThunk_of_forceAfter {engine : Engine} {w w' : World} {args owned : List Ref}
    {v : Ref} (he : engine.Respects World.KeepsPlain) (hw : w.Plain)
    (h : forceAfter engine [] args w = .ok ([v], owned) w') (hn : w'.nested = false) :
    w'.heap.isThunk v = false := by
  obtain ⟨arg, rfl⟩ := List.length_eq_one_iff.mp (length_forceAfter h).symm
  obtain ⟨u, w₁, values, -, hforce, hrest, hv⟩ | ⟨values, hthunk, hrest, hv⟩ := of_forceAfter_cons h
  · cases hrest
    cases hv
    exact Thunk.not_isThunk_of_force he hw (onFailure_ok hforce) hn
  · cases hrest
    cases hv
    exact Bool.eq_false_iff.mpr hthunk

/-! ### Failures of the operations on the store -/

namespace Run

variable {α β : Type}

/-- No failure of a run is that of asking a thunk whether it is true. -/
def Clear (act : Run α) : Prop :=
  ∀ w f w', act w = .error (.failure f) w' → f.isClear = true

namespace Clear

variable {act : Run α} {k : α → Run β}

protected theorem pure (a : α) : (pure a : Run α).Clear := fun _ _ _ h => by cases h

protected theorem modify (g : World → World) : (modify g : Run Unit).Clear :=
  fun _ _ _ h => by cases h

theorem updateHeap (f : Heap → α × Heap) : (Run.updateHeap f).Clear :=
  fun _ _ _ h => by cases h

protected theorem throw {e : Halt} (he : ∀ f, e = .failure f → f.isClear = true) :
    (throw e : Run α).Clear := fun _ _ _ h => by
  cases h
  exact he _ rfl

protected theorem fail {f : Failure} (hf : f.isClear = true) : (Run.fail f : Run α).Clear :=
  .throw fun f' h => by
    cases h
    exact hf

protected theorem breach (m : Text) : (Run.breach m : Run α).Clear := .throw (by simp)

protected theorem bind (h : act.Clear) (hk : ∀ a, (k a).Clear) : (act >>= k).Clear := by
  intro w f w' he
  cases hw : act w with
  | ok a w₁ =>
    rw [bind_ok hw] at he
    exact hk a _ _ _ he
  | error e w₁ =>
    rw [bind_error hw] at he
    cases he
    exact h _ _ _ hw

protected theorem reading {k : World → Run α} (hk : ∀ w, (k w).Clear) :
    (get >>= k : Run α).Clear :=
  fun w => hk w w

end Clear

end Run

namespace Object

theorem clear_make (p : Payload) : (make p).Clear := .updateHeap _

theorem clear_retain (r : Ref) : (retain r).Clear := by
  cases r with
  | none => exact .pure _
  | some id =>
    refine .reading fun w => ?_
    split
    · exact .breach _
    · split_ifs
      · exact .pure _
      · exact .breach _
      · exact .breach _
      · exact Clear.bind (.modify _) fun _ => .pure _

theorem clear_expect (op : Text) (tag : Tag) (r : Ref) : (expect op tag r).Clear := by
  refine .reading fun w => ?_
  split
  · exact .fail (Failure.isClear_of (name_ne tag))
  · split_ifs
    · exact .fail (Failure.isClear_of (by cases tag <;> decide))
    · exact .pure _
    · refine Clear.bind (.reading fun w => ?_) fun _ => .fail (Failure.isClear_of (name_ne tag))
      cases w.heap.describe? r with
      | none => exact .throw (by simp)
      | some t => exact .pure t

end Object

theorem Slots.clear_append (r item : Ref) : (append r item).Clear := by
  refine Clear.bind ((Object.clear_expect _ _ r).bind fun o => ?_) fun items => ?_
  · split <;> exact .pure _
  · split
    · exact .pure _
    · refine .reading fun w => ?_
      split
      · exact .modify _
      · exact .pure _

namespace Pair

theorem clear_sides (op : Text) (r : Ref) : (sides op r).Clear := by
  refine (Object.clear_expect _ _ r).bind fun o => ?_
  split <;> exact .pure _

theorem clear_setLeft (r v : Ref) : (setLeft r v).Clear :=
  (clear_sides _ r).bind fun _ => (Object.clear_retain v).bind fun _ =>
    Clear.bind (.modify _) fun _ => .modify _

theorem clear_setRight (r v : Ref) : (setRight r v).Clear :=
  (clear_sides _ r).bind fun _ => (Object.clear_retain v).bind fun _ =>
    Clear.bind (.modify _) fun _ => .modify _

end Pair

namespace Scope

theorem clear_retain (s : ScopeRef) : (retain s).Clear := by
  cases s with
  | none => exact .pure _
  | some id =>
    refine .reading fun w => ?_
    split
    · exact .breach _
    · split_ifs
      · exact .breach _
      · exact Clear.bind (.modify _) fun _ => Clear.bind (.modify _) fun _ => .pure _

theorem clear_make (parent : ScopeRef) : (make parent).Clear := by
  refine Clear.bind (.updateHeap _) fun _ => (clear_retain parent).bind fun _ =>
    Clear.bind (.updateHeap _) fun _ => Clear.bind (.reading fun w => ?_) fun _ => .pure _
  split_ifs
  · exact .modify _
  · exact .pure _

theorem clear_expect (op : Text) (s : ScopeRef) : (expect op s).Clear := by
  refine .reading fun w => ?_
  split
  · split_ifs
    · exact .fail (Failure.isClear_of (by decide))
    · exact .pure _
  · exact .fail (Failure.isClear_of (by decide))

theorem clear_bind (s : ScopeRef) (name : Text) (value : Ref) : (bind s name value).Clear := by
  refine (clear_expect _ s).bind fun _ => (Object.clear_retain value).bind fun _ =>
    Clear.bind (.modify _) fun _ => ?_
  split
  · exact .modify _
  · exact .pure _

theorem clear_assign (s : ScopeRef) (name : Text) (value : Ref) : (assign s name value).Clear := by
  refine (clear_expect _ s).bind fun _ => .reading fun w => ?_
  dsimp only
  split
  · exact .fail rfl
  · exact (Object.clear_retain value).bind fun _ => Clear.bind (.modify _) fun _ =>
      Clear.bind (.modify _) fun _ => Object.clear_make _

theorem clear_appendAll (id : ScopeId) (bindings : List (Text × Ref)) :
    (appendAll id bindings).Clear := by
  induction bindings with
  | nil => exact .pure _
  | cons b rest ih =>
    exact (Object.clear_retain b.2).bind fun _ => Clear.bind (.modify _) fun _ => ih

theorem clear_adopt (s : ScopeRef) : (adopt s).Clear :=
  (clear_expect _ s).bind fun _ => (clear_make _).bind fun _ => (clear_appendAll _ _).bind fun _ =>
    Clear.bind (.modify _) fun _ => .pure _

end Scope

/-! ### Frank runs -/

namespace Run

variable {α β : Type}

/-- If a run fails for a thunk that is asked whether it is true, it is noted that some value of a
thunk is not plain. -/
def FrankAt (w : World) (act : Run α) : Prop :=
  ∀ w', act w = .error (.failure Object.unforced) w' → w'.nested = true

/-- A run is frank wherever the values of thunks are plain. -/
def Frank (act : Run α) : Prop :=
  ∀ w : World, w.Plain → act.FrankAt w

variable {act : Run α} {k : α → Run β} {w : World} {g : World → World}

theorem Clear.frankAt (h : act.Clear) : act.FrankAt w := fun _ he => by
  have hclear := h _ _ _ he
  cases hclear

theorem Clear.frank (h : act.Clear) : act.Frank := fun _ _ => h.frankAt

namespace FrankAt

protected theorem bind (h : act.FrankAt w) (hk : ∀ a w', act w = .ok a w' → (k a).FrankAt w') :
    (act >>= k).FrankAt w := by
  intro w' he
  cases hact : act w with
  | ok a w₁ =>
    rw [bind_ok hact] at he
    exact hk a w₁ hact w' he
  | error e w₁ =>
    rw [bind_error hact] at he
    cases he
    exact h _ hact

/-- A change of the world after a failure. -/
theorem afterFailure {act' : Run α} (h : act.FrankAt w)
    (hg : ∀ u : World, u.KeepsPlain (g u))
    (he : ∀ f w', act' w = .error (.failure f) w' →
      ∃ w₁, act w = .error (.failure f) w₁ ∧ w' = g w₁) : act'.FrankAt w := by
  intro w' hact
  obtain ⟨w₁, hbefore, rfl⟩ := he _ _ hact
  exact (hg w₁).nested (h w₁ hbefore)

protected theorem ensuring (h : act.FrankAt w)
    (hg : ∀ u : World, u.KeepsPlain (g u)) : (act.ensuring g).FrankAt w :=
  h.afterFailure hg fun f w' hact => by
    unfold Run.ensuring at hact
    split at hact
    · cases hact
    · next hw =>
      cases hact
      exact ⟨_, hw, rfl⟩

protected theorem onHalt (h : act.FrankAt w)
    (hg : ∀ u : World, u.KeepsPlain (g u)) : (act.onHalt g).FrankAt w :=
  h.afterFailure hg fun f w' hact => by
    unfold Run.onHalt at hact
    split at hact
    · cases hact
    · next hw =>
      cases hact
      exact ⟨_, hw, rfl⟩

protected theorem onFailure (h : act.FrankAt w)
    (hg : ∀ u : World, u.KeepsPlain (g u)) : (act.onFailure g).FrankAt w :=
  h.afterFailure hg fun f _ hact => by
    obtain ⟨w₁, hw, heq⟩ := onFailure_error hact
    exact ⟨w₁, hw, heq f rfl⟩

end FrankAt

namespace Frank

protected theorem bind (h : act.Frank) (hkeeps : act.Respects World.KeepsPlain)
    (hk : ∀ a, (k a).Frank) : (act >>= k).Frank := fun w hw =>
  (h w hw).bind fun a w' hact => hk a w' (final_ok hact ▸ (hkeeps w).plain hw)

protected theorem reading {k : World → Run α} (hk : ∀ w, (k w).Frank) :
    (get >>= k : Run α).Frank :=
  fun w => hk w w

protected theorem within (h : act.Frank) (f : Frame) : (Run.within f act).Frank := by
  intro w hw w' hact
  unfold Run.within at hact
  split at hact
  · cases hact
  · next w₁ hrun =>
    cases hact
    exact h { w with frames := f :: w.frames } hw w₁ hrun

end Frank

end Run

/-- Going one level deeper is frank. -/
structure Engine.Frank (engine : Engine) : Prop where
  run : ∀ code s, (engine.run code s).Frank
  call : ∀ f args, (engine.call f args).Frank

namespace Object

variable {r : Ref} {w w' : World}

/-- Only a thunk is asked in vain whether it is true. -/
theorem isThunk_of_truthy (h : truthy r w = .error (.failure unforced) w') :
    w.heap.isThunk r = true ∧ w' = w := by
  unfold truthy at h
  rw [get_bind] at h
  cases ho : w.heap.get? r with
  | none =>
    rw [ho] at h
    cases h
  | some o =>
    rw [ho] at h
    obtain ⟨refs, dead, payload⟩ := o
    cases payload with
    | thunk t =>
      cases h
      exact ⟨Heap.isThunk_iff.mpr ⟨_, ho, rfl⟩, rfl⟩
    | constant c => cases c <;> cases h
    | _ => cases h

theorem frankAt_truthy {α : Type} {next : Bool → Run α} (hw : w.Plain)
    (hr : w.nested = false → w.heap.isThunk r = false) (hnext : ∀ b, (next b).Frank) :
    (do next (← truthy r) : Run α).FrankAt w := by
  refine FrankAt.bind (fun w' h => ?_) fun b w' h => ?_
  · obtain ⟨hthunk, rfl⟩ := isThunk_of_truthy h
    refine Bool.eq_true_of_not_eq_false fun hn => ?_
    rw [hr hn] at hthunk
    cases hthunk
  · have hstill := Eval.final_truthy r w
    rw [final_ok h] at hstill
    exact hstill ▸ hnext b w hw

end Object

theorem Arguments.of_exactly_ok {op : Text} {args : List Ref} {n : Nat} {u : Unit} {w w' : World}
    (h : exactly op args n w = .ok u w') : args.length = n ∧ w' = w := by
  unfold exactly checkCount at h
  dsimp only at h
  split_ifs at h with hn
  · cases h
    exact ⟨Int.ofNat.inj hn, rfl⟩
  · cases h

theorem Arguments.clear_exactly (op : Text) (args : List Ref) (n : Nat) :
    (exactly op args n).Clear := by
  unfold exactly
  cases h : checkCount op args.length n .exactly with
  | ok _ => exact .pure _
  | error f =>
    obtain ⟨_, _, rfl⟩ := checkCount_error h
    exact .fail rfl

section Built

variable {engine : Engine} (he : engine.Frank) (hkeeps : engine.Respects World.KeepsPlain)

include he hkeeps

theorem Thunk.frank_force (r : Ref) : (force engine r).Frank := by
  refine .reading fun _ => ?_
  split
  · exact (Clear.pure _).frank
  · next id o t hfind =>
    split_ifs
    · exact (Clear.fail (Failure.isClear_of (by decide))).frank
    · split
      · exact (Object.clear_retain _).frank
      · next s hp =>
        refine Frank.bind (Clear.modify _).frank (.modify fun w => ⟨fun h => h, fun h => h⟩)
          fun _ => ((he.run t.code s).within _).bind (fun w => ?_) fun v =>
            Frank.bind (Clear.modify _).frank (.modify (keepsPlain_settle r v)) fun _ =>
              .reading fun _ => (Object.clear_retain _).frank
        rw [final_within]
        exact World.elementary_keepsPlain.within (hkeeps.run t.code s _)

/-- **A condition** is asked when it has been evaluated. -/
theorem Eval.frank_branch (r : Ref) {next : Bool → Run Ref} (hnext : ∀ b, (next b).Frank) :
    (branch engine r next).Frank := by
  intro w hw
  refine FrankAt.bind ((Thunk.frank_force he hkeeps r w hw).onFailure (.drop _)) fun v w₁ h₁ => ?_
  have h₁ := onFailure_ok h₁
  have hplain := (Thunk.keepsPlain_force hkeeps r w).plain hw
  rw [final_ok h₁] at hplain
  refine FrankAt.bind (Clear.modify _).frankAt fun _ w₂ h₂ => ?_
  cases h₂
  refine FrankAt.ensuring ?_ (.drop _)
  have hforced : w₁.nested = false → w₁.heap.isThunk v = false :=
    Thunk.not_isThunk_of_force hkeeps hw h₁
  exact Object.frankAt_truthy (w := noteCondition r v w₁) hplain hforced hnext

omit he in
/-- **An argument** is asked when it has been evaluated. -/
theorem Library.frank_negation {args : List Ref}
    (hargs : (Arguments.forceAfter engine [] args).Frank) :
    (Arguments.forcing engine args negation).Frank := by
  intro w hw
  refine FrankAt.bind (hargs w hw) fun p w₁ h₁ => ?_
  obtain ⟨values, owned⟩ := p
  refine FrankAt.ensuring (FrankAt.bind ?_ fun u w₂ h₂ => ?_) (.drop _)
  · exact (Arguments.clear_exactly _ values 1).frankAt
  · obtain ⟨hone, rfl⟩ := Arguments.of_exactly_ok h₂
    obtain ⟨v, rfl⟩ := List.length_eq_one_iff.mp hone
    have hforce : Arguments.forceAfter engine [] args w = .ok ([v], owned) w₂ := h₁
    have hplain := ((Arguments.built_forceAfter [] args).respects World.elementary_keepsPlain hkeeps
      w).plain hw
    rw [final_ok hforce] at hplain
    have hforced := Arguments.not_isThunk_of_forceAfter hkeeps hw hforce
    exact Object.frankAt_truthy hplain hforced fun _ => (Object.clear_make _).frank

/-- What is built from the operations on the store is frank. -/
theorem Run.Built.frank {α : Type} {act : Run α} (h : act.Built engine) : act.Frank := by
  have hR := World.elementary_keepsPlain
  induction h with
  | pure a => exact (Clear.pure a).frank
  | throw e he => exact (Clear.throw he).frank
  | bind hact _ ih ihk => exact ih.bind (hact.respects hR hkeeps) ihk
  | reading _ _ ih => exact .reading ih
  | record e => exact (Clear.modify _).frank
  | print t => exact (Clear.modify _).frank
  | note f _ _ => exact (Clear.modify _).frank
  | ensuringNote _ f _ hf ih => exact fun w hw => (ih w hw).ensuring fun u => hR.note u (hf u _)
  | drop work => exact (Clear.modify _).frank
  | ensuring _ work ih => exact fun w hw => (ih w hw).ensuring (.drop work)
  | onHalt _ work ih => exact fun w hw => (ih w hw).onHalt (.drop work)
  | onFailure _ work ih => exact fun w hw => (ih w hw).onFailure (.drop work)
  | within _ f ih => exact ih.within f
  | makeObject p _ => exact (Object.clear_make p).frank
  | retain r => exact (Object.clear_retain r).frank
  | append r item => exact (Slots.clear_append r item).frank
  | setLeft r v => exact (Pair.clear_setLeft r v).frank
  | setRight r v => exact (Pair.clear_setRight r v).frank
  | addCall id s => exact (Clear.modify _).frank
  | force r => exact Thunk.frank_force he hkeeps r
  | branch r _ ih => exact Eval.frank_branch he hkeeps r ih
  | negation _ ih => exact Library.frank_negation hkeeps ih
  | makeScope parent => exact (Scope.clear_make parent).frank
  | retainScope s => exact (Scope.clear_retain s).frank
  | bindName s name value => exact (Scope.clear_bind s name value).frank
  | assignName s name value => exact (Scope.clear_assign s name value).frank
  | adopt s => exact (Scope.clear_adopt s).frank
  | run code s => exact he.run code s
  | call f args => exact he.call f args

end Built

/-- **Programs are frank**, however deep their calls and thunks are nested. -/
theorem Engine.frank_ofDepth (n : Nat) : (ofDepth n).Frank := by
  induction n with
  | zero =>
    exact ⟨fun _ _ => (Clear.throw (by simp)).frank, fun _ _ => (Clear.throw (by simp)).frank⟩
  | succ n ih =>
    have hkeeps := Engine.respects_ofDepth World.elementary_keepsPlain n
    exact ⟨fun c s => (Eval.built_code c s).frank ih hkeeps,
      fun f args => (Procedure.built_call f args).frank ih hkeeps⟩

/-! ### Sessions -/

theorem World.nested_print (t : Text) (w : World) : (w.print t).nested = w.nested := rfl

namespace Session

theorem frankAt_reporting {α : Type} {act : Run α} {w : World} (h : act.FrankAt w) :
    (reporting act).FrankAt w := by
  intro w' hact
  unfold reporting at hact
  split at hact
  · next f w₁ hw =>
    obtain ⟨hf, rfl⟩ := EStateM.Result.error.inj hact
    rw [World.nested_print]
    exact h w₁ (hf ▸ hw)
  · exact h w' hact

theorem frank_line {engine : Engine} (he : engine.Frank)
    (hkeeps : engine.Respects World.KeepsPlain) (ws : Workspace) {text : Text}
    (htext : text.head? ≠ some (Text.byte ':')) : (line engine ws text).Frank := by
  intro w hw
  rw [line_eq htext]
  refine frankAt_reporting (Built.frank he hkeeps ?_ w hw)
  exact (built_read text).bind fun ds => (built_evalAll ws ds).bind fun _ => .pure _

theorem plain_after {n : Nat} {tables : List Builtin.Table} {w₀ w : World} {ws : Workspace}
    (hw : w₀.Fresh) (hmake : Workspace.make tables w₀ = .ok ws w) (lines : List Text) :
    (after n ws w lines).2.Plain := by
  have hR := World.elementary_keepsPlain
  have hstart : w₀.Plain := fun _ => hw.heap ▸ Heap.plain_initial
  have hplain := (Workspace.respects_make hR tables w₀).plain hstart
  rw [final_ok hmake] at hplain
  exact (respects_after hR n ws w lines).plain hplain

/-- **Conditions are true or false, unless a thunk has a thunk as its value.** As long as all values
that thunks have come to have are plain, no line of expressions fails for a thunk that is asked
whether it is true, since what is asked has been evaluated and is none. Where evaluating a condition
once gives a thunk, every conditional on it fails. -/
theorem line_condition_decided {n : Nat} {tables : List Builtin.Table} {w₀ w w' : World}
    {ws ws' : Workspace} {lines : List Text} {text : Text} (hw : w₀.Fresh)
    (hmake : Workspace.make tables w₀ = .ok ws w) (hrun : after n ws w lines = (ws', w'))
    (htext : text.head? ≠ some (Text.byte ':'))
    (hplain : ((line (.ofDepth n) ws' text).final w').nested = false) :
    (∀ w'', line (.ofDepth n) ws' text w' ≠ .error (.failure Object.unforced) w'') ∧
    ∀ r v w'', Thunk.force (.ofDepth n) r w' = .ok v w'' →
      (w''.nested = false → w''.heap.isThunk v = false) ∧
      ∀ next, w''.heap.isThunk v = true →
        ∃ u, Eval.branch (.ofDepth n) r next w' = .error (.failure Object.unforced) u := by
  have hplain' : w'.Plain := by
    have h := plain_after (n := n) hw hmake lines
    rwa [hrun] at h
  have hkeeps := Engine.respects_ofDepth World.elementary_keepsPlain n
  refine ⟨fun w'' hline => ?_, fun r v w'' hforce => ⟨?_, fun next hthunk => ?_⟩⟩
  · have hnested := frank_line (Engine.frank_ofDepth n) hkeeps ws' htext w' hplain' w'' hline
    rw [final_error hline, hnested] at hplain
    cases hplain
  · exact Thunk.not_isThunk_of_force hkeeps hplain' hforce
  · exact ⟨_, Eval.branch_unforced next hforce hthunk⟩

/-- Promises of a truth value and of a list that holds a promise. -/
def promiseLines : List Text :=
  ["(define p (delay (not #t)))", "(define q (delay (list p (delay 2))))", "(not (force p))"]

set_option maxRecDepth 100000 in
theorem line_condition_decided_promises : ∃ (ws ws' ws'' : Workspace) (w w' w'' : World),
    Workspace.make sandbox {} = .ok ws w ∧ after Engine.depth ws w promiseLines = (ws', w') ∧
    line (.ofDepth Engine.depth) ws' "(if p 1 (if (not q) 2 (if (car (force q)) 3 4)))" w' =
      .ok (false, ws'') w'' ∧
    w''.nested = false ∧
    (∀ u, line (.ofDepth Engine.depth) ws' "(if p 1 (if (not q) 2 (if (car (force q)) 3 4)))" w' ≠
      .error (.failure Object.unforced) u) ∧
    ∀ r v u, Thunk.force (.ofDepth Engine.depth) r w' = .ok v u →
      (u.nested = false → u.heap.isThunk v = false) ∧
      ∀ next, u.heap.isThunk v = true →
        ∃ u', Eval.branch (.ofDepth Engine.depth) r next w' =
          .error (.failure Object.unforced) u' := by
  obtain ⟨ws, w, hmake, hends⟩ := exists_of_run (p := fun ws w =>
    match after Engine.depth ws w promiseLines with
    | (ws', w') => match line (.ofDepth Engine.depth) ws'
        "(if p 1 (if (not q) 2 (if (car (force q)) 3 4)))" w' with
      | .ok (false, _) w'' => !w''.nested
      | .ok (true, _) _ => false
      | .error _ _ => false) (by decide +kernel)
  split at hends
  next ws' w' hrun =>
  split at hends
  · next ws'' w'' hline =>
    have hnested : w''.nested = false := Bool.not_eq_eq_eq_not.mp hends
    exact ⟨ws, ws', ws'', w, w', w'', hmake, hrun, hline, hnested,
      line_condition_decided ⟨rfl, rfl, rfl, rfl⟩ hmake hrun (by decide)
        (by rw [final_ok hline, hnested])⟩
  · cases hends
  · cases hends

/-- Whether a line fails for a thunk that is asked whether it is true. -/
def asksThunk (n : Nat) (ws : Workspace) (w : World) (text : Text) : Bool :=
  match line (.ofDepth n) ws text w with
  | .error (.failure f) _ => decide (f = Object.unforced)
  | .error (.breach _) _ => false
  | .error .fault _ => false
  | .error .exhausted _ => false
  | .ok _ _ => false

theorem line_of_asksThunk {n : Nat} {ws : Workspace} {w : World} {text : Text}
    (h : asksThunk n ws w text = true) :
    ∃ w', line (.ofDepth n) ws text w = .error (.failure Object.unforced) w' := by
  unfold asksThunk at h
  split at h
  · next f w' hline =>
    obtain rfl := of_decide_eq_true h
    exact ⟨w', hline⟩
  · cases h
  · cases h
  · cases h
  · cases h

set_option maxRecDepth 100000 in
/-- A promise of a promise is asked in vain, by a conditional and by the negation. -/
theorem line_unforced_nested : ∃ (ws : Workspace) (w w' w'' : World),
    Workspace.make sandbox {} = .ok ws w ∧
    line (.ofDepth Engine.depth) ws "(if (delay (delay 1)) 1 2)" w =
      .error (.failure Object.unforced) w' ∧
    line (.ofDepth Engine.depth) ws "(not (delay (delay 1)))" w =
      .error (.failure Object.unforced) w'' := by
  obtain ⟨ws, w, hmake, hends⟩ := exists_of_run (p := fun ws w =>
    asksThunk Engine.depth ws w "(if (delay (delay 1)) 1 2)" &&
      asksThunk Engine.depth ws w "(not (delay (delay 1)))") (by decide +kernel)
  obtain ⟨hif, hnot⟩ := Bool.and_eq_true_iff.mp hends
  obtain ⟨w', hif⟩ := line_of_asksThunk hif
  obtain ⟨w'', hnot⟩ := line_of_asksThunk hnot
  exact ⟨ws, w, w', w'', hmake, hif, hnot⟩

end Session

end CountedLisp
