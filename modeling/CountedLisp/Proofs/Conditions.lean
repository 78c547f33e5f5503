import CountedLisp.Proofs.Adoption
import CountedLisp.Proofs.Forcing

/-!
# Conditionals and references

A conditional takes up to three references on its way: to its condition, to the value of this if it
is a thunk, and to the value of the operand that is selected. The last one is for the caller, and
the others are to be given up, whatever way it ends. `Run.Neutral act C w` says so of any run that
starts in the world `w`: counts are right afterwards if one more reference is owned than before, the
one to the value, or none if there is no value.

Evaluating a thunk takes a reference to its value, but whether there is such a reference is told
from whether the value is another object than the condition. The two are not the same for one kind
of condition only: a thunk that is its own value, a knot. It is nothing that can be true or false,
so that the conditional fails, and one of the two references to it is never given up.
-/

namespace CountedLisp

open Run

variable {engine : Engine} {w w' : World} {C : Share} {id : ObjectId} {code : Code} {s : ScopeRef}
  {r v : Ref}

/-! ### Neutral runs -/

/-- All counts are right, `C` being owned by whoever runs. -/
structure World.Counted (w : World) (C : Share) : Prop where
  reclaim : w.reclaim = true
  accounts : w.heap.Accounts C

/-- The run keeps counts right: the caller owns the reference to the value besides `C`, or `C` alone
if the run fails. -/
structure Run.Neutral (act : Run Ref) (C : Share) (w : World) : Prop where
  ok : ∀ {v w'}, act w = .ok v w' → w'.Counted (Share.ref v + C)
  failed : ∀ {f w'}, act w = .error (.failure f) w' → w'.Counted C

namespace World

namespace Counted

variable {D E : Share}

protected theorem cast (h : w.Counted C) (hD : C = D) : w.Counted D := hD ▸ h

theorem keeps (h : w.Counted (Share.ref r + C)) : w.heap.Keeps (Share.ref r) :=
  (Heap.keeps_add.mp h.accounts.keeps).1

theorem pass (hw : w.Counted (D + C)) (h : w.Passes w' D E) : w'.Counted (E + C) :=
  ⟨h.reclaim.trans hw.reclaim, h.heap.accounts hw.accounts⟩

/-- Giving up references. -/
theorem drop {work : List Handle} (hw : w.Counted ((work : Share) + C)) :
    (w.drop work).Counted C :=
  (hw.pass (.drop hw.reclaim work)).cast (zero_add C)

/-- There is but one way to count a thunk. -/
theorem not_add_ref (h : w.Counted C) {t : Thunk} (ht : w.heap.HasThunk id t) :
    ¬ w.Counted (Share.ref (some id) + C) := by
  intro h'
  obtain ⟨o, ho, -, hp⟩ := ht
  have hcount : w.heap.count? (.object id) = some o.refs.toNat := by
    simp [Heap.count?, ho, hp, Payload.isImmortal]
  have h1 := h.accounts.count _ _ hcount
  have h2 := h'.accounts.count _ _ hcount
  rw [Multiset.count_add, Share.ref_some, Multiset.count_singleton_self] at h2
  omega

end Counted

theorem Exact.counted (h : w.Exact C) : w.Counted C := ⟨h.reclaim, h.accounts⟩

end World

namespace Run.Neutral

variable {act : Run Ref}

theorem congr (h : act.Neutral C w) {act' : Run Ref} (he : act' w' = act w) :
    act'.Neutral C w' where
  ok hok := h.ok (he ▸ hok)
  failed hfail := h.failed (he ▸ hfail)

theorem of_error {e : Halt} (h : act w = .error e w') (he : ∀ f, e = .failure f → w'.Counted C) :
    act.Neutral C w where
  ok hok := by rw [h] at hok; cases hok
  failed hfail := by rw [h] at hfail; cases hfail; exact he _ rfl

/-- A run whose books are right and that leaves a clean record is neutral. -/
theorem of_sound {S : Share} (h : act.Sound True C S w Share.ref 0)
    (hc : (act.final w).conduct = {}) : act.Neutral C w where
  ok hok := by
    rw [final_ok hok] at hc
    exact ((h.ok hok).exact (by rw [hc]; exact ⟨rfl, rfl, rfl⟩) (by rw [hc])).counted
  failed hfail := by
    rw [final_error hfail] at hc
    exact (((h.failed hfail).cast (zero_add C).symm).exact (by rw [hc]; exact ⟨rfl, rfl, rfl⟩)
      (by rw [hc])).counted

/-- What is given up after a run may be owned until then. -/
protected theorem ensuring {rs : List Ref} (h : act.Neutral (Share.refs rs + C) w) :
    (act.ensuring (World.releaseAll rs)).Neutral C w where
  ok {v w'} hok := by
    unfold Run.ensuring at hok
    split at hok
    · next a w₁ hrun =>
      cases hok
      exact ((h.ok hrun).cast (add_left_comm _ _ _)).drop
    · cases hok
  failed {f w'} hfail := by
    unfold Run.ensuring at hfail
    split at hfail
    · cases hfail
    · next e w₁ hrun =>
      cases hfail
      exact (h.failed hrun).drop

end Run.Neutral

/-- A new owner. -/
theorem Object.neutral_retain (hcount : w.Counted C) : (retain r).Neutral C w where
  ok {v w'} hok := by
    cases r with
    | none =>
      cases hok
      exact hcount.cast (by simp)
    | some id =>
      rw [retain_eq] at hok
      split at hok
      · cases hok
      next o ho =>
      split_ifs at hok with hi hd hmax
      · -- the empty list is not counted
        cases hok
        have himm : o.payload.isImmortal = true := by simpa [hcount.reclaim] using hi
        have hpass : w.Passes w 0 (Share.ref (some id)) := ⟨rfl, rfl, .addImmortal ho himm⟩
        exact (hcount.cast (zero_add C).symm).pass hpass
      · cases hok
        have hpass : w.Passes { w with heap := w.heap.setObject id { o with refs := o.refs + 1 } }
            0 (Share.ref (some id)) :=
          ⟨rfl, rfl, .retainObject ho (Bool.eq_false_iff.mpr hd) hmax⟩
        exact (hcount.cast (zero_add C).symm).pass hpass
  failed {f w'} hfail := by
    cases r with
    | none => cases hfail
    | some id =>
      rw [retain_eq] at hfail
      split at hfail
      · cases hfail
      · split_ifs at hfail <;> cases hfail

theorem Library.neutral_nothing (hcount : w.Counted C) : nothing.Neutral C w where
  ok hok := by
    cases hok
    have hpass : w.Passes { w with heap := (w.heap.addObject .unspecified).2 } 0
        (Share.ref (some (w.heap.addObject .unspecified).1)) := ⟨rfl, rfl, .addObject w.heap rfl⟩
    exact (hcount.cast (zero_add C).symm).pass hpass
  failed hfail := by cases hfail

/-! ### Thunks -/

namespace Thunk

/-- A thunk that has no value exchanges its scope for the value. -/
theorem counted_settle (ht : w.heap.HasThunk id ⟨code, .pending s⟩)
    (hcount : w.Counted (Share.ref v + (Share.ref (some id) + C))) :
    (settle (some id) v w).Counted (Share.ref (some id) + C) ∧
      (settle (some id) v w).heap.HasThunk id ⟨code, .done v⟩ := by
  obtain ⟨o, ho, hd, hp⟩ := ht
  have hkept : (keep id o ⟨code, .pending s⟩ v w).Counted
      (Share.scope s + (Share.ref (some id) + C)) := by
    refine ⟨hcount.reclaim, hcount.accounts.setPayload ho hd (by rw [hp]; rfl) ?_⟩
    rw [hp]
    change Share.scope s + (Share.ref (some id) + C) + Share.ref v =
      Share.ref v + (Share.ref (some id) + C) + Share.scope s
    abel
  have hthunk : (keep id o ⟨code, .pending s⟩ v w).heap.HasThunk id ⟨code, .done v⟩ :=
    ⟨_, Heap.object?_setObject_self _ ho, hd, rfl⟩
  rw [settle_eq (find?_of_thunk ho hp)]
  have hdrop : ((keep id o ⟨code, .pending s⟩ v w).drop (Handle.ofScope s)).Counted
    (Share.ref (some id) + C) := hkept.drop
  exact ⟨hdrop, hthunk.of_fades (World.fades_drop _ _) (Heap.keeps_ref_some.mp hdrop.keeps)⟩

/-- Running the code of a thunk that has no value is neutral, and leaves the thunk without a
value. -/
def Ready (engine : Engine) (C : Share) (w : World) (r : Ref) : Prop :=
  ∀ id code s, r = some id → w.heap.HasThunk id ⟨code, .pending s⟩ →
    (engine.run code s).Neutral C (inside id s w) ∧
      ∀ {v w'}, engine.run code s (inside id s w) = .ok v w' →
        ∃ code', w'.heap.HasThunk id ⟨code', .pending s⟩

/-- **Evaluating a thunk is neutral**: the value is kept, and the caller owns a reference to it. -/
theorem neutral_force {t : Thunk} (ht : w.heap.HasThunk id t)
    (hready : Ready engine (Share.ref (some id) + C) w (some id))
    (hcount : w.Counted (Share.ref (some id) + C)) :
    (force engine (some id)).Neutral (Share.ref (some id) + C) w := by
  obtain ⟨code, progress⟩ := t
  cases progress with
  | done v => exact (Object.neutral_retain hcount).congr (force_done ht)
  | pending s =>
    obtain ⟨hneutral, hpending⟩ := hready id code s rfl ht
    cases hrun : engine.run code s (inside id s w) with
    | error e w' =>
      refine .of_error (force_error ht hrun) ?_
      rintro f rfl
      exact { hneutral.failed hrun with }
    | ok v w' =>
      obtain ⟨code', ht'⟩ := hpending hrun
      obtain ⟨hsettled, hdone⟩ := counted_settle (w := { w' with frames := w.frames }) ht'
        { hneutral.ok hrun with }
      have hforce := force_ok ht hrun
      rw [value_of_hasThunk hdone] at hforce
      exact (Object.neutral_retain hsettled).congr hforce

/-- While the code of a thunk is run, the thunk holds the scope that it is run in. -/
theorem exact_inside (ht : w.heap.HasThunk id ⟨code, .pending s⟩) (hexact : w.Exact C) :
    (inside id s w).Exact C where
  reclaim := hexact.reclaim
  nil := hexact.nil
  frames f hf := by
    obtain ⟨o, ho, -, hp⟩ := ht
    rcases List.mem_cons.mp hf with rfl | hf
    · exact holds_of_pending ho hp rfl
    · exact hexact.frames f hf
  accounts := hexact.accounts

/-- A thunk that holds its scope and has an owner has no value. -/
theorem hasThunk_of_holds {h h' : Heap} (ht : h.HasThunk id ⟨code, .pending s⟩)
    (hl : h.Leads h') (hholds : h'.Holds ⟨id, s⟩) (hlives : h'.Lives (.object id)) :
    ∃ code', h'.HasThunk id ⟨code', .pending s⟩ := by
  obtain ⟨o, ho, -, hp⟩ := ht
  obtain ⟨o', ⟨code', progress⟩, hfind⟩ := find?_of_leads hl ho hp
  obtain ⟨-, ho', hp'⟩ := find?_eq_some hfind
  obtain ⟨o₁, ho₁, hd⟩ := hlives
  obtain ⟨o₂, ho₂, hscope⟩ := hholds
  rw [ho', Option.some.injEq] at ho₁ ho₂
  subst ho₁ ho₂
  obtain rfl : progress = .pending s := (hscope hd).2 _ hp'
  exact ⟨code', o', ho', hd, hp'⟩

end Thunk

/-! ### What a condition selects -/

namespace Eval

variable {next : Bool → Run Ref}

/-- A thunk whose value is the thunk itself. -/
def Knotted (engine : Engine) (r : Ref) (w : World) : Prop :=
  w.heap.isThunk r = true ∧ ∃ w', Thunk.force engine r w = .ok r w'

theorem branch_ok (hforce : Thunk.force engine r w = .ok v w') : branch engine r next w =
    Run.ensuring (do next (← Object.truthy v))
      (World.releaseAll (if v = r then [r] else [r, v])) (noteCondition r v w') := by
  have h : (Thunk.force engine r).onFailure (World.release r) w = .ok v w' := by
    simp only [Run.onFailure, hforce]
  rw [branch, bind_ok h]
  rfl

theorem branch_failed {f : Failure} (hforce : Thunk.force engine r w = .error (.failure f) w') :
    branch engine r next w = .error (.failure f) (w'.release r) := by
  have h : (Thunk.force engine r).onFailure (World.release r) w =
      .error (.failure f) (w'.release r) := by
    simp only [Run.onFailure, hforce]
  exact bind_error h

theorem branch_halted {e : Halt} (he : ∀ f, e ≠ .failure f)
    (hforce : Thunk.force engine r w = .error e w') : branch engine r next w = .error e w' := by
  have h : (Thunk.force engine r).onFailure (World.release r) w = .error e w' := by
    cases e with
    | failure f => exact absurd rfl (he f)
    | _ => simp only [Run.onFailure, hforce]
  exact bind_error h

/-- A thunk is neither true nor false. -/
theorem truthy_of_isThunk (hr : w.heap.isThunk r = true) :
    Object.truthy r w = .error (.failure Object.unforced) w := by
  unfold Heap.isThunk at hr
  split at hr
  · next hget =>
    rw [Object.truthy, get_bind, hget]
    rfl
  · cases hr

/-- A condition that is a thunk after it has been evaluated is asked in vain. -/
theorem branch_unforced (next : Bool → Run Ref) (hforce : Thunk.force engine r w = .ok v w')
    (hv : w'.heap.isThunk v = true) : branch engine r next w = .error (.failure Object.unforced)
      ((noteCondition r v w').releaseAll (if v = r then [r] else [r, v])) := by
  have htruth : (do next (← Object.truthy v) : Run Ref) (noteCondition r v w') =
      .error (.failure Object.unforced) (noteCondition r v w') :=
    bind_error (truthy_of_isThunk hv)
  rw [branch_ok hforce]
  simp only [Run.ensuring, htruth]

theorem final_truthy (r : Ref) (w : World) : (Object.truthy r).final w = w :=
  (Object.reads_truthy (P := False) (S := Share.ref r) fun _ h => h).still

theorem neutral_truthy (hcount : w.Counted C)
    (hnext : ∀ b, Object.truthy r w = .ok b w → (next b).Neutral C w) :
    (do next (← Object.truthy r) : Run Ref).Neutral C w := by
  have hstill := final_truthy r w
  cases h : Object.truthy r w with
  | ok b w₁ =>
    rw [final_ok h] at hstill
    subst hstill
    exact (hnext b h).congr (bind_ok h)
  | error e w₁ =>
    rw [final_error h] at hstill
    subst hstill
    exact .of_error (bind_error h) fun _ _ => hcount

/-- Condition and value are owned, each as often as it is going to be given up. -/
theorem counted_condition (hcount : w.Counted (Share.ref r + C))
    (hready : Thunk.Ready engine (Share.ref r + C) w r) (hloose : ¬ Knotted engine r w)
    (hforce : Thunk.force engine r w = .ok v w') :
    w'.Counted (Share.refs (if v = r then [r] else [r, v]) + C) := by
  cases hr : w.heap.isThunk r with
  | false =>
    rw [Thunk.force_eq_self hr] at hforce
    cases hforce
    simpa using hcount
  | true =>
    obtain ⟨id, t, rfl, ht⟩ := Heap.exists_hasThunk hr hcount.keeps
    have hne : v ≠ some id := by
      rintro rfl
      exact hloose ⟨hr, w', hforce⟩
    rw [if_neg hne]
    exact ((Thunk.neutral_force ht hready hcount).ok hforce).cast
      (by simp [add_left_comm, add_assoc])

theorem counted_failed {f : Failure} (hcount : w.Counted (Share.ref r + C))
    (hready : Thunk.Ready engine (Share.ref r + C) w r)
    (hforce : Thunk.force engine r w = .error (.failure f) w') : w'.Counted (Share.ref r + C) := by
  cases hr : w.heap.isThunk r with
  | false =>
    rw [Thunk.force_eq_self hr] at hforce
    cases hforce
  | true =>
    obtain ⟨id, t, rfl, ht⟩ := Heap.exists_hasThunk hr hcount.keeps
    exact (Thunk.neutral_force ht hready hcount).failed hforce

/-- **A condition that is no knot is neutral**, with what it selects. -/
theorem neutral_branch (hcount : w.Counted (Share.ref r + C))
    (hready : Thunk.Ready engine (Share.ref r + C) w r) (hloose : ¬ Knotted engine r w)
    (hnext : ∀ {v w'} b, Thunk.force engine r w = .ok v w' →
      Object.truthy v (noteCondition r v w') = .ok b (noteCondition r v w') →
      (noteCondition r v w').Counted (Share.refs (if v = r then [r] else [r, v]) + C) →
      (next b).Neutral (Share.refs (if v = r then [r] else [r, v]) + C) (noteCondition r v w')) :
    (branch engine r next).Neutral C w := by
  cases hforce : Thunk.force engine r w with
  | ok v w' =>
    have hcount' := counted_condition hcount hready hloose hforce
    have hnoted : (noteCondition r v w').Counted _ := { hcount' with }
    exact (Neutral.ensuring (neutral_truthy hnoted fun b hb => hnext b hforce hb hnoted)).congr
      (branch_ok hforce)
  | error e w' =>
    cases e with
    | failure f =>
      refine .of_error (branch_failed hforce) fun _ _ => ?_
      exact (counted_failed hcount hready hforce).drop
    | breach m => exact .of_error (branch_halted (by simp) hforce) (by simp)
    | fault => exact .of_error (branch_halted (by simp) hforce) (by simp)
    | exhausted => exact .of_error (branch_halted (by simp) hforce) (by simp)

/-- **A knot loses a reference**: evaluating the thunk takes one to the thunk itself, and this is
not given up. -/
theorem branch_knotted (next : Bool → Run Ref) (he : engine.Respects World.Later)
    (hcount : w.Counted (Share.ref r + C)) (hready : Thunk.Ready engine (Share.ref r + C) w r)
    (hknot : Knotted engine r w) :
    ∃ w', branch engine r next w = .error (.failure Object.unforced) w' ∧
      w'.Counted (Share.ref r + C) ∧ w'.heap.isThunk r = true := by
  obtain ⟨hr, w', hforce⟩ := hknot
  obtain ⟨id, t, rfl, ht⟩ := Heap.exists_hasThunk hr hcount.keeps
  have hcount' := (Thunk.neutral_force ht hready hcount).ok hforce
  have hr' : w'.heap.isThunk (some id) = true := by
    obtain ⟨_, hages⟩ := Thunk.later_force he (some id) w
    rw [final_ok hforce] at hages
    exact isThunk_of_leads hages.heap hr
  have hbranch := branch_unforced next hforce hr'
  rw [if_pos rfl] at hbranch
  refine ⟨_, hbranch, ?_, isThunk_of_leads (World.fades_drop _ _).toLeads hr'⟩
  have hnoted : (noteCondition (some id) (some id) w').Counted _ := { hcount' with }
  exact hnoted.drop

/-! ### Conditionals -/

/-- What a conditional goes on with. -/
def selected (engine : Engine) (s : ScopeRef) (a : Datum) (b : Option Datum) (t : Bool) : Run Ref :=
  match if t then some a else b with
  | some d => eval engine s d
  | none => Library.nothing

theorem form_conditional (c a : Datum) (b : Option Datum) :
    form engine s .conditional (c :: a :: b.toList) = (do
      let condition ← eval engine s c
      branch engine condition (selected engine s a b)) := by
  cases b with
  | none =>
    have hselected : selected engine s a none =
        fun t => if t then eval engine s a else Library.nothing := by
      funext t
      cases t <;> rfl
    rw [hselected]
    unfold form
    rfl
  | some b =>
    have hselected : selected engine s a (some b) =
        fun t => if t then eval engine s a else eval engine s b := by
      funext t
      cases t <;> rfl
    rw [hselected]
    unfold form
    rfl

/-- The operands of a conditional are neutral where they are evaluated, and so is the code of a
thunk that the condition is. -/
structure NeutralOperands (engine : Engine) (s : ScopeRef) (c a : Datum) (b : Option Datum)
    (C : Share) (w : World) : Prop where
  condition : (eval engine s c).Neutral C w
  forced : ∀ {r w₁}, eval engine s c w = .ok r w₁ →
    Thunk.Ready engine (Share.ref r + C) w₁ r
  selected : ∀ {r w₁ v w₂ t d}, eval engine s c w = .ok r w₁ →
    Thunk.force engine r w₁ = .ok v w₂ →
    Object.truthy v (noteCondition r v w₂) = .ok t (noteCondition r v w₂) →
    (if t then some a else b) = some d →
    (eval engine s d).Neutral (Share.refs (if v = r then [r] else [r, v]) + C)
      (noteCondition r v w₂)

theorem neutral_selected {a : Datum} {b : Option Datum} {t : Bool} (hcount : w.Counted C)
    (h : ∀ d, (if t then some a else b) = some d → (eval engine s d).Neutral C w) :
    (selected engine s a b t).Neutral C w := by
  unfold selected
  split
  · next d hd => exact h d hd
  · exact Library.neutral_nothing hcount

theorem neutral_conditional {c a : Datum} {b : Option Datum}
    (hoperands : NeutralOperands engine s c a b C w)
    (hloose : ∀ r w₁, eval engine s c w = .ok r w₁ → ¬ Knotted engine r w₁) :
    (form engine s .conditional (c :: a :: b.toList)).Neutral C w := by
  rw [form_conditional]
  cases hc : eval engine s c w with
  | error e w₁ =>
    refine .of_error (bind_error hc) ?_
    rintro f rfl
    exact hoperands.condition.failed hc
  | ok r w₁ =>
    have hbranch : (branch engine r (selected engine s a b)).Neutral C w₁ :=
      neutral_branch (hoperands.condition.ok hc) (hoperands.forced hc) (hloose r w₁ hc)
        fun _ hforce htruth hcount =>
          neutral_selected hcount fun _ hd => hoperands.selected hc hforce htruth hd
    exact hbranch.congr (bind_ok hc)

theorem conditional_knotted (he : engine.Respects World.Later) {c a : Datum} {b : Option Datum}
    {w₁ : World} (hoperands : NeutralOperands engine s c a b C w)
    (hc : eval engine s c w = .ok r w₁) (hknot : Knotted engine r w₁) :
    ∃ w', form engine s .conditional (c :: a :: b.toList) w =
        .error (.failure Object.unforced) w' ∧
      w'.Counted (Share.ref r + C) ∧ ¬ w'.Counted C := by
  obtain ⟨w', hbranch, hcount, hr⟩ := branch_knotted (selected engine s a b) he
    (hoperands.condition.ok hc) (hoperands.forced hc) hknot
  obtain ⟨id, t, rfl, ht⟩ := Heap.exists_hasThunk hr hcount.keeps
  refine ⟨w', ?_, hcount, fun h => h.not_add_ref ht hcount⟩
  rw [form_conditional, bind_ok hc]
  exact hbranch

/-- **Conditionals give up all that they take, except for a knot.** The operands are neutral where
they are evaluated. Then the conditional is neutral if and only if its condition is not a thunk that
has itself as its value. If it is, the conditional fails, and the counts are right if one reference
to the thunk is owned that nobody is going to give up. -/
theorem form_conditional_neutral {n : Nat} {c a : Datum} {b : Option Datum}
    (hoperands : NeutralOperands (.ofDepth n) s c a b C w) :
    ((form (.ofDepth n) s .conditional (c :: a :: b.toList)).Neutral C w ↔
      ∀ r w₁, eval (.ofDepth n) s c w = .ok r w₁ → ¬ Knotted (.ofDepth n) r w₁) ∧
    ∀ r w₁, eval (.ofDepth n) s c w = .ok r w₁ → Knotted (.ofDepth n) r w₁ →
      ∃ w', form (.ofDepth n) s .conditional (c :: a :: b.toList) w =
          .error (.failure Object.unforced) w' ∧
        w'.Counted (Share.ref r + C) := by
  have he := Engine.respects_ofDepth World.elementary_later n
  refine ⟨⟨fun hneutral r w₁ hc hknot => ?_, neutral_conditional hoperands⟩,
    fun r w₁ hc hknot => ?_⟩
  · obtain ⟨w', hform, -, hnot⟩ := conditional_knotted he hoperands hc hknot
    exact hnot (hneutral.failed hform)
  · obtain ⟨w', hform, hcount, -⟩ := conditional_knotted he hoperands hc hknot
    exact ⟨w', hform, hcount⟩

/-! ### Promises -/

/-- Whether condition, thunk and selected operand are run with a clean record. -/
def runsClean (n : Nat) (s : ScopeRef) (c a : Datum) (b : Option Datum) (w : World) : Bool :=
  match eval (.ofDepth n) s c w with
  | .error _ w₁ => decide (w₁.conduct = {})
  | .ok r w₁ =>
    decide (w₁.conduct = {}) &&
    ((Thunk.find? w₁.heap r).all fun (id, _, t) => match t.progress with
      | .done _ => true
      | .pending s =>
        decide ((((Engine.ofDepth n).run t.code s).final (Thunk.inside id s w₁)).conduct = {})) &&
    match Thunk.force (.ofDepth n) r w₁ with
    | .error _ _ => true
    | .ok v w₂ =>
      match Object.truthy v (noteCondition r v w₂) with
      | .error _ _ => true
      | .ok t _ => (if t then some a else b).all fun d =>
        decide (((eval (.ofDepth n) s d).final (noteCondition r v w₂)).conduct = {})

theorem neutralOperands_of_runsClean {n : Nat} {c a : Datum} {b : Option Datum}
    (hexact : w.Exact C) (hclean : runsClean n s c a b w = true) :
    NeutralOperands (.ofDepth n) s c a b C w := by
  have he := Engine.sound_ofDepth n
  have hlent {D : Share} : Share.scope s ⊆ Share.scope s + D :=
    Multiset.subset_of_le (Multiset.le_add_right _ _)
  have hsound := sound_eval he (s := s) c hexact.books hlent
  have hfinal : ((eval (.ofDepth n) s c).final w).conduct = {} := by
    unfold runsClean at hclean
    cases hc : eval (.ofDepth n) s c w with
    | error e w₁ =>
      rw [hc] at hclean
      rw [final_error hc]
      exact of_decide_eq_true hclean
    | ok r w₁ =>
      simp only [hc, Bool.and_eq_true, decide_eq_true_eq] at hclean
      rw [final_ok hc]
      exact hclean.1.1
  refine ⟨.of_sound hsound hfinal, fun {r w₁} hc id code t hr ht => ?_,
    fun {r w₁ v w₂ t d} hc hforce htruth hd => ?_⟩
  · -- the condition has given a thunk, whose code is run
    subst hr
    rw [final_ok hc] at hfinal
    have hexact₁ := (hsound.ok hc).exact (by rw [hfinal]; exact ⟨rfl, rfl, rfl⟩) (by rw [hfinal])
    have hrun := he.run code t (Thunk.exact_inside ht hexact₁).books
    have hclean₁ : (((Engine.ofDepth n).run code t).final (Thunk.inside id t w₁)).conduct = {} := by
      obtain ⟨o, ho, -, hp⟩ := ht
      simp only [runsClean, hc, Thunk.find?_of_thunk ho hp, Option.all_some, Bool.and_eq_true,
        decide_eq_true_eq] at hclean
      exact hclean.1.2
    refine ⟨.of_sound hrun hclean₁, fun {v w'} hok => ?_⟩
    have hleads := hrun.leads
    rw [final_ok hok] at hclean₁ hleads
    have hexact' := (hrun.ok hok).exact (by rw [hclean₁]; exact ⟨rfl, rfl, rfl⟩) (by rw [hclean₁])
    exact Thunk.hasThunk_of_holds ht hleads.heap
      (hexact'.frames _ (hleads.frames ▸ List.mem_cons_self))
      (Heap.keeps_ref_some.mp (hexact'.counted.cast (add_left_comm _ _ _)).keeps)
  · -- the branch is run where both the condition and its value are owned
    have hsound₂ := Thunk.sound_force (S := 0) (r := r) he (hsound.ok hc) Share.subset_owned
    have hleads := hsound₂.leads
    rw [final_ok hforce] at hleads
    have hnoted := books_condition (hsound₂.ok hforce) (isThunk_of_leads hleads.heap)
      fun hr => force_of_not_isThunk hr hforce
    simp only [runsClean, hc, hforce, htruth, hd, Option.all_some, Bool.and_eq_true,
      decide_eq_true_eq] at hclean
    exact .of_sound (sound_eval he d hnoted hlent) hclean.2

/-- The name of the promise. -/
def promise : Datum :=
  .atom ⟨.identifier, "p", ⟨0, 0⟩⟩

def numeral (digits : Text) : Datum :=
  .atom ⟨.integer, digits, ⟨0, 0⟩⟩

/-- A scope in which a name is bound to a promise with the given code. -/
def promising (d : Datum) : List Client.Call :=
  [.scope none, .thunk (.expression d) (some ⟨0⟩), .bind (some ⟨0⟩) "p" (some ⟨1⟩),
    .release (some ⟨1⟩)]

/-- Whether the promise is a condition that is evaluated with a clean record, and to what. -/
def keepsPromise (v : Ref) (s : Client.Holdings) : Bool :=
  decide (s.world.conduct = {}) &&
  runsClean 2 (some ⟨0⟩) promise (numeral "1") (numeral "2") s.world &&
  match eval (.ofDepth 2) (some ⟨0⟩) promise s.world with
  | .error _ _ => false
  | .ok r w₁ =>
    decide (r = some ⟨1⟩) && w₁.heap.isThunk r && match Thunk.force (.ofDepth 2) r w₁ with
      | .ok v' _ => decide (v' = v)
      | .error _ _ => false

theorem exists_of_keepsPromise {d : Datum}
    (h : (Client.Holdings.afterAll .none ⟨0, {}⟩ (promising d)).any (keepsPromise v) = true) :
    ∃ (s : Client.Holdings) (w₁ w₂ : World),
      Client.Holdings.afterAll .none ⟨0, {}⟩ (promising d) = some s ∧ s.world.Counted s.owned ∧
      NeutralOperands (.ofDepth 2) (some ⟨0⟩) promise (numeral "1") (some (numeral "2")) s.owned
        s.world ∧
      eval (.ofDepth 2) (some ⟨0⟩) promise s.world = .ok (some ⟨1⟩) w₁ ∧
      w₁.heap.isThunk (some ⟨1⟩) = true ∧ Thunk.force (.ofDepth 2) (some ⟨1⟩) w₁ = .ok v w₂ := by
  obtain ⟨s, hs, hkeeps⟩ := (Option.any_eq_true _ _).mp h
  unfold keepsPromise at hkeeps
  split at hkeeps
  · simp at hkeeps
  next r w₁ hc =>
  simp only [Bool.and_eq_true, decide_eq_true_eq] at hkeeps
  obtain ⟨⟨hconduct, hclean⟩, ⟨rfl, hthunk⟩, hforce⟩ := hkeeps
  split at hforce
  · next v' w₂ hv =>
    obtain rfl := of_decide_eq_true hforce
    have hexact := (Client.Holdings.exact_afterAll hs hconduct).1
    exact ⟨s, w₁, w₂, hs, hexact.counted, neutralOperands_of_runsClean hexact hclean, hc, hthunk,
      hv⟩
  · cases hforce

/-- A condition that is a promise of a number. -/
theorem form_conditional_neutral_promise : ∃ s : Client.Holdings,
    Client.Holdings.afterAll .none ⟨0, {}⟩ (promising (numeral "5")) = some s ∧
    s.world.Counted s.owned ∧
    (form (.ofDepth 2) (some ⟨0⟩) .conditional [promise, numeral "1", numeral "2"]).Neutral
      s.owned s.world := by
  obtain ⟨s, w₁, w₂, hs, hcount, hoperands, hc, -, hforce⟩ :=
    exists_of_keepsPromise (v := some ⟨2⟩) (d := numeral "5") (by decide +kernel)
  refine ⟨s, hs, hcount, (form_conditional_neutral hoperands).1.2 fun r u hr hknot => ?_⟩
  obtain ⟨-, w', hself⟩ := hknot
  rw [hc] at hr
  cases hr
  rw [hforce] at hself
  cases hself

/-- A condition that is a promise of itself. The counts are not exact any more. -/
theorem conditional_knotted_promise : ∃ (s : Client.Holdings) (w' : World),
    Client.Holdings.afterAll .none ⟨0, {}⟩ (promising promise) = some s ∧
    s.world.Counted s.owned ∧
    NeutralOperands (.ofDepth 2) (some ⟨0⟩) promise (numeral "1") (some (numeral "2")) s.owned
      s.world ∧
    form (.ofDepth 2) (some ⟨0⟩) .conditional [promise, numeral "1", numeral "2"] s.world =
      .error (.failure Object.unforced) w' ∧
    ¬ w'.Counted s.owned := by
  obtain ⟨s, w₁, w₂, hs, hcount, hoperands, hc, hthunk, hforce⟩ :=
    exists_of_keepsPromise (v := some ⟨1⟩) (d := promise) (by decide +kernel)
  obtain ⟨w', hform, -, hnot⟩ := conditional_knotted
    (Engine.respects_ofDepth World.elementary_later 2) hoperands hc ⟨hthunk, w₂, hforce⟩
  exact ⟨s, w', hs, hcount, hoperands, hform, hnot⟩

end Eval

end CountedLisp
