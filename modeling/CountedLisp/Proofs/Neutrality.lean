import CountedLisp.Proofs.Sessions

/-!
# Evaluation and references

`World.Exact w C` says that in the world `w` every count is the number of owners, if `C` is what is
owned by whoever runs. Evaluating an expression in such a world leads to such a world again: the
caller owns one reference more, which is the one to the value, or none if there is no value.

The books of a run allow for references that nobody will ever give up. There are none of them after
an evaluation that is tidy. For this it is enough that no thunk was evaluated while it was being
evaluated and that none was its own value: as long as no function takes its arguments out of a list,
a thunk that is being evaluated has an owner until its value is there (`Run.Sound.kept`).
-/

namespace CountedLisp

open Run

namespace World

/-- All counts are right, `C` being owned by whoever runs, and every body that is being run has its
scope held by its owner. -/
structure Exact (w : World) (C : Share) : Prop where
  reclaim : w.reclaim = true
  /-- The empty list is where it is expected. -/
  nil : ∃ o, w.heap.get? Heap.emptyList = some o ∧ o.tag = .emptyList
  frames : ∀ f ∈ w.frames, w.heap.Holds f
  accounts : w.heap.Accounts C

variable {w : World} {C : Share}

theorem Exact.books (h : w.Exact C) : w.Books C where
  reclaim := h.reclaim
  nil := h.nil
  frames _ := h.frames
  accounts := ⟨0, fun _ => rfl, fun _ => by rw [add_zero]; exact h.accounts⟩

/-- After a tidy run nothing is lost, so that the books are exact. -/
theorem Books.exact (hb : w.Books C) (ht : w.conduct.Tidy) (hw : w.conduct.wrapped = false) :
    w.Exact C where
  reclaim := hb.reclaim
  nil := hb.nil
  frames := hb.frames ht.reentered
  accounts := by
    obtain ⟨L, hL, ha⟩ := hb.accounts
    obtain rfl := hL ht
    have := ha hw
    rwa [add_zero] at this

/-- Whoever runs gets more references to a scope, as long as they can be counted. -/
theorem Exact.retainScope (hw : w.Exact C) {id : ScopeId} {x : Scope}
    (hx : w.heap.scope? id = some x) (hd : x.dead = false) {n : Nat}
    (hn : x.refs.toNat + n < 2 ^ 32) :
    ({ w with heap := w.heap.setScope id { x with refs := x.refs + UInt32.ofNat n } } : World).Exact
      (Multiset.replicate n (.scope id) + C) where
  reclaim := hw.reclaim
  nil := hw.nil
  frames := hw.frames
  accounts := by
    refine hw.accounts.setScope hx (fun hd' => ?_) fun y => ?_
    · rw [hd] at hd'
      cases hd'
    · have hheld : ({ x with refs := x.refs + UInt32.ofNat n } : Scope).held = x.held := rfl
      simp only [hheld, Heap.toNat_add_ofNat hn, Multiset.count_add, Multiset.count_replicate]
      split_ifs <;> grind

/-- Whoever runs gets more references to an object, as long as they can be counted. -/
theorem Exact.retainObject (hw : w.Exact C) {id : ObjectId} {o : Object}
    (ho : w.heap.object? id = some o) (hd : o.dead = false) {n : Nat}
    (hn : o.refs.toNat + n < 2 ^ 32) :
    ({ w with heap := w.heap.setObject id { o with refs := o.refs + UInt32.ofNat n } } :
      World).Exact (Multiset.replicate n (.object id) + C) where
  reclaim := hw.reclaim
  nil := by
    obtain ⟨y, hy, ht⟩ := hw.nil
    rcases Heap.object?_setObject_of { o with refs := o.refs + UInt32.ofNat n } ho hy with
      ⟨-, rfl, ho'⟩ | ⟨-, hy'⟩
    · exact ⟨_, ho', ht⟩
    · exact ⟨y, hy', ht⟩
  frames f hf := (hw.frames f hf).setObject ho fun _ hh => hh
  accounts := by
    refine hw.accounts.setObject ho rfl (fun hd' => ?_) fun y => ?_
    · rw [hd] at hd'
      cases hd'
    · have hheld : ({ o with refs := o.refs + UInt32.ofNat n } : Object).held = o.held := rfl
      simp only [hheld, Heap.toNat_add_ofNat hn, Multiset.count_add, Multiset.count_replicate]
      split_ifs <;> grind

/-- A change to a world that takes the references in `D` from whoever runs and gives those in
`E`. -/
structure Passes (w w' : World) (D E : Share) : Prop where
  reclaim : w'.reclaim = w.reclaim
  frames : w'.frames = w.frames
  heap : w.heap.Passes w'.heap D E

namespace Passes

variable {w' w'' : World} {D E F : Share}

protected theorem trans (h1 : w.Passes w' D E) (h2 : w'.Passes w'' E F) : w.Passes w'' D F where
  reclaim := h2.reclaim.trans h1.reclaim
  frames := h2.frames.trans h1.frames
  heap := h1.heap.trans h2.heap

protected theorem cast (h : w.Passes w' D E) {D' E' : Share} (hD : D = D') (hE : E = E') :
    w.Passes w' D' E' := hD ▸ hE ▸ h

/-- What is owned besides makes no difference. -/
theorem frame (h : w.Passes w' D E) (F : Share) : w.Passes w' (D + F) (E + F) where
  reclaim := h.reclaim
  frames := h.frames
  heap := ⟨h.heap.leads, h.heap.holds, fun ha => by
    rw [add_assoc] at ha ⊢
    exact h.heap.accounts ha⟩

/-- **Exact counts stay exact.** -/
theorem exact (h : w.Passes w' D E) (hw : w.Exact (D + C)) : w'.Exact (E + C) where
  reclaim := h.reclaim.trans hw.reclaim
  nil := hw.books.nil_of_leads h.heap.leads
  frames f hf := h.heap.holds f (hw.frames f (h.frames ▸ hf))
  accounts := h.heap.accounts hw.accounts

/-- Giving up references. -/
theorem drop (hw : w.reclaim = true) (work : List Handle) : w.Passes (w.drop work) (work : Share) 0
    where
  reclaim := by simp [World.drop, hw]
  frames := by simp [World.drop, hw]
  heap := by simpa [World.drop, hw] using Heap.Passes.drop w.heap #[] work

end Passes

end World

/-- A run of a program that starts with a clean record and makes no call with arguments out of a
list stays tidy if no thunk is evaluated while it is being evaluated or is its own value. -/
theorem Run.Sound.tidy {α : Type} {act : Run α} {C S B : Share} {w : World} {G : α → Share}
    (h : act.Sound True C S w G B) (hc : w.conduct = {}) (hS : ∀ id, .object id ∉ S)
    (happlied : (act.final w).conduct.applied = false)
    (hreentered : (act.final w).conduct.reentered = false)
    (hknotted : (act.final w).conduct.knotted = false)
    (hwrapped : (act.final w).conduct.wrapped = false) : (act.final w).conduct.Tidy := by
  have horphaned : (act.final w).conduct.orphaned = false := by
    refine Bool.eq_false_iff.mpr fun ho => ?_
    rcases h.leads.conduct.spread ho with h0 | h1
    · rw [hc] at h0
      cases h0
    · rw [happlied] at h1
      cases h1
  have hkept := h.kept trivial ⟨hreentered, horphaned, hwrapped⟩ fun id hid => absurd hid (hS id)
  rw [hc] at hkept
  exact ⟨hreentered, hkept, hknotted⟩

/-- The counts of a new workspace are exact. -/
theorem Workspace.exact_make {tables : List Builtin.Table} {w₀ w : World} {ws : Workspace}
    (hw : w₀.Fresh) (hmake : make tables w₀ = .ok ws w) (hc : w.conduct = {}) :
    w.Exact ws.share := by
  have hbooks := (sound_make (P := True) (S := 0) tables hw.books).ok hmake
  exact (hbooks.cast (add_zero _).symm).exact (by rw [hc]; exact ⟨rfl, rfl, rfl⟩) (by rw [hc])

namespace Eval

/-- **Evaluation is neutral.** In a world whose counts are exact, an expression is evaluated in any
scope. If it has a value, the counts are exact again if the caller owns one more reference, the one
to the value; if it fails, wherever that may be, they are exact if the caller owns what it owned
before.

The record of conduct is clean at the beginning, so that at the end it tells of this evaluation:
that no function took its arguments out of a list, that no thunk was evaluated while it was being
evaluated, that no condition was a thunk with itself as its value, and that no count started again
from zero. -/
theorem eval_neutral {n : Nat} {s : ScopeRef} {d : Datum} {C : Share} {w : World}
    (hexact : w.Exact C) (hc : w.conduct = {})
    (happlied : ((eval (.ofDepth n) s d).final w).conduct.applied = false)
    (hreentered : ((eval (.ofDepth n) s d).final w).conduct.reentered = false)
    (hknotted : ((eval (.ofDepth n) s d).final w).conduct.knotted = false)
    (hwrapped : ((eval (.ofDepth n) s d).final w).conduct.wrapped = false) :
    (∀ v w', eval (.ofDepth n) s d w = .ok v w' → w'.Exact (Share.ref v + C)) ∧
      ∀ f w', eval (.ofDepth n) s d w = .error (.failure f) w' → w'.Exact C := by
  have hsound : (eval (.ofDepth n) s d).Sound True C (Share.scope s) w Share.ref 0 :=
    sound_eval (Engine.sound_ofDepth n) d hexact.books
      (Multiset.subset_of_le (Multiset.le_add_right _ _))
  have htidy := hsound.tidy hc (fun id hid => by cases s <;> simp [Share.scope_some] at hid)
    happlied hreentered hknotted hwrapped
  refine ⟨fun v w' hok => ?_, fun f w' hfail => ?_⟩
  · rw [final_ok hok] at htidy hwrapped
    exact (hsound.ok hok).exact htidy hwrapped
  · rw [final_error hfail] at htidy hwrapped
    exact ((hsound.failed hfail).cast (zero_add C).symm).exact htidy hwrapped

/-- A promise that is forced by the condition of a function, and one that fails there. -/
def promises : Text :=
  "((lambda (p) (if p (car (force p)) 0)) (delay (cons 1 2)))
   ((lambda (p) (if (force p) 1 0)) (delay (cons 1 (car 5))))"

/-- Whether both come out like this, with a clean record. -/
def keepsPromises (ws : Workspace) (w : World) : Bool :=
  match Token.tokenize promises with
  | .error _ => false
  | .ok tokens => match Datum.read tokens with
    | .ok [d₁, d₂] =>
      match eval (.ofDepth Engine.depth) (some ws.globals) d₁ w,
        eval (.ofDepth Engine.depth) (some ws.globals) d₂ w with
      | .ok (some _) w₁, .error (.failure _) w₂ =>
        decide (w.conduct = {} ∧ w₁.conduct = {} ∧ w₂.conduct = {})
      | _, _ => false
    | _ => false

set_option maxRecDepth 100000 in
theorem eval_neutral_promises : ∃ (ws : Workspace) (w w₁ w₂ : World) (tokens : List Token)
    (d₁ d₂ : Datum) (v : ObjectId) (f : Failure), Workspace.make Session.sandbox {} = .ok ws w ∧
    Token.tokenize promises = .ok tokens ∧ Datum.read tokens = .ok [d₁, d₂] ∧
    eval (.ofDepth Engine.depth) (some ws.globals) d₁ w = .ok (some v) w₁ ∧
    eval (.ofDepth Engine.depth) (some ws.globals) d₂ w = .error (.failure f) w₂ ∧
    w.Exact ws.share ∧ w₁.Exact (Share.ref (some v) + ws.share) ∧ w₂.Exact ws.share := by
  obtain ⟨ws, w, hmake, hends⟩ := Session.exists_of_run (p := keepsPromises) (by decide +kernel)
  unfold keepsPromises at hends
  split at hends
  · cases hends
  next tokens htokens =>
  split at hends
  · next d₁ d₂ hread =>
    split at hends
    · next v w₁ f w₂ hok hfail =>
      obtain ⟨hc, hc₁, hc₂⟩ := of_decide_eq_true hends
      have hexact : w.Exact ws.share := Workspace.exact_make ⟨rfl, rfl, rfl, rfl⟩ hmake hc
      have hneutral₁ := eval_neutral hexact hc (n := Engine.depth) (s := some ws.globals) (d := d₁)
        (by rw [final_ok hok, hc₁]) (by rw [final_ok hok, hc₁]) (by rw [final_ok hok, hc₁])
        (by rw [final_ok hok, hc₁])
      have hneutral₂ := eval_neutral hexact hc (n := Engine.depth) (s := some ws.globals) (d := d₂)
        (by rw [final_error hfail, hc₂]) (by rw [final_error hfail, hc₂])
        (by rw [final_error hfail, hc₂]) (by rw [final_error hfail, hc₂])
      exact ⟨ws, w, w₁, w₂, tokens, d₁, d₂, v, f, hmake, htokens, hread, hok, hfail, hexact,
        hneutral₁.1 _ _ hok, hneutral₂.2 _ _ hfail⟩
    · cases hends
  · cases hends

/-- The expression `(lambda () 0)`. -/
def constantly : Datum :=
  .list [.atom ⟨.identifier, "lambda", ⟨2, 7⟩⟩, .list [], .atom ⟨.integer, "0", ⟨12, 12⟩⟩]

/-- A function owns the scope that it was made in. -/
theorem eval_constantly (engine : Engine) {w : World} {id : ScopeId} {x : Scope}
    (hx : w.heap.scope? id = some x) (hd : x.dead = false) : ∃ v w',
      eval engine (some id) constantly w = .ok v w' ∧
      w'.heap.scope? id = some { x with refs := x.refs + 1 } ∧
      w'.conduct = x.countUp w.conduct := by
  have hform : Form.ofHead? (.atom ⟨.identifier, "lambda", ⟨2, 7⟩⟩) = some .lambda := by decide
  have hnames : Run.ofExcept (Form.lambda.identifiers []) w = .ok [] w := rfl
  let w₁ : World := { w.note x.countUp with
    heap := w.heap.setScope id { x with refs := x.refs + 1 } }
  obtain ⟨v, w', hmake, hscope, hconduct⟩ : ∃ v w', eval engine (some id) constantly w = .ok v w' ∧
      w'.heap.scope? id = w₁.heap.scope? id ∧ w'.conduct = w₁.conduct := by
    rw [constantly, eval, hform]
    dsimp only
    rw [form, bind_ok hnames, Procedure.close, bind_ok (Scope.retain_of_living hx hd)]
    exact ⟨_, _, rfl, Heap.scope?_addObject _ _ _, rfl⟩
  exact ⟨v, w', hmake, hscope.trans (Heap.scope?_setScope_self _ hx), hconduct⟩

set_option maxRecDepth 100000 in
/-- With as many owners as can be counted it is not: a function that is made in the global scope is
one more owner, and the count of the scope starts again from zero. -/
theorem eval_not_neutral_wrapped : ∃ (s : ScopeId) (C : Share) (w w' : World) (v : Ref) (x : Scope),
    w.Exact C ∧ w.conduct = {} ∧ w.heap.Lives (.scope s) ∧
    eval (.ofDepth Engine.depth) (some s) constantly w = .ok v w' ∧
    w'.conduct.applied = false ∧ w'.conduct.reentered = false ∧ w'.conduct.knotted = false ∧
    w'.heap.scope? s = some x ∧ x.dead = false ∧ x.refs = 0 ∧ ¬w'.Exact (Share.ref v + C) := by
  obtain ⟨ws, w, hmake, hends⟩ := Session.exists_of_run (p := fun ws w =>
    (w.heap.scope? ws.globals).any fun x => !x.dead && x.refs == 1 && w.conduct == {})
    (by decide +kernel)
  obtain ⟨x, hx, hends⟩ := (Option.any_eq_true _ _).1 hends
  simp only [Bool.and_eq_true, Bool.not_eq_true', beq_iff_eq] at hends
  obtain ⟨⟨hd, hrefs⟩, hconduct⟩ := hends
  have hexact := Workspace.exact_make ⟨rfl, rfl, rfl, rfl⟩ hmake hconduct
  -- the number of owners stays a variable until the count is known
  obtain ⟨n, hn⟩ : ∃ n, n = 4294967294 := ⟨_, rfl⟩
  have hmax : x.refs + UInt32.ofNat n = maxCount := by
    rw [hrefs, hn]
    decide
  have hfull := hexact.retainScope (n := n) hx hd (by rw [hrefs, hn]; decide)
  have hself := Heap.scope?_setScope_self { x with refs := x.refs + UInt32.ofNat n } hx
  obtain ⟨v, w', heval, hx', hw'⟩ := eval_constantly (.ofDepth Engine.depth)
    (w := { w with heap := w.heap.setScope ws.globals { x with refs := x.refs + UInt32.ofNat n } })
    hself hd
  refine ⟨ws.globals, _, _, w', v, _, hfull, hconduct, ⟨_, hself, hd⟩, heval, ?_, ?_, ?_, hx', hd,
    ?_, fun hexact' => ?_⟩
  · rw [hw', hconduct]
    rfl
  · rw [hw', hconduct]
    rfl
  · rw [hw', hconduct]
    rfl
  · show x.refs + UInt32.ofNat n + 1 = 0
    rw [hmax]
    decide
  · have hcount := hexact'.accounts.scope_count hx'
    have hzero : (x.refs + UInt32.ofNat n + 1).toNat = 0 := by
      rw [hmax]
      decide
    rw [hzero, Multiset.count_add, Multiset.count_add, Multiset.count_replicate_self] at hcount
    omega

end Eval

end CountedLisp
