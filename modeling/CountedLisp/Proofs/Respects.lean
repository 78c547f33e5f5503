import CountedLisp.Proofs.Built
import CountedLisp.Proofs.Judgement
import Mathlib.Order.Defs.Unbundled

/-!
# Relations between the beginning and the end of runs

A run respects a relation between worlds if it leads from every world to a related one, however it
ends (`Run.Respects`). `World.Elementary` lists the operations of which this has to be shown: those
on the store, and evaluating a thunk if going one level deeper respects the relation. All that is
built from these operations then respects it (`Run.Built.respects`), and so do all programs, however
deep their calls and thunks are nested (`Engine.respects_ofDepth`), and the making, use and closing
of workspaces.
-/

namespace CountedLisp

/-- A run leads from every world to a related one, however it ends. -/
def Run.Respects (R : World → World → Prop) {α : Type} (act : Run α) : Prop :=
  ∀ w : World, R w (act.final w)

/-- Going one level deeper leads to related worlds. -/
structure Engine.Respects (R : World → World → Prop) (engine : Engine) : Prop where
  run : ∀ code s, (engine.run code s).Respects R
  call : ∀ f args, (engine.call f args).Respects R

variable {R : World → World → Prop}

namespace Run

variable {α β : Type}

/-- The world after a body is that after what it runs, with the frame taken away. -/
theorem final_within (f : Frame) (act : Run α) (w : World) :
    (Run.within f act).final w =
      { act.final { w with frames := f :: w.frames } with frames := w.frames } := by
  simp only [final, Run.within]
  cases act { w with frames := f :: w.frames } <;> rfl

/-- A frame is put on the stack of calls and taken away again. -/
theorem within_of_ok {f : Frame} {act : Run α} {a : α} {w w' : World}
    (h : act { w with frames := f :: w.frames } = .ok a w') :
    Run.within f act w = .ok a { w' with frames := w.frames } := by
  simp only [Run.within, h]

theorem within_of_error {f : Frame} {act : Run α} {e : Halt} {w w' : World}
    (h : act { w with frames := f :: w.frames } = .error e w') :
    Run.within f act w = .error e { w' with frames := w.frames } := by
  simp only [Run.within, h]

namespace Respects

variable {act : Run α} {k : α → Run β}

protected theorem modify {f : World → World} (hf : ∀ w : World, R w (f w)) :
    (modify f : Run PUnit).Respects R := hf

/-- What follows depends on the world in which it is run. -/
theorem get_bind {k : World → Run α} (hk : ∀ w : World, R w ((k w).final w)) :
    (get >>= k : Run α).Respects R := hk

/-- What follows leads to related worlds whatever is read. -/
theorem reading {k : World → Run α} (hk : ∀ v, (k v).Respects R) :
    (get >>= k : Run α).Respects R :=
  fun w => hk w w

/-- A run after a run, seen from an earlier world. -/
theorem bind_of {v w : World} (h : R v (act.final w))
    (hk : ∀ a w', act w = .ok a w' → R v ((k a).final w')) : R v ((act >>= k).final w) := by
  cases hw : act w with
  | ok a w' =>
    have hfinal : (act >>= k).final w = (k a).final w' := by simp [final, bind_ok hw]
    rw [hfinal]
    exact hk a w' hw
  | error e w' =>
    rw [final_error (bind_error hw)]
    exact final_error hw ▸ h

/-- A failure that is caught has made its changes all the same. -/
protected theorem attempt (h : act.Respects R) : act.attempt.Respects R := by
  intro w
  have hfinal : act.attempt.final w = act.final w := by
    simp only [final, Run.attempt]
    cases act w with
    | ok a w' => rfl
    | error e w' => cases e <;> rfl
  rw [hfinal]
  exact h w

variable [IsPreorder World R]

protected theorem pure (a : α) : (pure a : Run α).Respects R := fun w => refl w

protected theorem throw (e : Halt) : (throw e : Run α).Respects R := fun w => refl w

protected theorem fail (f : Failure) : (Run.fail f : Run α).Respects R := fun w => refl w

protected theorem breach (m : Text) : (Run.breach m : Run α).Respects R := fun w => refl w

/-- Changes add up, since the relation is transitive. -/
protected theorem bind (h : act.Respects R) (hk : ∀ a, (k a).Respects R) :
    (act >>= k).Respects R :=
  fun w => bind_of (h w) fun a w' hw =>
    IsTrans.trans w w' _ (final_ok hw ▸ h w) (hk a w')

theorem map (h : act.Respects R) (f : α → β) : (f <$> act).Respects R := by
  rw [map_eq_pure_bind]
  exact h.bind fun _ => .pure _

/-- The last step is made however the run ends. -/
protected theorem ensuring (h : act.Respects R) {g : World → World} (hg : ∀ w : World, R w (g w)) :
    (act.ensuring g).Respects R := by
  intro w
  have hfinal : (act.ensuring g).final w = g (act.final w) := by
    simp only [final, Run.ensuring]
    cases act w <;> rfl
  rw [hfinal]
  exact IsTrans.trans w _ _ (h w) (hg _)

/-- A change of the world only if a run ends in certain ways. -/
theorem afterError {act' : Run α} {p : Halt → Bool} (h : act.Respects R) {g : World → World}
    (hg : ∀ w : World, R w (g w)) (he : ∀ w, act' w = match act w with
      | .ok a w' => .ok a w'
      | .error e w' => .error e (if p e then g w' else w')) : act'.Respects R := by
  intro w
  have hact := h w
  cases hw : act w with
  | ok a w' =>
    rw [final_ok hw] at hact
    have hok : act' w = .ok a w' := by rw [he, hw]
    rw [final_ok hok]
    exact hact
  | error e w' =>
    rw [final_error hw] at hact
    have herr : act' w = .error e (if p e then g w' else w') := by rw [he, hw]
    rw [final_error herr]
    split
    · exact IsTrans.trans w w' _ hact (hg w')
    · exact hact

protected theorem onHalt (h : act.Respects R) {g : World → World} (hg : ∀ w : World, R w (g w)) :
    (act.onHalt g).Respects R :=
  h.afterError (p := fun _ => true) hg fun _ => rfl

protected theorem onFailure (h : act.Respects R) {g : World → World}
    (hg : ∀ w : World, R w (g w)) : (act.onFailure g).Respects R := by
  refine h.afterError (p := Halt.isFailure) hg fun w => ?_
  simp only [Run.onFailure]
  cases act w with
  | ok a w' => rfl
  | error e w' => cases e <;> rfl

end Respects

end Run

/-- The operations lead to related worlds. -/
structure World.Elementary (R : World → World → Prop) : Prop where
  /-- Logging and printing, and the choice whether to log. -/
  silent : ∀ (w : World) (l : Array Event) (o : Array UInt8) (b : Bool),
    R w { w with log := l, output := o, traceRefs := b }
  note : ∀ (w : World) {f : Conduct → Conduct}, w.conduct.Stays (f w.conduct) → R w (w.note f)
  drop : ∀ (work : List Handle) (w : World), R w (w.drop work)
  destroy : ∀ (id : ScopeId) (w : World), R w (w.destroy id)
  within : ∀ {f : Frame} {w w' : World}, R { w with frames := f :: w.frames } w' →
    R w { w' with frames := w.frames }
  makeObject : ∀ p, p.isFresh = true → (Object.make p).Respects R
  retain : ∀ r, (Object.retain r).Respects R
  append : ∀ r item, (Slots.append r item).Respects R
  setLeft : ∀ r v, (Pair.setLeft r v).Respects R
  setRight : ∀ r v, (Pair.setRight r v).Respects R
  addCall : ∀ id s, (Run.modifyHeap (Procedure.addCall id s)).Respects R
  force : ∀ {engine : Engine}, engine.Respects R → ∀ r, (Thunk.force engine r).Respects R
  makeScope : ∀ parent, (Scope.make parent).Respects R
  retainScope : ∀ s, (Scope.retain s).Respects R
  bindName : ∀ s name value, (Scope.bind s name value).Respects R
  assignName : ∀ s name value, (Scope.assign s name value).Respects R
  adopt : ∀ s, (Scope.adopt s).Respects R
  /-- The global scope of a workspace. -/
  globals : (Run.updateHeap Workspace.addGlobals).Respects R

open Run

theorem Run.respects_trace (hR : World.Elementary R) (topic : Topic) (level : Level)
    (scope : Option Text) (body : Text) : (Run.trace topic level scope body).Respects R :=
  .modify fun w => hR.silent w _ _ _

variable [IsPreorder World R]

/-! ### Access -/

namespace Object

theorem respects_mismatch {α : Type} (op expected : Text) (r : Ref) :
    (mismatch op expected r : Run α).Respects R := by
  refine Respects.bind (.reading fun w => ?_) fun _ => .fail _
  cases w.heap.describe? r with
  | some t => exact .pure t
  | none => exact .throw _

theorem respects_expect (op : Text) (tag : Tag) (r : Ref) : (expect op tag r).Respects R := by
  refine .reading fun w => ?_
  split
  · exact .fail _
  · split_ifs
    · exact .fail _
    · exact .pure _
    · exact respects_mismatch _ _ _

end Object

theorem Slots.respects_contents (op : Text) (r : Ref) : (Slots.contents op r).Respects R := by
  refine (Object.respects_expect _ _ r).bind fun o => ?_
  split <;> exact .pure _

theorem Pair.respects_sides (op : Text) (r : Ref) : (Pair.sides op r).Respects R := by
  refine (Object.respects_expect _ _ r).bind fun o => ?_
  split <;> exact .pure _

theorem Scope.respects_expect (op : Text) (s : ScopeRef) : (Scope.expect op s).Respects R := by
  refine .reading fun w => ?_
  split
  · split_ifs
    · exact .fail _
    · exact .pure _
  · exact .fail _

/-! ### Truth -/

theorem Object.respects_truthy (r : Ref) : (truthy r).Respects R := by
  refine .reading fun w => ?_
  split
  · exact .fail _
  · split
    · exact .fail _
    · exact .pure _
    · exact .pure _

theorem Arguments.respects_exactly (op : Text) (args : List Ref) (n : Nat) :
    (exactly op args n).Respects R := by
  unfold exactly
  cases checkCount op args.length n .exactly with
  | ok _ => exact .pure _
  | error f => exact .fail f

theorem Eval.respects_branch (hR : World.Elementary R) {engine : Engine} (he : engine.Respects R)
    (r : Ref) {next : Bool → Run Ref} (hnext : ∀ b, (next b).Respects R) :
    (branch engine r next).Respects R :=
  ((hR.force he r).onFailure (hR.drop _)).bind fun _ =>
    Respects.bind (.modify fun w => hR.note w ⟨id, id, id⟩) fun _ =>
      Respects.ensuring ((Object.respects_truthy _).bind hnext) (hR.drop _)

theorem Library.respects_negation (hR : World.Elementary R) {engine : Engine} {args : List Ref}
    (hforce : (Arguments.forceAfter engine [] args).Respects R) :
    (Arguments.forcing engine args negation).Respects R := by
  refine Respects.bind hforce fun p => Respects.ensuring ?_ (hR.drop _)
  refine (Arguments.respects_exactly _ _ _).bind fun _ => ?_
  split
  · exact (Object.respects_truthy _).bind fun _ => hR.makeObject _ rfl
  · exact hR.makeObject _ rfl

/-! ### Programs -/

/-- What is built from the operations leads to related worlds. -/
theorem Run.Built.respects (hR : World.Elementary R) {engine : Engine} {α : Type} {act : Run α}
    (h : act.Built engine) (he : engine.Respects R) : act.Respects R := by
  induction h with
  | pure a => exact .pure a
  | throw e _ => exact .throw e
  | bind _ _ ih ihk => exact ih.bind ihk
  | reading _ _ ih => exact .reading ih
  | record e => exact .modify fun w => hR.silent w _ _ _
  | print t => exact .modify fun w => hR.silent w _ _ _
  | note f _ hf => exact .modify fun w => hR.note w (hf w _)
  | ensuringNote _ f _ hf ih => exact ih.ensuring fun w => hR.note w (hf w _)
  | drop work => exact .modify (hR.drop work)
  | ensuring _ work ih => exact ih.ensuring (hR.drop work)
  | onHalt _ work ih => exact ih.onHalt (hR.drop work)
  | onFailure _ work ih => exact ih.onFailure (hR.drop work)
  | within _ f ih => exact fun w => final_within f _ w ▸ hR.within (ih _)
  | makeObject p hp => exact hR.makeObject p hp
  | retain r => exact hR.retain r
  | append r item => exact hR.append r item
  | setLeft r v => exact hR.setLeft r v
  | setRight r v => exact hR.setRight r v
  | addCall id s => exact hR.addCall id s
  | force r => exact hR.force he r
  | branch r _ ih => exact Eval.respects_branch hR he r ih
  | negation _ ih => exact Library.respects_negation hR ih
  | makeScope parent => exact hR.makeScope parent
  | retainScope s => exact hR.retainScope s
  | bindName s name value => exact hR.bindName s name value
  | assignName s name value => exact hR.assignName s name value
  | adopt s => exact hR.adopt s
  | run code s => exact he.run code s
  | call f args => exact he.call f args

/-- **Programs** lead to related worlds, however deep their calls and thunks are nested. -/
theorem Engine.respects_ofDepth (hR : World.Elementary R) (n : Nat) : (ofDepth n).Respects R := by
  induction n with
  | zero => exact ⟨fun _ _ => .throw _, fun _ _ => .throw _⟩
  | succ n ih =>
    exact ⟨fun c s => (Eval.built_code c s).respects hR ih,
      fun f args => (Procedure.built_call f args).respects hR ih⟩

/-! ### Workspaces -/

namespace Workspace

variable (hR : World.Elementary R)

include hR

/-- By induction on the functions of the table, each of which is made, bound and given up. -/
theorem respects_install (s : ScopeId) (table : Builtin.Table) :
    (install s table).Respects R := by
  induction table with
  | nil => exact .pure _
  | cons entry rest ih =>
    exact (hR.makeObject _ rfl).bind fun _ => (hR.bindName _ _ _).attempt.bind fun _ =>
      Respects.bind (.modify (hR.drop _)) fun _ => ih

theorem respects_make (tables : List Builtin.Table) : (make tables).Respects R :=
  Respects.bind (.modify fun w => hR.silent w _ _ _) fun _ => hR.globals.bind fun _ =>
    (respects_install hR _ _).bind fun _ => .reading fun _ =>
      (respects_trace hR _ _ _ _).bind fun _ => .pure _

omit hR in
theorem respects_current (ws : Workspace) : ws.current.Respects R := by
  unfold current
  split
  · exact .pure _
  · exact .breach _

theorem respects_pushScope (ws : Workspace) : ws.pushScope.Respects R :=
  ws.respects_current.bind fun _ => (hR.makeScope _).bind fun _ => .reading fun _ =>
    (respects_trace hR _ _ _ _).bind fun _ => .pure _

theorem respects_leave (s : ScopeId) : (leave s).Respects R :=
  .reading fun _ => (respects_trace hR _ _ _ _).bind fun _ => .modify (hR.drop _)

theorem respects_popScope (ws : Workspace) : ws.popScope.Respects R := by
  unfold popScope
  split
  · exact (respects_leave hR _).bind fun _ => .pure _
  · exact .fail _

theorem respects_leaveLocals (items : List ScopeId) : (leaveLocals items).Respects R := by
  induction items with
  | nil => exact .pure _
  | cons s rest ih =>
    cases rest with
    | nil => exact .pure _
    | cons t rest => exact (respects_leave hR s).bind fun _ => ih

theorem respects_expel (s : ScopeId) : (expel s).Respects R :=
  .reading fun _ => (respects_trace hR _ _ _ _).bind fun _ => .modify (hR.destroy s)

/-- Along the loop, which destroys one scope each time and stops if the registry gets no shorter. -/
theorem respects_drain (registry : RegistryId) : (drain registry).Respects R := by
  intro w
  unfold final
  fun_induction drain registry w with
  | case1 w => exact refl w
  | case2 w n s hlast e w' hexpel => exact final_error hexpel ▸ respects_expel hR s w
  | case3 w n s hlast u w' hexpel hless e w'' hrest ih =>
    rw [hrest] at ih
    exact IsTrans.trans w w' _ (final_ok hexpel ▸ respects_expel hR s w) ih
  | case4 w n s hlast u w' hexpel hless m w'' hrest ih =>
    rw [hrest] at ih
    exact IsTrans.trans w w' _ (final_ok hexpel ▸ respects_expel hR s w) ih
  | case5 w n s hlast u w' hexpel hless => exact final_ok hexpel ▸ respects_expel hR s w

theorem respects_close (ws : Workspace) : ws.close.Respects R := by
  refine (respects_leaveLocals hR _).bind fun _ => Respects.bind (.modify (hR.drop _)) fun _ =>
    (respects_drain hR _).bind fun forced => ?_
  dsimp only
  split_ifs
  · exact (respects_trace hR _ _ _ _).bind fun _ => .pure _
  · exact .pure _

end Workspace

end CountedLisp
