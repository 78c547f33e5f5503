import CountedLisp.Proofs.Built
import CountedLisp.Proofs.Judgement

/-!
# What is written and never read

Logs are written and never read, and neither is the record of conduct. A `Veil` leaves one of them
out of a world, or both. A run ignores what is behind a veil (`Run.Ignores`) if, apart from that, it
ends in the same way whatever there is at the beginning. All programs do (`Engine.ignores_ofDepth`):
the operations on the store do, and runs that are built from them inherit it.
-/

namespace CountedLisp

/-- What is left of the logs and of the record of conduct. -/
structure Veil where
  log : Array Event → Array Event
  conduct : Conduct → Conduct
  /-- What is added to the logs does not depend on them. -/
  log_append : ∀ l m, log (log l ++ m) = log (l ++ m)
  /-- Of changes to the record only those count that do not depend on it. -/
  conduct_map : ∀ (f : Conduct → Conduct) c, conduct (f (conduct c)) = conduct (f c)

namespace Veil

variable (v : Veil)

/-- The world without what is behind a veil. -/
def cover (w : World) : World :=
  { w with log := v.log w.log, conduct := v.conduct w.conduct }

/-- Leaves out the logs. -/
def logs : Veil where
  log _ := #[]
  conduct := id
  log_append _ _ := rfl
  conduct_map _ _ := rfl

/-- Leaves out the record of conduct. -/
def marks : Veil where
  log := id
  conduct _ := {}
  log_append _ _ := rfl
  conduct_map _ _ := rfl

@[simp]
theorem log_log (l : Array Event) : v.log (v.log l) = v.log l := by
  simpa using v.log_append l #[]

/-- What is written down behind the veil can be written down before or after it is drawn. -/
@[simp]
theorem log_push (l : Array Event) (e : Event) : v.log ((v.log l).push e) = v.log (l.push e) := by
  simpa using v.log_append l #[e]

@[simp]
theorem conduct_conduct (c : Conduct) : v.conduct (v.conduct c) = v.conduct c :=
  v.conduct_map id c

/-- A change of worlds that depends on nothing behind the veil. -/
def Blind (f : World → World) : Prop :=
  ∀ w : World, v.cover (f (v.cover w)) = v.cover (f w)

variable {v}

/-- What depends on no log and no record of conduct does not depend on what is behind a veil. -/
theorem eq_of_bare {α : Sort*} {k : World → α} (hk : ∀ w, k w.bare = k w) (w : World) :
    k (v.cover w) = k w := by
  rw [← hk (v.cover w), ← hk w]
  rfl

theorem blind_heap (f : Heap → Heap) : v.Blind fun w => { w with heap := f w.heap } := fun w => by
  simp [cover]

theorem blind_record (e : Event) : v.Blind (World.record e) := fun w => by
  simp [cover, World.record]

theorem blind_print (t : Text) : v.Blind (World.print t) := fun w => by
  simp [cover, World.print]

/-- It does not matter whether the conduct was covered before a note on it. -/
theorem cover_note (f : Conduct → Conduct) (w : World) :
    v.cover ((v.cover w).note f) = v.cover (w.note f) := by
  simp only [cover, World.note, v.conduct_map, log_log]

theorem blind_note {f : World → Conduct → Conduct} (hf : ∀ w, f w.bare = f w) :
    v.Blind fun w => World.note (f w) w := fun w => by
  dsimp only
  rw [eq_of_bare hf w, cover_note]

/-- Giving up references may be logged. -/
theorem blind_drop (work : List Handle) : v.Blind (World.drop work) := fun w => by
  cases hr : w.reclaim <;> cases ht : w.traceRefs <;>
    simp [cover, World.drop, hr, ht, v.log_append]

/-- Giving up references goes by the heap, and the log only gets what is destroyed. -/
theorem Blind.drop {f : World → World} (hf : v.Blind f) (work : List Handle) :
    v.Blind fun w => (f w).drop work := fun w => by
  dsimp only
  rw [← blind_drop work (f (v.cover w)), hf w, blind_drop]

end Veil

namespace Run

variable {v : Veil} {α β : Type}

/-- The end of a run without what is behind a veil. -/
def veiled (v : Veil) : EStateM.Result Halt World α → EStateM.Result Halt World α
  | .ok a w => .ok a (v.cover w)
  | .error e w => .error e (v.cover w)

/-- Results that look the same end in the same way, in worlds that look the same. -/
theorem veiled_cases {r r' : EStateM.Result Halt World α} (h : veiled v r = veiled v r') :
    (∃ a w w', r = .ok a w ∧ r' = .ok a w' ∧ v.cover w = v.cover w') ∨
      ∃ e w w', r = .error e w ∧ r' = .error e w' ∧ v.cover w = v.cover w' := by
  cases r with
  | ok a w =>
    cases r' with
    | ok a' w' =>
      rw [veiled, veiled, EStateM.Result.ok.injEq] at h
      obtain ⟨rfl, hw⟩ := h
      exact .inl ⟨a, w, w', rfl, rfl, hw⟩
    | error e' w' => cases h
  | error e w =>
    cases r' with
    | ok a' w' => cases h
    | error e' w' =>
      rw [veiled, veiled, EStateM.Result.error.injEq] at h
      obtain ⟨rfl, hw⟩ := h
      exact .inr ⟨e, w, w', rfl, rfl, hw⟩

/-- Two runs after two runs that end in the same way but for what is behind a veil. -/
theorem veiled_bind {act act' : Run α} {k k' : α → Run β} {w u : World}
    (h : veiled v (act w) = veiled v (act' u))
    (hk : ∀ a w' u', v.cover w' = v.cover u' → veiled v (k a w') = veiled v (k' a u')) :
    veiled v ((act >>= k) w) = veiled v ((act' >>= k') u) := by
  obtain ⟨a, w', u', hw, hu, hv⟩ | ⟨e, w', u', hw, hu, hv⟩ := veiled_cases h
  · rw [bind_ok hw, bind_ok hu]
    exact hk a w' u' hv
  · rw [bind_error hw, bind_error hu, veiled, veiled, hv]

/-- What is behind a veil makes no difference to how a run ends, apart from what is there then. -/
def Ignores (v : Veil) (act : Run α) : Prop :=
  ∀ w : World, veiled v (act (v.cover w)) = veiled v (act w)

namespace Ignores

variable {act : Run α} {k : α → Run β}

/-- A run that ignores something cannot tell worlds apart that differ in nothing else. -/
theorem congr (h : act.Ignores v) {w u : World} (hu : v.cover w = v.cover u) :
    veiled v (act w) = veiled v (act u) := by
  rw [← h w, hu, h u]

/-- A run that goes on depending on the world. -/
theorem reading {k : World → Run α} (hbare : ∀ w, k w.bare = k w) (hk : ∀ w, (k w).Ignores v) :
    (get >>= k : Run α).Ignores v := by
  intro w
  rw [get_bind, get_bind, Veil.eq_of_bare hbare w]
  exact hk w w

protected theorem modify {f : World → World} (hf : v.Blind f) :
    (modify f : Run PUnit).Ignores v :=
  fun w => congrArg (EStateM.Result.ok PUnit.unit) (hf w)

protected theorem pure (a : α) : (pure a : Run α).Ignores v :=
  fun w => congrArg (EStateM.Result.ok a) (Veil.blind_heap id w)

protected theorem throw (e : Halt) : (throw e : Run α).Ignores v :=
  fun w => congrArg (EStateM.Result.error e) (Veil.blind_heap id w)

/-- What follows sees the result and a world that looks the same. -/
protected theorem bind (h : act.Ignores v) (hk : ∀ a, (k a).Ignores v) :
    (act >>= k).Ignores v :=
  fun w => veiled_bind (h w) fun a _ _ hu => (hk a).congr hu

theorem updateHeap (f : Heap → α × Heap) : (Run.updateHeap f).Ignores v :=
  fun w => congrArg (EStateM.Result.ok (f w.heap).1) (Veil.blind_heap (fun h => (f h).2) w)

theorem modifyHeap (f : Heap → Heap) : (Run.modifyHeap f).Ignores v :=
  .modify (Veil.blind_heap f)

protected theorem drop (work : List Handle) : (modify (World.drop work) : Run PUnit).Ignores v :=
  .modify (Veil.blind_drop work)

/-- A run that is followed by a change of the world, which depends on how the run ends. -/
theorem followed {act' : Run α} (h : act.Ignores v) {g : Option Halt → World → World}
    (hg : ∀ e, v.Blind (g e)) (he : ∀ w, act' w = match act w with
      | .ok a w' => .ok a (g none w')
      | .error e w' => .error e (g (some e) w')) : act'.Ignores v := by
  intro w
  rw [he, he]
  obtain ⟨a, u, u', hw, hu, hv⟩ | ⟨e, u, u', hw, hu, hv⟩ := veiled_cases (h w)
  · rw [hw, hu, veiled, veiled, ← hg none u, hv, hg]
  · rw [hw, hu, veiled, veiled, ← hg (some e) u, hv, hg]

/-- The last step has to be blind, too. -/
protected theorem ensuring (h : act.Ignores v) {g : World → World} (hg : v.Blind g) :
    (act.ensuring g).Ignores v :=
  h.followed (g := fun _ => g) (fun _ => hg) fun _ => rfl

protected theorem onHalt (h : act.Ignores v) {g : World → World} (hg : v.Blind g) :
    (act.onHalt g).Ignores v := by
  refine h.followed (g := fun e => if e.isSome then g else id) (fun e => ?_) fun _ => rfl
  cases e with
  | none => exact Veil.blind_heap id
  | some e => exact hg

protected theorem onFailure (h : act.Ignores v) {g : World → World} (hg : v.Blind g) :
    (act.onFailure g).Ignores v := by
  refine h.followed (g := fun e => if e.any Halt.isFailure then g else id) (fun e => ?_) fun w => ?_
  · split_ifs
    · exact hg
    · exact Veil.blind_heap id
  · simp only [Run.onFailure]
    cases act w with
    | ok a w' => rfl
    | error e w' => cases e <;> rfl

protected theorem within (h : act.Ignores v) (f : Frame) : (Run.within f act).Ignores v := by
  intro w
  have hframes {u u' : World} (h : v.cover u = v.cover u') :
      v.cover { u with frames := w.frames } = v.cover { u' with frames := w.frames } :=
    congrArg (fun u : World => { u with frames := w.frames }) h
  -- the frame can be entered before or after the veil is drawn
  have hbody : veiled v (act { v.cover w with frames := f :: (v.cover w).frames }) =
      veiled v (act { w with frames := f :: w.frames }) := h { w with frames := f :: w.frames }
  unfold Run.within
  obtain ⟨a, u, u', hw, hu, hv⟩ | ⟨e, u, u', hw, hu, hv⟩ := veiled_cases hbody
  · rw [hw, hu]
    exact congrArg (EStateM.Result.ok a) (hframes hv)
  · rw [hw, hu]
    exact congrArg (EStateM.Result.error e) (hframes hv)

end Ignores

end Run

open Run

variable {v : Veil}

/-! ### Operations on the store -/

namespace Object

theorem ignores_retain (r : Ref) : (retain r).Ignores v := by
  cases r with
  | none => exact .pure none
  | some id =>
    refine .reading (fun _ => rfl) fun w => ?_
    split
    · exact .throw _
    · split_ifs
      · exact .pure _
      · exact .throw _
      · exact .throw _
      · exact (Ignores.modifyHeap _).bind fun _ => .pure _

theorem ignores_mismatch {α : Type} (op expected : Text) (r : Ref) :
    (mismatch op expected r : Run α).Ignores v := by
  refine Ignores.bind (.reading (fun _ => rfl) fun w => ?_) fun _ => .throw _
  cases w.heap.describe? r with
  | some t => exact .pure t
  | none => exact .throw _

theorem ignores_expect (op : Text) (tag : Tag) (r : Ref) : (expect op tag r).Ignores v := by
  refine .reading (fun _ => rfl) fun w => ?_
  split
  · exact .throw _
  · split_ifs
    · exact .throw _
    · exact .pure _
    · exact ignores_mismatch _ _ _

end Object

theorem Slots.ignores_append (r item : Ref) : (Slots.append r item).Ignores v := by
  refine Ignores.bind ((Object.ignores_expect _ _ r).bind fun o => ?_) fun items => ?_
  · split <;> exact .pure _
  · split
    · exact .pure _
    · refine .reading (fun _ => rfl) fun w => ?_
      split
      · exact .modifyHeap _
      · exact .pure _

namespace Pair

theorem ignores_sides (op : Text) (r : Ref) : (sides op r).Ignores v := by
  refine (Object.ignores_expect _ _ r).bind fun o => ?_
  split <;> exact .pure _

theorem ignores_setLeft (r a : Ref) : (setLeft r a).Ignores v :=
  (ignores_sides _ r).bind fun _ => (Object.ignores_retain a).bind fun _ =>
    (Ignores.modifyHeap _).bind fun _ => .drop _

theorem ignores_setRight (r a : Ref) : (setRight r a).Ignores v :=
  (ignores_sides _ r).bind fun _ => (Object.ignores_retain a).bind fun _ =>
    (Ignores.modifyHeap _).bind fun _ => .drop _

end Pair

namespace Scope

theorem ignores_retain (s : ScopeRef) : (retain s).Ignores v := by
  cases s with
  | none => exact .pure none
  | some id =>
    refine .reading (fun _ => rfl) fun w => ?_
    split
    · exact .throw _
    · split_ifs
      · exact .throw _
      · exact Ignores.bind (.modify (Veil.blind_note fun _ => rfl)) fun _ =>
          (Ignores.modifyHeap _).bind fun _ => .pure _

/-- A scope is read off the heap, and the reports name it. -/
theorem ignores_expect (op : Text) (s : ScopeRef) : (expect op s).Ignores v := by
  refine .reading (fun _ => rfl) fun w => ?_
  split
  · split_ifs
    · exact .throw _
    · exact .pure _
  · exact .throw _

theorem ignores_make (parent : ScopeRef) : (make parent).Ignores v := by
  refine (Ignores.updateHeap _).bind fun serial => (ignores_retain parent).bind fun _ =>
    (Ignores.updateHeap _).bind fun id => Ignores.bind ?_ fun _ => .pure id
  refine .reading (fun _ => rfl) fun w => ?_
  split_ifs
  · exact .modify (Veil.blind_record _)
  · exact .pure _

theorem ignores_bind (s : ScopeRef) (name : Text) (value : Ref) :
    (bind s name value).Ignores v := by
  refine (ignores_expect _ s).bind fun p => (Object.ignores_retain value).bind fun _ =>
    (Ignores.modifyHeap _).bind fun _ => ?_
  split
  · exact .drop _
  · exact .pure _

theorem ignores_assign (s : ScopeRef) (name : Text) (value : Ref) :
    (assign s name value).Ignores v := by
  refine (ignores_expect _ s).bind fun _ => .reading (fun _ => rfl) fun w => ?_
  dsimp only
  split
  · exact .throw _
  · exact (Object.ignores_retain value).bind fun _ => (Ignores.modifyHeap _).bind fun _ =>
      (Ignores.drop _).bind fun _ => .updateHeap _

/-- By induction on the bindings, each value of which gets an owner. -/
theorem ignores_appendAll (id : ScopeId) (b : List (Text × Ref)) :
    (appendAll id b).Ignores v := by
  induction b with
  | nil => exact .pure _
  | cons e b ih =>
    exact (Object.ignores_retain e.2).bind fun _ => (Ignores.modifyHeap _).bind fun _ => ih

theorem ignores_adopt (s : ScopeRef) : (adopt s).Ignores v :=
  (ignores_expect _ s).bind fun _ => (ignores_make _).bind fun _ =>
    (ignores_appendAll _ _).bind fun _ => (Ignores.drop _).bind fun _ => .pure _

end Scope

/-! ### Programs -/

/-- What is behind a veil makes no difference one level deeper. -/
structure Engine.Ignores (v : Veil) (engine : Engine) : Prop where
  run : ∀ code s, (engine.run code s).Ignores v
  call : ∀ f args, (engine.call f args).Ignores v

namespace Thunk

theorem blind_enter (id : ObjectId) : v.Blind (enter id) := fun w =>
  congrArg (World.witness (.entered id (w.frames.any (·.owner = id)))) (Veil.cover_note _ w)

theorem blind_keep (id : ObjectId) (o : Object) (t : Thunk) (value : Ref) :
    v.Blind (keep id o t value) := fun w =>
  congrArg (World.witness (.returned id o.dead))
    (Veil.cover_note _ { w with heap := _, nested := _ })

/-- Keeping the value of a thunk may give up a scope. -/
theorem blind_settle (r value : Ref) : v.Blind (settle r value) := fun w => by
  have hheap : (v.cover w).heap = w.heap := rfl
  unfold settle
  rw [hheap]
  split
  · exact Veil.blind_heap id w
  · split
    · exact (blind_keep _ _ _ value).drop _ w
    · exact blind_keep _ _ _ _ w

/-- The engine runs the code of a thunk; whether it is being evaluated already is only noted. -/
theorem ignores_force {engine : Engine} (he : engine.Ignores v) (r : Ref) :
    (force engine r).Ignores v := by
  refine .reading (fun _ => rfl) fun w => ?_
  split
  · exact .pure _
  · split_ifs
    · exact .throw _
    · split
      · exact Object.ignores_retain _
      · exact Ignores.bind (.modify (blind_enter _)) fun _ => ((he.run _ _).within _).bind fun a =>
          Ignores.bind (.modify (blind_settle r a)) fun _ =>
            .reading (fun _ => rfl) fun _ => Object.ignores_retain _

end Thunk

theorem Object.ignores_make (p : Payload) : (make p).Ignores v := .updateHeap _

theorem Object.ignores_truthy (r : Ref) : (truthy r).Ignores v := by
  refine .reading (fun _ => rfl) fun w => ?_
  split
  · exact .throw _
  · split
    · exact .throw _
    · exact .pure _
    · exact .pure _

theorem Arguments.ignores_exactly (op : Text) (args : List Ref) (n : Nat) :
    (exactly op args n).Ignores v := by
  unfold exactly
  cases checkCount op args.length n .exactly with
  | ok _ => exact .pure _
  | error f => exact .throw _

/-- A condition is evaluated before its truth is asked for. -/
theorem Eval.ignores_branch {engine : Engine} (he : engine.Ignores v) (r : Ref)
    {next : Bool → Run Ref} (hnext : ∀ b, (next b).Ignores v) :
    (branch engine r next).Ignores v :=
  ((Thunk.ignores_force he r).onFailure (Veil.blind_drop _)).bind fun _ =>
    Ignores.bind (.modify (Veil.blind_note fun _ => rfl)) fun _ =>
      Ignores.ensuring ((Object.ignores_truthy _).bind hnext) (Veil.blind_drop _)

theorem Library.ignores_negation {engine : Engine} {args : List Ref}
    (hforce : (Arguments.forceAfter engine [] args).Ignores v) :
    (Arguments.forcing engine args negation).Ignores v := by
  refine Ignores.bind hforce fun p => Ignores.ensuring ?_ (Veil.blind_drop _)
  refine (Arguments.ignores_exactly _ _ _).bind fun _ => ?_
  split
  · exact (Object.ignores_truthy _).bind fun _ => Object.ignores_make _
  · exact Object.ignores_make _

/-- What is built from the operations on the store ignores what is behind a veil. -/
theorem Run.Built.ignores {engine : Engine} {α : Type} {act : Run α} (h : act.Built engine)
    (he : engine.Ignores v) : act.Ignores v := by
  induction h with
  | pure a => exact .pure a
  | throw e _ => exact .throw e
  | bind _ _ ih ihk => exact ih.bind ihk
  | reading hbare _ ih => exact .reading hbare ih
  | record e => exact .modify (Veil.blind_record e)
  | print t => exact .modify (Veil.blind_print t)
  | note f hbare _ => exact .modify (Veil.blind_note hbare)
  | ensuringNote _ f hbare _ ih => exact ih.ensuring (Veil.blind_note hbare)
  | drop work => exact .drop work
  | ensuring _ work ih => exact ih.ensuring (Veil.blind_drop work)
  | onHalt _ work ih => exact ih.onHalt (Veil.blind_drop work)
  | onFailure _ work ih => exact ih.onFailure (Veil.blind_drop work)
  | within _ f ih => exact ih.within f
  | makeObject p _ => exact Object.ignores_make p
  | retain r => exact Object.ignores_retain r
  | append r item => exact Slots.ignores_append r item
  | setLeft r a => exact Pair.ignores_setLeft r a
  | setRight r a => exact Pair.ignores_setRight r a
  | addCall id s => exact .modifyHeap _
  | force r => exact Thunk.ignores_force he r
  | branch r _ ih => exact Eval.ignores_branch he r ih
  | negation _ ih => exact Library.ignores_negation ih
  | makeScope parent => exact Scope.ignores_make parent
  | retainScope s => exact Scope.ignores_retain s
  | bindName s name value => exact Scope.ignores_bind s name value
  | assignName s name value => exact Scope.ignores_assign s name value
  | adopt s => exact Scope.ignores_adopt s
  | run code s => exact he.run code s
  | call f args => exact he.call f args

/-- **Programs** ignore what is behind a veil, however deep their calls and thunks are nested. -/
theorem Engine.ignores_ofDepth (v : Veil) (n : Nat) : (ofDepth n).Ignores v := by
  induction n with
  | zero => exact ⟨fun _ _ => .throw _, fun _ _ => .throw _⟩
  | succ n ih =>
    exact ⟨fun c s => (Eval.built_code c s).ignores ih,
      fun f args => (Procedure.built_call f args).ignores ih⟩

/-! ### Logs -/

namespace Run

variable {α β : Type}

/-- The end of a run without its logs. -/
def unlogged : EStateM.Result Halt World α → EStateM.Result Halt World α
  | .ok a w => .ok a w.unlogged
  | .error e w => .error e w.unlogged

/-- With the veil on the logs this is what is left of a result. -/
theorem veiled_logs (r : EStateM.Result Halt World α) : veiled .logs r = unlogged r := by
  cases r <;> rfl

theorem unlogged_cases {r r' : EStateM.Result Halt World α} (h : unlogged r = unlogged r') :
    (∃ a w w', r = .ok a w ∧ r' = .ok a w' ∧ w.unlogged = w'.unlogged) ∨
      ∃ e w w', r = .error e w ∧ r' = .error e w' ∧ w.unlogged = w'.unlogged := by
  rw [← veiled_logs, ← veiled_logs] at h
  exact veiled_cases h

/-- Two runs after two runs that end in the same way but for their logs. -/
theorem unlogged_bind {act act' : Run α} {k k' : α → Run β} {w u : World}
    (h : unlogged (act w) = unlogged (act' u))
    (hk : ∀ a w' u', w'.unlogged = u'.unlogged → unlogged (k a w') = unlogged (k' a u')) :
    unlogged ((act >>= k) w) = unlogged ((act' >>= k') u) := by
  simp only [← veiled_logs] at h hk ⊢
  exact veiled_bind h hk

theorem Ignores.unlogged {act : Run α} (h : act.Ignores .logs) {w u : World}
    (hu : w.unlogged = u.unlogged) : Run.unlogged (act w) = Run.unlogged (act u) := by
  rw [← veiled_logs, ← veiled_logs]
  exact h.congr hu

end Run

theorem Engine.ignoresLogs_ofDepth (n : Nat) : (ofDepth n).Ignores .logs :=
  ignores_ofDepth .logs n

end CountedLisp
