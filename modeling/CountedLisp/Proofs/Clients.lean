import CountedLisp.Proofs.Workspaces

/-!
# Exact counts for clients

A client of the library makes calls one after the other and keeps track of the references that it
owns: a call can give some (`Call.perform`) and take some (`Call.takes`), which the client has to
own. It works in a workspace, in which it can start and end scopes. The bodies of functions and
thunks are clients, too: they start out with nothing and end with their result, and they have ended
all scopes by then that they have started (`Body`).

Counts are exact in every state that a client can get to: each is the number of references that the
client owns plus the number of those that living objects and scopes own, and for scopes the number
of entries on the stack. Two things must not have happened, which the rules for clients exclude: a
thunk must not be evaluated while it is being evaluated, and must not be given up by everyone
meanwhile.
-/

namespace CountedLisp

open Run

/-- A run that gives what its caller owns by it. -/
theorem Run.Sound.gains {α : Type} {P : Prop} {C S B : Share} {w : World} {act : Run α}
    {G : α → Share} (h : act.Sound P C S w G B) : (G <$> act).Sound P C S w id B := by
  rw [map_eq_pure_bind]
  exact h.bind fun _ hb _ => .pure hb

namespace Client

/-! ### Calls -/

/-- The calls that a client can make on objects and scopes. -/
inductive Call where
  | constant (c : Constant)
  | unspecified
  | emptyList
  | library (f : Builtin)
  | native (signature : Option Signature)
  | pair (left right : Ref)
  | list (items : List Ref)
  | vector (items : List Ref)
  | append (v item : Ref)
  | setLeft (p value : Ref)
  | setRight (p value : Ref)
  | retain (r : Ref)
  | release (r : Ref)
  | scope (parent : ScopeRef)
  | bind (s : ScopeRef) (name : Text) (value : Ref)
  | assign (s : ScopeRef) (name : Text) (value : Ref)
  | adopt (s : ScopeRef)
  | retainScope (s : ScopeRef)
  | releaseScope (s : ScopeRef)
  | function (params : List Text) (strict : Bool) (body : List Datum) (s : ScopeRef)
  | call (f : Ref) (args : List Ref)
  | spread (f : Ref) (args : List Ref)
  | thunk (code : Code) (s : ScopeRef)
  | force (r : Ref)

namespace Call

/-- Makes a call, and gives the references that the client gets by it. The value of what is no
thunk is that object itself, and there is no new reference to it. -/
def perform (engine : Engine) : Call → Run Share
  | .constant c => Share.ref <$> Object.constant c
  | .unspecified => Share.ref <$> Object.make .unspecified
  | .emptyList => pure (Share.ref Heap.emptyList)
  | .library f => Share.ref <$> Object.make (.lambda (.library f))
  | .native signature => Share.ref <$> Object.make (.lambda (.native signature))
  | .pair left right => Share.ref <$> Pair.make left right
  | .list items => Share.ref <$> Pair.makeList items
  | .vector items => Share.ref <$> Slots.make items
  | .append v item => (fun _ => 0) <$> Slots.append v item
  | .setLeft p value => (fun _ => 0) <$> Pair.setLeft p value
  | .setRight p value => (fun _ => 0) <$> Pair.setRight p value
  | .retain r => Share.ref <$> Object.retain r
  | .release r => (fun _ => 0) <$> Object.release r
  | .scope parent => (fun s => Share.scope (some s)) <$> Scope.make parent
  | .bind s name value => (fun _ => 0) <$> Scope.bind s name value
  | .assign s name value => Share.ref <$> Scope.assign s name value
  | .adopt s => (fun s => Share.scope (some s)) <$> Scope.adopt s
  | .retainScope s => Share.scope <$> Scope.retain s
  | .releaseScope s => (fun _ => 0) <$> Scope.release s
  | .function params strict body s => Share.ref <$> Procedure.close params strict body s
  | .call f args => Share.ref <$> Procedure.call engine f args
  | .spread f args => Share.ref <$> Procedure.spread engine f args
  | .thunk code s => Share.ref <$> Thunk.make code s
  | .force r => do
    let thunk := (← get).heap.isThunk r
    (fun v => if thunk then Share.ref v else 0) <$> Thunk.force engine r

/-- The references that a call takes from the client if it succeeds. -/
def takes : Call → Share
  | .append _ item => Share.ref item
  | .release r => Share.ref r
  | .adopt s => Share.scope s
  | .releaseScope s => Share.scope s
  | _ => 0

variable {C : Share} {w w' : World} {engine : Engine}

/-- **Every call keeps the books.** What a call takes is still owned if it fails. -/
theorem sound_perform (he : engine.Sound False) (c : Call) (hb : w.Books (c.takes + C)) :
    (c.perform engine).Sound False C 0 w id c.takes := by
  -- nothing is compared here, so that each call may count as lent whatever it is given
  have lent : ∀ D : Share, D ⊆ D + C := fun D => Multiset.subset_of_le (Multiset.le_add_right D C)
  have hplain : c.takes = 0 → w.Books C := fun h => hb.cast (by rw [h, zero_add])
  cases c with
  | constant c => exact .gains (Object.sound_constant c (hplain rfl))
  | unspecified => exact .gains (Object.sound_make_plain rfl rfl (hplain rfl))
  | emptyList => exact .pure (hplain rfl).emptyList
  | library f => exact .gains (Object.sound_make_plain rfl rfl (hplain rfl))
  | native signature => exact .gains (Object.sound_make_plain rfl rfl (hplain rfl))
  | pair left right => exact .gains (Pair.sound_make (hplain rfl) (lent _)).lend
  | list items => exact .gains (Pair.sound_makeList (hplain rfl) (lent _)).lend
  | vector items => exact .gains (Slots.sound_make (hplain rfl) (lent _)).lend
  | append v item => exact .gains (Slots.sound_append hb (lent _)).lend
  | setLeft p value =>
    rcases Share.add_subset.mp (lent (Share.ref p + Share.ref value)) with ⟨hp, hv⟩
    exact .gains (Pair.sound_setLeft (hplain rfl) hp hv).lend
  | setRight p value =>
    rcases Share.add_subset.mp (lent (Share.ref p + Share.ref value)) with ⟨hp, hv⟩
    exact .gains (Pair.sound_setRight (hplain rfl) hp hv).lend
  | retain r => exact .gains (Library.sound_retain (hplain rfl) (.of_subset fun _ hx => hx)).lend
  | release r => exact .gains (Object.sound_release hb)
  | scope parent =>
    have h : (Scope.make parent).Sound False C (Share.scope parent) w
        (fun s => Share.scope (some s) + 0) 0 := Scope.sound_make hb (.of_subset fun _ hx => hx)
    simp only [add_zero] at h
    exact .gains h.lend
  | bind s name value =>
    rcases Share.add_subset.mp (lent (Share.scope s + Share.ref value)) with ⟨hs, hv⟩
    exact .gains (Scope.sound_bind (hplain rfl) hs hv).lend
  | assign s name value =>
    rcases Share.add_subset.mp (lent (Share.scope s + Share.ref value)) with ⟨hs, hv⟩
    exact .gains (Scope.sound_assign (hplain rfl) hs hv).lend
  | adopt s => exact .gains (Scope.sound_adopt hb)
  | retainScope s =>
    have h : (Scope.retain s).Sound False C (Share.scope s) w
        (fun v => Share.scope v + 0) 0 := Scope.sound_retain hb (.of_subset fun _ hx => hx)
    simp only [add_zero] at h
    exact .gains h.lend
  | releaseScope s => exact .gains (Scope.sound_release (T := 0) (hb.cast (by rw [zero_add]; rfl)))
  | function params strict body s =>
    exact .gains (Procedure.sound_close (hplain rfl) (.of_subset fun _ hx => hx)).lend
  | call f args => exact .gains (Procedure.sound_call he (hplain rfl) (lent _)).lend
  | spread f args => exact .gains (Procedure.sound_spread he (hplain rfl) (lent _)).lend
  | thunk code s => exact .gains (Thunk.sound_make (hplain rfl) (.of_subset fun _ hx => hx)).lend
  | force r =>
    refine .get_bind ?_ nofun
    exact .gains (Thunk.sound_force he (hplain rfl) (lent _)).lend

end Call

/-! ### Holdings -/

/-- What a client owns, and the world. -/
structure Holdings where
  /-- The references that it owns. -/
  owned : Share
  /-- The world. -/
  world : World

namespace Holdings

/-- The holdings after a call. There are none if the client does not own what the call takes, or if
the call breaks the rules of counting. -/
def after (engine : Engine) (s : Holdings) (c : Call) : Option Holdings :=
  if c.takes ≤ s.owned then
    match c.perform engine s.world with
    | .ok gain w => some ⟨s.owned - c.takes + gain, w⟩
    | .error (.failure _) w => some ⟨s.owned, w⟩
    | .error _ _ => none
  else none

/-- The holdings after calls. -/
def afterAll (engine : Engine) (s : Holdings) (calls : List Call) : Option Holdings :=
  calls.foldlM (after engine) s

variable {C : Share} {engine : Engine} {s s' : Holdings}

theorem takes_add {c : Call} (ht : c.takes ≤ s.owned) :
    c.takes + (s.owned - c.takes + C) = s.owned + C := by
  rw [← add_assoc, add_comm c.takes, Multiset.sub_add_cancel ht]

/-- What one call does to the books. -/
theorem books_after (he : engine.Sound False) {c : Call} (h : s.after engine c = some s')
    (hb : s.world.Books (s.owned + C)) :
    s'.world.Books (s'.owned + C) ∧ s.world.Leads False s'.world := by
  unfold after at h
  split at h
  · next htakes =>
    have hsound := Call.sound_perform he c (hb.cast (takes_add htakes))
    split at h
    · next gain w hw =>
      cases h
      refine ⟨(hsound.ok hw).cast ?_, final_ok hw ▸ hsound.leads⟩
      simp only [id, add_assoc, add_left_comm]
    · next f w hw =>
      -- a call that fails takes nothing
      cases h
      exact ⟨(hsound.failed hw).cast (takes_add htakes).symm, final_error hw ▸ hsound.leads⟩
    · cases h
  · cases h

/-- What calls do to the books. -/
theorem books_afterAll (he : engine.Sound False) {calls : List Call}
    (h : s.afterAll engine calls = some s') (hb : s.world.Books (s.owned + C)) :
    s'.world.Books (s'.owned + C) ∧ s.world.Leads False s'.world := by
  induction calls generalizing s with
  | nil =>
    cases h
    exact ⟨hb, .refl False _⟩
  | cons c calls ih =>
    rw [afterAll, List.foldlM_cons] at h
    obtain ⟨t, ht, h⟩ := Option.bind_eq_some_iff.mp h
    obtain ⟨hb1, hl1⟩ := books_after he ht hb
    obtain ⟨hb2, hl2⟩ := ih h hb1
    exact ⟨hb2, hl1.trans hl2⟩

end Holdings

/-! ### Clients with a workspace -/

/-- What a client owns, the world, and the workspace in which the client works. -/
structure State extends Holdings where
  /-- The workspace. -/
  workspace : Workspace

/-- What a client can do. -/
inductive Action where
  | call (c : Call)
  /-- Starts a new scope. -/
  | push
  /-- Ends the innermost scope. -/
  | pop

namespace State

/-- The state after a change of the active scopes. -/
def moved (s : State) (act : Run Workspace) : Option State :=
  match act s.world with
  | .ok ws w => some { s with workspace := ws, world := w }
  | .error (.failure _) w => some { s with world := w }
  | .error _ _ => none

/-- The state after an action. -/
def after (engine : Engine) (s : State) : Action → Option State
  | .call c => (s.toHoldings.after engine c).map fun t => { s with toHoldings := t }
  | .push => s.moved (Prod.snd <$> s.workspace.pushScope)
  | .pop => s.moved s.workspace.popScope

/-- The state after actions. -/
def afterAll (engine : Engine) (s : State) (actions : List Action) : Option State :=
  actions.foldlM (after engine) s

/-- The state of a body after an action, which ends no scope that was there before the body: these
are the last `base` ones on the stack. -/
def afterWithin (engine : Engine) (base : Nat) (s : State) (a : Action) : Option State :=
  match a with
  | .call c => s.after engine (.call c)
  | .push => s.after engine .push
  | .pop => if base < s.workspace.depth then s.after engine .pop else none

/-- The state of a body after actions. -/
def afterAllWithin (engine : Engine) (base : Nat) (s : State) (actions : List Action) :
    Option State :=
  actions.foldlM (afterWithin engine base) s

/-- The books are right for a client that has started scopes on top of those in `base`: it owns what
it holds and the scopes that it has started, and others own `C`. -/
def Balanced (base : List ScopeId) (C : Share) (s : State) : Prop :=
  ∃ started, s.workspace.scopes.items = started ++ base ∧
    s.world.Books (s.owned + Share.scopes started + C)

variable {C : Share} {base : List ScopeId} {engine : Engine} {s s' : State}

theorem of_moved {act : Run Workspace} (h : s.moved act = some s') :
    (∃ ws w, act s.world = .ok ws w ∧ s' = { s with workspace := ws, world := w }) ∨
      ∃ f w, act s.world = .error (.failure f) w ∧ s' = { s with world := w } := by
  unfold moved at h
  split at h
  · next ws w hw => exact .inl ⟨ws, w, hw, (Option.some.inj h).symm⟩
  · next f w hw => exact .inr ⟨f, w, hw, (Option.some.inj h).symm⟩
  · cases h

theorem balanced_push (h : s.after engine .push = some s') (hb : s.Balanced base C) :
    s'.Balanced base C ∧ s.world.Leads False s'.world := by
  obtain ⟨started, hitems, hb⟩ := hb
  -- nothing is compared here, so that the innermost scope may count as lent
  have hpush : s.workspace.pushScope.Sound False (s.owned + Share.scopes started + C)
      (Share.scope s.workspace.scopes.items.head?) s.world (fun p => Share.scope (some p.1)) 0 :=
    Workspace.sound_pushScope (hb.cast (zero_add _))
      (fun t rest ht => .of_subset fun x hx => by rwa [ht, List.head?_cons]) nofun
  obtain ⟨ws, w, hw, rfl⟩ | ⟨f, w, hw, rfl⟩ := of_moved h
  · obtain ⟨⟨t, ws'⟩, hp, rfl⟩ := of_map_ok hw
    obtain rfl := Workspace.pushScope_ok hp
    refine ⟨⟨t :: started, by simp [Stack.push, hitems], (hpush.ok hp).cast ?_⟩,
      final_ok hp ▸ hpush.leads⟩
    simp only [Share.scopes_cons, add_assoc, add_left_comm]
  · have hp : s.workspace.pushScope s.world = .error (.failure f) w := map_eq_error.mp hw
    exact ⟨⟨started, hitems, (hpush.failed hp).cast (zero_add _).symm⟩,
      final_error hp ▸ hpush.leads⟩

theorem balanced_pop (h : s.after engine .pop = some s') (hb : s.Balanced base C)
    (hbase : base = [] ∨ base.length < s.workspace.depth) :
    s'.Balanced base C ∧ s.world.Leads False s'.world := by
  obtain ⟨started, hitems, hb⟩ := hb
  obtain ⟨f, -, hf⟩ | ⟨t, u, rest, hstack, hp⟩ := s.workspace.popScope_cases
  · -- there is no scope to end
    obtain ⟨ws, w, hw, rfl⟩ | ⟨g, w, hw, rfl⟩ := of_moved h
    · rw [hf] at hw
      cases hw
    · rw [hf] at hw
      cases hw
      exact ⟨⟨started, hitems, hb⟩, .refl False _⟩
  · -- the client has started the innermost scope
    cases started with
    | nil =>
      rw [List.nil_append] at hitems
      rcases hbase with rfl | hlt
      · rw [hstack] at hitems
        cases hitems
      · rw [Workspace.depth, Stack.size, hitems] at hlt
        exact absurd hlt (lt_irrefl _)
    | cons t' started =>
      rw [hstack, List.cons_append] at hitems
      obtain ⟨rfl, hrest⟩ := List.cons.inj hitems
      have hleave : (Workspace.leave t).Sound False (s.owned + Share.scopes started + C) 0 s.world
          (fun _ => 0) 0 := by
        refine Workspace.sound_leave (hb.cast ?_)
        simp only [Share.scopes_cons, add_assoc, add_left_comm, zero_add]
      have hsound : s.workspace.popScope.Sound False (s.owned + Share.scopes started + C) 0 s.world
          (fun _ => 0) 0 := by
        rw [hp]
        exact hleave.bind fun _ hb1 _ => .pure hb1
      obtain ⟨ws, w, hw, rfl⟩ | ⟨g, w, hw, rfl⟩ := of_moved h
      · refine ⟨⟨started, ?_, (hsound.ok hw).cast (zero_add _).symm⟩, final_ok hw ▸ hsound.leads⟩
        obtain ⟨s1, t1, rest1, hs1, rfl⟩ := Workspace.popScope_items hw
        rw [hstack] at hs1
        cases hs1
        exact hrest
      · rw [hp, bind_ok (Workspace.leave_ok t s.world).choose_spec] at hw
        cases hw

/-- What an action does to the books: client and stack are the owners outside of the heap. -/
theorem balanced_after (he : engine.Sound False) {a : Action} (h : s.after engine a = some s')
    (hb : s.Balanced base C) (hbase : a = .pop → base = [] ∨ base.length < s.workspace.depth) :
    s'.Balanced base C ∧ s.world.Leads False s'.world := by
  cases a with
  | call c =>
    obtain ⟨started, hitems, hb⟩ := hb
    obtain ⟨t, ht, rfl⟩ := Option.map_eq_some_iff.mp h
    obtain ⟨hb1, hl1⟩ := Holdings.books_after he ht (hb.cast (add_assoc _ _ _).symm)
    exact ⟨⟨started, hitems, hb1.cast (add_assoc _ _ _)⟩, hl1⟩
  | push => exact balanced_push h hb
  | pop => exact balanced_pop h hb (hbase rfl)

theorem of_afterWithin {n : Nat} {a : Action} (h : s.afterWithin engine n a = some s') :
    s.after engine a = some s' ∧ (a = .pop → n < s.workspace.depth) := by
  cases a with
  | call c => exact ⟨h, nofun⟩
  | push => exact ⟨h, nofun⟩
  | pop =>
    unfold afterWithin at h
    split_ifs at h with hlt
    exact ⟨h, fun _ => hlt⟩

theorem balanced_afterWithin (he : engine.Sound False) {a : Action}
    (h : s.afterWithin engine base.length a = some s') (hb : s.Balanced base C) :
    s'.Balanced base C ∧ s.world.Leads False s'.world := by
  obtain ⟨h, hlt⟩ := of_afterWithin h
  exact balanced_after he h hb fun ha => .inr (hlt ha)

/-- What steps that keep the books do one after the other. -/
theorem balanced_foldlM {step : State → Action → Option State}
    (hstep : ∀ {s s' a}, step s a = some s' → s.Balanced base C →
      s'.Balanced base C ∧ s.world.Leads False s'.world) {actions : List Action}
    (h : actions.foldlM step s = some s') (hb : s.Balanced base C) :
    s'.Balanced base C ∧ s.world.Leads False s'.world := by
  induction actions generalizing s with
  | nil =>
    cases h
    exact ⟨hb, .refl False _⟩
  | cons a actions ih =>
    rw [List.foldlM_cons] at h
    obtain ⟨t, ht, h⟩ := Option.bind_eq_some_iff.mp h
    obtain ⟨hb1, hl1⟩ := hstep ht hb
    obtain ⟨hb2, hl2⟩ := ih h hb1
    exact ⟨hb2, hl1.trans hl2⟩

/-- The books of a client that has started all scopes of its workspace. -/
theorem books_afterAll (he : engine.Sound False) {actions : List Action}
    (h : s.afterAll engine actions = some s')
    (hb : s.world.Books (s.owned + s.workspace.share)) :
    s'.world.Books (s'.owned + s'.workspace.share) ∧ s.world.Leads False s'.world := by
  have hb0 : s.Balanced [] 0 := ⟨_, (List.append_nil _).symm, hb.cast (add_zero _)⟩
  obtain ⟨⟨started, hitems, hb1⟩, hl⟩ := balanced_foldlM
    (fun h hb => balanced_after he h hb fun _ => .inl rfl) h hb0
  rw [List.append_nil] at hitems
  rw [Workspace.share, hitems]
  exact ⟨hb1.cast (add_zero _).symm, hl⟩

end State

/-! ### Conforming bodies -/

/-- What a body does in a world: it makes calls, and starts and ends scopes in a workspace, starting
with nothing of its own. It ends with owning nothing but its result, or nothing at all if it fails,
and the scopes are active that were so before. It is stopped by nothing but one of its actions. -/
inductive Body (engine : Engine) (w : World) : EStateM.Result Halt World Ref → Prop where
  | returns {ws : Workspace} {actions : List Action} {v : Ref} {w' : World}
    (h : State.afterAllWithin engine ws.depth ⟨⟨0, w⟩, ws⟩ actions = some ⟨⟨Share.ref v, w'⟩, ws⟩) :
    Body engine w (.ok v w')
  | fails {ws : Workspace} {actions : List Action} {f : Failure} {w' : World}
    (h : State.afterAllWithin engine ws.depth ⟨⟨0, w⟩, ws⟩ actions = some ⟨⟨0, w'⟩, ws⟩) :
    Body engine w (.error (.failure f) w')
  | stops {ws : Workspace} {actions : List Action} {s : State} {c : Call} {e : Halt} {w' : World}
    (h : State.afterAllWithin engine ws.depth ⟨⟨0, w⟩, ws⟩ actions = some s)
    (ht : c.takes ≤ s.owned) (hc : c.perform engine s.world = .error e w')
    (he : ∀ f, e ≠ .failure f) : Body engine w (.error e w')
  | stopsAtPush {ws : Workspace} {actions : List Action} {s : State} {e : Halt} {w' : World}
    (h : State.afterAllWithin engine ws.depth ⟨⟨0, w⟩, ws⟩ actions = some s)
    (hp : s.workspace.pushScope s.world = .error e w') (he : ∀ f, e ≠ .failure f) :
    Body engine w (.error e w')

/-- A body that makes one call and gives its result. -/
theorem Body.single {engine : Engine} {c : Call} {act : Run Ref} (hc : c.takes = 0)
    (ha : c.perform engine = Share.ref <$> act) (w : World) : Body engine w (act w) := by
  let ws : Workspace := { globals := ⟨0⟩, scopes := .empty, registry := ⟨0⟩ }
  have hafter : State.afterAllWithin engine ws.depth ⟨⟨0, w⟩, ws⟩ [.call c] =
      (Holdings.after engine ⟨0, w⟩ c).map fun t => ⟨t, ws⟩ := by
    simp [State.afterAllWithin, State.afterWithin, State.after]
  have hperform : c.perform engine w = (Share.ref <$> act : Run Share) w := by rw [ha]
  cases hw : act w with
  | ok v w' =>
    refine .returns (hafter.trans ?_)
    have : c.perform engine w = .ok (Share.ref v) w' := by
      simp [hperform, Functor.map, EStateM.map, hw]
    simp [Holdings.after, hc, this]
  | error e w' =>
    have herror : c.perform engine w = .error e w' := by
      simp [hperform, Functor.map, EStateM.map, hw]
    by_cases hf : ∃ f, e = .failure f
    · obtain ⟨f, rfl⟩ := hf
      refine .fails (hafter.trans ?_)
      simp [Holdings.after, hc, herror]
    · -- the one call stops the body before it has got anything
      have h0 : State.afterAllWithin engine ws.depth ⟨⟨0, w⟩, ws⟩ [] = some ⟨⟨0, w⟩, ws⟩ := rfl
      exact .stops h0 (by simp [hc]) herror fun f he => hf ⟨f, he⟩

/-- An engine all of whose bodies follow the convention, on every level. -/
inductive Conforms : Engine → Prop where
  | none : Conforms .none
  | deeper {inner engine : Engine} (h : Conforms inner)
    (hrun : ∀ code s w, Body inner w (engine.run code s w))
    (hcall : ∀ f args, engine.call f args = Procedure.call inner f args) : Conforms engine

/-- A run that ends with an early stop that is no failure. -/
theorem sound_of_halt {C S : Share} {w w' : World} {act : Run Ref} {e : Halt}
    (hr : act w = .error e w') (he : ∀ f, e ≠ .failure f) (hl : w.Leads False w') :
    act.Sound False C S w Share.ref 0 := by
  refine ⟨final_error hr ▸ hl, fun hok => ?_, fun hf => ?_, nofun, nofun, nofun⟩
  · rw [hr] at hok
    cases hok
  · rw [hr] at hf
    cases hf
    exact absurd rfl (he _)

/-- A body that follows the convention is sound. -/
theorem Body.sound {C S : Share} {w : World} {inner : Engine} {act : Run Ref}
    (he : inner.Sound False) (hb : w.Books C) (h : Body inner w (act w)) :
    act.Sound False C S w Share.ref 0 := by
  -- what has been started is what is above the scopes that were there before
  have hrun : ∀ {ws : Workspace} {actions : List Action} {s : State},
      State.afterAllWithin inner ws.depth ⟨⟨0, w⟩, ws⟩ actions = some s →
        s.Balanced ws.scopes.items C ∧ w.Leads False s.world := fun h =>
    State.balanced_foldlM (fun h hb => State.balanced_afterWithin he h hb) h
      ⟨[], rfl, hb.cast (by simp)⟩
  have hdone : ∀ {ws : Workspace} {owned : Share} {w' : World},
      State.Balanced ws.scopes.items C ⟨⟨owned, w'⟩, ws⟩ → w'.Books (owned + C) := by
    rintro ws owned w' ⟨started, hitems, hb'⟩
    obtain rfl : started = [] := by simpa using hitems.symm
    exact hb'.cast (by simp)
  generalize hr : act w = r at h
  cases h with
  | returns h =>
    obtain ⟨hb1, hl1⟩ := hrun h
    exact .of_ok hr hl1 (hdone hb1) nofun nofun
  | fails h =>
    obtain ⟨hb1, hl1⟩ := hrun h
    refine ⟨final_error hr ▸ hl1, fun hok => ?_, fun hf => ?_, nofun, nofun, nofun⟩
    · rw [hr] at hok
      cases hok
    · rw [hr] at hf
      cases hf
      exact hdone hb1
  | @stops ws actions s c e w' h ht hc hstop =>
    obtain ⟨⟨started, -, hb1⟩, hl1⟩ := hrun h
    -- the call that stops the body still leads to a later world
    have hlast := (Call.sound_perform he c
      (hb1.cast ((Holdings.takes_add ht).trans (add_assoc _ _ _).symm))).leads
    rw [final_error hc] at hlast
    exact sound_of_halt hr hstop (hl1.trans hlast)
  | @stopsAtPush ws actions s e w' h hp hstop =>
    obtain ⟨⟨started, -, hb1⟩, hl1⟩ := hrun h
    have hlast := (Workspace.sound_pushScope (P := False) (hb1.cast (zero_add _))
      (S := Share.scope s.workspace.scopes.items.head?)
      (fun t rest ht => .of_subset fun x hx => by rwa [ht, List.head?_cons]) nofun).leads
    rw [final_error hp] at hlast
    exact sound_of_halt hr hstop (hl1.trans hlast)

/-- Going one level deeper is sound if all bodies follow the convention. -/
theorem Conforms.sound {engine : Engine} (h : Conforms engine) : engine.Sound False := by
  induction h with
  | none => exact Engine.sound_none False
  | deeper _ hrun hcall ih =>
    refine ⟨fun code s hb => (hrun code s _).sound ih hb, fun f args hb => ?_⟩
    rw [hcall]
    exact Procedure.sound_call ih hb (Multiset.subset_of_le (Multiset.le_add_right _ _))

/-! ### Exact counts -/

/-- **Counts are exact.** A client starts with a new workspace. However it goes on, the count of
every living object except for the empty list is the number of references that the client owns plus
those that living objects and scopes own; the count of every living scope is that number plus the
number of its entries on the stack. No count of a scope may have started again from zero. -/
theorem count_eq_owners {engine : Engine} (he : Conforms engine) {tables : List Builtin.Table}
    {w₀ w : World} {ws : Workspace} {actions : List Action} {s : State} (hw : w₀.Fresh)
    (hmake : Workspace.make tables w₀ = .ok ws w)
    (hrun : State.afterAll engine ⟨⟨0, w⟩, ws⟩ actions = some s)
    (hreentered : s.world.conduct.reentered = false)
    (habandoned : s.world.conduct.abandoned = false)
    (hwrapped : s.world.conduct.wrapped = false) :
    (∀ id o, s.world.heap.object? id = some o → o.dead = false → o.payload.isImmortal = false →
      o.refs.toNat = s.owned.count (.object id) + s.world.heap.owners (.object id)) ∧
    (∀ id x, s.world.heap.scope? id = some x → x.dead = false →
      x.refs.toNat = s.owned.count (.scope id) + s.workspace.scopes.items.count id +
        s.world.heap.owners (.scope id)) := by
  have hmade : (Workspace.make tables).Sound False 0 0 w₀ Workspace.share 0 :=
    Workspace.sound_make tables hw.books
  obtain ⟨hb, hl⟩ := State.books_afterAll he.sound hrun ((hmade.ok hmake).cast (add_comm _ _))
  -- without programs there are no conditions
  have hleads := (final_ok hmake ▸ hmade.leads : w₀.Leads False w).trans hl
  have hknotted : s.world.conduct.knotted = false := by
    rw [hleads.conduct.plain not_false, hw.conduct]
  -- a tidy run has lost nothing
  obtain ⟨L, hL, ha⟩ := hb.accounts
  obtain rfl := hL ⟨hreentered, habandoned, hknotted⟩
  have ha := ha hwrapped
  rw [add_zero] at ha
  refine ⟨fun id o ho _ hi => ?_, fun id x hx _ => ?_⟩
  · rw [ha.object_count ho hi, Multiset.count_add, s.workspace.count_share_object, add_zero]
  · rw [ha.scope_count hx, Multiset.count_add, s.workspace.count_share_scope]

/-- A client gets many references to a scope. -/
theorem State.afterAll_retainScope (engine : Engine) {s : State} {id : ScopeId} {x : Scope}
    (hx : s.world.heap.scope? id = some x) (hd : x.dead = false) (n : Nat) : ∃ w' b,
      s.afterAll engine (List.replicate n (.call (.retainScope (some id)))) =
        some { s with owned := s.owned + Multiset.replicate n (.scope id), world := w' } ∧
      w'.heap.scope? id = some { x with refs := x.refs + UInt32.ofNat n } ∧
      w'.conduct = { s.world.conduct with wrapped := b } := by
  induction n generalizing s x with
  | zero => exact ⟨s.world, _, by simp [afterAll], by simpa using hx, rfl⟩
  | succ n ih =>
    let w₁ : World := { s.world.note x.countUp with
      heap := s.world.heap.setScope id { x with refs := x.refs + 1 } }
    let t : State := { s with owned := s.owned + {.scope id}, world := w₁ }
    have hstep : s.after engine (.call (.retainScope (some id))) = some t := by
      have hretain : (Call.retainScope (some id)).perform engine s.world =
          .ok (Share.scope (some id)) w₁ := by
        rw [Call.perform, Run.map_ok (Scope.retain_of_living hx hd)]
      simp [after, Holdings.after, hretain, Call.takes, Multiset.zero_le, t, Share.scope,
        Handle.ofScope]
    obtain ⟨w', b, hrun, hx', hw'⟩ := ih (s := t) (Heap.scope?_setScope_self _ hx) hd
    refine ⟨w', b, ?_, ?_, hw'⟩
    · rw [List.replicate_succ, afterAll, List.foldlM_cons, hstep]
      refine hrun.trans ?_
      simp [t, Multiset.replicate_succ, add_assoc]
    · rw [hx']
      simp [UInt32.ofNat_add, UInt32.add_assoc, UInt32.add_comm]

/-- An engine whose bodies make a pair. -/
def pairing : Engine :=
  { run := fun _ _ => Pair.make Heap.emptyList Heap.emptyList
    call := Procedure.call .none }

theorem conforms_pairing : Conforms pairing :=
  .deeper .none (fun _ _ => Body.single (c := .pair Heap.emptyList Heap.emptyList) rfl rfl)
    fun _ _ => rfl

/-- A client that makes a number and a pair of it, binds the pair in a new scope, makes a thunk
there, leaves the scope, evaluates the thunk, makes a function and calls it, and puts the thunk into
the pair. -/
def mixedActions : List Action :=
  [.call (.constant (.integer 5)), .call (.pair (some ⟨26⟩) (some ⟨26⟩)),
    .call (.release (some ⟨26⟩)), .push, .call (.bind (some ⟨1⟩) "p" (some ⟨27⟩)),
    .call (.thunk (.sequence []) (some ⟨1⟩)), .pop, .call (.force (some ⟨28⟩)),
    .call (.function [] false [] (some ⟨0⟩)), .call (.call (some ⟨30⟩) []),
    .call (.setLeft (some ⟨27⟩) (some ⟨28⟩))]

set_option maxRecDepth 100000 in
theorem count_eq_owners_mixedActions : ∃ (w : World) (ws : Workspace) (s : State),
    Workspace.make [] {} = .ok ws w ∧ State.afterAll pairing ⟨⟨0, w⟩, ws⟩ mixedActions = some s ∧
    s.owned.card = 5 ∧ s.world.conduct = {} ∧
    (∀ id o, s.world.heap.object? id = some o → o.dead = false → o.payload.isImmortal = false →
      o.refs.toNat = s.owned.count (.object id) + s.world.heap.owners (.object id)) ∧
    (∀ id x, s.world.heap.scope? id = some x → x.dead = false →
      x.refs.toNat = s.owned.count (.scope id) + s.workspace.scopes.items.count id +
        s.world.heap.owners (.scope id)) := by
  have hends : (match Workspace.make [] {} with
      | .ok ws w => (State.afterAll pairing ⟨⟨0, w⟩, ws⟩ mixedActions).any fun s =>
        s.owned.card == 5 && s.world.conduct == {}
      | .error _ _ => false) = true := by decide +kernel
  cases hmake : Workspace.make [] {} with
  | error e w => rw [hmake] at hends; cases hends
  | ok ws w =>
    rw [hmake] at hends
    obtain ⟨s, hrun, hends⟩ := Option.any_eq_true _ _ |>.mp hends
    simp only [Bool.and_eq_true, beq_iff_eq] at hends
    have hmarks := hends.2
    exact ⟨w, ws, s, rfl, hrun, hends.1, hmarks,
      count_eq_owners conforms_pairing ⟨rfl, rfl, rfl, rfl⟩ hmake hrun (by rw [hmarks])
        (by rw [hmarks]) (by rw [hmarks])⟩

/-- With more owners than can be counted the count is wrong: the client gets as many references to
the global scope as can be counted, and one more owner is the stack. The scope lives with a count of
zero. -/
theorem count_ne_owners_wrapped : ∃ (w : World) (ws : Workspace) (s : State) (x : Scope),
    Workspace.make [] {} = .ok ws w ∧
    State.afterAll pairing ⟨⟨0, w⟩, ws⟩
      (List.replicate 4294967295 (.call (.retainScope (some ws.globals)))) = some s ∧
    s.world.conduct.reentered = false ∧ s.world.conduct.abandoned = false ∧
    s.world.heap.scope? ws.globals = some x ∧ x.dead = false ∧ x.refs = 0 ∧
    s.owned.count (.scope ws.globals) = 4294967295 ∧
    s.workspace.scopes.items.count ws.globals = 1 := by
  have hends : (match Workspace.make [] {} with
      | .ok ws w => (w.heap.scope? ws.globals).any fun x =>
        !x.dead && x.refs == 1 && ws.scopes.items.count ws.globals == 1 && w.conduct == {}
      | .error _ _ => false) = true := by decide +kernel
  cases hmake : Workspace.make [] {} with
  | error e w => rw [hmake] at hends; cases hends
  | ok ws w =>
    rw [hmake] at hends
    obtain ⟨x, hx, hends⟩ := Option.any_eq_true _ _ |>.mp hends
    simp only [Bool.and_eq_true, Bool.not_eq_true', beq_iff_eq] at hends
    obtain ⟨⟨⟨hd, hrefs⟩, hcount⟩, hconduct⟩ := hends
    -- the run is known for every number of calls, so that none of them is made here
    obtain ⟨w', b, hrun, hx', hw'⟩ := State.afterAll_retainScope pairing
      (s := ⟨⟨0, w⟩, ws⟩) hx hd 4294967295
    refine ⟨w, ws, _, _, rfl, hrun, ?_, ?_, hx', hd, ?_, ?_, hcount⟩
    · rw [hw', hconduct]
    · rw [hw', hconduct]
    · show x.refs + UInt32.ofNat 4294967295 = 0
      rw [hrefs]
      decide
    · rw [zero_add, Multiset.count_replicate_self]

end Client

end CountedLisp
