import CountedLisp.Proofs.Registries
import CountedLisp.Proofs.Sessions
import CountedLisp.Proofs.Teardown

/-!
# Closing a workspace

Closing a workspace first gives up the scopes on its stack, and then destroys the scopes that are
still in its registry, the oldest first, until there are none. `Heap.Course` records what happens
thereby, reference by reference: which references are given up and what is destroyed.

If registries are exact, then a scope that is taken from the registry lives, so that it is destroyed
and leaves the registry. The loop therefore ends (`Workspace.drain_ok`).

The course is a teardown (`Course.teardown`). So nothing is destroyed twice, what is destroyed gives
up the references that it owned when the closing began, each of them once, and apart from these
nothing is given up but the scopes on the stack. For a scope these are the values of its bindings
and the scope around it (`count_ownedBy_scope`, `Course.count_given_of_scope`).
-/

namespace CountedLisp

open Run

namespace Heap

/-! ### The course of destruction -/

/-- References are given up in order, together with all that thereby comes to be given up, and then
the scopes of a registry are destroyed, the oldest first, until the registry is empty. The
references that are given up on the way and what is destroyed are recorded in order. -/
inductive Course (r : RegistryId) :
    Heap → List Handle → List Handle → List Handle → Heap → Prop where
  /-- Nothing is left to be given up, and the registry is empty. -/
  | done {h : Heap} (hr : h.registry r = []) : Course r h [] [] [] h
  /-- A reference is given up without anything being destroyed. -/
  | less {h h' : Heap} {x : Handle} {rest given fallen : List Handle}
    (hx : (h.dropOne x).demise = none)
    (hc : Course r (h.dropOne x).heap rest given fallen h') :
    Course r h (x :: rest) (x :: given) fallen h'
  /-- The last reference to something is given up. -/
  | last {h h' : Heap} {x : Handle} {rest given fallen : List Handle}
    (hx : (h.dropOne x).demise ≠ none)
    (hc : Course r (h.dropOne x).heap ((h.dropOne x).freed ++ rest) given fallen h') :
    Course r h (x :: rest) (x :: given) (x :: fallen) h'
  /-- A scope is destroyed although it may be owned. -/
  | destroy {h h' : Heap} {n : Nat} {id : ScopeId} {s : Scope} {given fallen : List Handle}
    (hr : (h.registry r).getLast? = some (n, id)) (hs : h.scope? id = some s)
    (hd : s.dead = false) (hc : Course r (h.destroyScope id s).heap s.owned given fallen h') :
    Course r h [] given (.scope id :: fallen) h'

/-! ### Every step -/

namespace Course

variable {r : RegistryId} {h h' : Heap} {work given fallen : List Handle}

theorem registry_eq_nil (hc : Course r h work given fallen h') : h'.registry r = [] := by
  induction hc with
  | done hr => exact hr
  | less _ _ ih => exact ih
  | last _ _ ih => exact ih
  | destroy _ _ _ _ ih => exact ih

theorem teardown (hc : Course r h work given fallen h') : h.Teardown work given fallen h' := by
  induction hc with
  | done => exact .done _
  | less hx _ ih => exact .less (lessens_dropOne hx) ih
  | last hx _ ih =>
    rw [(dropOne_of_demise_ne_none hx).2.1] at ih
    exact .last (destroys_dropOne hx) ih
  | @destroy h _ _ id s _ _ _ hs hd _ ih =>
    have howned : h.ownedBy (.scope id) = s.owned := by simp [ownedBy, hs]
    exact .destroy (destroys_destroyScope hs hd) (howned ▸ ih)

theorem moves {p : Prop} (hc : Course r h work given fallen h') : h.Moves p h' := by
  induction hc with
  | done => exact .refl
  | less _ _ ih => exact .head (.drop _) ih
  | last _ _ ih => exact .head (.drop _) ih
  | destroy _ hs _ _ ih => exact .head (.destroy hs) ih

/-- References that are given up in one go are so one by one. -/
theorem of_drop {died : Array Demise} (hc : Course r (h.drop died work).1 [] given fallen h') :
    ∃ given fallen, Course r h work given fallen h' := by
  fun_induction Heap.drop h died work with
  | case1 => exact ⟨_, _, hc⟩
  | case2 h died x rest step ih =>
    obtain ⟨given, fallen, hc⟩ := ih hc
    by_cases hx : (h.dropOne x).demise = none
    · rw [(dropOne_of_demise_eq_none hx).1] at hc
      exact ⟨_, _, .less hx hc⟩
    · exact ⟨_, _, .last hx hc⟩

end Course

/-! ### What a scope gives up -/

/-- A scope owns the values of its bindings, each as often as names are bound to it, and the scope
around it once. -/
theorem count_ownedBy_scope {h : Heap} {id : ScopeId} {s : Scope} (hs : h.scope? id = some s) :
    (∀ o, (h.ownedBy (.scope id)).count (.object o) = s.bindings.countP fun b => b.2 = some o) ∧
      ∀ p, (h.ownedBy (.scope id)).count (.scope p) = if s.parent = some p then 1 else 0 := by
  have howned : h.ownedBy (.scope id) = s.owned := by simp [ownedBy, hs]
  rw [howned, Scope.owned]
  refine ⟨fun o => ?_, fun p => ?_⟩
  · have hparent : (Handle.ofScope s.parent).count (.object o) = 0 := by
      simp [Handle.ofScope, List.count_eq_zero]
    rw [List.count_append, hparent, Nat.add_zero]
    induction s.bindings with
    | nil => rfl
    | cons b rest ih =>
      obtain ⟨name, v⟩ := b
      cases v with
      | none => simpa [Handle.objects] using ih
      | some v => simpa [Handle.objects, List.count_cons, List.countP_cons] using ih
  · have hvalues : (Handle.objects (s.bindings.map (·.2))).count (.scope p) = 0 := by
      simp [Handle.objects, List.count_eq_zero]
    rw [List.count_append, hvalues, Nat.zero_add]
    cases s.parent with
    | none => rfl
    | some q => simp [Handle.ofScope, List.count_singleton]

/-- If a scope is destroyed on the way, then the values bound in it are given up, each as often as
names are bound to it, and so is the scope around it. -/
theorem Course.count_given_of_scope {r : RegistryId} {h h' : Heap} {work given fallen : List Handle}
    (hc : Course r h work given fallen h') {id : ScopeId} {s : Scope} (hs : h.scope? id = some s)
    (hf : .scope id ∈ fallen) :
    (∀ o, (s.bindings.countP fun b => b.2 = some o) ≤ given.count (.object o)) ∧
      ∀ p, s.parent = some p → .scope p ∈ given := by
  have hsub : List.Sublist (h.ownedBy (.scope id)) (fallen.flatMap h.ownedBy) := by
    exact List.flatMap_def ▸ List.sublist_flatten_of_mem (List.mem_map_of_mem hf)
  have hle : ∀ x, (h.ownedBy (.scope id)).count x ≤ given.count x := by
    intro x
    have hperm : given.Perm (work ++ fallen.flatMap h.ownedBy) :=
      Multiset.coe_eq_coe.mp hc.teardown.given_eq
    rw [hperm.count_eq, List.count_append]
    exact Nat.le_add_left_of_le (hsub.count_le x)
  obtain ⟨hvalues, hparent⟩ := count_ownedBy_scope hs
  refine ⟨fun o => hvalues o ▸ hle _, fun p hp => ?_⟩
  have hone : 1 ≤ given.count (.scope p) := by
    have := hle (.scope p)
    rwa [hparent p, if_pos hp] at this
  exact List.count_pos_iff.mp hone

/-! ### Registries get shorter -/

theorem length_registry_dropOne (h : Heap) (x : Handle) (r : RegistryId) :
    ((h.dropOne x).heap.registry r).length ≤ (h.registry r).length := by
  have hx := drops_dropOne h x
  generalize (h.dropOne x).heap = k, (h.dropOne x).freed = freed at hx ⊢
  cases hx with
  | idle | lessObject | lastObject | lessScope => exact le_rfl
  | lastScope =>
    rw [registry_destroyed]
    split_ifs
    · exact List.length_filter_le _ _
    · exact le_rfl

theorem length_registry_drop (h : Heap) (died : Array Demise) (work : List Handle)
    (r : RegistryId) :
    ((h.drop died work).1.registry r).length ≤ (h.registry r).length := by
  fun_induction Heap.drop h died work with
  | case1 => exact le_rfl
  | case2 h died x rest step ih => exact ih.trans (length_registry_dropOne h x r)

/-- A scope that is found in a registry leaves it when it is destroyed. -/
theorem length_registry_destroy {h : Heap} (ht : h.Tracked) {r : RegistryId} {n : Nat}
    {id : ScopeId} (he : (n, id) ∈ h.registry r) :
    ((h.destroy id).1.registry r).length < (h.registry r).length := by
  obtain ⟨s, hs, rfl, hr, hd⟩ := (ht.mem_iff r n id).mp he
  simp only [destroy, hs]
  refine (length_registry_drop _ _ _ r).trans_lt ?_
  rw [destroyScope, if_neg (by simp [hd]), registry_destroyed, if_pos hr]
  exact List.length_filter_lt_length_iff_exists.mpr ⟨_, he, by simp⟩

/-- If a registry is empty then all scopes that belong to it are dead. -/
theorem Tracked.dead_of_registry_eq_nil {h : Heap} (ht : h.Tracked) {r : RegistryId} {id : ScopeId}
    {s : Scope} (hs : h.scope? id = some s) (hreg : s.registry = some r) (hr : h.registry r = []) :
    s.dead = true := by
  by_contra hd
  have hmem := (ht.mem_iff r s.serial id).mpr ⟨s, hs, rfl, hreg, Bool.eq_false_iff.mpr hd⟩
  rw [hr] at hmem
  cases hmem

/-! ### In one go -/

theorem drop_nil (h : Heap) (died : Array Demise) : h.drop died [] = (h, died) := by
  rw [drop]

/-- Giving up references one list after the other is giving them up in one go. -/
theorem fst_drop_append (h : Heap) (xs ys : List Handle) :
    (h.drop #[] (xs ++ ys)).1 = ((h.drop #[] xs).1.drop #[] ys).1 := by
  have hdied := drop_died (h.drop #[] xs).1 #[] (h.drop #[] xs).2 ys
  rw [Array.append_empty] at hdied
  rw [drop_append, hdied]

/-- What has no count left does not change. -/
theorem dropOne_idle {h : Heap} {x : Handle} (hx : h.count? x = some 0) :
    h.dropOne x = { heap := h } := by
  cases x with
  | object id =>
    obtain ⟨o, ho, hcount⟩ := Option.bind_eq_some_iff.mp hx
    split_ifs at hcount with hi
    have h0 : o.refs = 0 := UInt32.toNat_inj.mp (Option.some.inj hcount)
    simp [dropOne, dropObject, ho, h0]
  | scope id =>
    obtain ⟨s, hs, h0⟩ := Option.map_eq_some_iff.mp hx
    have h0 : s.refs = 0 := UInt32.toNat_inj.mp h0
    simp [dropOne, dropScope, hs, h0]

theorem drop_idle {h : Heap} {x : Handle} (hx : h.count? x = some 0) (died : Array Demise) :
    h.drop died [x] = (h, died) := by
  rw [drop_cons, dropOne_idle hx]
  simp [drop_nil]

end Heap

namespace World

theorem heap_drop {w : World} (hw : w.reclaim = true) (work : List Handle) :
    (w.drop work).heap = (w.heap.drop #[] work).1 := by
  simp [drop, hw]

/-- Giving up what has no count left changes nothing. -/
theorem drop_idle {w : World} {x : Handle} (hx : w.heap.count? x = some 0) : w.drop [x] = w := by
  have hdrop := Heap.drop_idle hx #[]
  cases w
  simp [drop, hdrop]

end World

/-! ### Closing -/

namespace Workspace

variable {ws : Workspace} {w : World}

/-- The references that are given up when a workspace is closed. -/
def roots (ws : Workspace) : List Handle :=
  (ws.scopes.items.dropLast ++ [ws.globals]).map .scope

theorem leaveLocals_ok (items : List ScopeId) (hw : w.reclaim = true) :
    ∃ w', leaveLocals items w = .ok () w' ∧ w'.reclaim = true ∧
      w'.heap = (w.heap.drop #[] (items.dropLast.map .scope)).1 := by
  induction items generalizing w with
  | nil => exact ⟨w, rfl, hw, by rw [List.dropLast_nil, List.map_nil, Heap.drop_nil]⟩
  | cons s rest ih =>
    cases rest with
    | nil => exact ⟨w, rfl, hw, by rw [List.dropLast_singleton, List.map_nil, Heap.drop_nil]⟩
    | cons t rest =>
      obtain ⟨w1, h1, hw1, hheap1⟩ : ∃ w1, leave s w = .ok () w1 ∧ w1.reclaim = true ∧
          w1.heap = (w.heap.drop #[] [.scope s]).1 :=
        ⟨_, rfl, (respects_leave World.elementary_moves s w).reclaim.trans hw,
          World.heap_drop (w := World.record _ w) hw _⟩
      obtain ⟨w', h', hw', hheap'⟩ := ih hw1
      refine ⟨w', ?_, hw', ?_⟩
      · exact (bind_ok h1).trans h'
      · rw [hheap', hheap1, ← Heap.fst_drop_append]
        rfl

theorem expel_ok (s : ScopeId) (w : World) :
    ∃ w', expel s w = .ok () w' ∧ w'.heap = (w.heap.destroy s).1 := ⟨_, rfl, rfl⟩

theorem drain_of_registry_eq_nil {r : RegistryId} (hr : w.heap.registry r = []) :
    drain r w = .ok 0 w := by
  rw [drain, hr]
  rfl

/-- **Destroying the scopes of a registry ends** if registries are exact. -/
theorem drain_ok (r : RegistryId) (ht : w.heap.Tracked) :
    ∃ n w', drain r w = .ok n w' ∧ (n = 0 ↔ w.heap.registry r = []) ∧
      ∃ given fallen, Heap.Course r w.heap [] given fallen w'.heap := by
  generalize hn : (w.heap.registry r).length = n
  induction n using Nat.strong_induction_on generalizing w with
  | _ n ih =>
  cases hlast : (w.heap.registry r).getLast? with
  | none =>
    have hnil := List.getLast?_eq_none_iff.mp hlast
    exact ⟨0, w, drain_of_registry_eq_nil hnil, iff_of_true rfl hnil, [], [], .done hnil⟩
  | some e =>
    obtain ⟨serial, id⟩ := e
    have hmem : (serial, id) ∈ w.heap.registry r := List.mem_of_getLast? hlast
    obtain ⟨w1, hexpel, hheap⟩ := expel_ok id w
    have hless : (w1.heap.registry r).length < (w.heap.registry r).length := by
      rw [hheap]
      exact Heap.length_registry_destroy ht hmem
    have ht1 : w1.heap.Tracked := hheap ▸ ht.destroy id
    obtain ⟨m, w', hdrain, -, given, fallen, hc⟩ := ih _ (hn ▸ hless) ht1 rfl
    refine ⟨m + 1, w', ?_, iff_of_false (Nat.succ_ne_zero m) (List.ne_nil_of_mem hmem), ?_⟩
    · rw [drain, hlast]
      simp only [hexpel, hless, if_true, hdrain]
    · -- the scope lives, since it is in the registry
      obtain ⟨s, hs, -, -, hd⟩ := (ht.mem_iff r serial id).mp hmem
      simp only [Heap.destroy, hs] at hheap
      rw [hheap] at hc
      obtain ⟨given, fallen, hc⟩ := hc.of_drop
      have hfreed : (w.heap.destroyScope id s).freed = s.owned := by
        simp [Heap.destroyScope, hd]
      exact ⟨given, _, .destroy hlast hs hd (hfreed ▸ hc)⟩

/-- **Closing a workspace ends** if registries are exact. -/
theorem close_ok (ws : Workspace) (hw : w.reclaim = true) (ht : w.heap.Tracked) :
    ∃ forced w', ws.close w = .ok (forced, { ws with scopes := Stack.empty }) w' ∧
      (forced = 0 ↔ (w.heap.drop #[] ws.roots).1.registry ws.registry = []) ∧
      ∃ given fallen, Heap.Course ws.registry w.heap ws.roots given fallen w'.heap := by
  obtain ⟨w1, h1, hw1, hheap1⟩ := leaveLocals_ok ws.scopes.items hw
  obtain ⟨w2, h2, hheap2⟩ : ∃ w2, Scope.release (some ws.globals) w1 = .ok () w2 ∧
      w2.heap = (w1.heap.drop #[] [.scope ws.globals]).1 := ⟨_, rfl, World.heap_drop hw1 _⟩
  have hheap : w2.heap = (w.heap.drop #[] ws.roots).1 := by
    rw [hheap2, hheap1, ← Heap.fst_drop_append, roots, List.map_append]
    rfl
  have ht2 : w2.heap.Tracked := hheap ▸ ht.drop #[] ws.roots
  obtain ⟨forced, w3, h3, hforced, given, fallen, hc⟩ := drain_ok ws.registry ht2
  rw [hheap] at hforced hc
  have hend : ∃ w', ws.close w = .ok (forced, { ws with scopes := Stack.empty }) w' ∧
      w'.heap = w3.heap := by
    rw [close, bind_ok h1, bind_ok h2, bind_ok h3]
    split_ifs
    · exact ⟨_, rfl, rfl⟩
    · exact ⟨_, rfl, rfl⟩
  obtain ⟨w', hend, hheap'⟩ := hend
  exact ⟨forced, w', hend, hforced, hheap' ▸ hc.of_drop⟩

/-- A workspace that has been closed has nothing left to be given up. -/
theorem close_of_closed (hg : w.heap.count? (.scope ws.globals) = some 0)
    (hr : w.heap.registry ws.registry = []) (hs : ws.scopes = Stack.empty) :
    ws.close w = .ok (0, ws) w := by
  have h1 : leaveLocals ws.scopes.items w = .ok () w := by
    rw [hs]
    rfl
  have h2 : Scope.release (some ws.globals) w = .ok () w :=
    congrArg (EStateM.Result.ok ()) (World.drop_idle hg)
  rw [close, bind_ok h1, bind_ok h2, bind_ok (drain_of_registry_eq_nil hr), ← hs]
  rfl

theorem Housed.count_globals {h : Heap} (hw : ws.Housed h) (ht : h.Tracked) (hp : h.Spent)
    (hr : h.registry ws.registry = []) : h.count? (.scope ws.globals) = some 0 := by
  obtain ⟨s, hs, hreg⟩ := hw
  simp [Heap.count?, hs, hp.scope hs (ht.dead_of_registry_eq_nil hs hreg hr)]

/-- **Closing ends and tears everything down once**, whatever has been done before. Afterwards the
registry and the stack are empty. Every scope that was in the registry is destroyed, and this
happens once. What is given up on the way is the scopes on the stack and what was owned by that
which is destroyed, each reference once. Closing again changes nothing. -/
theorem close_destroys_all {engine : Engine} (he : Client.Lawless engine)
    {tables : List Builtin.Table} {w₀ w₁ : World} (hw : w₀.Fresh) (before later : List Client.Deed)
    (hmake : make tables (Client.afterDeeds engine w₀ before) = .ok ws w₁) (scopes : Stack ScopeId)
    (hlater : Client.afterDeeds engine w₁ later = w) :
    ∃ forced w' given fallen,
      close { ws with scopes := scopes } w = .ok (forced, { ws with scopes := Stack.empty }) w' ∧
      reachable { ws with scopes := Stack.empty } w' = 0 ∧
      Heap.Course ws.registry w.heap (roots { ws with scopes := scopes }) given fallen w'.heap ∧
      (∀ n id, (n, id) ∈ w.heap.registry ws.registry →
        w'.heap.Dead (.scope id) ∧ fallen.count (.scope id) = 1) ∧
      given.Perm (roots { ws with scopes := scopes } ++ fallen.flatMap w.heap.ownedBy) ∧
      close { ws with scopes := Stack.empty } w' =
        .ok (0, { ws with scopes := Stack.empty }) w' := by
  -- what is needed of the world holds whatever has been done
  have hall := (Client.afterDeeds_make hmake later).trans hlater
  have ht : w.heap.Tracked := hall ▸ Client.tracked_afterDeeds he hw _
  have hp : w.heap.Spent := hall ▸ Client.spent_afterDeeds he hw _
  have hreclaim : w.reclaim = true :=
    (hall ▸ Client.moves_afterDeeds he.moves w₀ _ : w₀.Moves w).reclaim.trans hw.reclaim
  have hhoused : ws.Housed w.heap :=
    (housed_make hmake).moves (hlater ▸ Client.moves_afterDeeds he.moves w₁ later : w₁.Moves w).heap
  obtain ⟨forced, w', hclose, -, given, fallen, hc⟩ :=
    close_ok { ws with scopes := scopes } hreclaim ht
  have hend : w.heap.Moves True w'.heap := hc.moves
  have hempty : w'.heap.registry ws.registry = [] := hc.registry_eq_nil
  refine ⟨forced, w', given, fallen, hclose, ?_, hc, fun n id hmem => ?_, ?_, ?_⟩
  · rw [reachable, hempty]
    rfl
  · obtain ⟨s, hs, -, hreg, hd⟩ := (ht.mem_iff ws.registry n id).mp hmem
    obtain ⟨s', hs', hreg'⟩ := Heap.Places.moves hend id s hs
    have hdead : w'.heap.Dead (.scope id) :=
      ⟨s', hs', (ht.moves hend).dead_of_registry_eq_nil hs' (hreg'.trans hreg) hempty⟩
    have hlives : w.heap.Lives (.scope id) := ⟨s, hs, hd⟩
    have hfallen : .scope id ∈ fallen := (hc.teardown.mem_fallen hlives).mpr hdead
    exact ⟨hdead, List.count_eq_one_of_mem hc.teardown.nodup hfallen⟩
  · exact Multiset.coe_eq_coe.mp (by rw [hc.teardown.given_eq, Multiset.coe_add])
  · refine close_of_closed ?_ hempty rfl
    exact (hhoused.moves hend).count_globals (ht.moves hend)
      ((Heap.steady_spent _).moves hp hend) hempty

/-- A function is bound in the local scope that it was made in, and is not given up. -/
def selfBoundFunction (ws : Workspace) (w : World) : List Client.Deed :=
  [.push ws, .call (.function [] false [] (some ⟨w.heap.scopes.size⟩)),
    .call (.bind (some ⟨w.heap.scopes.size⟩) "self" (some ⟨w.heap.objects.size⟩))]

/-- Whether closing destroys both scopes of the workspace as still owned. -/
def destroysBothScopes (ws : Workspace) (w₁ : World) : Bool :=
  match (Client.afterDeeds (.ofDepth 0) w₁ (selfBoundFunction ws w₁)).heap.registry ws.registry with
  | [(m, s), (n, g)] =>
    match close { ws with scopes := ws.scopes.push s }
      (Client.afterDeeds (.ofDepth 0) w₁ (selfBoundFunction ws w₁)) with
    | .ok (forced, _) _ =>
      decide (m = n + 1 ∧ g = ws.globals ∧ ws.scopes.items = [ws.globals] ∧ forced = 2)
    | .error _ _ => false
  | _ => false

set_option maxRecDepth 100000 in
/-- Both scopes are kept by the function, and are destroyed nevertheless. -/
theorem close_destroys_all_selfBound : ∃ (ws : Workspace) (w₁ w w' : World) (s : ScopeId) (n : Nat)
    (given fallen : List Handle), make Session.sandbox {} = .ok ws w₁ ∧
    Client.afterDeeds (.ofDepth 0) w₁ (selfBoundFunction ws w₁) = w ∧
    w.heap.registry ws.registry = [(n + 1, s), (n, ws.globals)] ∧
    close { ws with scopes := ws.scopes.push s } w =
      .ok (2, { ws with scopes := Stack.empty }) w' ∧
    reachable { ws with scopes := Stack.empty } w' = 0 ∧
    (w'.heap.Dead (.scope s) ∧ fallen.count (.scope s) = 1) ∧
    (w'.heap.Dead (.scope ws.globals) ∧ fallen.count (.scope ws.globals) = 1) ∧
    given.Perm ([.scope s, .scope ws.globals] ++ fallen.flatMap w.heap.ownedBy) ∧
    close { ws with scopes := Stack.empty } w' = .ok (0, { ws with scopes := Stack.empty }) w' := by
  obtain ⟨ws, w₁, hmake, hends⟩ :=
    Session.exists_of_run (p := destroysBothScopes) (by decide +kernel)
  unfold destroysBothScopes at hends
  split at hends
  · next m s n g hreg =>
    split at hends
    · next forced ws' w' hclose =>
      obtain ⟨rfl, rfl, hitems, rfl⟩ := of_decide_eq_true hends
      obtain ⟨forced, w'', given, fallen, hclose', hempty, -, hdead, hgiven, hagain⟩ :=
        close_destroys_all (.program 0) ⟨rfl, rfl, rfl, rfl⟩ [] _ hmake (ws.scopes.push s) rfl
      rw [hclose] at hclose'
      cases hclose'
      have hroots : roots { ws with scopes := ws.scopes.push s } =
          [.scope s, .scope ws.globals] := by
        simp [roots, Stack.push, hitems]
      exact ⟨ws, w₁, _, w', s, n, given, fallen, hmake, rfl, hreg, hclose, hempty,
        hdead (n + 1) s (by simp [hreg]), hdead n ws.globals (by simp [hreg]), hroots ▸ hgiven,
        hagain⟩
    · cases hends
  · cases hends

end Workspace

end CountedLisp
