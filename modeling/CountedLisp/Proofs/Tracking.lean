import CountedLisp.Proofs.Closing
import CountedLisp.Proofs.Lineage

/-!
# Moved scopes and their registries

A new scope belongs to the registry of the scope around it, and to none if there is no scope around
it (`Scope.registry_make`). `Scope.adopt` makes the new scope inside the same scope as the old one,
so what becomes of its registry depends on where the old scope is: inside of another scope, old and
new one belong to the same registry, but a scope that is inside of none, such as the global scope of
a workspace, is lost to its workspace by being moved.

`Heap.Below` tells which scopes have come to be inside a given one, directly or through others, in
the course of elementary changes. They all belong to the registry of the outermost one
(`Below.registry`), so it is decided for all of them when this is made.
-/

namespace CountedLisp

open Run

namespace Heap

/-- In a course of elementary changes that starts with `h`, a scope has come to be `top`, or to be
inside a scope that had come to be below `top` by then. -/
inductive Below (h : Heap) (top : ScopeId) : Heap → ScopeId → Prop where
  /-- The scope itself. -/
  | top : Below h top h top
  /-- What has come to be below stays so. -/
  | later {h' h'' : Heap} {id : ScopeId} (hb : Below h top h' id) (hm : h'.Move True h'') :
    Below h top h'' id
  /-- A scope inside one that is below. -/
  | inside {h' : Heap} {id q : ScopeId} {s : Scope} (hb : Below h top h' q)
    (hs : h'.scope? id = some s) (hq : s.parent = some q) : Below h top h' id

namespace Below

variable {h h' h'' : Heap} {top id : ScopeId}

theorem moves (hb : h.Below top h' id) : h.Moves True h' := by
  induction hb with
  | top => exact .refl
  | later _ hm ih => exact ih.tail hm
  | inside _ _ _ ih => exact ih

theorem trans (hb : h.Below top h' id) (hm : h'.Moves True h'') : h.Below top h'' id := by
  induction hm with
  | refl => exact hb
  | tail _ hstep ih => exact ih.later hstep

/-- **All scopes below a scope belong to its registry.** -/
theorem registry {t : Scope} (hb : h.Below top h' id) (hl : h.Lineal)
    (ht : h.scope? top = some t) : ∃ s, h'.scope? id = some s ∧ s.registry = t.registry := by
  induction hb with
  | top => exact ⟨t, ht, rfl⟩
  | later _ hm ih =>
    obtain ⟨s, hs, hr⟩ := ih
    obtain ⟨s', hs', hr'⟩ := Places.move hm _ s hs
    exact ⟨s', hs', hr'.trans hr⟩
  | inside hb hs hq ih =>
    obtain ⟨q, hq', hr⟩ := ih
    obtain ⟨-, u, hu, hur⟩ := (hl.moves hb.moves).parent hs hq
    rw [hq', Option.some.injEq] at hu
    exact ⟨_, hs, hur.symm.trans (hu ▸ hr)⟩

end Below

end Heap

namespace Client

variable {engine : Engine} {w w' : World}

/-- What is done after a call. -/
theorem afterDeeds_call {c : Call} {gain : Share} {before : List Deed}
    (h : c.perform engine (afterDeeds engine w before) = .ok gain w') (later : List Deed) :
    afterDeeds engine w (before ++ .call c :: later) = afterDeeds engine w' later := by
  have hcall : (Deed.perform engine (.call c)).final (afterDeeds engine w before) = w' :=
    (final_map _ _ _).trans (final_ok h)
  rw [afterDeeds, List.foldl_append, List.foldl_cons]
  exact congrArg (fun v => afterDeeds engine v later) hcall

end Client

/-- Closing a workspace destroys every scope that belongs to its registry. -/
theorem Workspace.dead_of_close (ws : Workspace) {w : World} {id : ScopeId} {s : Scope}
    (hw : w.reclaim = true) (ht : w.heap.Tracked) (hs : w.heap.scope? id = some s)
    (hr : s.registry = some ws.registry) :
    ∃ forced w', ws.close w = .ok (forced, { ws with scopes := Stack.empty }) w' ∧
      w'.heap.Dead (.scope id) := by
  obtain ⟨forced, w', hclose, -, given, fallen, hc⟩ := close_ok ws hw ht
  have hend : w.heap.Moves True w'.heap := hc.moves
  obtain ⟨s', hs', hr'⟩ := Heap.Places.moves hend id s hs
  exact ⟨forced, w', hclose, s', hs',
    (ht.moves hend).dead_of_registry_eq_nil hs' (hr'.trans hr) hc.registry_eq_nil⟩

namespace Scope

variable {w w' : World}

/-- A new scope belongs to the registry of the scope around it. -/
theorem registry_make {parent : ScopeRef} {id : ScopeId} (h : make parent w = .ok id w') :
    ∃ s, w'.heap.scope? id = some s ∧ s.registry = registryOf w.heap parent := by
  obtain ⟨v, w₁, name, l, hretain, rfl, rfl⟩ := make_steps h
  refine ⟨_, (scope?_enter _ _ _ _ _).trans (Heap.scope?_addScope_new _ _), ?_⟩
  -- the new owner of the scope around changes nothing but its count
  show registryOf w₁.heap parent = registryOf w.heap parent
  cases parent with
  | none => rfl
  | some p =>
    cases hp : w.heap.scope? p with
    | none =>
      have hnone : Heap.scope? { w.heap with serial := w.heap.serial + 1 } p = none := hp
      rw [retain_eq, hnone] at hretain
      cases hretain
    | some x =>
      obtain ⟨n, hn⟩ := retain_scope? hretain (x := x) hp
      simp [registryOf, Heap.getScope?, hn, hp]

/-- A moved scope belongs to the registry of the scope around the old one. -/
theorem registry_adopt {id moved : ScopeId} {x : Scope} (hx : w.heap.scope? id = some x)
    (h : adopt (some id) w = .ok moved w') :
    ∃ t, w'.heap.scope? moved = some t ∧ t.registry = registryOf w.heap x.parent := by
  unfold adopt at h
  obtain ⟨p, w1, h1, h2⟩ := of_bind_ok h
  obtain ⟨rfl, hid, hx', -⟩ := expect_ok h1
  obtain ⟨id', x'⟩ := p
  obtain rfl : id = id' := Option.some.inj hid
  obtain rfl : x = x' := Option.some.inj (hx.symm.trans hx')
  obtain ⟨moved', w2, hmake, h3⟩ := of_bind_ok h2
  obtain ⟨_, w3, happend, h4⟩ := of_bind_ok h3
  obtain ⟨_, w4, hrelease, h5⟩ := of_bind_ok h4
  cases h5
  obtain ⟨t, ht, hr⟩ := registry_make hmake
  -- filling the new scope and giving up the old one leaves all scopes in their registries
  obtain ⟨⟨_, _, _, hnew⟩, hold⟩ := make_ok hmake
  obtain ⟨hne, n, hx2⟩ := hold hx
  have hfilled : w2.Moves w3 :=
    final_ok happend ▸ moves_appendAll (b := x.bindings) hne hnew rfl hx2 rfl
  have hgiven : w3.Moves w' := final_ok hrelease ▸ World.moves_drop (Handle.ofScope (some id)) w3
  obtain ⟨t', ht', hr'⟩ := Heap.Places.moves (hfilled.trans hgiven).heap _ t ht
  exact ⟨t', ht', hr'.trans hr⟩

variable {engine : Engine}

/-- **What becomes of a moved scope's registry.** A scope that is found in the registry of a
workspace is moved, and whatever is done then, consider the new scope and all that have come to be
below it. If the old scope was inside of another one, they all belong to the same registry: as long
as one of them lives it is found there and counted, and it is destroyed when the workspace is
closed. If the old scope was inside of none, they are found in no registry. -/
theorem adopt_tracked (he : Client.Lawless engine) {w₀ w w' v : World} (hw : w₀.Fresh)
    (before later : List Client.Deed) (hbefore : Client.afterDeeds engine w₀ before = w)
    {ws : Workspace} {n : Nat} {id moved : ScopeId} {x : Scope}
    (hmem : (n, id) ∈ w.heap.registry ws.registry) (hx : w.heap.scope? id = some x)
    (hadopt : adopt (some id) w = .ok moved w') (hlater : Client.afterDeeds engine w' later = v) :
    w'.heap.Below moved v.heap moved ∧ ∀ id', w'.heap.Below moved v.heap id' →
      ∃ y, v.heap.scope? id' = some y ∧
        (x.parent ≠ none → y.registry = some ws.registry ∧
          (y.dead = false → (y.serial, id') ∈ v.heap.registry ws.registry) ∧
          (ws.reachable v = v.heap.scopes.toList.countP fun s =>
            s.registry = some ws.registry ∧ s.dead = false) ∧
          ∃ forced v', ws.close v = .ok (forced, { ws with scopes := Stack.empty }) v' ∧
            v'.heap.Dead (.scope id')) ∧
        (x.parent = none → ∀ r n, (n, id') ∉ v.heap.registry r) := by
  have hcall : (Client.Call.adopt (some id)).perform engine
      (Client.afterDeeds engine w₀ before) = .ok (Share.scope (some moved)) w' := by
    rw [hbefore]
    simp [Client.Call.perform, Functor.map, EStateM.map, hadopt]
  have hall := (Client.afterDeeds_call hcall later).trans hlater
  have ht : v.heap.Tracked := hall ▸ Client.tracked_afterDeeds he hw _
  have ho : v.heap.Ordered := hall ▸ Client.ordered_afterDeeds he hw _
  have hreclaim : v.reclaim = true := hall ▸ Client.reclaim_afterDeeds he hw _
  have hw' : Client.afterDeeds engine w₀ (before ++ [.call (.adopt (some id))]) = w' :=
    Client.afterDeeds_call hcall []
  have hlineal : w'.heap.Lineal := hw' ▸ Client.lineal_afterDeeds he hw _
  have hmoves : w'.heap.Moves True v.heap :=
    (hlater ▸ Client.moves_afterDeeds he.moves w' later : w'.Moves v).heap.mono fun _ => trivial
  obtain ⟨t, hmoved, htreg⟩ := registry_adopt hx hadopt
  refine ⟨Heap.Below.top.trans hmoves, fun id' hb => ?_⟩
  obtain ⟨y, hy, hyreg⟩ := hb.registry hlineal hmoved
  rw [htreg] at hyreg
  refine ⟨y, hy, fun hinner => ?_, fun hroot r n hfound => ?_⟩
  · have hreg : y.registry = some ws.registry := by
      obtain ⟨q, hq⟩ := Option.ne_none_iff_exists'.mp hinner
      -- the scope around the old one belongs to the same registry
      obtain ⟨-, u, hu, hureg⟩ := (hbefore ▸ Client.lineal_afterDeeds he hw before :
        w.heap.Lineal).parent hx hq
      obtain ⟨x', hx', -, hxreg, -⟩ := ((hbefore ▸ Client.tracked_afterDeeds he hw before :
        w.heap.Tracked).mem_iff _ _ _).mp hmem
      rw [hx, Option.some.injEq] at hx'
      rw [hyreg, hq, registryOf, Heap.getScope?, Option.bind_some, hu, Option.bind_some, hureg, hx',
        hxreg]
    exact ⟨hreg, fun hd => (ht.mem_iff _ _ _).mpr ⟨y, hy, rfl, hreg, hd⟩,
      ht.length_registry ho ws.registry, ws.dead_of_close hreclaim ht hy hreg⟩
  · obtain ⟨y', hy', -, hreg, -⟩ := (ht.mem_iff r n id').mp hfound
    rw [hy, Option.some.injEq] at hy'
    rw [← hy', hyreg, hroot] at hreg
    cases hreg

/-- A scope inside the global one, with a function that was made in it and is bound there. -/
def scopeWithBoundFunction : List Client.Deed :=
  [.make [], .call (.scope (some ⟨0⟩)), .call (.function [] false [] (some ⟨1⟩)),
    .call (.bind (some ⟨1⟩) "f" (some ⟨26⟩))]

/-- Whether moving the scope gives one in which another scope is made then. -/
def adoptsAndNests (w : World) : Bool :=
  match adopt (some ⟨1⟩) w with
  | .ok moved w' =>
    ((Client.afterDeeds (.ofDepth 0) w' [.call (.scope (some moved))]).heap.scope? ⟨3⟩).any
      fun s => decide (moved = ⟨2⟩ ∧ s.parent = some moved ∧ s.dead = false)
  | .error _ _ => false

set_option maxRecDepth 100000 in
theorem adopt_tracked_boundFunction : ∃ (ws : Workspace) (w w' v v' : World) (x y : Scope)
    (forced : Nat), Client.afterDeeds (.ofDepth 0) {} scopeWithBoundFunction = w ∧
    (2, ⟨1⟩) ∈ w.heap.registry ws.registry ∧ w.heap.scope? ⟨1⟩ = some x ∧
    x.parent = some ⟨0⟩ ∧ adopt (some ⟨1⟩) w = .ok ⟨2⟩ w' ∧
    Client.afterDeeds (.ofDepth 0) w' [.call (.scope (some ⟨2⟩))] = v ∧
    v.heap.scope? ⟨3⟩ = some y ∧ (y.serial, ⟨3⟩) ∈ v.heap.registry ws.registry ∧
    ws.close v = .ok (forced, { ws with scopes := Stack.empty }) v' ∧
    v'.heap.Dead (.scope ⟨2⟩) ∧ v'.heap.Dead (.scope ⟨3⟩) := by
  have hrun : ((Client.afterDeeds (.ofDepth 0) {} scopeWithBoundFunction).heap.registry ⟨0⟩ =
        [(2, ⟨1⟩), (1, ⟨0⟩)] ∧
      ((Client.afterDeeds (.ofDepth 0) {} scopeWithBoundFunction).heap.scope? ⟨1⟩).map
        Scope.parent = some (some ⟨0⟩)) ∧
      adoptsAndNests (Client.afterDeeds (.ofDepth 0) {} scopeWithBoundFunction) = true := by
    decide +kernel
  obtain ⟨⟨hreg, hparent⟩, hends⟩ := hrun
  obtain ⟨x, hx, hq⟩ := Option.map_eq_some_iff.mp hparent
  unfold adoptsAndNests at hends
  split at hends
  · next moved w' hadopt =>
    obtain ⟨y, hy, hends⟩ := (Option.any_eq_true _ _).mp hends
    obtain ⟨rfl, hinside, hd⟩ := of_decide_eq_true hends
    have hmem : (2, ⟨1⟩) ∈ (Client.afterDeeds (.ofDepth 0) {} scopeWithBoundFunction).heap.registry
        (Workspace.mk ⟨0⟩ (Stack.empty.push ⟨0⟩) ⟨0⟩).registry := by
      simp [hreg]
    obtain ⟨hmoved, hall⟩ := adopt_tracked (.program 0) ⟨rfl, rfl, rfl, rfl⟩
      scopeWithBoundFunction _ rfl hmem hx hadopt rfl
    have hinner : x.parent ≠ none := by simp [hq]
    obtain ⟨_, _, hmain, -⟩ := hall ⟨2⟩ hmoved
    obtain ⟨-, -, -, forced, v', hclose, hdead⟩ := hmain hinner
    obtain ⟨y', hy', hinside, -⟩ := hall ⟨3⟩ (hmoved.inside hy hinside)
    obtain ⟨-, hfound, -, forced', v'', hclose', hdead'⟩ := hinside hinner
    rw [hclose] at hclose'
    cases hclose'
    rw [hy, Option.some.injEq] at hy'
    subst hy'
    exact ⟨_, _, w', _, v', x, y, forced, rfl, hmem, hx, hq, hadopt, rfl, hy, hfound hd, hclose,
      hdead, hdead'⟩
  · cases hends

/-- Whether the global scope of a workspace is lost by being moved. -/
def losesGlobals (ws : Workspace) (w : World) : Bool :=
  match adopt (some ws.globals) w with
  | .ok moved w' =>
    match ws.close w' with
    | .ok _ v => decide (w.heap.registry ws.registry = [(1, ws.globals)] ∧
        w'.heap.Lives (.scope moved) ∧ ws.reachable w' = 0 ∧ v.heap.Lives (.scope moved))
    | .error _ _ => false
  | .error _ _ => false

set_option maxRecDepth 100000 in
/-- The global scope is found in the registry, but the scope that it is moved to is not: it lives
and is not counted, and it still lives when the workspace has been closed. -/
theorem adopt_untracked_globals : ∃ (ws closed : Workspace) (w w' v : World) (moved : ScopeId)
    (forced : Nat), Workspace.make Session.sandbox {} = .ok ws w ∧
    w.heap.registry ws.registry = [(1, ws.globals)] ∧
    adopt (some ws.globals) w = .ok moved w' ∧ w'.heap.Lives (.scope moved) ∧
    ws.reachable w' = 0 ∧ ws.close w' = .ok (forced, closed) v ∧ v.heap.Lives (.scope moved) := by
  obtain ⟨ws, w, hmake, hends⟩ := Session.exists_of_run (p := losesGlobals) (by decide +kernel)
  unfold losesGlobals at hends
  split at hends
  · next moved w' hadopt =>
    split at hends
    · next result v hclose =>
      obtain ⟨forced, closed⟩ := result
      obtain ⟨hreg, hlives, hcount, hlives'⟩ := of_decide_eq_true hends
      exact ⟨ws, closed, w, w', v, moved, forced, hmake, hreg, hadopt, hlives, hcount, hclose,
        hlives'⟩
    · cases hends
  · cases hends

end Scope

end CountedLisp
