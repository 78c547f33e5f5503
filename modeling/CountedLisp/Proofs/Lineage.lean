import CountedLisp.Proofs.Registries

/-!
# Scopes and the scopes around them

`Heap.Alters` lists what a scope can be after an elementary change: the same but for its count or
its bindings, destroyed, or new. Three properties of all scopes follow from it, whatever is done
with the library:

* scopes are proper (`Heap.Proper`), that is, no name is bound twice;
* the scope around a scope was made before it and belongs to the same registry (`Heap.Lineal`);
* a scope stays inside the scope that it was made in, as long as it lives (`Heap.Anchors`).

Together with `Heap.Tracked` this tells what a registry is: a finite map from serial numbers to the
living scopes that belong to it.
-/

namespace CountedLisp

/-! ### What becomes of a scope -/

namespace Heap

variable {p : Prop} {h h' h'' : Heap}

/-- What a scope can be after an elementary change. -/
inductive Alters (h : Heap) (id : ScopeId) : Scope → Prop where
  /-- It is the same but for its count. -/
  | counted {x : Scope} (hx : h.scope? id = some x) (n : UInt32) : Alters h id { x with refs := n }
  /-- It has other bindings. -/
  | filled {x : Scope} (hx : h.scope? id = some x) {b : List (Text × Ref)}
    (hb : h.Proper → Scope.Proper { x with bindings := b }) : Alters h id { x with bindings := b }
  /-- It has been destroyed. -/
  | destroyed {x : Scope} (hx : h.scope? id = some x) : Alters h id x.destroyed
  /-- It is new, inside a living scope of the same registry or inside of none. -/
  | added (hnew : h.scope? id = none) (name : Text) (serial : Nat) {parent : ScopeRef}
    {registry : Option RegistryId} (hp : ∀ q, parent = some q →
      h.Lives (.scope q) ∧ registry = Scope.registryOf h parent) :
    Alters h id (.new name serial parent registry)

namespace Alters

variable {id id' : ScopeId} {s x : Scope}

theorem same (hx : h.scope? id = some x) : h.Alters id x :=
  .counted hx x.refs

theorem of_setScope {s' : Scope} (hs : h.scope? id = some s) (ha : h.Alters id s')
    (hx : (h.setScope id s').scope? id' = some x) : h.Alters id' x := by
  rcases scope?_setScope_cases hs hx with ⟨rfl, rfl⟩ | ⟨-, hx⟩
  · exact ha
  · exact .same hx

theorem of_destroyed (hs : h.scope? id = some s)
    (hx : ((h.setScope id s.destroyed).updateRegistry s.registry
      (Registry.erase s.serial)).scope? id' = some x) : h.Alters id' x := by
  rw [scope?_updateRegistry] at hx
  exact .of_setScope hs (.destroyed hs) hx

theorem of_addScope (ha : h.scope? (h.addScope s).1 = none → h.Alters (h.addScope s).1 s)
    (hx : (h.addScope s).2.scope? id = some x) : h.Alters id x := by
  rcases scope?_addScope_cases hx with ⟨rfl, rfl⟩ | ⟨-, hx⟩
  · exact ha (scope?_eq_none_iff.mpr le_rfl)
  · exact .same hx

end Alters

/-- **What an elementary change does to a scope.** -/
theorem Move.alters (hm : h.Move p h') {id : ScopeId} {x : Scope} (hx : h'.scope? id = some x) :
    h.Alters id x := by
  cases hm with
  | drop y =>
    have hy := drops_dropOne h y
    generalize (h.dropOne y).heap = k, (h.dropOne y).freed = freed at hx hy
    cases hy with
    | idle | lessObject | lastObject => exact .same hx
    | lessScope hs => exact .of_setScope hs (.counted hs _) hx
    | lastScope hs => exact .of_destroyed hs hx
  | destroy hs =>
    unfold Heap.destroyScope at hx
    split_ifs at hx
    · exact .same hx
    · exact .of_destroyed hs hx
  | addObject | retainObject | setPayload | tick => exact .same hx
  | retainScope hs => exact .of_setScope hs (.counted hs _) hx
  | setBindings hs b hb => exact .of_setScope hs (.filled hs hb) hx
  | enter name hp =>
    rw [Scope.scope?_enter] at hx
    exact .of_addScope (h := h) (fun hnew => .added hnew _ _ fun q hq => ⟨hp q hq, rfl⟩) hx
  | globals =>
    have hnew : ∀ {id}, h.scope? id = none →
        h.Alters id (.new "globals" (h.serial + 1) none (some ⟨h.registries.size⟩)) :=
      fun hid => .added hid _ _ nofun
    exact .of_addScope (h := h) hnew hx

/-! ### Names -/

theorem proper_initial : Heap.initial.Proper where
  scope hs := by cases hs

namespace Proper

/-- Each step changes one scope or adds one, and `Alters` tells what becomes of its bindings. -/
theorem move (hp : h.Proper) (hm : h.Move p h') : h'.Proper where
  scope hx := by
    cases hm.alters hx with
    | counted hs n =>
      have hproper := hp.scope hs
      exact ⟨hproper.nodup, hproper.empty, hproper.alone⟩
    | filled hs hb => exact hb hp
    | destroyed hs => exact ⟨List.nodup_nil, fun _ => rfl, fun _ => rfl⟩
    | added => exact ⟨List.nodup_nil, nofun, nofun⟩

theorem moves (hp : h.Proper) (hm : h.Moves p h') : h'.Proper :=
  hm.keep move hp

end Proper

/-! ### Surrounding scopes -/

/-- The scope around a scope was made before it and belongs to the same registry. -/
structure Lineal (h : Heap) : Prop where
  parent : ∀ {id s q}, h.scope? id = some s → s.parent = some q →
    q.index < id.index ∧ ∃ t, h.scope? q = some t ∧ t.registry = s.registry

theorem lineal_initial : Heap.initial.Lineal where
  parent hs := by cases hs

namespace Lineal

/-- A new scope comes after all others, so also after the scope around it, and it has the registry
of this scope. -/
theorem move (hl : h.Lineal) (hm : h.Move p h') : h'.Lineal := by
  have hplace : ∀ {q : ScopeId} {t : Scope} {r : Option RegistryId}, h.scope? q = some t →
      t.registry = r → ∃ t', h'.scope? q = some t' ∧ t'.registry = r := by
    rintro q t r ht rfl
    exact Places.move hm q t ht
  refine ⟨fun {id x q} hx hq => ?_⟩
  cases hm.alters hx with
  | counted hs n | filled hs hb =>
    obtain ⟨hlt, t, ht, hr⟩ := hl.parent hs hq
    exact ⟨hlt, hplace ht hr⟩
  | destroyed hs => cases hq
  | added hnew name serial hp =>
    obtain ⟨⟨t, ht, hd⟩, hr⟩ := hp q hq
    refine ⟨(lt_size_of_scope? ht).trans_le (scope?_eq_none_iff.mp hnew), hplace ht ?_⟩
    subst hq hr
    show t.registry = Scope.registryOf h (some q)
    simp [Scope.registryOf, getScope?, ht]

theorem moves (hl : h.Lineal) (hm : h.Moves p h') : h'.Lineal :=
  hm.keep move hl

end Lineal

/-- A scope that lives was so before and is inside the same scope. -/
def Anchors (h h' : Heap) : Prop :=
  ∀ id s, h.scope? id = some s →
    ∃ s', h'.scope? id = some s' ∧ (s'.dead = false → s.dead = false ∧ s'.parent = s.parent)

namespace Anchors

protected theorem refl (h : Heap) : h.Anchors h := fun _ s hs => ⟨s, hs, fun hd => ⟨hd, rfl⟩⟩

protected theorem trans (h1 : h.Anchors h') (h2 : h'.Anchors h'') : h.Anchors h'' := by
  intro id s hs
  obtain ⟨s', hs', h1⟩ := h1 id s hs
  obtain ⟨s'', hs'', h2⟩ := h2 id s' hs'
  refine ⟨s'', hs'', fun hd => ?_⟩
  obtain ⟨hd', hp'⟩ := h2 hd
  obtain ⟨hd, hp⟩ := h1 hd'
  exact ⟨hd, hp'.trans hp⟩

/-- A scope that lives afterwards has lived before, inside of the same scope. -/
theorem move (hm : h.Move p h') : h.Anchors h' := by
  intro id s hs
  obtain ⟨s', hs', -⟩ := Places.move hm id s hs
  refine ⟨s', hs', fun hd => ?_⟩
  cases hm.alters hs' with
  | counted hx n | filled hx hb =>
    rw [hs, Option.some.injEq] at hx
    subst hx
    exact ⟨hd, rfl⟩
  | destroyed hx => cases hd
  | added hnew =>
    rw [hs] at hnew
    cases hnew

theorem moves (hm : h.Moves p h') : h.Anchors h' :=
  hm.lift Anchors.move Anchors.trans (.refl h)

end Anchors

end Heap

/-! ### Registries as finite maps -/

/-- Where no key stands twice, looking one up finds its only entry. -/
theorem lookup_eq_some_iff_mem {α β : Type} [BEq α] [LawfulBEq α] {l : List (α × β)}
    (hl : (l.map Prod.fst).Nodup) {k : α} {v : β} : l.lookup k = some v ↔ (k, v) ∈ l := by
  induction l with
  | nil => simp
  | cons e rest ih =>
    obtain ⟨k', v'⟩ := e
    obtain ⟨hnot, hrest⟩ := List.nodup_cons.mp hl
    rw [List.lookup_cons, List.mem_cons, Prod.mk.injEq]
    by_cases hk : k = k'
    · subst hk
      have hother : (k, v) ∉ rest := fun he => hnot (List.mem_map.mpr ⟨_, he, rfl⟩)
      simp [hother, eq_comm]
    · rw [beq_false_of_ne hk]
      simp [hk, ih hrest]

namespace Registry

variable {r : Registry}

/-- The entries stand in descending order of their serial numbers. -/
def Descending (r : Registry) : Prop :=
  r.Pairwise fun e e' => e'.1 < e.1

theorem Descending.erase (hr : r.Descending) (n : Nat) : (r.erase n).Descending :=
  List.Pairwise.filter _ hr

theorem Descending.insert (hr : r.Descending) (n : Nat) (id : ScopeId) :
    (r.insert n id).Descending := by
  -- nothing comes to the front that is not there or new
  have hmem : ∀ {r : Registry} {e}, e ∈ r.insert n id → e = (n, id) ∨ e ∈ r := by
    intro r
    induction r with
    | nil => simp [Registry.insert]
    | cons first rest ih =>
      obtain ⟨m, s⟩ := first
      intro e he
      unfold Registry.insert at he
      split_ifs at he <;> grind
  induction r with
  | nil => exact List.pairwise_singleton _ _
  | cons first rest ih =>
    obtain ⟨m, s⟩ := first
    obtain ⟨hfirst, hrest⟩ := List.pairwise_cons.mp hr
    unfold Registry.insert
    split_ifs with hlt heq
    · refine List.pairwise_cons.mpr ⟨fun e he => ?_, hr⟩
      rcases List.mem_cons.mp he with rfl | he
      · exact hlt
      · exact (hfirst e he).trans hlt
    · subst heq
      exact List.pairwise_cons.mpr ⟨hfirst, hrest⟩
    · refine List.pairwise_cons.mpr ⟨fun e he => ?_, ih hrest⟩
      rcases hmem he with rfl | he
      · exact lt_of_le_of_ne (Nat.le_of_not_lt hlt) heq
      · exact hfirst e he

/-- In descending order no number comes twice. -/
theorem Descending.nodup_keys (hr : r.Descending) : (r.map Prod.fst).Nodup := by
  rw [List.nodup_iff_pairwise_ne, List.pairwise_map]
  exact hr.imp fun hlt => hlt.ne'

end Registry

namespace Heap

variable {p : Prop} {h h' : Heap}

theorem registry_updateRegistry_cases (h : Heap) (id : Option RegistryId) (f : Registry → Registry)
    (r : RegistryId) : (h.updateRegistry id f).registry r = h.registry r ∨
      (h.updateRegistry id f).registry r = f (h.registry r) := by
  by_cases hid : id = some r
  · subst hid
    cases hr : h.registries[r.index]? with
    | none =>
      left
      simp [registry, updateRegistry, Array.getElem?_modify, hr]
    | some l =>
      exact .inr (registry_updateRegistry_self h (.inr (Array.getElem?_eq_some_iff.mp hr).1))
  · exact .inl (registry_updateRegistry_ne h f hid)

/-- All registries are in order. -/
def Ordered (h : Heap) : Prop :=
  ∀ r, (h.registry r).Descending

/-- There is no registry at the beginning. -/
theorem ordered_initial : Heap.initial.Ordered := fun r => by
  simp [registry, initial, Registry.Descending]

namespace Ordered

theorem destroyed (ho : h.Ordered) (id : ScopeId) (s : Scope) :
    ((h.setScope id s.destroyed).updateRegistry s.registry (Registry.erase s.serial)).Ordered := by
  intro r
  rw [registry_destroyed]
  split_ifs
  · exact (ho r).erase _
  · exact ho r

/-- A registry changes by an entry with a new number, which is greater than all others, or loses
one. -/
theorem move (ho : h.Ordered) (hm : h.Move p h') : h'.Ordered := by
  cases hm with
  | drop x =>
    have hx := drops_dropOne h x
    generalize (h.dropOne x).heap = k, (h.dropOne x).freed = freed at hx ⊢
    cases hx with
    | idle | lessObject | lastObject | lessScope => exact ho
    | lastScope => exact ho.destroyed _ _
  | destroy hs =>
    unfold Heap.destroyScope
    split_ifs
    · exact ho
    · exact ho.destroyed _ _
  | addObject | retainObject | setPayload | retainScope | setBindings | tick => exact ho
  | enter name hp =>
    intro r
    rw [Scope.enter_eq]
    rcases registry_updateRegistry_cases _ _ _ r with he | he
    · rw [he]
      exact ho r
    · rw [he]
      exact Registry.Descending.insert (ho r) _ _
  | globals =>
    rintro ⟨i⟩
    show ((h.registries.push _)[i]?.getD []).Descending
    rw [Array.getElem?_push]
    split_ifs
    · exact List.pairwise_singleton _ _
    · exact ho ⟨i⟩

theorem moves (ho : h.Ordered) (hm : h.Moves p h') : h'.Ordered :=
  hm.keep move ho

end Ordered

/-- No two scopes have the same number. -/
theorem Numbered.nodup_serials (hn : h.Numbered) : (h.scopes.toList.map Scope.serial).Nodup := by
  rw [List.nodup_iff_pairwise_ne, List.pairwise_map, List.pairwise_iff_getElem]
  intro i j hi hj hij hserial
  have hscope : ∀ k (hk : k < h.scopes.toList.length), h.scope? ⟨k⟩ = some h.scopes.toList[k] :=
    fun k hk => by rw [scope?, ← Array.getElem?_toList, List.getElem?_eq_getElem hk]
  have hid := hn.distinct (hscope i hi) (hscope j hj) hserial
  exact hij.ne (ScopeId.mk.inj hid)

/-- A registry in order that is exact has one entry for each living scope that belongs to it. -/
theorem Tracked.length_registry (ht : h.Tracked) (ho : h.Ordered) (r : RegistryId) :
    (h.registry r).length =
      h.scopes.toList.countP fun s => s.registry = some r ∧ s.dead = false := by
  have hfilter : ∀ q : Scope → Bool, ((h.scopes.toList.filter q).map Scope.serial).Nodup :=
    fun q => ht.nodup_serials.sublist (List.filter_sublist.map _)
  -- both lists hold the serial numbers of these scopes, and neither has one twice
  have hperm : ((h.registry r).map Prod.fst).Perm ((h.scopes.toList.filter fun s =>
      s.registry = some r ∧ s.dead = false).map Scope.serial) := by
    refine (List.perm_ext_iff_of_nodup (ho r).nodup_keys (hfilter _)).mpr fun n => ?_
    simp only [List.mem_map, List.mem_filter, decide_eq_true_eq]
    constructor
    · rintro ⟨⟨n, id⟩, he, rfl⟩
      obtain ⟨s, hs, hn, hr, hd⟩ := (ht.mem_iff r n id).mp he
      exact ⟨s, ⟨Array.mem_toList_iff.mpr (Array.mem_of_getElem? hs), hr, hd⟩, hn⟩
    · rintro ⟨s, ⟨hs, hr, hd⟩, hn⟩
      obtain ⟨i, hi⟩ := Array.mem_iff_getElem?.mp (Array.mem_toList_iff.mp hs)
      exact ⟨(n, ⟨i⟩), (ht.mem_iff r n ⟨i⟩).mpr ⟨s, hi, hn, hr, hd⟩, rfl⟩
  rw [List.countP_eq_length_filter, ← List.length_map (f := Prod.fst), hperm.length_eq,
    List.length_map]

end Heap

/-! ### Lawless clients -/

namespace Client

variable {engine : Engine} {w : World}

theorem proper_afterDeeds (he : Lawless engine) (hw : w.Fresh) (deeds : List Deed) :
    (afterDeeds engine w deeds).heap.Proper := by
  have hstart : w.heap.Proper := by
    rw [hw.heap]
    exact Heap.proper_initial
  exact hstart.moves (moves_afterDeeds he.moves w deeds).heap

theorem lineal_afterDeeds (he : Lawless engine) (hw : w.Fresh) (deeds : List Deed) :
    (afterDeeds engine w deeds).heap.Lineal := by
  have hstart : w.heap.Lineal := by
    rw [hw.heap]
    exact Heap.lineal_initial
  exact hstart.moves (moves_afterDeeds he.moves w deeds).heap

theorem ordered_afterDeeds (he : Lawless engine) (hw : w.Fresh) (deeds : List Deed) :
    (afterDeeds engine w deeds).heap.Ordered := by
  have hstart : w.heap.Ordered := by
    rw [hw.heap]
    exact Heap.ordered_initial
  exact hstart.moves (moves_afterDeeds he.moves w deeds).heap

/-- **A registry is the finite map of the living scopes that belong to it**, whatever has been done
with any number of workspaces. No two scopes have the same serial number, a scope belongs to the
registry of the scope around it, and the number of reachable scopes is that of the living ones that
belong to the registry of the workspace. -/
theorem registry_exact (he : Lawless engine) (hw : w.Fresh) (deeds : List Deed) {h : Heap}
    (hh : (afterDeeds engine w deeds).heap = h) :
    (∀ id id' s s', h.scope? id = some s → h.scope? id' = some s' → id ≠ id' →
      s.serial ≠ s'.serial) ∧
    (∀ r, ((h.registry r).map Prod.fst).Nodup ∧
      ∀ n id, (h.registry r).lookup n = some id ↔
        ∃ s, h.scope? id = some s ∧ s.serial = n ∧ s.registry = some r ∧ s.dead = false) ∧
    (∀ id s q, h.scope? id = some s → s.parent = some q →
      ∃ t, h.scope? q = some t ∧ t.registry = s.registry) ∧
    ∀ ws : Workspace, ws.reachable (afterDeeds engine w deeds) =
      h.scopes.toList.countP fun s => s.registry = some ws.registry ∧ s.dead = false := by
  subst hh
  have ht := tracked_afterDeeds he hw deeds
  have ho := ordered_afterDeeds he hw deeds
  refine ⟨fun id id' s s' hs hs' hne hserial => hne (ht.distinct hs hs' hserial), fun r => ?_,
    fun id s q hs hq => ((lineal_afterDeeds he hw deeds).parent hs hq).2, fun ws => ?_⟩
  · refine ⟨(ho r).nodup_keys, fun n id => ?_⟩
    rw [lookup_eq_some_iff_mem (ho r).nodup_keys]
    exact ht.mem_iff r n id
  · exact ht.length_registry ho ws.registry

/-- Two workspaces, of the first of which the global scope is given up once too often. -/
def twoWorkspaces : List Deed :=
  [.make [], .make [], .call (.scope (some ⟨0⟩)), .call (.scope (some ⟨1⟩)), .call (.scope none),
    .call (.releaseScope (some ⟨0⟩)), .call (.releaseScope (some ⟨0⟩))]

set_option maxRecDepth 100000 in
/-- The scope inside the lost one is still to be found, and so are those of the other workspace. -/
theorem registry_exact_twoWorkspaces : ∃ h : Heap,
    (afterDeeds (.ofDepth 0) {} twoWorkspaces).heap = h ∧
    h.registry ⟨0⟩ = [(3, ⟨2⟩)] ∧ h.registry ⟨1⟩ = [(4, ⟨3⟩), (2, ⟨1⟩)] ∧
    (∀ n id, (h.registry ⟨0⟩).lookup n = some id ↔
      ∃ s, h.scope? id = some s ∧ s.serial = n ∧ s.registry = some ⟨0⟩ ∧ s.dead = false) ∧
    (h.scopes.toList.countP fun s => s.registry = some ⟨1⟩ ∧ s.dead = false) = 2 := by
  obtain ⟨-, hmap, -, hcount⟩ :=
    registry_exact (.program 0) (w := {}) ⟨rfl, rfl, rfl, rfl⟩ twoWorkspaces rfl
  have hboth : ((afterDeeds (.ofDepth 0) {} twoWorkspaces).heap.registry ⟨0⟩,
      (afterDeeds (.ofDepth 0) {} twoWorkspaces).heap.registry ⟨1⟩) =
        ([(3, ⟨2⟩)], [(4, ⟨3⟩), (2, ⟨1⟩)]) := by decide +kernel
  rw [Prod.mk.injEq] at hboth
  refine ⟨_, rfl, hboth.1, hboth.2, (hmap ⟨0⟩).2, ?_⟩
  rw [← hcount ⟨⟨1⟩, Stack.empty, ⟨1⟩⟩]
  exact congrArg List.length hboth.2

end Client

end CountedLisp
