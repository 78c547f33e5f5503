import CountedLisp.Proofs.Clients
import CountedLisp.Proofs.Moves

/-!
# Registries

A registry is there to find the scopes of a workspace that are still alive. `Heap.Tracked` says that
all registries of a heap are exact: a registry holds those living scopes that belong to it, each
under its serial number, and nothing else. No two scopes have the same number.

Every elementary change keeps the registries exact (`Tracked.move`), so they are exact after
whatever has been done with the library, by clients who follow the rules of counting and by others
(`Client.tracked_afterDeeds`).

`Heap.Steady` is the same for properties of single objects and scopes. In this way, what is dead has
no count left (`Heap.Spent`) and what has no count left is dead (`Heap.Kept`), the latter unless the
count of a scope has started again from zero.
-/

namespace CountedLisp

/-! ### Entries -/

namespace Registry

theorem mem_erase {n : Nat} {r : Registry} {e : Nat × ScopeId} :
    e ∈ r.erase n ↔ e ∈ r ∧ e.1 ≠ n := by
  simp [erase]

/-- A scope is entered under a number that is not in use. -/
theorem mem_insert {n : Nat} {id : ScopeId} {r : Registry} (hn : ∀ e ∈ r, e.1 ≠ n)
    {e : Nat × ScopeId} : e ∈ r.insert n id ↔ e = (n, id) ∨ e ∈ r := by
  induction r with
  | nil => simp [insert]
  | cons first rest ih =>
    obtain ⟨m, s⟩ := first
    have hm : m ≠ n := hn (m, s) List.mem_cons_self
    have hrest := ih fun e he => hn e (List.mem_cons_of_mem _ he)
    unfold insert
    split_ifs with hlt heq
    · simp
    · exact absurd heq.symm hm
    · rw [List.mem_cons, hrest, List.mem_cons]
      exact or_left_comm

end Registry

namespace Heap

theorem registry_updateRegistry_ne (h : Heap) {id : Option RegistryId} (f : Registry → Registry)
    {r : RegistryId} (hr : id ≠ some r) : (h.updateRegistry id f).registry r = h.registry r := by
  cases id with
  | none => rfl
  | some q =>
    have hne : q.index ≠ r.index := fun he => hr (by cases q; cases r; simp_all)
    simp only [registry, updateRegistry, Array.getElem?_modify, if_neg hne]

theorem registry_updateRegistry_self (h : Heap) {f : Registry → Registry} {r : RegistryId}
    (hf : f [] = [] ∨ r.index < h.registries.size) :
    (h.updateRegistry (some r) f).registry r = f (h.registry r) := by
  simp only [registry, updateRegistry, Array.getElem?_modify, if_true]
  cases hr : h.registries[r.index]? with
  | some l => rfl
  | none =>
    rcases hf with hf | hf
    · exact hf.symm
    · rw [Array.getElem?_eq_getElem hf] at hr
      cases hr

/-- A scope that is destroyed is taken out of its registry. -/
theorem registry_destroyed (h : Heap) (id : ScopeId) (s : Scope) (r : RegistryId) :
    ((h.setScope id s.destroyed).updateRegistry s.registry (Registry.erase s.serial)).registry r =
      if s.registry = some r then (h.registry r).erase s.serial else h.registry r := by
  split_ifs with hr
  · rw [hr]
    exact registry_updateRegistry_self _ (.inl rfl)
  · exact registry_updateRegistry_ne _ _ hr

/-- A registry with an entry is one of the heap. -/
theorem lt_size_of_mem_registry {h : Heap} {r : RegistryId} {e : Nat × ScopeId}
    (he : e ∈ h.registry r) : r.index < h.registries.size := by
  refine Nat.lt_of_not_le fun hge => ?_
  rw [registry, Array.getElem?_eq_none hge] at he
  cases he

/-! ### Serial numbers -/

/-- Every scope has a serial number of its own, none of which is beyond the last one. -/
structure Numbered (h : Heap) : Prop where
  bounded : ∀ {id s}, h.scope? id = some s → s.serial ≤ h.serial
  distinct : ∀ {id id' s s'}, h.scope? id = some s → h.scope? id' = some s' →
    s.serial = s'.serial → id = id'

namespace Numbered

variable {h h' : Heap}

theorem of_same (hn : h.Numbered) (hs : ∀ id, h'.scope? id = h.scope? id)
    (hle : h.serial ≤ h'.serial) : h'.Numbered where
  bounded hx := (hn.bounded (hs _ ▸ hx)).trans hle
  distinct hx hy := hn.distinct (hs _ ▸ hx) (hs _ ▸ hy)

theorem setScope (hn : h.Numbered) {id : ScopeId} {s s' : Scope} (hs : h.scope? id = some s)
    (he : s'.serial = s.serial) : (h.setScope id s').Numbered := by
  have hback : ∀ {id' x'}, (h.setScope id s').scope? id' = some x' →
      ∃ x, h.scope? id' = some x ∧ x.serial = x'.serial := by
    intro id' x' hx'
    rcases scope?_setScope_cases hs hx' with ⟨rfl, rfl⟩ | ⟨-, hx⟩
    · exact ⟨s, hs, he.symm⟩
    · exact ⟨x', hx, rfl⟩
  refine ⟨fun hx' => ?_, fun hx' hy' hxy => ?_⟩
  · obtain ⟨x, hx, hserial⟩ := hback hx'
    exact hserial ▸ hn.bounded hx
  · obtain ⟨x, hx, hserial⟩ := hback hx'
    obtain ⟨y, hy, hserial'⟩ := hback hy'
    exact hn.distinct hx hy (by rw [hserial, hserial', hxy])

/-- A new scope gets the number after the last one. -/
theorem addScope (hn : h.Numbered) {s : Scope} (hserial : s.serial = h.serial + 1)
    (hs : ∀ id, h'.scope? id = (h.addScope s).2.scope? id) (hlast : h'.serial = h.serial + 1) :
    h'.Numbered := by
  refine ⟨fun {id x} hx => ?_, fun {id id' x y} hx hy hxy => ?_⟩
  · rw [hs] at hx
    rcases scope?_addScope_cases hx with ⟨-, rfl⟩ | ⟨-, hx⟩
    · omega
    · have := hn.bounded hx
      omega
  · rw [hs] at hx hy
    rcases scope?_addScope_cases hx with ⟨hid, rfl⟩ | ⟨-, hx'⟩ <;>
      rcases scope?_addScope_cases hy with ⟨hid', rfl⟩ | ⟨-, hy'⟩
    · rw [hid, hid']
    · have := hn.bounded hy'
      omega
    · have := hn.bounded hx'
      omega
    · exact hn.distinct hx' hy' hxy

end Numbered

/-! ### Exact registries -/

/-- A living scope belongs to a registry, where it is to be found under its serial number. -/
def Belongs (h : Heap) (r : RegistryId) (n : Nat) (id : ScopeId) : Prop :=
  ∃ s, h.scope? id = some s ∧ s.serial = n ∧ s.registry = some r ∧ s.dead = false

/-- All registries are exact. -/
structure Tracked (h : Heap) : Prop extends h.Numbered where
  /-- A registry holds the living scopes that belong to it. -/
  mem_iff : ∀ r n id, (n, id) ∈ h.registry r ↔ h.Belongs r n id

theorem tracked_initial : Heap.initial.Tracked where
  bounded hs := by cases hs
  distinct hs := by cases hs
  mem_iff r n id := by
    constructor
    · intro he
      simp [registry, initial] at he
    · rintro ⟨s, hs, -⟩
      cases hs

namespace Tracked

variable {p : Prop} {h h' : Heap}

/-- A change that has nothing to do with scopes. -/
theorem of_same (ht : h.Tracked) (hs : ∀ id, h'.scope? id = h.scope? id)
    (hr : ∀ r, h'.registry r = h.registry r) (hn : h.serial ≤ h'.serial) : h'.Tracked where
  toNumbered := ht.toNumbered.of_same hs hn
  mem_iff r n id := by
    rw [hr, ht.mem_iff]
    simp only [Belongs, hs]

/-- A scope that stays what it is but for its bindings and its count. -/
theorem setScope (ht : h.Tracked) {id : ScopeId} {s s' : Scope} (hs : h.scope? id = some s)
    (hn : s'.serial = s.serial) (hr : s'.registry = s.registry) (hd : s'.dead = s.dead) :
    (h.setScope id s').Tracked where
  toNumbered := ht.toNumbered.setScope hs hn
  mem_iff r n id' := by
    show (n, id') ∈ h.registry r ↔ _
    rw [ht.mem_iff]
    by_cases hid : id' = id
    · subst hid
      simp only [Belongs, scope?_setScope_self s' hs, hs, Option.some.injEq, exists_eq_left', hn,
        hr, hd]
    · simp only [Belongs, scope?_setScope_ne s' hid]

/-- A scope that is destroyed leaves its registry. -/
theorem destroyScope (ht : h.Tracked) {id : ScopeId} {s : Scope} (hs : h.scope? id = some s) :
    (h.destroyScope id s).heap.Tracked := by
  unfold Heap.destroyScope
  split_ifs with hd
  · exact ht
  have hnumbered : (h.setScope id s.destroyed).Numbered := ht.toNumbered.setScope hs rfl
  have hserial : ((h.setScope id s.destroyed).updateRegistry s.registry
      (Registry.erase s.serial)).serial = h.serial := by cases s.registry <;> rfl
  refine ⟨hnumbered.of_same (fun _ => scope?_updateRegistry _ _ _ _) hserial.ge, fun r n id' => ?_⟩
  rw [registry_destroyed]
  simp only [Belongs, scope?_updateRegistry]
  have hother : id' ≠ id → h.Belongs r n id' → n ≠ s.serial := by
    rintro hid ⟨x, hx, hn, -⟩ he
    exact hid (ht.distinct hx hs (hn.trans he))
  by_cases hid : id' = id
  · -- the scope itself is not to be found any more
    subst hid
    refine iff_of_false (fun hmem => ?_) ?_
    · have hself : ∀ {n'}, (n', id') ∈ h.registry r → s.serial = n' ∧ s.registry = some r := by
        intro n' hn'
        obtain ⟨x, hx, hn, hr, -⟩ := (ht.mem_iff r n' id').mp hn'
        rw [hs, Option.some.injEq] at hx
        exact hx ▸ ⟨hn, hr⟩
      split_ifs at hmem with hr
      · obtain ⟨hmem, hne⟩ := Registry.mem_erase.mp hmem
        exact hne (hself hmem).1.symm
      · exact hr (hself hmem).2
    · rintro ⟨x, hx, -, -, hdead⟩
      rw [scope?_setScope_self _ hs] at hx
      cases hx
      cases hdead
  · -- the others have other numbers
    rw [scope?_setScope_ne _ hid]
    split_ifs with hr
    · show (n, id') ∈ (h.registry r).erase s.serial ↔ h.Belongs r n id'
      rw [Registry.mem_erase, ht.mem_iff]
      exact and_iff_left_of_imp (hother hid)
    · exact ht.mem_iff r n id'

/-- A new scope is entered into the registry that it belongs to. -/
theorem addScope (ht : h.Tracked) {s : Scope} (hserial : s.serial = h.serial + 1)
    (hd : s.dead = false) (hs : ∀ id, h'.scope? id = (h.addScope s).2.scope? id)
    (hlast : h'.serial = h.serial + 1)
    (hr : ∀ r e, e ∈ h'.registry r ↔
      (s.registry = some r ∧ e = (s.serial, (h.addScope s).1)) ∨ e ∈ h.registry r) :
    h'.Tracked := by
  refine ⟨ht.toNumbered.addScope hserial hs hlast, fun r n id => ?_⟩
  rw [hr, ht.mem_iff, Prod.mk.injEq]
  simp only [Belongs, hs]
  by_cases hid : id = (h.addScope s).1
  · -- its number was not in use
    subst hid
    have hnone : h.scope? (h.addScope s).1 = none := scope?_eq_none_iff.mpr le_rfl
    simp only [scope?_addScope_new, hnone, reduceCtorEq, false_and, exists_false, or_false,
      Option.some.injEq, exists_eq_left', hd, and_true]
    rw [and_comm, eq_comm]
  · simp only [scope?_addScope_ne hid, hid, and_false, false_or]

/-- A new scope inside of a living one is entered into the same registry. -/
theorem enter (ht : h.Tracked) (name : Text) {parent : ScopeRef}
    (hp : ∀ p, parent = some p → h.Lives (.scope p)) :
    (Scope.enter name (h.serial + 1) parent { h with serial := h.serial + 1 }).2.Tracked := by
  -- the registry is one of the heap, since the scope around is found in it
  have hbound : ∀ {r}, Scope.registryOf h parent = some r → r.index < h.registries.size := by
    intro r hreg
    cases parent with
    | none => cases hreg
    | some p =>
      obtain ⟨x, hx, hd⟩ := hp p rfl
      have hx' : x.registry = some r := by simpa [Scope.registryOf, getScope?, hx] using hreg
      exact lt_size_of_mem_registry ((ht.mem_iff r _ p).mpr ⟨x, hx, rfl, hx', hd⟩)
  have hfresh : ∀ {r}, ∀ e ∈ h.registry r, e.1 ≠ h.serial + 1 := by
    rintro r ⟨n, id⟩ he
    obtain ⟨x, hx, rfl, -⟩ := (ht.mem_iff r n id).mp he
    have := ht.bounded hx
    omega
  have hsame : Scope.registryOf { h with serial := h.serial + 1 } parent =
      Scope.registryOf h parent := rfl
  rw [Scope.enter_eq, hsame]
  generalize Scope.registryOf h parent = reg at hbound ⊢
  refine ht.addScope (s := Scope.new name (h.serial + 1) parent reg) rfl rfl
    (fun id => scope?_updateRegistry _ _ _ _) (by cases reg <;> rfl) fun r e => ?_
  show e ∈ (Heap.updateRegistry _ reg _).registry r ↔ reg = some r ∧ _ ∨ _
  by_cases hreg : reg = some r
  · subst hreg
    rw [registry_updateRegistry_self _ (.inr (by exact hbound rfl))]
    simp only [true_and]
    exact Registry.mem_insert hfresh
  · rw [registry_updateRegistry_ne _ _ hreg]
    simp only [hreg, false_and, false_or]
    rfl

/-- The global scope of a new workspace is the first in a new registry. -/
theorem globals (ht : h.Tracked) : (Workspace.addGlobals h).2.Tracked := by
  refine ht.addScope (s := Workspace.globalScope (h.serial + 1) ⟨h.registries.size⟩) rfl rfl
    (fun id => rfl) rfl fun r e => ?_
  show e ∈ (h.registries.push _)[r.index]?.getD [] ↔ some _ = some r ∧ _ ∨ _
  obtain ⟨i⟩ := r
  rw [Array.getElem?_push, Option.some.injEq, RegistryId.mk.injEq]
  by_cases hi : h.registries.size = i
  · subst hi
    simp [registry, Workspace.globalScope, Heap.addScope]
  · have hi' : i ≠ h.registries.size := Ne.symm hi
    simp [registry, hi, hi']

/-- **Every elementary change keeps the registries exact.** -/
theorem move (ht : h.Tracked) (hm : h.Move p h') : h'.Tracked := by
  cases hm with
  | drop x =>
    have hx := drops_dropOne h x
    generalize (h.dropOne x).heap = k, (h.dropOne x).freed = freed at hx ⊢
    cases hx with
    | idle => exact ht
    | lessObject => exact ht.of_same (fun _ => rfl) (fun _ => rfl) le_rfl
    | lastObject => exact ht.of_same (fun _ => rfl) (fun _ => rfl) le_rfl
    | lessScope hs => exact ht.setScope hs rfl rfl rfl
    | lastScope hs _ hd =>
      have := ht.destroyScope hs
      rwa [Heap.destroyScope, if_neg (by simp [hd])] at this
  | destroy hs => exact ht.destroyScope hs
  | addObject p => exact ht.of_same (fun _ => rfl) (fun _ => rfl) le_rfl
  | retainObject => exact ht.of_same (fun _ => rfl) (fun _ => rfl) le_rfl
  | setPayload => exact ht.of_same (fun _ => rfl) (fun _ => rfl) le_rfl
  | retainScope hs => exact ht.setScope hs rfl rfl rfl
  | setBindings hs => exact ht.setScope hs rfl rfl rfl
  | tick => exact ht.of_same (fun _ => rfl) (fun _ => rfl) (Nat.le_succ _)
  | enter name hp => exact ht.enter name hp
  | globals => exact ht.globals

theorem moves (ht : h.Tracked) (hm : h.Moves p h') : h'.Tracked :=
  hm.keep move ht

theorem drop (ht : h.Tracked) (died : Array Demise) (work : List Handle) :
    (h.drop died work).1.Tracked :=
  ht.moves (p := True) (moves_drop h died work)

theorem destroy (ht : h.Tracked) (id : ScopeId) : (h.destroy id).1.Tracked :=
  ht.moves (p := True) (moves_destroy h id)

end Tracked

/-! ### Counts and destruction -/

/-- Every object and every scope has a certain property. -/
structure Every (P : Object → Prop) (Q : Scope → Prop) (h : Heap) : Prop where
  object : ∀ {id o}, h.object? id = some o → P o
  scope : ∀ {id s}, h.scope? id = some s → Q s

namespace Every

variable {P : Object → Prop} {Q : Scope → Prop} {h : Heap}

theorem of_same {h' : Heap} (he : h.Every P Q) (ho : ∀ id, h'.object? id = h.object? id)
    (hs : ∀ id, h'.scope? id = h.scope? id) : h'.Every P Q :=
  ⟨fun hx => he.object (ho _ ▸ hx), fun hx => he.scope (hs _ ▸ hx)⟩

theorem setObject (he : h.Every P Q) {id : ObjectId} {o o' : Object} (ho : h.object? id = some o)
    (hP : P o') : (h.setObject id o').Every P Q where
  object {id' x} hx := by
    rcases object?_setObject_cases ho hx with ⟨-, rfl⟩ | ⟨-, hx⟩
    · exact hP
    · exact he.object hx
  scope hs := he.scope hs

theorem addObject (he : h.Every P Q) {p : Payload} (hP : P (Object.new p)) :
    (h.addObject p).2.Every P Q where
  object {id o} ho := by
    rcases object?_addObject_cases ho with ⟨-, rfl⟩ | ⟨-, ho⟩
    · exact hP
    · exact he.object ho
  scope hs := he.scope hs

theorem setScope (he : h.Every P Q) {id : ScopeId} {s s' : Scope} (hs : h.scope? id = some s)
    (hQ : Q s') : (h.setScope id s').Every P Q where
  object ho := he.object ho
  scope hx := by
    rcases scope?_setScope_cases hs hx with ⟨-, rfl⟩ | ⟨-, hx⟩
    · exact hQ
    · exact he.scope hx

theorem addScope (he : h.Every P Q) {s : Scope} (hQ : Q s) : (h.addScope s).2.Every P Q where
  object ho := he.object ho
  scope hx := by
    rcases scope?_addScope_cases hx with ⟨-, rfl⟩ | ⟨-, hx⟩
    · exact hQ
    · exact he.scope hx

theorem updateRegistry (he : h.Every P Q) (r : Option RegistryId) (f : Registry → Registry) :
    (h.updateRegistry r f).Every P Q :=
  he.of_same (fun _ => object?_updateRegistry _ _ _ _) fun _ => scope?_updateRegistry _ _ _ _

end Every

/-- A property of objects and one of scopes are there from the beginning and stay. -/
structure Steady (wraps : Prop) (P : Object → Prop) (Q : Scope → Prop) : Prop where
  newObject : ∀ p, P (Object.new p)
  moreObject : ∀ {o}, P o → o.dead = false → o.refs ≠ maxCount → P { o with refs := o.refs + 1 }
  lessObject : ∀ {o}, P o → o.refs ≠ 0 → o.refs ≠ 1 → P { o with refs := o.refs - 1 }
  deadObject : ∀ o : Object, P o.destroyed
  payload : ∀ {o} p, P o → P { o with payload := p }
  newScope : ∀ {s : Scope}, s.refs = 1 → s.dead = false → Q s
  moreScope : ∀ {s}, Q s → s.dead = false → (s.refs = maxCount → wraps) →
    Q { s with refs := s.refs + 1 }
  lessScope : ∀ {s}, Q s → s.refs ≠ 0 → s.refs ≠ 1 ∨ s.dead = true →
    Q { s with refs := s.refs - 1 }
  deadScope : ∀ s : Scope, Q s.destroyed
  bindings : ∀ {s} b, Q s → Q { s with bindings := b }

namespace Steady

variable {p : Prop} {P : Object → Prop} {Q : Scope → Prop} {h h' : Heap}

theorem initial (hs : Steady p P Q) : Heap.initial.Every P Q where
  object ho := object?_initial ho ▸ hs.newObject _
  scope hx := by cases hx

theorem drops (hs : Steady p P Q) (he : h.Every P Q) {x : Handle} {freed : List Handle}
    (hx : h.Drops x h' freed) : h'.Every P Q := by
  cases hx with
  | idle => exact he
  | lessObject ho _ h0 h1 => exact he.setObject ho (hs.lessObject (he.object ho) h0 h1)
  | lastObject ho => exact he.setObject ho (hs.deadObject _)
  | lessScope hx h0 h1 => exact he.setScope hx (hs.lessScope (he.scope hx) h0 h1)
  | lastScope hx => exact (he.setScope hx (hs.deadScope _)).updateRegistry _ _

/-- Every elementary change keeps the property. -/
theorem move (hs : Steady p P Q) (he : h.Every P Q) (hm : h.Move p h') : h'.Every P Q := by
  cases hm with
  | drop x => exact hs.drops he (drops_dropOne h x)
  | destroy hx =>
    unfold Heap.destroyScope
    split_ifs
    · exact he
    · exact (he.setScope hx (hs.deadScope _)).updateRegistry _ _
  | addObject p => exact he.addObject (hs.newObject p)
  | retainObject ho hd hmax => exact he.setObject ho (hs.moreObject (he.object ho) hd hmax)
  | setPayload ho p => exact he.setObject ho (hs.payload p (he.object ho))
  | retainScope hx hd hmax => exact he.setScope hx (hs.moreScope (he.scope hx) hd hmax)
  | setBindings hx b => exact he.setScope hx (hs.bindings b (he.scope hx))
  | tick => exact he.of_same (fun _ => rfl) fun _ => rfl
  | enter name hpar =>
    have htick : { h with serial := h.serial + 1 }.Every P Q :=
      he.of_same (fun _ => rfl) fun _ => rfl
    exact (htick.addScope (hs.newScope rfl rfl)).updateRegistry _ _
  | globals =>
    have hadd := he.addScope (s := Workspace.globalScope (h.serial + 1) ⟨h.registries.size⟩)
      (hs.newScope rfl rfl)
    exact hadd.of_same (fun _ => rfl) fun _ => rfl

theorem moves (hs : Steady p P Q) (he : h.Every P Q) (hm : h.Moves p h') : h'.Every P Q :=
  hm.keep hs.move he

end Steady

/-- What is dead has no count left. -/
abbrev Spent (h : Heap) : Prop :=
  h.Every (fun o => o.dead = true → o.refs = 0) fun s => s.dead = true → s.refs = 0

theorem steady_spent (p : Prop) :
    Steady p (fun o => o.dead = true → o.refs = 0) fun s => s.dead = true → s.refs = 0 where
  newObject _ hd := by cases hd
  moreObject _ hd _ hd' := by rw [hd] at hd'; cases hd'
  lessObject ho h0 _ hd := absurd (ho hd) h0
  deadObject _ _ := rfl
  payload _ ho := ho
  newScope _ hd hd' := by rw [hd] at hd'; cases hd'
  moreScope _ hd _ hd' := by rw [hd] at hd'; cases hd'
  lessScope hs h0 _ hd := absurd (hs hd) h0
  deadScope _ _ := rfl
  bindings _ hs := hs

namespace Spent

variable {h : Heap}

theorem dropOne (hp : h.Spent) (x : Handle) : (h.dropOne x).heap.Spent :=
  (steady_spent True).drops hp (drops_dropOne h x)

theorem destroyScope (hp : h.Spent) {id : ScopeId} {s : Scope} (hs : h.scope? id = some s) :
    (h.destroyScope id s).heap.Spent :=
  (steady_spent True).move hp (.destroy hs)

end Spent

/-- What has no count left is dead. -/
abbrev Kept (h : Heap) : Prop :=
  h.Every (fun o => o.refs = 0 → o.dead = true) fun s => s.refs = 0 → s.dead = true

theorem add_one_ne_zero {n : UInt32} (hn : n ≠ maxCount) : n + 1 ≠ 0 := by
  intro hz
  have hnat := toNat_add_one hn
  rw [hz] at hnat
  cases hnat

theorem sub_one_ne_zero {n : UInt32} (h0 : n ≠ 0) (h1 : n ≠ 1) : n - 1 ≠ 0 := by
  intro hz
  have hnat := toNat_sub_one h0
  rw [hz] at hnat
  exact h1 (UInt32.toNat_inj.mp hnat.symm)

/-- A count comes to zero by destruction only, unless it starts again from there. -/
theorem steady_kept :
    Steady False (fun o => o.refs = 0 → o.dead = true) fun s => s.refs = 0 → s.dead = true where
  newObject _ h0 := by cases h0
  moreObject _ _ hmax h0 := absurd h0 (add_one_ne_zero hmax)
  lessObject _ h0 h1 hz := absurd hz (sub_one_ne_zero h0 h1)
  deadObject _ _ := rfl
  payload _ ho := ho
  newScope h1 _ h0 := by rw [h1] at h0; cases h0
  moreScope _ _ hmax h0 := absurd h0 (add_one_ne_zero hmax)
  lessScope _ h0 h1 hz := h1.resolve_left fun h1 => sub_one_ne_zero h0 h1 hz
  deadScope _ _ := rfl
  bindings _ hs := hs

/-! ### Scopes and their registries -/

/-- Every scope is there for good and keeps its registry. -/
def Places (h h' : Heap) : Prop :=
  ∀ id s, h.scope? id = some s → ∃ s', h'.scope? id = some s' ∧ s'.registry = s.registry

namespace Places

variable {p : Prop} {h h' h'' : Heap}

theorem of_same (hs : ∀ id, h'.scope? id = h.scope? id) : h.Places h' := fun id s hx =>
  ⟨s, by rw [hs, hx], rfl⟩

protected theorem trans (h1 : h.Places h') (h2 : h'.Places h'') : h.Places h'' := by
  intro id s hs
  obtain ⟨s', hs', hr'⟩ := h1 id s hs
  obtain ⟨s'', hs'', hr''⟩ := h2 id s' hs'
  exact ⟨s'', hs'', hr''.trans hr'⟩

theorem setScope {id : ScopeId} {s t : Scope} (hs : h.scope? id = some s)
    (hr : t.registry = s.registry) : h.Places (h.setScope id t) := by
  intro id' x hx
  rcases scope?_setScope_of t hs hx with ⟨-, rfl, ht⟩ | ⟨-, hx'⟩
  · exact ⟨t, ht, hr⟩
  · exact ⟨x, hx', rfl⟩

theorem addScope (h : Heap) (s : Scope) : h.Places (h.addScope s).2 := fun id x hx =>
  ⟨x, by rw [scope?_addScope_old s (lt_size_of_scope? hx), hx], rfl⟩

theorem updateRegistry (h : Heap) (r : Option RegistryId) (f : Registry → Registry) :
    h.Places (h.updateRegistry r f) :=
  .of_same fun _ => scope?_updateRegistry _ _ _ _

theorem destroyed {id : ScopeId} {s : Scope} (hs : h.scope? id = some s) :
    h.Places ((h.setScope id s.destroyed).updateRegistry s.registry (Registry.erase s.serial)) :=
  (Places.setScope (t := s.destroyed) hs rfl).trans (.updateRegistry _ _ _)

theorem move (hm : h.Move p h') : h.Places h' := by
  cases hm with
  | drop x =>
    have hx := drops_dropOne h x
    generalize (h.dropOne x).heap = k, (h.dropOne x).freed = freed at hx ⊢
    cases hx with
    | idle | lessObject | lastObject => exact .of_same fun _ => rfl
    | lessScope hs => exact .setScope hs rfl
    | lastScope hs => exact .destroyed hs
  | destroy hs =>
    unfold Heap.destroyScope
    split_ifs
    · exact .of_same fun _ => rfl
    · exact .destroyed hs
  | retainScope hs => exact .setScope hs rfl
  | setBindings hs => exact .setScope hs rfl
  | enter name hp =>
    have htick : h.Places { h with serial := h.serial + 1 } := .of_same fun _ => rfl
    rw [Scope.enter_eq]
    exact (htick.trans (.addScope _ _)).trans (.updateRegistry _ _ _)
  | globals => exact .addScope _ _
  | addObject | retainObject | setPayload | tick => exact .of_same fun _ => rfl

theorem moves (hm : h.Moves p h') : h.Places h' :=
  hm.lift Places.move Places.trans (.of_same fun _ => rfl)

end Places

end Heap

/-- The global scope of a workspace belongs to its registry. -/
def Workspace.Housed (ws : Workspace) (h : Heap) : Prop :=
  ∃ s, h.scope? ws.globals = some s ∧ s.registry = some ws.registry

namespace Workspace

variable {ws : Workspace}

theorem Housed.moves {p : Prop} {h h' : Heap} (hw : ws.Housed h) (hm : h.Moves p h') :
    ws.Housed h' := by
  obtain ⟨s, hs, hr⟩ := hw
  obtain ⟨s', hs', hr'⟩ := Heap.Places.moves hm ws.globals s hs
  exact ⟨s', hs', hr'.trans hr⟩

theorem housed_make {tables : List Builtin.Table} {w w' : World}
    (h : make tables w = .ok ws w') : ws.Housed w'.heap := by
  obtain ⟨_, w1, h1, h⟩ := Run.of_bind_ok h
  obtain ⟨p, w2, h2, h⟩ := Run.of_bind_ok h
  obtain ⟨globals, registry⟩ := p
  obtain ⟨_, w3, h3, h⟩ := Run.of_bind_ok h
  have hinstall : w2.Moves w3 :=
    Run.final_ok h3 ▸ respects_install World.elementary_moves globals _ w2
  obtain ⟨_, w4, h4, h⟩ := Run.of_bind_ok h
  obtain ⟨_, w5, h5, h⟩ := Run.of_bind_ok h
  cases h
  cases h5
  cases h4
  cases h2
  cases h1
  -- the scope is there from the beginning, and binding the library leaves it in its place
  refine Housed.moves ?_ hinstall.heap
  exact ⟨_, Heap.scope?_addScope_new _ _, rfl⟩

end Workspace

/-! ### Lawless clients -/

theorem Run.final_map {α β : Type} (act : Run α) (f : α → β) (w : World) :
    (f <$> act).final w = act.final w := by
  simp only [final, Functor.map, EStateM.map]
  cases act w <;> rfl

namespace Client

/-- What can be done with the library. -/
inductive Deed where
  | call (c : Call)
  | arguments (args : List Ref)
  | foreign (symbol lib : Text) (result : ForeignType) (args : List ForeignType)
  | eval (s : ScopeRef) (d : Datum)
  | make (tables : List Builtin.Table)
  | push (ws : Workspace)
  | pop (ws : Workspace)
  | close (ws : Workspace)

namespace Deed

/-- Does something, the result of which does not matter here. -/
def perform (engine : Engine) : Deed → Run Unit
  | .call c => (fun _ => ()) <$> c.perform engine
  | .arguments args => (fun _ => ()) <$> Arguments.force engine args
  | .foreign symbol lib result args => (fun _ => ()) <$> Foreign.make symbol lib result args
  | .eval s d => (fun _ => ()) <$> Eval.eval engine s d
  | .make tables => (fun _ => ()) <$> Workspace.make tables
  | .push ws => (fun _ => ()) <$> ws.pushScope
  | .pop ws => (fun _ => ()) <$> ws.popScope
  | .close ws => (fun _ => ()) <$> ws.close

end Deed

/-- The world after deeds, however each of them ends. -/
def afterDeeds (engine : Engine) (w : World) (deeds : List Deed) : World :=
  deeds.foldl (fun w d => (d.perform engine).final w) w

/-- An engine whose bodies do whatever can be done with the library, on every level. -/
inductive Lawless : Engine → Prop where
  /-- The bodies are code of programs. -/
  | program (n : Nat) : Lawless (.ofDepth n)
  /-- The bodies are what a client of the library makes them. -/
  | deeper {inner engine : Engine} (h : Lawless inner)
    (hrun : ∀ code s w, ∃ deeds, (engine.run code s).final w = afterDeeds inner w deeds)
    (hcall : ∀ f args, engine.call f args = Procedure.call inner f args) : Lawless engine

open Run

variable {engine : Engine}

/-- A call of a client that keeps to the rules is a deed, too. -/
theorem Holdings.world_after {s s' : Holdings} {c : Call} (h : s.after engine c = some s') :
    s'.world = ((Deed.call c).perform engine).final s.world := by
  refine Eq.trans ?_ (final_map _ _ _).symm
  unfold after at h
  split at h
  · split at h
    · next hw =>
      cases h
      exact (final_ok hw).symm
    · next hw =>
      cases h
      exact (final_error hw).symm
    · cases h
  · cases h

theorem Holdings.world_afterAll {s s' : Holdings} {calls : List Call}
    (h : s.afterAll engine calls = some s') :
    s'.world = afterDeeds engine s.world (calls.map .call) := by
  induction calls generalizing s with
  | nil =>
    cases h
    rfl
  | cons c calls ih =>
    rw [afterAll, List.foldlM_cons] at h
    obtain ⟨t, ht, h⟩ := Option.bind_eq_some_iff.mp h
    rw [ih h, world_after ht]
    rfl

/-- An action of a client that keeps to the rules is a deed. -/
theorem State.exists_deed {s s' : State} {a : Action} (h : s.after engine a = some s') :
    ∃ d : Deed, s'.world = (d.perform engine).final s.world := by
  have hmoved : ∀ {act : Run Workspace}, s.moved act = some s' → s'.world = act.final s.world := by
    intro act hact
    obtain ⟨ws, w, hw, rfl⟩ | ⟨f, w, hw, rfl⟩ := of_moved hact
    · exact (final_ok hw).symm
    · exact (final_error hw).symm
  cases a with
  | call c =>
    obtain ⟨t, ht, rfl⟩ := Option.map_eq_some_iff.mp h
    exact ⟨.call c, Holdings.world_after ht⟩
  | push =>
    refine ⟨.push s.workspace, (hmoved h).trans ?_⟩
    exact (final_map _ _ _).trans (final_map _ _ _).symm
  | pop => exact ⟨.pop s.workspace, (hmoved h).trans (final_map _ _ _).symm⟩

theorem State.exists_deeds {base : Nat} {s s' : State} {actions : List Action}
    (h : s.afterAllWithin engine base actions = some s') :
    ∃ deeds, s'.world = afterDeeds engine s.world deeds := by
  induction actions generalizing s with
  | nil =>
    cases h
    exact ⟨[], rfl⟩
  | cons a actions ih =>
    rw [afterAllWithin, List.foldlM_cons] at h
    obtain ⟨t, ht, h⟩ := Option.bind_eq_some_iff.mp h
    obtain ⟨d, hd⟩ := exists_deed (of_afterWithin ht).1
    obtain ⟨deeds, hdeeds⟩ := ih h
    exact ⟨d :: deeds, by rw [hdeeds, hd]; rfl⟩

theorem Body.exists_deeds {w : World} {act : Run Ref} (h : Body engine w (act w)) :
    ∃ deeds, act.final w = afterDeeds engine w deeds := by
  generalize hr : act w = r at h
  have hlast : ∀ {s : State} {d : Deed} {deeds : List Deed},
      s.world = afterDeeds engine w deeds → (d.perform engine).final s.world = act.final w →
        act.final w = afterDeeds engine w (deeds ++ [d]) := by
    intro s d deeds hs hd
    rw [afterDeeds, List.foldl_append, ← hd, hs]
    rfl
  cases h with
  | returns h =>
    obtain ⟨deeds, hdeeds⟩ := State.exists_deeds h
    exact ⟨deeds, (final_ok hr).trans hdeeds⟩
  | fails h =>
    obtain ⟨deeds, hdeeds⟩ := State.exists_deeds h
    exact ⟨deeds, (final_error hr).trans hdeeds⟩
  | @stops ws actions s c e w' h ht hc hstop =>
    obtain ⟨deeds, hdeeds⟩ := State.exists_deeds h
    exact ⟨_, hlast (d := .call c) hdeeds
      ((final_map _ _ _).trans ((final_error hc).trans (final_error hr).symm))⟩
  | @stopsAtPush ws actions s e w' h hp hstop =>
    obtain ⟨deeds, hdeeds⟩ := State.exists_deeds h
    exact ⟨_, hlast (d := .push s.workspace) hdeeds
      ((final_map _ _ _).trans ((final_error hp).trans (final_error hr).symm))⟩

theorem Conforms.lawless (h : Conforms engine) : Lawless engine := by
  induction h with
  | none => exact .program 0
  | deeper _ hrun hcall ih => exact .deeper ih (fun code s w => (hrun code s w).exists_deeds) hcall

theorem Call.built_perform (c : Call) : (c.perform engine).Built engine := by
  cases c with
  | constant c => exact (Object.built_constant c).map _
  | unspecified => exact (Built.makeObject _ rfl).map _
  | emptyList => exact .pure _
  | library f => exact (Built.makeObject _ rfl).map _
  | native signature => exact (Built.makeObject _ rfl).map _
  | pair left right => exact (Pair.built_make left right).map _
  | list items => exact (Pair.built_makeList items).map _
  | vector items => exact (Slots.built_make items).map _
  | append v item => exact (Built.append v item).map _
  | setLeft p value => exact (Built.setLeft p value).map _
  | setRight p value => exact (Built.setRight p value).map _
  | retain r => exact (Built.retain r).map _
  | release r => exact (Built.drop _).map _
  | scope parent => exact (Built.makeScope parent).map _
  | bind s name value => exact (Built.bindName s name value).map _
  | assign s name value => exact (Built.assignName s name value).map _
  | adopt s => exact (Built.adopt s).map _
  | retainScope s => exact (Built.retainScope s).map _
  | releaseScope s => exact (Built.drop _).map _
  | function params strict body s => exact (Procedure.built_close params strict body s).map _
  | call f args => exact (Procedure.built_call f args).map _
  | spread f args => exact (Procedure.built_spread f args).map _
  | thunk code s => exact (Thunk.built_make code s).map _
  | force r => exact .reading (fun _ => rfl) fun _ => (Built.force r).map _

section Respects

variable {R : World → World → Prop} [IsPreorder World R] (hR : World.Elementary R)

include hR

theorem Deed.respects_perform (he : engine.Respects R) (d : Deed) :
    (d.perform engine).Respects R := by
  cases d with
  | call c => exact (c.built_perform.respects hR he).map _
  | arguments args => exact ((Arguments.built_forceAfter [] args).respects hR he).map _
  | foreign symbol lib result args =>
    exact ((Foreign.built_make symbol lib result args).respects hR he).map _
  | eval s d => exact ((Eval.built_eval s d).respects hR he).map _
  | make tables => exact (Workspace.respects_make hR tables).map _
  | push ws => exact (ws.respects_pushScope hR).map _
  | pop ws => exact (ws.respects_popScope hR).map _
  | close ws => exact (ws.respects_close hR).map _

/-- What the operations on the store respect, every client does. -/
theorem respects_afterDeeds (he : engine.Respects R) (w : World) (deeds : List Deed) :
    R w (afterDeeds engine w deeds) := by
  induction deeds generalizing w with
  | nil => exact refl w
  | cons d deeds ih => exact IsTrans.trans w _ _ (d.respects_perform hR he w) (ih _)

theorem Lawless.respects (h : Lawless engine) : engine.Respects R := by
  induction h with
  | program n => exact Engine.respects_ofDepth hR n
  | deeper _ hrun hcall ih =>
    refine ⟨fun code s w => ?_, fun f args => ?_⟩
    · obtain ⟨deeds, he⟩ := hrun code s w
      rw [he]
      exact respects_afterDeeds hR ih w deeds
    · rw [hcall]
      exact (Procedure.built_call f args).respects hR ih

end Respects

theorem moves_afterDeeds (he : engine.Moves) (w : World) (deeds : List Deed) :
    w.Moves (afterDeeds engine w deeds) :=
  respects_afterDeeds World.elementary_moves he w deeds

theorem Lawless.moves (h : Lawless engine) : engine.Moves :=
  h.respects World.elementary_moves

theorem reclaim_afterDeeds (he : Lawless engine) {w : World} (hw : w.Fresh) (deeds : List Deed) :
    (afterDeeds engine w deeds).reclaim = true :=
  (moves_afterDeeds he.moves w deeds).reclaim.trans hw.reclaim

/-- **Registries are exact** whatever has been done. -/
theorem tracked_afterDeeds (he : Lawless engine) {w : World} (hw : w.Fresh) (deeds : List Deed) :
    (afterDeeds engine w deeds).heap.Tracked := by
  have hstart : w.heap.Tracked := by
    rw [hw.heap]
    exact Heap.tracked_initial
  exact hstart.moves (moves_afterDeeds he.moves w deeds).heap

/-- What is dead has no count left, whatever has been done. -/
theorem spent_afterDeeds (he : Lawless engine) {w : World} (hw : w.Fresh) (deeds : List Deed) :
    (afterDeeds engine w deeds).heap.Spent := by
  have hstart : w.heap.Spent := by
    rw [hw.heap]
    exact (Heap.steady_spent True).initial
  exact (Heap.steady_spent _).moves hstart (moves_afterDeeds he.moves w deeds).heap

/-- What has no count left is dead, whatever has been done, unless some scope has had more owners
than can be counted. -/
theorem kept_afterDeeds (he : Lawless engine) {w : World} (hw : w.Fresh) {deeds : List Deed}
    (hwrapped : (afterDeeds engine w deeds).conduct.wrapped = false) :
    (afterDeeds engine w deeds).heap.Kept := by
  have hstart : w.heap.Kept := by
    rw [hw.heap]
    exact Heap.steady_kept.initial
  have hmoves := (moves_afterDeeds he.moves w deeds).heap
  refine Heap.steady_kept.moves hstart (hmoves.mono fun hw => ?_)
  rw [hwrapped] at hw
  cases hw

/-- A new workspace is something that can be done, too. -/
theorem afterDeeds_make {w w' : World} {ws : Workspace} {before : List Deed}
    {tables : List Builtin.Table}
    (h : Workspace.make tables (afterDeeds engine w before) = .ok ws w') (later : List Deed) :
    afterDeeds engine w (before ++ .make tables :: later) = afterDeeds engine w' later := by
  have hmake : (Deed.perform engine (.make tables)).final (afterDeeds engine w before) = w' :=
    (final_map _ _ _).trans (final_ok h)
  rw [afterDeeds, List.foldl_append, List.foldl_cons]
  exact congrArg (fun v => afterDeeds engine v later) hmake

end Client

end CountedLisp
