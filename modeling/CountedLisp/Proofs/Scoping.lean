import CountedLisp.Proofs.Store
import Mathlib.Data.List.TakeWhile

/-!
# Changing scopes

Every function that makes, counts or changes a scope is sound. A new scope takes over a reference to
the scope around it; a name that gets a new value gives up the old one.

The count of a scope is not protected at its maximum; `Scope.sound_retain` rests on the record of
conduct there.
-/

namespace CountedLisp

open Run

variable {P : Prop} {C S T B : Share} {w w' : World}

namespace Scope

/-! ### Counting -/

theorem retain_eq (id : ScopeId) (w : World) :
    retain (some id) w = match w.heap.scope? id with
      | none => .error (.breach danglingBreach) w
      | some s =>
        if s.dead then .error (.breach ("attempt to retain destroyed environment " ++ s.name)) w
        else .ok (some id)
          { w.note s.countUp with
            heap := w.heap.setScope id { s with refs := s.refs + 1 } } := by
  unfold retain
  dsimp only
  rw [get_bind]
  cases w.heap.scope? id with
  | none => rfl
  | some s =>
    dsimp only
    split_ifs <;> rfl

theorem retain_of_living {id : ScopeId} {x : Scope} (hx : w.heap.scope? id = some x)
    (hd : x.dead = false) :
    retain (some id) w = .ok (some id)
      { w.note x.countUp with heap := w.heap.setScope id { x with refs := x.refs + 1 } } := by
  rw [retain_eq, hx]
  simp [hd]

theorem retain_ok {s v : ScopeRef} (h : retain s w = .ok v w') : s = v := by
  cases s with
  | none => cases h; rfl
  | some id =>
    rw [retain_eq] at h
    split at h
    · cases h
    · split_ifs at h
      cases h
      rfl

theorem leads_countUp (P : Prop) (s : Scope) (c : Conduct) : c.Leads P (s.countUp c) where
  applied := id
  orphaned := id
  reentered := id
  abandoned := id
  knotted := id
  wrapped h := by simp [countUp, h]
  spread := .inl
  plain _ := rfl

/-- **A new owner** of a living scope. -/
theorem sound_retain {s : ScopeRef} (hb : w.Books (T + C)) (hs : w.Sees S (Share.scope s)) :
    (retain s).Sound P C S w (fun v => Share.scope v + T) B := by
  cases s with
  | none => exact .pure (by simpa using hb)
  | some id =>
    have heq := retain_eq id w
    have hbreach : ∀ {m}, retain (some id) w = .error (.breach m) w →
        (w.conduct.Tame → w.heap.Keeps S → False) →
        (retain (some id)).Sound P C S w (fun v => Share.scope v + T) B := fun he hno =>
      (Sound.breach hb fun _ => hno).congr he fun _ _ _ ht hS => (hno ht hS).elim
    cases hx : w.heap.scope? id with
    | none =>
      rw [hx] at heq
      refine hbreach heq fun ht hS => ?_
      obtain ⟨x, hx', -⟩ := Heap.keeps_scope_some.mp (hs ht hS)
      rw [hx] at hx'
      cases hx'
    | some x =>
      rw [hx] at heq
      dsimp only at heq
      split_ifs at heq with hd
      · refine hbreach heq fun ht hS => ?_
        exact (Heap.keeps_scope_some.mp (hs ht hS)).not_dead ⟨x, hx, hd⟩
      · have hd' : x.dead = false := Bool.eq_false_iff.mpr hd
        have hl := leads_countUp P x w.conduct
        have hb1 : (w.note x.countUp).Books (T + C) := hb.note hl
        have hleads : w.heap.Leads (w.heap.setScope id { x with refs := x.refs + 1 }) :=
          .setScope hx fun hd => hd
        refine .of_ok heq ⟨hleads, rfl, hl⟩ ?_ (fun _ u hm _ _ _ => ?_) fun _ => rfl
        · -- at the maximum the count starts again from zero, and there is a note of it
          by_cases hmax : x.refs = maxCount
          · exact hb1.of_wrapped hleads (fun _ hf => hf) (by simp [World.note, countUp, hmax])
          · have hb0 := hb1.cast (zero_add _)
            exact (hb0.pass (.retainScope hx hd' hmax)).cast (add_assoc _ _ _)
        · obtain ⟨n, hn⟩ := hm.heap.scope hx hd'
          have hu := retain_eq id u
          rw [hn] at hu
          simp only [hd', Bool.false_eq_true, if_false] at hu
          exact ⟨_, hu, { hm with heap := hm.heap.setScope hx _ (n := n + 1) (by rw [hd']) }⟩

theorem sound_release {s : ScopeRef} (hb : w.Books (Share.scope s + (T + C))) :
    (release s).Sound P C S w (fun _ => T) B :=
  sound_drop hb

/-! ### Making scopes -/

theorem enter_eq (name : Text) (serial : Nat) (parent : ScopeRef) (h : Heap) :
    enter name serial parent h =
      ((h.addScope (new name serial parent (registryOf h parent))).1,
        (h.addScope (new name serial parent (registryOf h parent))).2.updateRegistry
          (registryOf h parent) (Registry.insert serial
            (h.addScope (new name serial parent (registryOf h parent))).1)) := rfl

/-- The heap with a new scope. -/
theorem passes_enter (name : Text) (serial : Nat) (parent : ScopeRef) (h : Heap) :
    h.Passes (enter name serial parent h).2 (Share.scope parent)
      (Share.scope (some (enter name serial parent h).1)) :=
  (Heap.Passes.addScope h (s := new name serial parent (registryOf h parent)) rfl rfl).trans
    (.updateRegistry _ _ _ _)

theorem mirrors_enter {h k : Heap} (hm : h.Mirrors k) (name : Text) (serial : Nat)
    {parent : ScopeRef} (hp : h.Keeps (Share.scope parent)) :
    (enter name serial parent k).1 = (enter name serial parent h).1 ∧
      (enter name serial parent h).2.Mirrors (enter name serial parent k).2 := by
  have hreg : registryOf k parent = registryOf h parent := by
    obtain ⟨h1, h2⟩ | ⟨x, n, h1, -, h2⟩ := hm.getScope? hp
    · simp only [registryOf, h1, h2]
    · simp only [registryOf, h1, h2, Option.bind_some]
  have hadd := hm.addScope (new name serial parent (registryOf h parent))
  rw [enter_eq, enter_eq, hreg, hadd.1]
  exact ⟨rfl, hadd.2.updateRegistry _ _⟩

/-- **A new scope** inside of a living one. -/
theorem sound_make {parent : ScopeRef} (hb : w.Books (T + C))
    (hs : w.Sees S (Share.scope parent)) :
    (make parent).Sound P C S w (fun id => Share.scope (some id) + T) B := by
  have hserial := Heap.Passes.setRest w.heap w.heap.registries (w.heap.serial + 1) T
  refine Sound.bind (G := fun _ => T) (.of_ok (a := w.heap.serial + 1)
    (v := { w with heap := { w.heap with serial := w.heap.serial + 1 } }) rfl
    ⟨hserial.leads, rfl, .refl P _⟩ (hb.pass hserial) (fun _ u hm _ _ _ => ?_) fun _ => rfl)
    fun {serial w1} h1 hb1 _ => ?_
  · refine ⟨{ u with heap := { u.heap with serial := u.heap.serial + 1 } }, ?_, ?_⟩
    · rw [← hm.heap.serial]
      rfl
    · exact { hm with heap := { hm.heap with serial := by rw [hm.heap.serial] } }
  cases h1
  refine (sound_retain hb1 hs).bind fun {v w2} h2 hb2 _ => ?_
  obtain rfl := retain_ok h2
  have henter := passes_enter ("env" ++ Text.ofNat (w.heap.serial + 1)) (w.heap.serial + 1) parent
    w2.heap
  refine Sound.bind (G := fun id => Share.scope (some id) + T) (.of_ok
    (a := (enter ("env" ++ Text.ofNat (w.heap.serial + 1)) (w.heap.serial + 1) parent w2.heap).1)
    (v := { w2 with heap := (enter ("env" ++ Text.ofNat (w.heap.serial + 1)) (w.heap.serial + 1)
      parent w2.heap).2 }) rfl ⟨henter.leads, rfl, .refl P _⟩
    (((hb2.cast (add_assoc _ _ _).symm).pass henter).cast (add_assoc _ _ _))
    (fun _ u hm ht hS _ => ?_) fun _ => rfl) fun {id w3} _ hb3 _ => ?_
  · -- the scope around it has been retained, and so it lives
    have hparent : w2.heap.Keeps (Share.scope parent) :=
      (Heap.keeps_add.mp (Heap.keeps_add.mp (hb2.keeps ht.wrapped)).1).1
    have hm' := mirrors_enter hm.heap ("env" ++ Text.ofNat (w.heap.serial + 1))
      (w.heap.serial + 1) hparent
    refine ⟨{ u with heap := _ }, ?_, { hm with heap := hm'.2 }⟩
    rw [← hm'.1]
    rfl
  exact (Sound.traceScope _ _ hb3).bind fun _ hb4 _ => .pure hb4

theorem retain_object? {s v : ScopeRef} (h : retain s w = .ok v w') (id : ObjectId) :
    w'.heap.object? id = w.heap.object? id := by
  cases s with
  | none => cases h; rfl
  | some p =>
    rw [retain_eq] at h
    split at h
    · cases h
    · split_ifs at h
      cases h
      rfl

/-- Making a scope takes a number, retains the scope around and enters the new one. -/
theorem make_steps {parent : ScopeRef} {s : ScopeId} (h : make parent w = .ok s w') :
    ∃ v w₁ name l,
      retain parent { w with heap := { w.heap with serial := w.heap.serial + 1 } } = .ok v w₁ ∧
      s = (enter name (w.heap.serial + 1) parent w₁.heap).1 ∧
      w' = { w₁ with heap := (enter name (w.heap.serial + 1) parent w₁.heap).2, log := l } := by
  obtain ⟨serial, w₀, h₀, h⟩ := of_bind_ok h
  obtain ⟨v, w₁, h₁, h⟩ := of_bind_ok h
  obtain ⟨s', w₂, h₂, h⟩ := of_bind_ok h
  obtain ⟨_, w₃, h₃, h⟩ := of_bind_ok h
  obtain ⟨l, hl⟩ := Sound.logs_traceScope ("env" ++ Text.ofNat serial) "new environment" w₂
  rw [hl] at h₃
  cases h
  cases h₃
  cases h₂
  cases h₀
  exact ⟨v, w₁, _, l, h₁, rfl, rfl⟩

/-- If the scope around can be retained, there is a new scope. -/
theorem make_of_retain {parent v : ScopeRef} {w₁ : World}
    (h : retain parent { w with heap := { w.heap with serial := w.heap.serial + 1 } } = .ok v w₁) :
    ∃ name l, make parent w = .ok ⟨w₁.heap.scopes.size⟩
      { w₁ with heap := (enter name (w.heap.serial + 1) parent w₁.heap).2, log := l } := by
  generalize hname : ("env" ++ Text.ofNat (w.heap.serial + 1) : Text) = name
  obtain ⟨l, hl⟩ := Sound.logs_traceScope name "new environment"
    { w₁ with heap := (enter name (w.heap.serial + 1) parent w₁.heap).2 }
  have hserial : Run.updateHeap (fun h => (h.serial + 1, { h with serial := h.serial + 1 })) w =
      .ok (w.heap.serial + 1) { w with heap := { w.heap with serial := w.heap.serial + 1 } } := rfl
  have henter : Run.updateHeap (enter name (w.heap.serial + 1) parent) w₁ =
      .ok ⟨w₁.heap.scopes.size⟩
        { w₁ with heap := (enter name (w.heap.serial + 1) parent w₁.heap).2 } := rfl
  refine ⟨name, l, ?_⟩
  unfold make
  rw [bind_ok hserial, bind_ok h, hname, bind_ok henter, bind_ok hl]
  rfl

/-- There can be a new scope inside of every living one. -/
theorem make_of_lives {parent : ScopeRef}
    (hp : ∀ q, parent = some q → w.heap.Lives (.scope q)) :
    ∃ s w', make parent w = .ok s w' ∧ w'.reclaim = w.reclaim := by
  cases parent with
  | none =>
    obtain ⟨name, l, hmake⟩ := make_of_retain (w := w) (show retain none _ = .ok none _ from rfl)
    exact ⟨_, _, hmake, rfl⟩
  | some q =>
    obtain ⟨x, hx, hd⟩ := hp q rfl
    obtain ⟨name, l, hmake⟩ := make_of_retain (retain_of_living
      (w := { w with heap := { w.heap with serial := w.heap.serial + 1 } }) hx hd)
    exact ⟨_, _, hmake, rfl⟩

/-- A new scope leaves the objects as they are. -/
theorem make_object? {parent : ScopeRef} {s : ScopeId} (h : make parent w = .ok s w')
    (id : ObjectId) : w'.heap.object? id = w.heap.object? id := by
  obtain ⟨v, w₁, name, l, hretain, rfl, rfl⟩ := make_steps h
  rw [← show _ = w.heap.object? id from retain_object? hretain id]
  simp only [enter_eq, Heap.object?_updateRegistry]
  rfl

/-! ### Living scopes -/

/-- Asking for a living scope fails with something other than a destroyed scope, or gives the
scope. The same happens where nothing is destroyed. -/
theorem expect_cases (op : Text) {s : ScopeRef} (hs : w.Sees S (Share.scope s)) :
    (∃ f, expect op s w = .error (.failure f) w ∧ (w.conduct.Tame → w.heap.Keeps S →
        f.reportsLoss = false ∧ ∀ u, w.Mirrors u → expect op s u = .error (.failure f) u)) ∨
      ∃ id x, s = some id ∧ w.heap.scope? id = some x ∧ x.dead = false ∧
        expect op s w = .ok (id, x) w ∧
        ∀ u, w.Mirrors u → ∃ n, expect op s u = .ok (id, { x with refs := n }) u := by
  have hnone : ∀ u : World, u.heap.getScope? s = none → expect op s u =
      .error (.failure (.of .typeMismatch op "environment" "nil")) u := by
    intro u hu
    unfold expect
    rw [get_bind, hu]
    cases s <;> rfl
  have hsome : ∀ (u : World) (id : ScopeId) (x : Scope), s = some id → u.heap.scope? id = some x →
      x.dead = false → expect op s u = .ok (id, x) u := by
    intro u id x hid hx hd
    subst hid
    unfold expect
    rw [get_bind, show u.heap.getScope? (some id) = some x from hx]
    simp only [hd, Bool.false_eq_true, if_false]
    rfl
  cases hx : w.heap.getScope? s with
  | none =>
    refine .inl ⟨_, hnone w hx, fun ht hS => ⟨rfl, fun u hm => hnone u ?_⟩⟩
    obtain ⟨-, h2⟩ | ⟨x, n, h1, -, -⟩ := hm.heap.getScope? (hs ht hS)
    · exact h2
    · rw [hx] at h1
      cases h1
  | some x =>
    obtain ⟨id, rfl⟩ : ∃ id, s = some id := by
      cases s with
      | none => cases hx
      | some id => exact ⟨id, rfl⟩
    cases hd : x.dead with
    | true =>
      -- this does not happen to a scope that lives
      refine .inl ⟨.of .typeMismatch op "live environment" ("destroyed " ++ x.name), ?_,
        fun ht hS => ?_⟩
      · unfold expect
        rw [get_bind, hx]
        simp only [hd, if_true]
        rfl
      · exact absurd ⟨x, hx, hd⟩ (Heap.keeps_scope_some.mp (hs ht hS)).not_dead
    | false =>
      refine .inr ⟨id, x, rfl, hx, hd, hsome w id x rfl hx hd, fun u hm => ?_⟩
      obtain ⟨n, hn⟩ := hm.heap.scope hx hd
      exact ⟨n, hsome u id _ rfl hn hd⟩

/-- A run with a living scope, of which anything but the count may be used. -/
theorem sound_expect {α : Type} {op : Text} {s : ScopeRef} {k : ScopeId × Scope → Run α}
    {G : α → Share} (hb : w.Books (B + C)) (hs : w.Sees S (Share.scope s))
    (hk : ∀ {id x}, s = some id → w.heap.scope? id = some x → x.dead = false →
      (k (id, x)).Sound P C S w G B)
    (hn : ∀ id x n, k (id, { x with refs := n }) = k (id, x)) :
    (expect op s >>= k).Sound P C S w G B := by
  rcases expect_cases op hs with ⟨f, hw, hf⟩ | ⟨id, x, hid, hx, hd, hw, hu⟩
  · exact (Sound.fail hb fun _ ht hS => (hf ht hS).1).congr (bind_error hw)
      fun _ u hm ht hS => bind_error ((hf ht hS).2 u hm)
  · refine (hk hid hx hd).congr (bind_ok hw) fun _ u hm _ _ => ?_
    obtain ⟨n, hu⟩ := hu u hm
    rw [bind_ok hu, hn]

/-- Reading a living scope, of which anything but the count may be used. -/
theorem reads_expect {α : Type} {op : Text} {s : ScopeRef} {k : ScopeId × Scope → Run α}
    (hs : w.Sees S (Share.scope s)) (hk : ∀ x, (k x).Reads P S w)
    (hn : ∀ id x n, k (id, { x with refs := n }) = k (id, x)) :
    (expect op s >>= k).Reads P S w := by
  rcases expect_cases op hs with ⟨f, hw, hf⟩ | ⟨id, x, -, -, -, hw, hu⟩
  · exact (Reads.fail fun _ ht hS => (hf ht hS).1).congr (bind_error hw)
      fun _ u hm ht hS => bind_error ((hf ht hS).2 u hm)
  · refine (hk (id, x)).congr (bind_ok hw) fun _ u hm _ _ => ?_
    obtain ⟨n, hu⟩ := hu u hm
    rw [bind_ok hu, hn]

/-! ### Values of names -/

/-- What a search finds is the value of the name in one of the scopes. -/
theorem search_some {h : Heap} {name : Text} {ids : List ScopeId} {v : Ref} {id : ScopeId}
    (hs : search h name ids = some (v, id)) :
    id ∈ ids ∧ ∃ x, h.scope? id = some x ∧ x.get? name = some v := by
  obtain ⟨id', hmem, hfound⟩ := List.exists_of_findSome?_eq_some hs
  simp only [Option.map_eq_some_iff, Prod.mk.injEq] at hfound
  obtain ⟨v', hget, rfl, rfl⟩ := hfound
  obtain ⟨x, hx, hv⟩ := Option.bind_eq_some_iff.mp hget
  exact ⟨hmem, x, hx, hv⟩

theorem mem_owned_of_get? {x : Scope} {name : Text} {v : Ref} (hv : x.get? name = some v) :
    Share.ref v ⊆ (x.owned : Share) := by
  have hmem : v ∈ x.bindings.map fun e => e.2 := by
    obtain ⟨b, hb⟩ : ∃ b, x.bindings = b := ⟨_, rfl⟩
    simp only [get?, hb] at hv ⊢
    clear hb
    induction b with
    | nil => cases hv
    | cons e b ih =>
      rw [List.lookup_cons] at hv
      split at hv
      · cases hv
        exact List.mem_cons_self
      · exact List.mem_cons_of_mem _ (ih hv)
  intro y hy
  exact Multiset.mem_coe.mpr (List.mem_append_left _
    (Multiset.mem_coe.mp (Share.mem_refs.mpr ⟨v, hmem, hy⟩)))

theorem isAlive_of_lives {h : Heap} {id : ScopeId} (hid : h.Lives (.scope id)) :
    isAlive h id = true := by
  obtain ⟨x, hx, hd⟩ := hid
  simp [isAlive, hx, hd]

theorem lives_of_isAlive {h : Heap} {id : ScopeId} (hid : isAlive h id = true) :
    h.Lives (.scope id) := by
  unfold isAlive at hid
  split at hid
  · next x hx => exact ⟨x, hx, by simpa using hid⟩
  · cases hid

theorem resolve?_living {h : Heap} (hc : h.Closed) {s : ScopeRef} (name : Text)
    (hs : h.Keeps (Share.scope s)) : resolve? h s name = search h name (h.chainFrom s) := by
  unfold resolve?
  -- the search stops at the first dead scope, but there is none
  rw [List.takeWhile_eq_self_iff.mpr fun id hid => isAlive_of_lives (hc.chainFrom hs id hid)]

theorem resolve?_mirror {h k : Heap} (hm : h.Mirrors k) (hc : h.Closed) {s : ScopeRef}
    (name : Text) (hs : h.Keeps (Share.scope s)) : resolve? k s name = resolve? h s name := by
  have hlive := hc.chainFrom hs
  rw [resolve?_living hc name hs, ← hm.search name hlive]
  unfold resolve?
  rw [hm.chainFrom hc hs, List.takeWhile_eq_self_iff.mpr fun id hid => ?_]
  obtain ⟨x, hx, hd⟩ := hlive id hid
  obtain ⟨n, hn⟩ := hm.scope hx hd
  exact isAlive_of_lives ⟨_, hn, hd⟩

theorem reads_lookup {s : ScopeRef} (name : Text) (hb : w.Books C)
    (hs : w.Sees S (Share.scope s)) : (lookup s name).Reads P S w := by
  refine .get_bind ?_ fun _ u hm ht hS => by
    rw [resolve?_mirror hm.heap (hb.closed ht.wrapped) name (hs ht hS)]
  split
  · exact .pure _
  · exact reads_expect hs (fun _ => .fail fun _ _ _ => rfl) fun _ _ _ => rfl

theorem sees_lookup {s : ScopeRef} {name : Text} (hb : w.Books C) {v : Ref}
    (h : lookup s name w = .ok v w') : w.Sees S (Share.ref v) := fun ht _ => by
  unfold lookup at h
  rw [get_bind] at h
  cases hr : resolve? w.heap s name with
  | none =>
    rw [hr] at h
    obtain ⟨x, w1, -, h⟩ := of_bind_ok h
    cases h
  | some found =>
    obtain ⟨v', id⟩ := found
    rw [hr] at h
    cases h
    obtain ⟨hmem, x, hx, hv⟩ := search_some hr
    -- the scope in which the name was found lives and owns the value
    obtain ⟨x', hx', hd⟩ := lives_of_isAlive (List.mem_takeWhile_imp hmem)
    rw [hx, Option.some.injEq] at hx'
    subst hx'
    exact ((hb.closed ht.wrapped).scope hx hd).mono (mem_owned_of_get? hv)

/-! ### Bindings -/

/-- A name that gets a value gives up the one that it had. -/
theorem refs_put (name : Text) (value : Ref) (b : List (Text × Ref)) :
    ((b.lookup name).elim 0 Share.ref) + Share.refs ((put name value b).map fun e => e.2) =
      Share.ref value + Share.refs (b.map fun e => e.2) := by
  induction b with
  | nil => simp [put]
  | cons e b ih =>
    obtain ⟨n, v⟩ := e
    rw [put, List.lookup_cons]
    -- the first binding of the name is the one that is looked up and replaced
    by_cases hn : n = name
    · subst hn
      simp only [if_true, BEq.rfl, Option.elim_some, List.map_cons, Share.refs_cons]
      abel
    · have hne : (name == n) = false := beq_false_of_ne (Ne.symm hn)
      simp only [hn, if_false, hne, List.map_cons, Share.refs_cons]
      rw [add_left_comm, ih]
      abel

theorem store_some {h : Heap} {id : ScopeId} {x : Scope} (name : Text) (value : Ref)
    (hx : h.scope? id = some x) :
    store id name value h = h.setScope id { x with bindings := put name value x.bindings } := by
  simp only [store, hx]

theorem lookup_put (name : Text) (value : Ref) (b : List (Text × Ref)) :
    (put name value b).lookup name = some value := by
  induction b with
  | nil => simp [put]
  | cons e b ih =>
    obtain ⟨n, v⟩ := e
    by_cases hn : n = name
    · simp [put, hn]
    · have hne : (name == n) = false := by simpa using fun h => hn h.symm
      simp [put, hn, List.lookup_cons, hne, ih]

/-- A new value for a name of a scope: the scope gets it and gives up the old one. -/
theorem sound_store {α : Type} {id : ScopeId} {x : Scope} {name : Text} {value : Ref}
    {k : Run α} {G : α → Share} (hb : w.Books C) (hv : Share.ref value ⊆ S + C)
    (hx : w.heap.scope? id = some x) (hd : w.conduct.wrapped = false → x.dead = false)
    (hk : ∀ {w' : World}, w'.Books ((x.get? name).elim 0 Share.ref + C) →
      k.Sound P C S w' G B) :
    (do
      let _ ← Object.retain value
      Run.modifyHeap (store id name value)
      k : Run α).Sound P C S w G B := by
  have hb0 := hb.cast (zero_add C)
  refine (Object.sound_retain hb0 (hb0.sees hv)).bind fun {r w1} h1 hb1 _ => ?_
  obtain ⟨rfl, h', rfl, hscope, -⟩ := Object.retain_ok h1
  have hx1 : h'.scope? id = some x := by rw [hscope, hx]
  have hleads : h'.Leads (store id name value h') := by
    rw [store_some name value hx1]
    exact .setScope hx1 fun hd => hd
  have hholds : ∀ f, h'.Holds f → (store id name value h').Holds f := by
    rw [store_some name value hx1]
    exact fun _ hf => hf
  -- what is owned between the change and the rest of the run is the old value
  refine Sound.bind (G := fun _ => (x.get? name).elim 0 Share.ref)
    (.modify ⟨hleads, rfl, .refl P _⟩ ?_ (fun _ u hm ht _ _ => ?_) fun _ _ _ => rfl)
    fun _ hb2 _ => hk hb2
  · cases hw : w.conduct.wrapped with
    | true => exact hb1.of_wrapped hleads hholds hw
    | false =>
      have hpass : h'.Passes (store id name value h') (Share.ref value)
          ((x.get? name).elim 0 Share.ref) := by
        rw [store_some name value hx1]
        exact .setBindings hx1 (hd hw) (refs_put name value x.bindings)
      exact (hb1.cast (by simp)).pass hpass
  · obtain ⟨n, hn⟩ := hm.heap.scope hx1 (hd ht.wrapped)
    refine { hm with heap := ?_ }
    dsimp only
    rw [store_some name value hx1, store_some name value hn]
    exact hm.heap.setScope hx1 _ rfl

theorem sound_bind {s : ScopeRef} {name : Text} {value : Ref} (hb : w.Books C)
    (hs : Share.scope s ⊆ S + C) (hv : Share.ref value ⊆ S + C) :
    (bind s name value).Sound P C S w (fun _ => 0) 0 := by
  have hb0 := hb.cast (zero_add C)
  refine sound_expect hb0 (hb0.sees hs) (fun {id x} _ hx hd => ?_) fun _ _ _ => rfl
  refine sound_store hb hv hx (fun _ => hd) fun {w'} hb' => ?_
  cases ho : x.get? name with
  | some old =>
    rw [ho] at hb'
    exact Object.sound_release hb'
  | none =>
    rw [ho] at hb'
    exact .pure hb'

theorem sound_assign {s : ScopeRef} {name : Text} {value : Ref} (hb : w.Books C)
    (hs : Share.scope s ⊆ S + C) (hv : Share.ref value ⊆ S + C) :
    (assign s name value).Sound P C S w Share.ref 0 := by
  have hb0 := hb.cast (zero_add C)
  refine sound_expect hb0 (hb0.sees hs) (fun {id x} hid hx hd => ?_) fun _ _ _ => rfl
  -- the scope lives, and so do those around it
  have hkeeps : w.heap.Keeps (Share.scope s) := by
    rw [hid, Heap.keeps_scope_some]
    exact ⟨x, hx, hd⟩
  refine .get_bind ?_ fun _ u hm ht hS => ?_
  · dsimp only
    split
    · -- a name without a value
      exact .fail hb0 fun _ _ _ => rfl
    · next old id' hfound =>
      obtain ⟨hmem, y, hy, hold⟩ := search_some hfound
      refine sound_store hb hv hy (fun hw => ?_) fun {w'} hb' => ?_
      · obtain ⟨y', hy', hd'⟩ := (hb.closed hw).chainFrom hkeeps id' hmem
        rw [hy, Option.some.injEq] at hy'
        subst hy'
        exact hd'
      · rw [hold] at hb'
        refine (Object.sound_release hb').bind fun {_ w2} _ hb2 _ => ?_
        exact Object.sound_make_plain rfl rfl (hb2.cast (zero_add C).symm)
  · have hc := hb.closed ht.wrapped
    rw [hm.heap.chainFrom hc hkeeps, hm.heap.search name (hc.chainFrom hkeeps)]

/-! ### Moving a scope -/

theorem append_some {h : Heap} {id : ScopeId} {x : Scope} (name : Text) (value : Ref)
    (hx : h.scope? id = some x) : append id name value h =
      h.setScope id { x with bindings := x.bindings ++ [(name, value)] } := by
  simp only [append, hx]

theorem append_none {h : Heap} {id : ScopeId} (name : Text) (value : Ref)
    (hx : h.scope? id = none) : append id name value h = h := by
  simp only [append, hx]

/-- A further binding for a scope that is owned takes over the reference to its value. -/
theorem sound_append {id : ScopeId} {name : Text} {value : Ref}
    (hb : w.Books (Share.ref value + T + C)) (hid : .scope id ∈ T) :
    (Run.modifyHeap (append id name value)).Sound False C S w (fun _ => T) B := by
  have hleads : w.heap.Leads (append id name value w.heap) := by
    cases hx : w.heap.scope? id with
    | none => rw [append_none name value hx]; exact .refl _
    | some x => rw [append_some name value hx]; exact .setScope hx fun hd => hd
  have hholds : ∀ f, w.heap.Holds f → (append id name value w.heap).Holds f := by
    cases hx : w.heap.scope? id with
    | none => rw [append_none name value hx]; exact fun _ hf => hf
    | some x => rw [append_some name value hx]; exact fun _ hf => hf
  refine .modify ⟨hleads, rfl, .refl _ _⟩ ?_ (fun hF => hF.elim) fun _ _ _ => rfl
  cases hw : w.conduct.wrapped with
  | true => exact hb.of_wrapped hleads hholds hw
  | false =>
    obtain ⟨x, hx, hd⟩ := hb.keeps hw _
      (Multiset.mem_add.mpr (.inl (Multiset.mem_add.mpr (.inr hid))))
    have hpass : w.heap.Passes (append id name value w.heap) (Share.ref value) 0 := by
      rw [append_some name value hx]
      exact .setBindings hx hd (by simp [add_comm])
    exact ((hb.cast (add_assoc _ _ _).symm).pass hpass).cast (zero_add _).symm

theorem sound_appendAll {id : ScopeId} (b : List (Text × Ref)) (hb : w.Books (T + C))
    (hid : .scope id ∈ T) : (appendAll id b).Sound False C S w (fun _ => T) B := by
  induction b generalizing w with
  | nil => exact .pure hb
  | cons e b ih =>
    obtain ⟨name, value⟩ := e
    -- nothing is compared here, so that the value may be lent to the retain alone
    have hretain : (Object.retain value).Sound False C (Share.ref value) w
        (fun v => Share.ref v + T) B := Object.sound_retain hb (.of_subset fun _ hx => hx)
    refine Sound.bind hretain.lend fun {v w1} h1 hb1 _ => ?_
    obtain ⟨rfl, -⟩ := Object.retain_ok h1
    exact (sound_append hb1 hid).bind fun _ hb2 _ => ih hb2

/-- Moving a scope takes the reference to the old one and gives one to the new one. -/
theorem sound_adopt {s : ScopeRef} (hb : w.Books (Share.scope s + C)) :
    (adopt s).Sound False C S w (fun id => Share.scope (some id)) (Share.scope s) := by
  refine sound_expect hb (hb.sees_of_subset (Multiset.subset_of_le (Multiset.le_add_right _ _)))
    (fun {id x} hid hx hd => ?_) fun _ _ _ => rfl
  have hmake : (make x.parent).Sound False C (Share.scope x.parent) w
      (fun id => Share.scope (some id) + Share.scope s) (Share.scope s) :=
    sound_make hb (.of_subset fun _ hx => hx)
  refine Sound.bind hmake.lend fun {moved w1} _ hb1 _ => ?_
  refine (sound_appendAll x.bindings hb1 (by simp [Share.scope_some])).bind
    fun {_ w2} _ hb2 _ => ?_
  have hrelease : (release s).Sound False C S w2 (fun _ => Share.scope (some moved))
      (Share.scope s) := sound_release (hb2.cast (by abel))
  exact hrelease.bind fun _ hb3 _ => .pure hb3

end Scope

end CountedLisp
