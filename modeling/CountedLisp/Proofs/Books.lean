import CountedLisp.Proofs.Mirror

/-!
# Keeping the books

`World.Books w C` is what holds at every moment of a run if `C` is owned by whoever runs: the counts
of the heap are right for `C` together with some references `L` that nobody will ever give up, and
every body that is being run has its scope held by its owner. There are no such lost references as
long as the run is tidy: no thunk was evaluated while it was being evaluated or destroyed meanwhile,
and no condition was its own value. So counts can be too high but never too low. Only the count of a
scope that has started again from zero puts an end to this.

`World.Leads w w'` relates the beginning and the end of a run. `Heap.Passes` is the common form of
all changes to a heap: what they do to the books, and that they keep the promises above.
-/

namespace CountedLisp

/-! ### Conduct -/

namespace Conduct

/-- Nothing has happened that loses references. -/
structure Tidy (c : Conduct) : Prop where
  reentered : c.reentered = false
  abandoned : c.abandoned = false
  knotted : c.knotted = false

/-- Nothing has happened by which something destroyed can be reached. -/
structure Tame (c : Conduct) : Prop where
  reentered : c.reentered = false
  orphaned : c.orphaned = false
  wrapped : c.wrapped = false

/-- A mark that is missing later was missing before. -/
theorem unmarked {b b' : Bool} (hb : b = true → b' = true) (hb' : b' = false) : b = false := by
  cases b with
  | false => rfl
  | true => rw [hb rfl] at hb'; cases hb'

/-- The second conduct comes after the first one. Only code of programs, for which `P` stands, has
conditions. -/
structure Leads (P : Prop) (c c' : Conduct) : Prop where
  applied : c.applied = true → c'.applied = true
  orphaned : c.orphaned = true → c'.orphaned = true
  reentered : c.reentered = true → c'.reentered = true
  abandoned : c.abandoned = true → c'.abandoned = true
  knotted : c.knotted = true → c'.knotted = true
  wrapped : c.wrapped = true → c'.wrapped = true
  /-- Only calls that take their arguments out of a list leave something without owner. -/
  spread : c'.orphaned = true → c.orphaned = true ∨ c'.applied = true
  plain : ¬P → c'.knotted = c.knotted

namespace Leads

variable {P : Prop} {c c' c'' : Conduct}

protected theorem refl (P : Prop) (c : Conduct) : Leads P c c where
  applied := id
  orphaned := id
  reentered := id
  abandoned := id
  knotted := id
  wrapped := id
  spread := .inl
  plain _ := rfl

protected theorem trans (h1 : Leads P c c') (h2 : Leads P c' c'') : Leads P c c'' where
  applied h := h2.applied (h1.applied h)
  orphaned h := h2.orphaned (h1.orphaned h)
  reentered h := h2.reentered (h1.reentered h)
  abandoned h := h2.abandoned (h1.abandoned h)
  knotted h := h2.knotted (h1.knotted h)
  wrapped h := h2.wrapped (h1.wrapped h)
  spread h := by
    rcases h2.spread h with h' | h'
    · exact (h1.spread h').imp_right h2.applied
    · exact .inr h'
  plain hP := (h2.plain hP).trans (h1.plain hP)

theorem tidy (hl : Leads P c c') (ht : c'.Tidy) : c.Tidy where
  reentered := unmarked hl.reentered ht.reentered
  abandoned := unmarked hl.abandoned ht.abandoned
  knotted := unmarked hl.knotted ht.knotted

theorem tame (hl : Leads P c c') (ht : c'.Tame) : c.Tame where
  reentered := unmarked hl.reentered ht.reentered
  orphaned := unmarked hl.orphaned ht.orphaned
  wrapped := unmarked hl.wrapped ht.wrapped

end Leads

end Conduct

/-! ### Bodies that are being run -/

/-- As long as it lives, an object holds the given scope; a thunk holds it as the scope that it is
to be evaluated in. -/
def Object.Holds (o : Object) (s : ScopeRef) : Prop :=
  o.dead = false →
    Share.scope s ⊆ (o.payload.owned : Share) ∧
      ∀ t, o.payload = .thunk t → t.progress = .pending s

/-- The owner of a body holds the scope that the body runs in. -/
def Heap.Holds (h : Heap) (f : Frame) : Prop :=
  ∃ o, h.object? f.owner = some o ∧ o.Holds f.scope

theorem Payload.isImmortal_eq_of_tag {p q : Payload} (ht : p.tag = q.tag) :
    p.isImmortal = q.isImmortal := by
  have key : ∀ p : Payload, p.isImmortal = decide (p.tag = .emptyList) := by
    intro p
    cases p with
    | constant c => cases c <;> rfl
    | _ => rfl
  rw [key p, key q, ht]

namespace Heap

variable {h h' : Heap} {f : Frame}

theorem Holds.setObject (hf : h.Holds f) {id : ObjectId} {o o' : Object}
    (ho : h.object? id = some o) (hh : f.owner = id → o.Holds f.scope → o'.Holds f.scope) :
    (h.setObject id o').Holds f := by
  obtain ⟨y, hy, hyf⟩ := hf
  rcases object?_setObject_of o' ho hy with ⟨hid, rfl, ho'⟩ | ⟨-, hy'⟩
  · exact ⟨o', ho', hh hid hyf⟩
  · exact ⟨y, hy', hyf⟩

theorem Holds.addObject (hf : h.Holds f) (p : Payload) : (h.addObject p).2.Holds f := by
  obtain ⟨o, ho, hof⟩ := hf
  exact ⟨o, by rw [object?_addObject_old p (lt_size_of_object? ho), ho], hof⟩

theorem Holds.fades (hf : h.Holds f) (hl : h.Fades h') : h'.Holds f := by
  obtain ⟨o, ho, hof⟩ := hf
  obtain ⟨o', ho', -⟩ := hl.object ho
  refine ⟨o', ho', fun hd' => ?_⟩
  -- an owner that lives afterwards has kept its payload
  obtain ⟨y, hy, hyd, hp⟩ := hl.living ho' hd'
  rw [ho, Option.some.injEq] at hy
  subst hy
  rw [← hp]
  exact hof hyd

/-- The scope of a body whose owner lives. -/
theorem Holds.keeps (hf : h.Holds f) (hc : h.Closed) (hl : h.Lives (.object f.owner)) :
    h.Keeps (Share.scope f.scope) := by
  obtain ⟨o, ho, hof⟩ := hf
  obtain ⟨o', ho', hd⟩ := hl
  rw [ho, Option.some.injEq] at ho'
  subst ho'
  exact (hc.object ho hd).mono (hof hd).1

/-! ### Changes to a heap -/

/-- A change to a heap that takes the references in `D` from outside and gives those in `E`. -/
structure Passes (h h' : Heap) (D E : Share) : Prop where
  leads : h.Leads h'
  holds : ∀ f, h.Holds f → h'.Holds f
  accounts : ∀ {C : Share}, h.Accounts (D + C) → h'.Accounts (E + C)

namespace Passes

variable {h'' : Heap} {D E F : Share}

protected theorem trans (h1 : h.Passes h' D E) (h2 : h'.Passes h'' E F) : h.Passes h'' D F where
  leads := h1.leads.trans h2.leads
  holds f hf := h2.holds f (h1.holds f hf)
  accounts ha := h2.accounts (h1.accounts ha)

/-- Giving up references. -/
theorem drop (h : Heap) (died : Array Demise) (work : List Handle) :
    h.Passes (h.drop died work).1 (work : Share) 0 where
  leads := (h.fades_drop died work).toLeads
  holds _ hf := hf.fades (h.fades_drop died work)
  accounts ha := by
    rw [zero_add]
    exact ha.drop

/-- A new object. -/
theorem addObject (h : Heap) {p : Payload} (hp : p.isImmortal = false) :
    h.Passes (h.addObject p).2 (p.owned : Share) (Share.ref (some (h.addObject p).1)) where
  leads := .addObject h p
  holds _ hf := hf.addObject p
  accounts ha := by
    rw [Share.ref_some, Multiset.singleton_add]
    exact ha.addObject hp rfl

/-- A new owner of what is not counted. -/
theorem addImmortal {id : ObjectId} {o : Object} (ho : h.object? id = some o)
    (hi : o.payload.isImmortal = true) : h.Passes h 0 (Share.ref (some id)) where
  leads := .refl h
  holds _ hf := hf
  accounts ha := by
    rw [zero_add] at ha
    rw [Share.ref_some, Multiset.singleton_add]
    exact ha.addImmortal ho hi

/-- A new owner of a living object. -/
theorem retainObject {id : ObjectId} {o : Object} (ho : h.object? id = some o)
    (hd : o.dead = false) (hmax : o.refs ≠ 0xFFFFFFFF) :
    h.Passes (h.setObject id { o with refs := o.refs + 1 }) 0 (Share.ref (some id)) where
  leads := .setObject ho rfl fun hd => hd
  holds _ hf := hf.setObject ho fun _ hh => hh
  accounts ha := by
    rw [zero_add] at ha
    rw [Share.ref_some, Multiset.singleton_add]
    exact ha.retainObject ho hd hmax

/-- Another payload for a living object, which is no thunk and holds no scope less than before. -/
theorem setPayload {id : ObjectId} {o : Object} {p : Payload} (ho : h.object? id = some o)
    (hd : o.dead = false) (ht : p.tag = o.payload.tag) (hth : ∀ t, p ≠ .thunk t)
    (hs : ∀ s, Share.scope s ⊆ (o.payload.owned : Share) → Share.scope s ⊆ (p.owned : Share))
    (hbal : E + (p.owned : Share) = D + (o.payload.owned : Share)) :
    h.Passes (h.setObject id { o with payload := p }) D E where
  leads := .setObject ho ht fun hd => hd
  holds _ hf := hf.setObject ho fun _ hh hd' =>
    ⟨hs _ (hh hd').1, fun t htp => absurd htp (hth t)⟩
  accounts ha := ha.setPayload ho hd (Payload.isImmortal_eq_of_tag ht) (by
    rw [add_right_comm, hbal, add_right_comm])

/-- A new owner of a living scope, unless its count is at its maximum. -/
theorem retainScope {id : ScopeId} {s : Scope} (hs : h.scope? id = some s) (hd : s.dead = false)
    (hmax : s.refs ≠ 0xFFFFFFFF) :
    h.Passes (h.setScope id { s with refs := s.refs + 1 }) 0 (Share.scope (some id)) where
  leads := .setScope hs fun hd => hd
  holds _ hf := hf
  accounts ha := by
    rw [zero_add] at ha
    rw [Share.scope_some, Multiset.singleton_add]
    exact ha.retainScope hs hd hmax

/-- Other bindings for a living scope. -/
theorem setBindings {id : ScopeId} {s : Scope} {b : List (Text × Ref)}
    (hs : h.scope? id = some s) (hd : s.dead = false)
    (hbal : E + Share.refs (b.map fun e => e.2) = D + Share.refs (s.bindings.map fun e => e.2)) :
    h.Passes (h.setScope id { s with bindings := b }) D E where
  leads := .setScope hs fun hd => hd
  holds _ hf := hf
  accounts ha := ha.setBindings hs hd (by rw [add_right_comm, hbal, add_right_comm])

/-- A new scope. -/
theorem addScope (h : Heap) {s : Scope} (hr : s.refs = 1) (hd : s.dead = false) :
    h.Passes (h.addScope s).2 (s.owned : Share) (Share.scope (some (h.addScope s).1)) where
  leads := .addScope h s
  holds _ hf := hf
  accounts ha := by
    rw [Share.scope_some, Multiset.singleton_add]
    exact ha.addScope hr hd rfl

theorem updateRegistry (h : Heap) (id : Option RegistryId) (f : Registry → Registry) (D : Share) :
    h.Passes (h.updateRegistry id f) D D where
  leads := .updateRegistry h id f
  holds _ hf := by
    obtain ⟨o, ho, hof⟩ := hf
    exact ⟨o, by simpa using ho, hof⟩
  accounts ha := ha.updateRegistry id f

/-- Another serial number and other registries. -/
theorem setRest (h : Heap) (r : Array Registry) (n : Nat) (D : Share) :
    h.Passes { h with registries := r, serial := n } D D where
  leads := ⟨fun {_ o} ho => ⟨o, ho, rfl, id⟩, fun {_ s} hs => ⟨s, hs, id⟩⟩
  holds _ hf := hf
  accounts ha := ⟨ha.count, ha.known, ha.dead, ha.spent⟩

end Passes

end Heap

/-! ### Worlds -/

namespace World

/-- The second world comes after the first one in a run. -/
structure Leads (P : Prop) (w w' : World) : Prop where
  heap : w.heap.Leads w'.heap
  frames : w'.frames = w.frames
  conduct : w.conduct.Leads P w'.conduct

/-- The books are right if `C` is owned by whoever runs: some references may have been lost, but
none is missing. -/
structure Books (w : World) (C : Share) : Prop where
  reclaim : w.reclaim = true
  /-- The empty list is where it is expected. -/
  nil : ∃ o, w.heap.get? Heap.emptyList = some o ∧ o.tag = .emptyList
  frames : w.conduct.reentered = false → ∀ f ∈ w.frames, w.heap.Holds f
  accounts : ∃ L : Share, (w.conduct.Tidy → L = 0) ∧
    (w.conduct.wrapped = false → w.heap.Accounts (C + L))

/-- In a tame run, what the second share points to lives if what the first one points to does. -/
def Sees (w : World) (S D : Share) : Prop :=
  w.conduct.Tame → w.heap.Keeps S → w.heap.Keeps D

namespace Leads

variable {P : Prop} {w w' w'' : World}

protected theorem refl (P : Prop) (w : World) : w.Leads P w where
  heap := .refl w.heap
  frames := rfl
  conduct := .refl P w.conduct

protected theorem trans (h1 : w.Leads P w') (h2 : w'.Leads P w'') : w.Leads P w'' where
  heap := h1.heap.trans h2.heap
  frames := h2.frames.trans h1.frames
  conduct := h1.conduct.trans h2.conduct

/-- What lives at both ends of a run lives all the time. -/
theorem keeps_between (h1 : w.Leads P w') (h2 : w'.Leads P w'') {S : Share}
    (hS : w.heap.Keeps S) (hS'' : w''.heap.Keeps S) : w'.heap.Keeps S :=
  fun x hx => h2.heap.lives (h1.heap.knows (hS x hx).knows) (hS'' x hx)

end Leads

namespace Books

variable {w : World} {C D E : Share}

theorem closed (hb : w.Books C) (hw : w.conduct.wrapped = false) : w.heap.Closed := by
  obtain ⟨L, -, ha⟩ := hb.accounts
  exact (ha hw).closed

/-- What is owned lives. -/
theorem keeps (hb : w.Books C) (hw : w.conduct.wrapped = false) : w.heap.Keeps C := by
  obtain ⟨L, -, ha⟩ := hb.accounts
  exact (Heap.keeps_add.mp (ha hw).keeps).1

theorem nil_of_leads (hb : w.Books C) {h' : Heap} (hl : w.heap.Leads h') :
    ∃ o, h'.get? Heap.emptyList = some o ∧ o.tag = .emptyList := by
  obtain ⟨o, ho, ht⟩ := hb.nil
  obtain ⟨o', ho', ht', -⟩ := hl.object ho
  exact ⟨o', ho', ht'.trans ht⟩

protected theorem cast (hb : w.Books C) (h : D = C) : w.Books D := h ▸ hb

/-- A change to the heap changes what is owned. -/
theorem pass (hb : w.Books (D + C)) {h' : Heap} (hp : w.heap.Passes h' D E) :
    { w with heap := h' }.Books (E + C) where
  reclaim := hb.reclaim
  nil := hb.nil_of_leads hp.leads
  frames hr f hf := hp.holds f (hb.frames hr f hf)
  accounts := by
    obtain ⟨L, hL, ha⟩ := hb.accounts
    refine ⟨L, hL, fun hw => ?_⟩
    have := ha hw
    rw [add_assoc] at this ⊢
    exact hp.accounts this

/-- Something that happened against the rules may lose references. -/
theorem lose (hb : w.Books (D + C)) (ht : ¬w.conduct.Tidy) : w.Books C where
  reclaim := hb.reclaim
  nil := hb.nil
  frames := hb.frames
  accounts := by
    obtain ⟨L, -, ha⟩ := hb.accounts
    -- what nobody will give up counts as lost from now on
    refine ⟨D + L, fun h => absurd h ht, fun hw => ?_⟩
    have := ha hw
    rwa [add_comm D C, add_assoc] at this

/-- A change to the record of conduct. -/
theorem note (hb : w.Books C) {P : Prop} {f : Conduct → Conduct}
    (hf : w.conduct.Leads P (f w.conduct)) : (w.note f).Books C where
  reclaim := hb.reclaim
  nil := hb.nil
  frames hr := hb.frames (Conduct.unmarked hf.reentered hr)
  accounts := by
    obtain ⟨L, hL, ha⟩ := hb.accounts
    exact ⟨L, fun ht => hL (hf.tidy ht), fun hw => ha (Conduct.unmarked hf.wrapped hw)⟩

/-- A scope whose count has started again from zero puts an end to the books. -/
theorem of_wrapped (hb : w.Books C) {h' : Heap} (hl : w.heap.Leads h')
    (hh : ∀ f, w.heap.Holds f → h'.Holds f) (hw : w.conduct.wrapped = true) :
    { w with heap := h' }.Books D where
  reclaim := hb.reclaim
  nil := hb.nil_of_leads hl
  frames hr f hf := hh f (hb.frames hr f hf)
  -- nothing is claimed of the counts any more
  accounts := ⟨0, fun _ => rfl, fun hw' => by rw [hw] at hw'; cases hw'⟩

theorem any_of_wrapped (hb : w.Books C) (hw : w.conduct.wrapped = true) : w.Books D :=
  hb.of_wrapped (.refl w.heap) (fun _ hf => hf) hw

/-- The empty list is owned by everyone. -/
theorem emptyList (hb : w.Books C) : w.Books (Share.ref Heap.emptyList + C) where
  reclaim := hb.reclaim
  nil := hb.nil
  frames := hb.frames
  accounts := by
    obtain ⟨o, ho, ht⟩ := hb.nil
    obtain ⟨L, hL, ha⟩ := hb.accounts
    have hi : o.payload.isImmortal = true := Payload.isImmortal_eq_of_tag (q := .emptyList) ht
    refine ⟨L, hL, fun hw => ?_⟩
    rw [add_assoc]
    exact (ha hw).addImmortal ho hi

/-- Output and logs are no matter of the books. -/
theorem output (hb : w.Books C) (out : Array UInt8) (log : Array Event) :
    { w with output := out, log := log }.Books C :=
  ⟨hb.reclaim, hb.nil, hb.frames, hb.accounts⟩

/-- What is lent or owned lives. -/
theorem sees (hb : w.Books (D + C)) {S : Share} (hE : E ⊆ S + C) : w.Sees S E := fun ht hS =>
  (Heap.keeps_add.mpr ⟨hS, (Heap.keeps_add.mp (hb.keeps ht.wrapped)).2⟩).mono hE

theorem sees_of_subset (hb : w.Books C) {S : Share} (hE : E ⊆ C) : w.Sees S E := fun ht _ =>
  (hb.keeps ht.wrapped).mono hE

/-- What a living object owns. -/
theorem sees_owned (hb : w.Books C) (S : Share) {r : Ref} {o : Object}
    (ho : w.heap.get? r = some o) (hd : o.dead = false) :
    w.Sees S (o.payload.owned : Share) := fun ht _ =>
  (hb.closed ht.wrapped).get? ho hd

end Books

namespace Sees

variable {w : World} {S D E : Share}

theorem of_subset (h : D ⊆ S) : w.Sees S D := fun _ hS => hS.mono h

theorem mono (h : w.Sees S D) (hE : E ⊆ D) : w.Sees S E := fun ht hS => (h ht hS).mono hE

end Sees

end World

end CountedLisp
