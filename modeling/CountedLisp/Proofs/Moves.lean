import CountedLisp.Proofs.Respects
import CountedLisp.Proofs.Thunks

/-!
# Elementary changes of a heap

`Heap.Move` lists the changes that anything at all makes to a heap: giving up a reference,
destroying a scope, making an object, adding an owner, filling an object or a scope with something
else, and making a scope. No rule of counting is assumed, so these are the changes that a client can
bring about who keeps to no rule.

`Run.Moves act` says that `act` makes elementary changes only, one after the other, in whatever
world it is run and however it ends. It is shown of the operations on the store
(`World.elementary_moves`), so that it holds of all that is built from them. A property of heaps
that holds in the beginning and that every elementary change keeps thus holds at any time.

The bindings of a scope are not changed in just any way: as long as all scopes are proper
(`Scope.Proper`), the changed one stays so.
-/

namespace CountedLisp

/-- A scope binds no name twice, and nothing is left of a destroyed one. -/
structure Scope.Proper (s : Scope) : Prop where
  nodup : (s.bindings.map Prod.fst).Nodup
  empty : s.dead = true → s.bindings = []
  alone : s.dead = true → s.parent = none

namespace Heap

/-- All scopes are proper. -/
structure Proper (h : Heap) : Prop where
  scope : ∀ {id s}, h.scope? id = some s → s.Proper

/-- The changes of a heap. Counts of scopes start again from zero only if `wraps`. -/
inductive Move (wraps : Prop) (h : Heap) : Heap → Prop where
  /-- Giving up a reference. -/
  | drop (x : Handle) : Move wraps h (h.dropOne x).heap
  /-- Destroying a scope, whatever its count is. -/
  | destroy {id : ScopeId} {s : Scope} (hs : h.scope? id = some s) :
    Move wraps h (h.destroyScope id s).heap
  /-- Making an object. -/
  | addObject (p : Payload) : Move wraps h (h.addObject p).2
  /-- Adding an owner to a living object. -/
  | retainObject {id : ObjectId} {o : Object} (ho : h.object? id = some o) (hd : o.dead = false)
    (hmax : o.refs ≠ maxCount) : Move wraps h (h.setObject id { o with refs := o.refs + 1 })
  /-- Putting something else into an object. -/
  | setPayload {id : ObjectId} {o : Object} (ho : h.object? id = some o) (p : Payload) :
    Move wraps h (h.setObject id { o with payload := p })
  /-- Adding an owner to a living scope. -/
  | retainScope {id : ScopeId} {s : Scope} (hs : h.scope? id = some s) (hd : s.dead = false)
    (hmax : s.refs = maxCount → wraps) : Move wraps h (h.setScope id { s with refs := s.refs + 1 })
  /-- Changing the bindings of a scope. -/
  | setBindings {id : ScopeId} {s : Scope} (hs : h.scope? id = some s) (b : List (Text × Ref))
    (hb : h.Proper → Scope.Proper { s with bindings := b }) :
    Move wraps h (h.setScope id { s with bindings := b })
  /-- Using up a serial number. -/
  | tick : Move wraps h { h with serial := h.serial + 1 }
  /-- Making a scope inside a living one, or inside of none. -/
  | enter (name : Text) {parent : ScopeRef} (hp : ∀ p, parent = some p → h.Lives (.scope p)) :
    Move wraps h (Scope.enter name (h.serial + 1) parent { h with serial := h.serial + 1 }).2
  /-- Making the global scope of a workspace. -/
  | globals : Move wraps h (Workspace.addGlobals h).2

/-- The second heap comes about by elementary changes. -/
abbrev Moves (wraps : Prop) : Heap → Heap → Prop :=
  Relation.ReflTransGen (Move wraps)

variable {wraps : Prop}

theorem Move.moves {h h' : Heap} (hm : h.Move wraps h') : h.Moves wraps h' :=
  .single hm

/-- **What every change keeps** is kept by any number of them. -/
theorem Moves.keep {P : Heap → Prop} {h h' : Heap} (hm : h.Moves wraps h')
    (hstep : ∀ {k k' : Heap}, P k → k.Move wraps k' → P k') (hh : P h) : P h' := by
  induction hm with
  | refl => exact hh
  | tail _ hmove ih => exact hstep ih hmove

/-- What holds between a heap and every change of it holds after any number of them, if it can be
put together. -/
theorem Moves.lift {R : Heap → Heap → Prop} {h h' : Heap} (hm : h.Moves wraps h')
    (hmove : ∀ {k k' : Heap}, k.Move wraps k' → R k k')
    (htrans : ∀ {k k' k'' : Heap}, R k k' → R k' k'' → R k k'') (hrefl : R h h) : R h h' :=
  hm.keep (fun hk hstep => htrans hk (hmove hstep)) hrefl

theorem Moves.mono {more : Prop} {h h' : Heap} (hm : h.Moves wraps h') (hw : wraps → more) :
    h.Moves more h' := by
  refine Relation.ReflTransGen.mono (fun a b hab => ?_) _ _ hm
  cases hab with
  | retainScope hs hd hmax => exact .retainScope hs hd fun h => hw (hmax h)
  | drop x => exact .drop x
  | destroy hs => exact .destroy hs
  | addObject p => exact .addObject p
  | retainObject ho hd hmax => exact .retainObject ho hd hmax
  | setPayload ho p => exact .setPayload ho p
  | setBindings hs b hb => exact .setBindings hs b hb
  | tick => exact .tick
  | enter name hp => exact .enter name hp
  | globals => exact .globals

theorem moves_drop (h : Heap) (died : Array Demise) (work : List Handle) :
    h.Moves wraps (h.drop died work).1 := by
  fun_induction Heap.drop h died work with
  | case1 => exact .refl
  | case2 h died x rest step ih => exact .head (.drop x) ih

theorem moves_destroy (h : Heap) (id : ScopeId) : h.Moves wraps (h.destroy id).1 := by
  unfold Heap.destroy
  split
  · exact .refl
  · next s hs => exact .head (.destroy hs) (moves_drop _ _ _)

end Heap

/-! ### Worlds and runs -/

/-- The second world comes about by elementary changes of the heap, and it is on record if a count
has started again from zero. -/
structure World.Moves (w w' : World) : Prop where
  heap : w.heap.Moves (w'.conduct.wrapped = true) w'.heap
  wrapped : w.conduct.wrapped = true → w'.conduct.wrapped = true
  reclaim : w'.reclaim = w.reclaim

namespace World.Moves

variable {w w' w'' : World}

protected theorem refl (w : World) : w.Moves w := ⟨.refl, id, rfl⟩

protected theorem trans (h1 : w.Moves w') (h2 : w'.Moves w'') : w.Moves w'' :=
  ⟨(h1.heap.mono h2.wrapped).trans h2.heap, fun h => h2.wrapped (h1.wrapped h),
    h2.reclaim.trans h1.reclaim⟩

theorem of_move {h' : Heap} (hm : w.heap.Move (w.conduct.wrapped = true) h') :
    w.Moves { w with heap := h' } :=
  ⟨hm.moves, id, rfl⟩

end World.Moves

theorem World.moves_drop (work : List Handle) (w : World) : w.Moves (w.drop work) := by
  unfold World.drop
  split
  · exact ⟨Heap.moves_drop _ _ _, id, rfl⟩
  · exact .refl w

theorem World.moves_destroy (id : ScopeId) (w : World) : w.Moves (w.destroy id) :=
  ⟨Heap.moves_destroy _ _, fun h => h, rfl⟩

instance : IsPreorder World World.Moves where
  refl := .refl
  trans _ _ _ := .trans

/-- A run makes elementary changes only, however it ends. -/
abbrev Run.Moves {α : Type} (act : Run α) : Prop :=
  act.Respects World.Moves

/-- Going one level deeper makes elementary changes only. -/
abbrev Engine.Moves (engine : Engine) : Prop :=
  engine.Respects World.Moves

namespace Run.Moves

variable {α : Type}

theorem updateHeap {f : Heap → α × Heap} (hf : ∀ {p : Prop} (h : Heap), h.Moves p (f h).2) :
    (Run.updateHeap f).Moves := fun w => ⟨hf w.heap, id, rfl⟩

theorem modifyHeap {f : Heap → Heap} (hf : ∀ {p : Prop} (h : Heap), h.Moves p (f h)) :
    (Run.modifyHeap f).Moves := fun w => ⟨hf w.heap, id, rfl⟩

protected theorem drop (work : List Handle) : (modify (World.drop work) : Run PUnit).Moves :=
  .modify (World.moves_drop work)

end Run.Moves

open Run

/-! ### Objects -/

namespace Object

theorem moves_make (p : Payload) : (make p).Moves :=
  .updateHeap fun _ => (Heap.Move.addObject p).moves

theorem moves_retain (r : Ref) : (retain r).Moves := by
  cases r with
  | none => exact .pure none
  | some id =>
    refine .get_bind fun w => ?_
    split
    · exact .refl w
    · next o ho =>
      split_ifs with hi hd hmax
      · exact .refl w
      · exact .refl w
      · exact .refl w
      · exact .of_move (.retainObject ho (Bool.eq_false_iff.mpr hd) hmax)

end Object

theorem Slots.moves_append (r item : Ref) : (Slots.append r item).Moves := by
  refine (respects_contents _ r).bind fun items => ?_
  split
  · exact .pure _
  · refine .get_bind fun w => ?_
    split
    · next o ho => exact .of_move (.setPayload ho _)
    · exact .refl w

namespace Pair

theorem moves_update {wraps : Prop} (r left right : Ref) (h : Heap) :
    h.Moves wraps (update r left right h) := by
  unfold update
  split
  · exact .refl
  · split
    · next o ho => exact (Heap.Move.setPayload ho _).moves
    · exact .refl

theorem moves_setLeft (r v : Ref) : (setLeft r v).Moves :=
  (respects_sides _ r).bind fun _ => (Object.moves_retain v).bind fun _ =>
    (Moves.modifyHeap (moves_update _ _ _)).bind fun _ => Moves.drop _

theorem moves_setRight (r v : Ref) : (setRight r v).Moves :=
  (respects_sides _ r).bind fun _ => (Object.moves_retain v).bind fun _ =>
    (Moves.modifyHeap (moves_update _ _ _)).bind fun _ => Moves.drop _

end Pair

/-! ### Scopes -/

namespace Scope

theorem wrapped_countUp {s : Scope} {c : Conduct} (h : c.wrapped = true ∨ s.refs = maxCount) :
    (s.countUp c).wrapped = true := by
  simpa [countUp] using h

theorem moves_retain (s : ScopeRef) : (retain s).Moves := by
  cases s with
  | none => exact .pure none
  | some id =>
    refine .get_bind fun w => ?_
    split
    · exact .refl w
    · next x hx =>
      split_ifs with hd
      · exact .refl w
      · refine ⟨(Heap.Move.retainScope hx (Bool.eq_false_iff.mpr hd) fun hmax => ?_).moves,
          fun hw => ?_, rfl⟩
        · exact wrapped_countUp (.inr hmax)
        · exact wrapped_countUp (.inl hw)

theorem moves_traceScope (name body : Text) : (Run.traceScope name body).Moves := by
  refine .reading fun w => ?_
  split_ifs
  · exact .modify fun _ => ⟨.refl, id, rfl⟩
  · exact .pure _

theorem expect_ok {op : Text} {s : ScopeRef} {p : ScopeId × Scope} {w w' : World}
    (h : expect op s w = .ok p w') :
    w' = w ∧ s = some p.1 ∧ w.heap.scope? p.1 = some p.2 ∧ p.2.dead = false := by
  unfold expect at h
  rw [get_bind] at h
  cases s with
  | none => cases h
  | some id =>
    cases hx : w.heap.getScope? (some id) with
    | none =>
      rw [hx] at h
      cases h
    | some x =>
      rw [hx] at h
      dsimp only at h
      split_ifs at h with hd
      · cases h
      · cases h
        exact ⟨rfl, rfl, hx, Bool.eq_false_iff.mpr hd⟩

/-- A name that gets a value is there afterwards, at the end unless it has been there before. -/
theorem map_fst_put (name : Text) (value : Ref) (b : List (Text × Ref)) :
    (put name value b).map Prod.fst =
      if name ∈ b.map Prod.fst then b.map Prod.fst else b.map Prod.fst ++ [name] := by
  induction b with
  | nil => simp [put]
  | cons e b ih =>
    obtain ⟨n, v⟩ := e
    by_cases hn : n = name
    · simp [put, hn]
    · have hne : name ≠ n := Ne.symm hn
      simp only [put, hn, if_false, List.map_cons, ih, List.mem_cons, hne, false_or]
      split_ifs <;> rfl

theorem Proper.put {s : Scope} (hs : s.Proper) {name : Text} (value : Ref)
    (hlive : s.dead = false ∨ name ∈ s.bindings.map Prod.fst) :
    Scope.Proper { s with bindings := put name value s.bindings } := by
  -- a dead scope has no names, so it is not the one to be changed
  have hd : s.dead = false := by
    rcases hlive with hd | hmem
    · exact hd
    · refine Bool.eq_false_iff.mpr fun hd => ?_
      rw [hs.empty hd] at hmem
      cases hmem
  refine ⟨?_, fun hd' => ?_, hs.alone⟩
  · rw [map_fst_put]
    split_ifs with hmem
    · exact hs.nodup
    · rw [List.nodup_append_comm, List.singleton_append, List.nodup_cons]
      exact ⟨hmem, hs.nodup⟩
  · rw [show s.dead = true from hd'] at hd
    cases hd

theorem moves_store {wraps : Prop} {id : ScopeId} {x : Scope} {name : Text} (value : Ref)
    {h : Heap} (hx : h.scope? id = some x)
    (hlive : x.dead = false ∨ name ∈ x.bindings.map Prod.fst) :
    h.Moves wraps (store id name value h) := by
  rw [store_some name value hx]
  exact (Heap.Move.setBindings hx _ fun hp => (hp.scope hx).put value hlive).moves

theorem mem_map_fst_of_get? {x : Scope} {name : Text} {v : Ref} (hv : x.get? name = some v) :
    name ∈ x.bindings.map Prod.fst := by
  obtain ⟨l₁, l₂, hl, -⟩ := List.lookup_eq_some_iff.mp hv
  simp [hl]

/-- Adding an owner to a scope does not depend on the serial number. -/
theorem heap_retain {parent v : ScopeRef} {w w' : World} {n : Nat}
    (h : retain parent { w with heap := { w.heap with serial := n } } = .ok v w') :
    ∃ g, w.heap.Moves (w'.conduct.wrapped = true) g ∧ g.serial = w.heap.serial ∧
      w'.heap = { g with serial := n } ∧ ∀ p, parent = some p → g.Lives (.scope p) := by
  cases parent with
  | none =>
    cases h
    exact ⟨w.heap, .refl, rfl, rfl, nofun⟩
  | some p =>
    rw [retain_eq] at h
    split at h
    · cases h
    · next s hs =>
      split_ifs at h with hd
      cases h
      have hd' : s.dead = false := Bool.eq_false_iff.mpr hd
      have hs' : w.heap.scope? p = some s := hs
      refine ⟨w.heap.setScope p { s with refs := s.refs + 1 },
        (Heap.Move.retainScope hs' hd' fun hmax => wrapped_countUp (.inr hmax)).moves, rfl, rfl,
        fun p' hp' => ?_⟩
      cases hp'
      exact ⟨_, Heap.scope?_setScope_self _ hs', hd'⟩

/-- **A new scope.** The scope around it lives, or else it could not get an owner. -/
theorem moves_make (parent : ScopeRef) : (make parent).Moves := by
  intro w
  have htick : w.Moves { w with heap := { w.heap with serial := w.heap.serial + 1 } } :=
    .of_move .tick
  refine Respects.bind_of htick fun serial w1 h1 => ?_
  cases h1
  have hretain := htick.trans (moves_retain parent _)
  refine Respects.bind_of hretain fun v w2 h2 => ?_
  rw [final_ok h2] at hretain
  obtain ⟨g, hg, hserial, hheap, hparent⟩ := heap_retain h2
  -- number and owner of the scope around it are settled: the two steps are one elementary change
  have henter : w.Moves { w2 with heap := (enter ("env" ++ Text.ofNat (w.heap.serial + 1))
      (w.heap.serial + 1) parent w2.heap).2 } := by
    refine ⟨hg.tail ?_, hretain.wrapped, hretain.reclaim⟩
    rw [hheap, ← hserial]
    exact .enter _ hparent
  refine Respects.bind_of henter fun id w3 h3 => ?_
  cases h3
  exact henter.trans (((moves_traceScope _ _).bind fun _ => .pure _) _)

theorem retain_scope? {s v : ScopeRef} {w w' : World} (h : retain s w = .ok v w') {id : ScopeId}
    {x : Scope} (hx : w.heap.scope? id = some x) :
    ∃ n, w'.heap.scope? id = some { x with refs := n } := by
  cases s with
  | none =>
    cases h
    exact ⟨x.refs, hx⟩
  | some p =>
    rw [retain_eq] at h
    split at h
    · cases h
    · next y hy =>
      split_ifs at h
      cases h
      rcases Heap.scope?_setScope_of { y with refs := y.refs + 1 } hy hx with
        ⟨-, rfl, hself⟩ | ⟨-, hother⟩
      · exact ⟨_, hself⟩
      · exact ⟨x.refs, hother⟩

theorem scope?_enter (name : Text) (serial : Nat) (parent : ScopeRef) (h : Heap) (id : ScopeId) :
    (enter name serial parent h).2.scope? id =
      (h.addScope (new name serial parent (registryOf h parent))).2.scope? id := by
  rw [enter_eq, Heap.scope?_updateRegistry]

/-- A new scope has no bindings. The others stay what they are but for their counts. -/
theorem make_ok {parent : ScopeRef} {id : ScopeId} {w w' : World} (h : make parent w = .ok id w') :
    (∃ name serial registry, w'.heap.scope? id = some (new name serial parent registry)) ∧
      ∀ {id' x}, w.heap.scope? id' = some x →
        id' ≠ id ∧ ∃ n, w'.heap.scope? id' = some { x with refs := n } := by
  obtain ⟨v, w₁, name, l, hretain, rfl, rfl⟩ := make_steps h
  have henter := scope?_enter name (w.heap.serial + 1) parent w₁.heap
  refine ⟨⟨_, _, _, (henter _).trans (Heap.scope?_addScope_new _ _)⟩, fun {id' x} hx => ?_⟩
  obtain ⟨n, hn⟩ := retain_scope? hretain (x := x) hx
  have hlt := Heap.lt_size_of_scope? hn
  refine ⟨fun he => ?_, n, (henter id').trans ((Heap.scope?_addScope_old _ hlt).trans hn)⟩
  rw [he] at hlt
  exact lt_irrefl _ hlt

/-- A value that gets an owner and is then bound to a name. -/
theorem moves_retain_store {α : Type} {id : ScopeId} {x : Scope} {name : Text} {value : Ref}
    {k : Run α} {w : World} (hx : w.heap.scope? id = some x)
    (hlive : x.dead = false ∨ name ∈ x.bindings.map Prod.fst) (hk : k.Moves) :
    w.Moves ((do
      let _ ← Object.retain value
      Run.modifyHeap (store id name value)
      k : Run α).final w) := by
  have hretain := Object.moves_retain value w
  refine Respects.bind_of hretain fun v w1 h1 => ?_
  rw [final_ok h1] at hretain
  obtain ⟨-, h', rfl, hscope, -⟩ := Object.retain_ok h1
  have hx1 : h'.scope? id = some x := by rw [hscope, hx]
  have hstore : World.Moves { w with heap := h' } { w with heap := store id name value h' } :=
    ⟨moves_store value hx1 hlive, fun hw => hw, rfl⟩
  refine Respects.bind_of (hretain.trans hstore) fun _ w2 h2 => ?_
  cases h2
  exact (hretain.trans hstore).trans (hk _)

theorem moves_bind (s : ScopeRef) (name : Text) (value : Ref) : (bind s name value).Moves := by
  intro w
  refine Respects.bind_of (respects_expect _ s w) fun p w1 h1 => ?_
  obtain ⟨rfl, -, hx, hd⟩ := expect_ok h1
  refine moves_retain_store hx (.inl hd) ?_
  split
  · exact .drop _
  · exact .pure _

theorem moves_assign (s : ScopeRef) (name : Text) (value : Ref) : (assign s name value).Moves := by
  refine (respects_expect _ s).bind fun _ => .get_bind fun w => ?_
  dsimp only
  split
  · exact .refl w
  · next old id hfound =>
    obtain ⟨-, x, hx, hv⟩ := search_some hfound
    exact moves_retain_store hx (.inr (mem_map_fst_of_get? hv))
      ((Moves.drop _).bind fun _ => Object.moves_make _)

/-- Bindings that are taken over from another scope. This has no name twice, and so there is never
one among those to come that is there already. -/
theorem moves_appendAll {id source : ScopeId} {x y : Scope} {b : List (Text × Ref)} {w : World}
    (hne : source ≠ id) (hx : w.heap.scope? id = some x) (hd : x.dead = false)
    (hy : w.heap.scope? source = some y) (hb : y.bindings = x.bindings ++ b) :
    w.Moves ((appendAll id b).final w) := by
  induction b generalizing w x with
  | nil => exact .refl w
  | cons e b ih =>
    obtain ⟨name, value⟩ := e
    have hretain := Object.moves_retain value w
    refine Respects.bind_of hretain fun v w1 h1 => ?_
    rw [final_ok h1] at hretain
    obtain ⟨-, h', rfl, hscope, -⟩ := Object.retain_ok h1
    have hx1 : h'.scope? id = some x := by rw [hscope, hx]
    have hy1 : h'.scope? source = some y := by rw [hscope, hy]
    set x' : Scope := { x with bindings := x.bindings ++ [(name, value)] } with hx'
    have hb' : y.bindings = x'.bindings ++ b := by simp [hb, hx']
    have happend : World.Moves { w with heap := h' }
        { w with heap := append id name value h' } := by
      refine .of_move ?_
      rw [append_some name value hx1]
      refine .setBindings hx1 _ fun hp => ⟨?_, fun hd' => ?_, (hp.scope hx1).alone⟩
      · -- the names so far are the first ones of the source
        have hnodup := (hp.scope hy1).nodup
        rw [hb', List.map_append] at hnodup
        exact hnodup.of_append_left
      · rw [show x.dead = true from hd'] at hd
        cases hd
    refine Respects.bind_of (hretain.trans happend) fun _ w2 h2 => ?_
    cases h2
    have hheap : append id name value h' = h'.setScope id x' := append_some name value hx1
    refine (hretain.trans happend).trans (ih (x := x') ?_ hd ?_ hb')
    · show (append id name value h').scope? id = some x'
      rw [hheap, Heap.scope?_setScope_self x' hx1]
    · show (append id name value h').scope? source = some y
      rw [hheap, Heap.scope?_setScope_ne x' hne, hy1]

theorem moves_adopt (s : ScopeRef) : (adopt s).Moves := by
  intro w
  refine Respects.bind_of (respects_expect _ s w) fun p w1 h1 => ?_
  obtain ⟨rfl, -, hy, -⟩ := expect_ok h1
  have hmake := moves_make p.2.parent w1
  refine Respects.bind_of hmake fun moved w2 h2 => ?_
  rw [final_ok h2] at hmake
  obtain ⟨⟨_, _, _, hx⟩, hold⟩ := make_ok h2
  obtain ⟨hne, n, hy2⟩ := hold hy
  have happend := hmake.trans (moves_appendAll (b := p.2.bindings) hne hx rfl hy2 rfl)
  refine Respects.bind_of happend fun _ w3 h3 => ?_
  rw [final_ok h3] at happend
  exact happend.trans (((Moves.drop _).bind fun _ => .pure _) w3)

end Scope

/-! ### Programs -/

theorem Thunk.moves_settle (r value : Ref) (w : World) : w.Moves (Thunk.settle r value w) := by
  unfold settle
  split
  · exact .refl w
  · next id o t hfind =>
    obtain ⟨-, ho, -⟩ := find?_eq_some hfind
    have hkeep : w.Moves (keep id o t value w) :=
      ⟨(Heap.Move.setPayload ho _).moves, fun h => h, rfl⟩
    split
    · exact hkeep.trans (World.moves_drop _ _)
    · exact hkeep

theorem Procedure.moves_addCall {wraps : Prop} (id : ObjectId) (s : ScopeId) (h : Heap) :
    h.Moves wraps (addCall id s h) := by
  unfold addCall
  split
  · next o ho =>
    split
    · exact (Heap.Move.setPayload ho _).moves
    · exact .refl
  · exact .refl

/-- Evaluating a thunk: its code is run, and its value takes the place of its scope. -/
theorem Thunk.moves_force {engine : Engine} (he : engine.Moves) (r : Ref) :
    (Thunk.force engine r).Moves := by
  refine .reading fun w => ?_
  split
  · exact .pure _
  · split_ifs
    · exact .fail _
    · split
      · exact Object.moves_retain _
      · refine Respects.bind (.modify fun _ => ⟨.refl, id, rfl⟩) fun _ =>
          Respects.bind (fun v => ?_) fun v => Respects.bind (.modify (moves_settle r v)) fun _ =>
            .reading fun _ => Object.moves_retain _
        rw [final_within]
        exact { he.run _ _ _ with }

/-- **The operations on the store** make elementary changes only. -/
theorem World.elementary_moves : World.Elementary World.Moves where
  silent _ _ _ _ := ⟨.refl, id, rfl⟩
  note _ _ hf := ⟨.refl, hf.wrapped, rfl⟩
  drop := World.moves_drop
  destroy := World.moves_destroy
  within h := { h with }
  makeObject p _ := Object.moves_make p
  retain := Object.moves_retain
  append := Slots.moves_append
  setLeft := Pair.moves_setLeft
  setRight := Pair.moves_setRight
  addCall id s := Moves.modifyHeap (Procedure.moves_addCall id s)
  force := Thunk.moves_force
  makeScope := Scope.moves_make
  retainScope := Scope.moves_retain
  bindName := Scope.moves_bind
  assignName := Scope.moves_assign
  adopt := Scope.moves_adopt
  globals := Moves.updateHeap fun _ => Heap.Move.globals.moves

/-- **Programs** make elementary changes only, however deep their calls and thunks are nested. -/
theorem Engine.moves_ofDepth (n : Nat) : (ofDepth n).Moves :=
  respects_ofDepth World.elementary_moves n

end CountedLisp
