import CountedLisp.Proofs.Lineage

/-!
# Scopes as chains of finite maps

A name that is looked up from a scope has the value that it has in the first scope outwards that
binds it (`Heap.Finds`); a destroyed scope ends the search. `Heap.Rebinds` says that one name has
got a value in one scope and that all else is bound as before, as far as scopes live.

If scopes are proper and lineal, as they are whatever is done with the library, then the functions
of scopes are exactly the operations on such chains of maps.
-/

namespace CountedLisp

open Run

variable {engine : Engine} {w w' : World} {h h' : Heap}

/-! ### Searching -/

/-- Searching outwards from a scope for a name, the first one that binds it is `t`, to the value
`v`. -/
inductive Heap.Finds (h : Heap) (name : Text) : ScopeRef → Ref → ScopeId → Prop where
  /-- It is bound in the scope itself. -/
  | here {id : ScopeId} {x : Scope} {v : Ref} (hx : h.scope? id = some x) (hd : x.dead = false)
    (hv : (name, v) ∈ x.bindings) : Finds h name (some id) v id
  /-- It is not bound there, but further out. -/
  | outward {id t : ScopeId} {x : Scope} {v : Ref} (hx : h.scope? id = some x) (hd : x.dead = false)
    (hn : name ∉ x.bindings.map Prod.fst) (hout : Finds h name x.parent v t) :
    Finds h name (some id) v t

namespace Heap

theorem chain_eq (hl : h.Lineal) {id : ScopeId} {x : Scope} (hx : h.scope? id = some x) :
    h.chain id = id :: h.chainFrom x.parent := by
  rw [chain, hx]
  cases hp : x.parent with
  | none => simp [chainFrom, hp]
  | some q => simp [chainFrom, hp, (hl.parent hx hp).1]

end Heap

namespace Scope

variable {name : Text} {id t : ScopeId} {v : Ref} {x : Scope}

theorem Proper.get?_eq_some_iff (hx : x.Proper) : x.get? name = some v ↔ (name, v) ∈ x.bindings :=
  lookup_eq_some_iff_mem hx.nodup

theorem get?_eq_none_iff : x.get? name = none ↔ name ∉ x.bindings.map Prod.fst := by
  simp only [get?, List.lookup_eq_none_iff, List.mem_map, not_exists, not_and]
  constructor
  · rintro h e he rfl
    simpa using h e he
  · intro h e he
    simpa [bne_iff_ne] using Ne.symm (h e he)

theorem search_cons_some (ids : List ScopeId) (hx : h.scope? id = some x)
    (hv : x.get? name = some v) : search h name (id :: ids) = some (v, id) := by
  simp [search, hx, hv]

theorem search_cons_none (ids : List ScopeId) (hx : h.scope? id = some x)
    (hv : x.get? name = none) : search h name (id :: ids) = search h name ids := by
  simp [search, hx, hv]

/-- A search outwards finds what there is to be found. -/
theorem search_of_finds (hp : h.Proper) (hl : h.Lineal) {s : ScopeRef} (hf : h.Finds name s v t) :
    search h name (h.chainFrom s) = some (v, t) := by
  induction hf with
  | here hx _ hv =>
    rw [Heap.chainFrom, Heap.chain_eq hl hx]
    exact search_cons_some _ hx ((hp.scope hx).get?_eq_some_iff.mpr hv)
  | outward hx _ hn _ ih =>
    rw [Heap.chainFrom, Heap.chain_eq hl hx, search_cons_none _ hx (get?_eq_none_iff.mpr hn), ih]

/-- What a search outwards finds is the value in the first scope that binds the name. -/
theorem finds_of_search (hp : h.Proper) (hl : h.Lineal) {s : ScopeRef}
    (hs : search h name (h.chainFrom s) = some (v, t)) : h.Finds name s v t := by
  cases s with
  | none => cases hs
  | some id =>
    -- scopes further out have smaller numbers
    induction hn : id.index using Nat.strong_induction_on generalizing id with
    | _ n ih =>
      subst hn
      cases hx : h.scope? id with
      | none =>
        rw [Heap.chainFrom, Heap.chain, hx] at hs
        cases hs
      | some x =>
        rw [Heap.chainFrom, Heap.chain_eq hl hx] at hs
        have hproper := hp.scope hx
        cases hv : x.get? name with
        | some u =>
          rw [search_cons_some _ hx hv] at hs
          cases hs
          have hmem := hproper.get?_eq_some_iff.mp hv
          refine .here hx (Bool.eq_false_iff.mpr fun hd => ?_) hmem
          rw [hproper.empty hd] at hmem
          cases hmem
        | none =>
          rw [search_cons_none _ hx hv] at hs
          cases hq : x.parent with
          | none =>
            rw [hq] at hs
            cases hs
          | some q =>
            rw [hq] at hs
            have hd : x.dead = false := Bool.eq_false_iff.mpr fun hd => by
              rw [hproper.alone hd] at hq
              cases hq
            refine .outward hx hd (get?_eq_none_iff.mp hv) ?_
            rw [hq]
            exact ih q.index (hl.parent hx hq).1 q hs rfl

/-- Nothing is found beyond the first destroyed scope. -/
theorem resolve?_eq_search (hp : h.Proper) (hl : h.Lineal) (s : ScopeRef) (name : Text) :
    resolve? h s name = search h name (h.chainFrom s) := by
  cases s with
  | none => rfl
  | some id =>
    unfold resolve?
    induction hn : id.index using Nat.strong_induction_on generalizing id with
    | _ n ih =>
      subst hn
      cases hx : h.scope? id with
      | none =>
        rw [Heap.chainFrom, Heap.chain, hx]
        rfl
      | some x =>
        rw [Heap.chainFrom, Heap.chain_eq hl hx]
        have hproper := hp.scope hx
        cases hd : x.dead with
        | true =>
          -- a destroyed scope binds nothing and is inside of nothing
          have hnone : x.get? name = none := by simp [get?, hproper.empty hd]
          rw [search_cons_none _ hx hnone, hproper.alone hd,
            List.takeWhile_cons_of_neg (by simp [isAlive, hx, hd])]
          rfl
        | false =>
          rw [List.takeWhile_cons_of_pos (isAlive_of_lives ⟨x, hx, hd⟩)]
          cases hv : x.get? name with
          | some u => rw [search_cons_some _ hx hv, search_cons_some _ hx hv]
          | none =>
            rw [search_cons_none _ hx hv, search_cons_none _ hx hv]
            cases hq : x.parent with
            | none => rfl
            | some q => exact ih q.index (hl.parent hx hq).1 q rfl

theorem resolve?_eq_some_iff (hp : h.Proper) (hl : h.Lineal) {s : ScopeRef} :
    resolve? h s name = some (v, t) ↔ h.Finds name s v t := by
  rw [resolve?_eq_search hp hl]
  exact ⟨finds_of_search hp hl, search_of_finds hp hl⟩

/-! ### One entry -/

/-- Bindings with a value for a name: in its place if it is bound already, and else at the end. -/
def rebound (name : Text) (value : Ref) (b : List (Text × Ref)) : List (Text × Ref) :=
  if name ∈ b.map Prod.fst then b.map fun e => if e.1 = name then (name, value) else e
  else b ++ [(name, value)]

theorem put_eq_rebound {b : List (Text × Ref)} (hb : (b.map Prod.fst).Nodup) (name : Text)
    (value : Ref) : put name value b = rebound name value b := by
  induction b with
  | nil => rfl
  | cons e b ih =>
    obtain ⟨n, u⟩ := e
    obtain ⟨hnot, hrest⟩ := List.nodup_cons.mp hb
    by_cases hn : n = name
    · subst hn
      have hsame : b.map (fun e => if e.1 = n then (n, value) else e) = b.map id := by
        refine List.map_congr_left fun e he => if_neg fun hfst => hnot ?_
        exact List.mem_map.mpr ⟨e, he, hfst⟩
      simp [put, rebound, hsame]
    · have hne : name ≠ n := Ne.symm hn
      simp only [put, hn, if_false, ih hrest, rebound, List.map_cons, List.mem_cons, hne, false_or]
      split_ifs <;> rfl

end Scope

/-- A name has got a value in the scope `t`. All else is bound as before, as far as scopes live. -/
structure Heap.Rebinds (h h' : Heap) (t : ScopeId) (name : Text) (value : Ref) : Prop where
  scope : ∀ {id x'}, h'.scope? id = some x' → x'.dead = false →
    ∃ x, h.scope? id = some x ∧ x.dead = false ∧ x'.parent = x.parent ∧
      x'.bindings = if id = t then Scope.rebound name value x.bindings else x.bindings

/-- A value has as many owners as can be counted. -/
def Heap.Full (h : Heap) (value : Ref) : Prop :=
  ∃ v o, value = some v ∧ h.object? v = some o ∧ o.payload.isImmortal = false ∧ o.refs = maxCount

theorem Object.retain_of_full {value : Ref} (hr : w.reclaim = true)
    (hv : ∀ v, value = some v → w.heap.Lives (.object v)) (hfull : w.heap.Full value) :
    retain value w = .error (.breach overflowBreach.text) w := by
  obtain ⟨v, o, rfl, ho, hi, hmax⟩ := hfull
  obtain ⟨o', ho', hd⟩ := hv v rfl
  rw [ho, Option.some.injEq] at ho'
  subst ho'
  rw [retain_eq, ho]
  simp [hi, hr, hd, hmax]

theorem Object.retain_of_lives {value : Ref} (hv : ∀ v, value = some v → w.heap.Lives (.object v))
    (hfull : ¬ w.heap.Full value) : ∃ w', retain value w = .ok value w' := by
  cases value with
  | none => exact ⟨w, rfl⟩
  | some v =>
    obtain ⟨o, ho, hd⟩ := hv v rfl
    rw [retain_eq, ho]
    dsimp only
    split_ifs with hi hd' hmax
    · exact ⟨w, rfl⟩
    · rw [hd] at hd'
      cases hd'
    · simp only [Bool.or_eq_true, not_or, Bool.not_eq_true] at hi
      exact absurd ⟨v, o, rfl, ho, hi.1, hmax⟩ hfull
    · exact ⟨_, rfl⟩

namespace Scope

variable {name : Text} {id t : ScopeId} {v value : Ref} {x : Scope}

theorem expect_of_lives (op : Text) (hx : w.heap.scope? id = some x) (hd : x.dead = false) :
    expect op (some id) w = .ok (id, x) w := by
  unfold expect
  rw [get_bind, show w.heap.getScope? (some id) = some x from hx]
  simp only [hd, Bool.false_eq_true, if_false]
  rfl

theorem expect_of_dead (op : Text) (hx : w.heap.scope? id = some x) (hd : x.dead = true) :
    expect op (some id) w = .error (.failure (.of .typeMismatch op "live environment"
      ("destroyed " ++ x.name))) w := by
  unfold expect
  rw [get_bind, show w.heap.getScope? (some id) = some x from hx]
  simp only [hd, if_true]
  rfl

theorem lookup_of_finds (hp : w.heap.Proper) (hl : w.heap.Lineal) {s : ScopeRef}
    (hf : w.heap.Finds name s v t) : lookup s name w = .ok v w := by
  unfold lookup
  rw [get_bind, (resolve?_eq_some_iff hp hl).mpr hf]
  rfl

theorem lookup_of_not_finds (hp : w.heap.Proper) (hl : w.heap.Lineal)
    (hx : w.heap.scope? id = some x) (hd : x.dead = false)
    (hf : ∀ v t, ¬ w.heap.Finds name (some id) v t) :
    lookup (some id) name w = .error (.failure (unbound "lookup" name)) w := by
  have hnone : resolve? w.heap (some id) name = none := by
    refine Option.eq_none_iff_forall_ne_some.mpr fun p hsome => ?_
    exact hf p.1 p.2 ((resolve?_eq_some_iff hp hl).mp hsome)
  unfold lookup
  rw [get_bind, hnone]
  dsimp only
  rw [bind_ok (expect_of_lives "lookup" hx hd)]
  rfl

/-- A value that gets an owner and is then bound to a name in the place of another one. What follows
takes no more than counts away from scopes that live. -/
theorem retain_store_rebinds {α : Type} {k : Run α} (hp : w.heap.Proper)
    (hx : w.heap.scope? t = some x) (hv : ∀ v, value = some v → w.heap.Lives (.object v))
    (hfull : ¬ w.heap.Full value)
    (hk : ∀ v, ∃ a v', k v = .ok a v' ∧ ∀ {id x'}, v'.heap.scope? id = some x' → x'.dead = false →
      ∃ y, v.heap.scope? id = some y ∧ y = { x' with refs := y.refs }) :
    ∃ a w', (do
      let _ ← Object.retain value
      Run.modifyHeap (store t name value)
      k : Run α) w = .ok a w' ∧ w.heap.Rebinds w'.heap t name value := by
  obtain ⟨w1, h1⟩ := Object.retain_of_lives hv hfull
  obtain ⟨-, h', rfl, hscope, -⟩ := Object.retain_ok h1
  have hxt : h'.scope? t = some x := by rw [hscope, hx]
  obtain ⟨a, w', hk, hkept⟩ := hk { w with heap := store t name value h' }
  refine ⟨a, w', (bind_ok h1).trans hk, ⟨fun {id x'} hx' hd' => ?_⟩⟩
  obtain ⟨y, hy, he⟩ := hkept hx' hd'
  have hd : y.dead = false := by rw [he]; exact hd'
  have hparent : x'.parent = y.parent := by rw [he]
  have hbindings : x'.bindings = y.bindings := by rw [he]
  rw [store_some name value hxt] at hy
  rcases Heap.scope?_setScope_cases hxt hy with ⟨rfl, rfl⟩ | ⟨hne, hy⟩
  · refine ⟨x, hx, hd, hparent, ?_⟩
    rw [if_pos rfl, hbindings]
    exact put_eq_rebound (hp.scope hx).nodup name value
  · exact ⟨y, by rw [← hscope, hy], hd, hparent, by rw [if_neg hne, hbindings]⟩

theorem bind_rebinds (hp : w.heap.Proper) (hx : w.heap.scope? id = some x) (hd : x.dead = false)
    (hv : ∀ v, value = some v → w.heap.Lives (.object v)) (hfull : ¬ w.heap.Full value) :
    ∃ w', bind (some id) name value w = .ok () w' ∧ w.heap.Rebinds w'.heap id name value := by
  have hbind : ∃ a w', bind (some id) name value w = .ok a w' ∧
      w.heap.Rebinds w'.heap id name value := by
    unfold bind
    rw [bind_ok (expect_of_lives "bind" hx hd)]
    refine retain_store_rebinds hp hx hv hfull fun u => ?_
    cases x.get? name with
    | some old => exact ⟨_, _, rfl, (World.fades_drop _ u).livingScope⟩
    | none => exact ⟨_, _, rfl, (Heap.Fades.refl u.heap).livingScope⟩
  obtain ⟨_, w', hbind⟩ := hbind
  exact ⟨w', hbind⟩

theorem assign_rebinds (hp : w.heap.Proper) (hl : w.heap.Lineal) (hx : w.heap.scope? id = some x)
    (hd : x.dead = false) (hv : ∀ v, value = some v → w.heap.Lives (.object v))
    (hfull : ¬ w.heap.Full value) (hf : w.heap.Finds name (some id) v t) :
    ∃ r w', assign (some id) name value w = .ok r w' ∧ w.heap.Rebinds w'.heap t name value := by
  have hsearch := search_of_finds hp hl hf
  obtain ⟨-, y, hy, -⟩ := search_some hsearch
  unfold assign
  rw [bind_ok (expect_of_lives "assign" hx hd), get_bind, hsearch]
  refine retain_store_rebinds hp hy hv hfull fun u => ?_
  -- the unspecified value that is made at last is no scope
  exact ⟨_, _, rfl, (World.fades_drop _ u).livingScope⟩

theorem bind_of_full (hx : w.heap.scope? id = some x) (hd : x.dead = false)
    (hr : w.reclaim = true) (hv : ∀ v, value = some v → w.heap.Lives (.object v))
    (hfull : w.heap.Full value) :
    bind (some id) name value w = .error (.breach Object.overflowBreach.text) w := by
  unfold bind
  rw [bind_ok (expect_of_lives "bind" hx hd)]
  exact bind_error (Object.retain_of_full hr hv hfull)

theorem assign_of_full (hp : w.heap.Proper) (hl : w.heap.Lineal) (hx : w.heap.scope? id = some x)
    (hd : x.dead = false) (hr : w.reclaim = true)
    (hv : ∀ v, value = some v → w.heap.Lives (.object v)) (hfull : w.heap.Full value)
    (hf : w.heap.Finds name (some id) v t) :
    assign (some id) name value w = .error (.breach Object.overflowBreach.text) w := by
  unfold assign
  rw [bind_ok (expect_of_lives "assign" hx hd), get_bind,
    search_of_finds hp hl hf]
  exact bind_error (Object.retain_of_full hr hv hfull)

theorem assign_of_not_finds (hp : w.heap.Proper) (hl : w.heap.Lineal)
    (hx : w.heap.scope? id = some x) (hd : x.dead = false)
    (hf : ∀ v t, ¬ w.heap.Finds name (some id) v t) :
    assign (some id) name value w = .error (.failure (unbound "assign" name)) w := by
  have hnone : search w.heap name (w.heap.chainFrom (some id)) = none := by
    refine Option.eq_none_iff_forall_ne_some.mpr fun p hsome => ?_
    exact hf p.1 p.2 (finds_of_search hp hl hsome)
  unfold assign
  rw [bind_ok (expect_of_lives "assign" hx hd), get_bind, hnone]
  rfl

/-! ### Chains of maps -/

/-- **Scopes are chains of finite maps**, whatever has been done. No scope binds a name twice. A
name that is looked up has the value that the first scope outwards binds it to, up to the first
destroyed one, and fails as unbound if there is none. Binding a name gives it the value in the scope
itself, and assigning in the scope where it is found; nothing else is bound differently then, as far
as scopes live. An assignment fails if the name is not found, and changes nothing. A value with as
many owners as can be counted is bound to no further name. -/
theorem refines_maps (he : Client.Lawless engine) (hw : w.Fresh) (deeds : List Client.Deed)
    (hrun : Client.afterDeeds engine w deeds = w') :
    (∀ id x, w'.heap.scope? id = some x → (x.bindings.map Prod.fst).Nodup) ∧
    ∀ id name value, w'.heap.Lives (.scope id) →
      (∀ v, value = some v → w'.heap.Lives (.object v)) →
      (∀ v t, resolve? w'.heap (some id) name = some (v, t) ↔
        w'.heap.Finds name (some id) v t) ∧
      (∀ v t, w'.heap.Finds name (some id) v t → lookup (some id) name w' = .ok v w') ∧
      ((∀ v t, ¬ w'.heap.Finds name (some id) v t) →
        lookup (some id) name w' = .error (.failure (unbound "lookup" name)) w' ∧
        assign (some id) name value w' = .error (.failure (unbound "assign" name)) w') ∧
      (¬ w'.heap.Full value →
        (∃ w'', bind (some id) name value w' = .ok () w'' ∧
          w'.heap.Rebinds w''.heap id name value) ∧
        ∀ v t, w'.heap.Finds name (some id) v t → ∃ r w'',
          assign (some id) name value w' = .ok r w'' ∧ w'.heap.Rebinds w''.heap t name value) ∧
      (w'.heap.Full value →
        bind (some id) name value w' = .error (.breach Object.overflowBreach.text) w' ∧
        ∀ v t, w'.heap.Finds name (some id) v t →
          assign (some id) name value w' = .error (.breach Object.overflowBreach.text) w') := by
  have hp : w'.heap.Proper := hrun ▸ Client.proper_afterDeeds he hw deeds
  have hl : w'.heap.Lineal := hrun ▸ Client.lineal_afterDeeds he hw deeds
  have hr : w'.reclaim = true :=
    (hrun ▸ Client.moves_afterDeeds he.moves w deeds : w.Moves w').reclaim.trans hw.reclaim
  refine ⟨fun id x hx => (hp.scope hx).nodup, fun id name value hid hv => ?_⟩
  obtain ⟨x, hx, hd⟩ := hid
  refine ⟨fun v t => resolve?_eq_some_iff hp hl, fun v t hf => lookup_of_finds hp hl hf,
    fun hf => ⟨lookup_of_not_finds hp hl hx hd hf, assign_of_not_finds hp hl hx hd hf⟩,
    fun hfull => ⟨bind_rebinds hp hx hd hv hfull, fun v t hf => ?_⟩,
    fun hfull => ⟨bind_of_full hx hd hr hv hfull, fun v t hf => ?_⟩⟩
  · exact assign_rebinds hp hl hx hd hv hfull hf
  · exact assign_of_full hp hl hx hd hr hv hfull hf

/-- Two scopes, of which the outer one binds a name to the first of two numbers. -/
def nestedScopes : List Client.Deed :=
  [.call (.scope none), .call (.scope (some ⟨0⟩)), .call (.constant (.integer 5)),
    .call (.constant (.integer 6)), .call (.bind (some ⟨0⟩) "x" (some ⟨1⟩))]

/-- Seen from the inner scope the name has this value, and assigning another one changes the outer
scope. -/
theorem refines_maps_nestedScopes : ∃ w, Client.afterDeeds (.ofDepth 0) {} nestedScopes = w ∧
    w.heap.Finds "x" (some ⟨1⟩) (some ⟨1⟩) ⟨0⟩ ∧
    lookup (some ⟨1⟩) "x" w = .ok (some ⟨1⟩) w ∧
    (∃ w', bind (some ⟨1⟩) "x" (some ⟨2⟩) w = .ok () w' ∧
      w.heap.Rebinds w'.heap ⟨1⟩ "x" (some ⟨2⟩)) ∧
    ∃ r w', assign (some ⟨1⟩) "x" (some ⟨2⟩) w = .ok r w' ∧
      w.heap.Rebinds w'.heap ⟨0⟩ "x" (some ⟨2⟩) := by
  obtain ⟨-, hscopes⟩ := refines_maps (.program 0) (w := {}) ⟨rfl, rfl, rfl, rfl⟩ nestedScopes rfl
  obtain ⟨hresolve, hlookup, -, hopen, -⟩ := hscopes ⟨1⟩ "x" (some ⟨2⟩) ⟨_, rfl, rfl⟩
    fun v hv => by cases hv; exact ⟨_, rfl, rfl⟩
  have hfinds := (hresolve (some ⟨1⟩) ⟨0⟩).mp (by decide +kernel)
  obtain ⟨hbind, hassign⟩ := hopen <| by
    rintro ⟨v, o, hv, ho, -, hmax⟩
    cases hv
    cases ho
    cases hmax
  exact ⟨_, rfl, hfinds, hlookup _ _ hfinds, hbind, hassign _ _ hfinds⟩

end Scope

end CountedLisp
