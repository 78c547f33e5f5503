import CountedLisp.Workspace
import CountedLisp.Proofs.Evaluation

/-!
# Workspaces

The stack of a workspace owns the scopes on it, which is `Workspace.share`. Making a workspace and
starting and ending its scopes are sound. In a world in which nothing has happened the books are
right, as there is nothing to count.
-/

namespace CountedLisp

open Run

variable {P : Prop} {B C S T : Share} {w : World}

/-! ### Fresh worlds -/

/-- Nothing has happened yet in a world. -/
structure World.Fresh (w : World) : Prop where
  heap : w.heap = .initial
  reclaim : w.reclaim = true
  frames : w.frames = []
  conduct : w.conduct = {}

theorem Heap.object?_initial {id : ObjectId} {o : Object}
    (ho : Heap.initial.object? id = some o) : o = Object.new .emptyList := by
  obtain ⟨i⟩ := id
  cases i with
  | zero => cases ho; rfl
  | succ i => cases ho

theorem Heap.accounts_initial : Heap.initial.Accounts 0 where
  count x n hn := by
    cases x with
    | object id =>
      simp only [Heap.count?, Option.bind_eq_some_iff] at hn
      obtain ⟨o, ho, hn⟩ := hn
      rw [object?_initial ho] at hn
      cases hn
    | scope id => cases hn
  known _ _ := rfl
  dead x hx := by
    cases x with
    | object id =>
      obtain ⟨o, ho, hd⟩ := hx
      rw [object?_initial ho] at hd
      cases hd
    | scope id =>
      obtain ⟨s, hs, -⟩ := hx
      cases hs
  spent id o ho hd := by
    rw [object?_initial ho] at hd
    cases hd

theorem World.Fresh.books (hw : w.Fresh) : w.Books 0 where
  reclaim := hw.reclaim
  nil := by
    rw [hw.heap]
    exact ⟨_, rfl, rfl⟩
  frames _ := by simp [hw.frames]
  accounts := by
    rw [hw.heap]
    exact ⟨0, fun _ => rfl, fun _ => Heap.accounts_initial⟩

/-- A run after asking for the name of a living scope. -/
theorem Scope.sound_nameOf {α : Type} {s : ScopeId} {k : Text → Run α} {G : α → Share}
    (hs : w.Sees S (Share.scope (some s))) (hk : ∀ name, (k name).Sound P C S w G B) :
    (Scope.nameOf s >>= k).Sound P C S w G B := by
  refine (hk (((w.heap.scope? s).elim [] (·.name)))).congr rfl fun _ u hm ht hS => ?_
  obtain ⟨x, hx, hd⟩ := Heap.keeps_scope_some.mp (hs ht hS)
  obtain ⟨n, hn⟩ := hm.heap.scope hx hd
  change k ((u.heap.scope? s).elim [] (·.name)) u = _
  simp only [hx, hn, Option.elim_some]

/-- One reference to each of some scopes. -/
def Share.scopes (ids : List ScopeId) : Share :=
  (ids.map Handle.scope : List Handle)

@[simp] theorem Share.scopes_nil : Share.scopes [] = 0 := rfl

@[simp] theorem Share.scopes_cons (id : ScopeId) (ids : List ScopeId) :
    Share.scopes (id :: ids) = Share.scope (some id) + Share.scopes ids := by
  rw [Share.scope_some, Multiset.singleton_add]
  rfl

namespace Workspace

/-- What the stack of a workspace owns. -/
def share (ws : Workspace) : Share :=
  Share.scopes ws.scopes.items

theorem share_push (ws : Workspace) (s : ScopeId) :
    share { ws with scopes := ws.scopes.push s } = Share.scope (some s) + ws.share :=
  Share.scopes_cons s _

theorem count_share_scope (ws : Workspace) (s : ScopeId) :
    ws.share.count (.scope s) = ws.scopes.items.count s := by
  rw [share, Share.scopes, Multiset.coe_count]
  exact List.count_map_of_injective _ _ (fun _ _ h => by cases h; rfl) s

theorem count_share_object (ws : Workspace) (id : ObjectId) :
    ws.share.count (.object id) = 0 :=
  Multiset.count_eq_zero.mpr (by simp [share, Share.scopes])

/-! ### Making a workspace -/

theorem sound_install {s : ScopeId} (table : Builtin.Table) (hb : w.Books (T + C))
    (hs : .scope s ∈ T) : (install s table).Sound P C S w (fun _ => T) B := by
  induction table generalizing w with
  | nil => exact .pure hb
  | cons e rest ih =>
    obtain ⟨name, f⟩ := e
    refine (Object.sound_make rfl (hb.cast (zero_add _))).bind fun {p w1} _ hb1 _ => ?_
    have hscope : Share.scope (some s) ⊆ S + (Share.ref p + T + C) := fun x hx => by
      obtain rfl := Multiset.mem_singleton.mp hx
      simp [hs]
    have hbind : (Scope.bind (some s) name p).Sound P (Share.ref p + T + C) S w1 (fun _ => 0) 0 :=
      Scope.sound_bind hb1 hscope fun x hx => by simp [hx]
    -- a name that cannot be bound is passed over, and its function is given up all the same
    refine hbind.attempt.bind fun {r w2} _ hb2 _ => ?_
    have hrelease : (Object.release p).Sound P C S w2 (fun _ => T) B := by
      refine sound_drop (hb2.cast ?_)
      cases r <;> exact (add_assoc (Share.ref p) T C).symm.trans (by rw [zero_add])
    exact hrelease.bind fun _ hb3 _ => ih hb3

/-- The global scope is new and owns nothing. -/
theorem passes_addGlobals (h : Heap) : h.Passes (addGlobals h).2 0
    (Share.scope (some (addGlobals h).1.1)) :=
  (Heap.Passes.addScope h (s := globalScope (h.serial + 1) ⟨h.registries.size⟩) rfl rfl).trans
    (.setRest _ _ _ _)

theorem mirrors_addGlobals {h k : Heap} (hm : h.Mirrors k) :
    (addGlobals k).1 = (addGlobals h).1 ∧ (addGlobals h).2.Mirrors (addGlobals k).2 := by
  obtain ⟨hid, hadd⟩ := hm.addScope (globalScope (h.serial + 1) ⟨h.registries.size⟩)
  have hscope : globalScope (k.serial + 1) ⟨k.registries.size⟩ =
      globalScope (h.serial + 1) ⟨h.registries.size⟩ := by
    rw [hm.serial, hm.registries_size]
  refine ⟨?_, ?_⟩
  · simp only [addGlobals, hm.serial, hm.registries_size, hid]
  · simp only [addGlobals, hscope]
    exact { hadd with
      serial := by rw [hm.serial]
      registries_size := by simp [hadd.registries_size] }

/-- **A new workspace** owns its global scope. -/
theorem sound_make (tables : List Builtin.Table) (hb : w.Books C) :
    (make tables).Sound P C S w share 0 := by
  have hb0 := hb.cast (zero_add C)
  have hflag : (modify fun w => { w with traceRefs := w.flag "runtime.trace-refs" } :
      Run PUnit).Sound P C S w (fun _ => 0) 0 :=
    .modify ⟨.refl w.heap, rfl, .refl P w.conduct⟩
      ⟨hb0.reclaim, hb0.nil, hb0.frames, hb0.accounts⟩ (fun _ u hm _ _ _ =>
        { hm with traceRefs := by simp only [World.flag, World.setting, hm.conf] }) fun _ _ _ => rfl
  refine hflag.bind fun {_ w1} _ hb1 _ => ?_
  have hglobals := passes_addGlobals w1.heap
  refine Sound.bind (G := fun p => Share.scope (some p.1)) (.of_ok
    (a := (addGlobals w1.heap).1) (v := { w1 with heap := (addGlobals w1.heap).2 }) rfl
    ⟨hglobals.leads, rfl, .refl P _⟩ (hb1.pass hglobals) (fun _ u hm _ _ _ => ?_) fun _ => rfl)
    fun {p w2} _ hb2 _ => ?_
  · -- both worlds put the global scope in the same place
    have hm' := mirrors_addGlobals hm.heap
    refine ⟨{ u with heap := (addGlobals u.heap).2 }, ?_, { hm with heap := hm'.2 }⟩
    rw [← hm'.1]
    rfl
  obtain ⟨globals, registry⟩ := p
  have hglobal : Handle.scope globals ∈ Share.scope (some globals) := by simp [Share.scope_some]
  refine (sound_install (Builtin.core ++ tables.flatten) hb2 hglobal).bind fun {_ w3} _ hb3 _ => ?_
  refine .get_bind ?_ fun _ u hm ht hS => ?_
  · refine (Sound.trace (G := fun _ => Share.scope (some globals)) _ _ _ _ hb3).bind
      fun _ hb4 _ => .pure hb4
  · obtain ⟨x, hx, hd⟩ := (hb3.keeps ht.wrapped) _ (Multiset.mem_add.mpr (.inl hglobal))
    obtain ⟨n, hn⟩ := hm.heap.scope hx hd
    simp only [hx, hn, Option.elim_some]

theorem make_scopes {tables : List Builtin.Table} {ws : Workspace} {w' : World}
    (h : make tables w = .ok ws w') : ws.scopes.items = [ws.globals] := by
  obtain ⟨_, _, -, h⟩ := of_bind_ok h
  obtain ⟨p, _, -, h⟩ := of_bind_ok h
  obtain ⟨_, _, -, h⟩ := of_bind_ok h
  obtain ⟨_, _, -, h⟩ := of_bind_ok h
  obtain ⟨_, _, -, h⟩ := of_bind_ok h
  cases h
  rfl

/-! ### Active scopes -/

theorem current_eq {ws : Workspace} {s : ScopeId} {rest : List ScopeId}
    (hs : ws.scopes.items = s :: rest) : ws.current = pure s := by
  simp only [current, Stack.peek?, hs]

theorem mem_share {ws : Workspace} {s : ScopeId} : .scope s ∈ ws.share ↔ s ∈ ws.scopes.items := by
  simp [share, Share.scopes]

/-- The innermost scope of a stack that owns its scopes. -/
theorem sees_top {ws : Workspace} {D : Share} (hb : w.Books (D + C)) (hs : ws.share ⊆ C)
    {t : ScopeId} {rest : List ScopeId} (hitems : ws.scopes.items = t :: rest) :
    w.Sees S (Share.scope (some t)) := hb.sees_of_subset fun x hx => by
  obtain rfl := Multiset.mem_singleton.mp hx
  exact Multiset.mem_add.mpr (.inr (hs (mem_share.mpr (by simp [hitems]))))

/-- **A further scope** inside the innermost one, which is lent or owned. -/
theorem sound_pushScope {ws : Workspace} (hb : w.Books (0 + C))
    (hs : ∀ t rest, ws.scopes.items = t :: rest → w.Sees S (Share.scope (some t)))
    (hne : P → ws.scopes.items ≠ []) :
    ws.pushScope.Sound P C S w (fun p => Share.scope (some p.1)) 0 := by
  cases hitems : ws.scopes.items with
  | nil =>
    -- programs never get here, as the global scope stays on the stack
    unfold pushScope current
    simp only [Stack.peek?, hitems]
    exact (Sound.breach (G := fun _ => 0) hb fun hP => absurd hitems (hne hP)).bind nofun
  | cons t rest =>
    unfold pushScope
    rw [current_eq hitems]
    refine (Scope.sound_make hb (hs t rest hitems)).bind fun {s w1} _ hb1 _ => ?_
    have hsees : w1.Sees S (Share.scope (some s)) := hb1.sees_of_subset fun x hx => by simp [hx]
    exact Scope.sound_nameOf hsees fun name =>
      (Sound.trace (G := fun _ => Share.scope (some s)) _ _ _ _ (hb1.cast (by simp))).bind
        fun _ hb2 _ => .pure hb2

/-- The new scope is put on the stack. -/
theorem pushScope_ok {ws ws' : Workspace} {s : ScopeId} {w' : World}
    (h : ws.pushScope w = .ok (s, ws') w') : ws' = { ws with scopes := ws.scopes.push s } := by
  obtain ⟨t, w1, -, h⟩ := of_bind_ok h
  obtain ⟨s', w2, -, h⟩ := of_bind_ok h
  obtain ⟨name, w3, -, h⟩ := of_bind_ok h
  obtain ⟨_, w4, -, h⟩ := of_bind_ok h
  cases h
  rfl

/-- A scope that is active no longer is given up. -/
theorem sound_leave {s : ScopeId} (hb : w.Books (Share.scope (some s) + (T + C))) :
    (leave s).Sound P C S w (fun _ => T) B := by
  have hsees : w.Sees S (Share.scope (some s)) := hb.sees_of_subset fun x hx => by simp [hx]
  refine Scope.sound_nameOf hsees fun name => ?_
  exact (Sound.trace (G := fun _ => Share.scope (some s) + T) _ _ _ _
    (hb.cast (add_assoc _ _ _))).bind fun _ hb1 _ =>
      Scope.sound_release (hb1.cast (add_assoc _ _ _).symm)

theorem leave_ok (s : ScopeId) (w : World) : ∃ w', leave s w = .ok () w' := ⟨_, rfl⟩

/-- There is no scope to end, or the innermost one is left. -/
theorem popScope_cases (ws : Workspace) :
    (∃ f, f.reportsLoss = false ∧ ws.popScope = Run.fail f) ∨
      ∃ s t rest, ws.scopes.items = s :: t :: rest ∧ ws.popScope = (do
        leave s
        return { ws with scopes := ⟨t :: rest⟩ }) := by
  unfold popScope
  split
  · next s t rest hs => exact .inr ⟨s, t, rest, hs, rfl⟩
  · exact .inl ⟨_, rfl, rfl⟩

theorem popScope_error {ws : Workspace} {e : Halt} {w' : World}
    (h : ws.popScope w = .error e w') : w' = w := by
  obtain ⟨f, -, hf⟩ | ⟨s, t, rest, -, hp⟩ := ws.popScope_cases
  · rw [hf] at h
    cases h
    rfl
  · obtain ⟨w1, h1⟩ := leave_ok s w
    rw [hp, bind_ok h1] at h
    cases h

theorem popScope_ok {ws ws' : Workspace} {w' : World} (h : ws.popScope w = .ok ws' w') :
    ws'.scopes.items ≠ [] := by
  obtain ⟨f, -, hf⟩ | ⟨s, t, rest, -, hp⟩ := ws.popScope_cases
  · rw [hf] at h
    cases h
  · rw [hp] at h
    obtain ⟨_, w1, -, h⟩ := of_bind_ok h
    cases h
    exact List.cons_ne_nil _ _

theorem popScope_items {ws ws' : Workspace} {w' : World} (h : ws.popScope w = .ok ws' w') :
    ∃ s t rest, ws.scopes.items = s :: t :: rest ∧ ws' = { ws with scopes := ⟨t :: rest⟩ } := by
  obtain ⟨f, -, hf⟩ | ⟨s, t, rest, hitems, hp⟩ := ws.popScope_cases
  · rw [hf] at h
    cases h
  · rw [hp] at h
    cases h
    exact ⟨s, t, rest, hitems, rfl⟩

theorem sound_popScope {ws : Workspace} (hb : w.Books (ws.share + C)) :
    ws.popScope.Sound P C S w share ws.share := by
  obtain ⟨f, hloss, hf⟩ | ⟨s, t, rest, hs, hp⟩ := ws.popScope_cases
  · rw [hf]
    exact .fail hb fun _ _ _ => hloss
  · -- the innermost scope leaves the stack together with its reference
    have hshare : ws.share = Share.scope (some s) + share { ws with scopes := ⟨t :: rest⟩ } := by
      simp only [share, hs, Share.scopes_cons]
    rw [hshare, add_assoc] at hb
    rw [hp]
    exact (sound_leave hb).bind fun _ hb1 _ => .pure hb1

end Workspace

end CountedLisp
