import CountedLisp.Eval.Arguments
import CountedLisp.Proofs.Scoping

/-!
# Evaluating thunks

Evaluating a thunk is sound if running its code is (`Engine.Sound`), and so is the evaluation of
arguments.

A thunk that is evaluated keeps its value in the place of its scope, and the books stay exact. There
are two exceptions, in which a reference is lost: a thunk that was evaluated while it was being
evaluated has a value already, which is overwritten; a thunk that was destroyed meanwhile holds
nothing, so that its value has no owner. The record of conduct tells of both.
-/

namespace CountedLisp

open Run

variable {P : Prop} {C S T B : Share} {w w' : World} {engine : Engine}

/-- Going one level deeper is sound. Scope, function and arguments are lent. -/
structure Engine.Sound (P : Prop) (engine : Engine) : Prop where
  run : ∀ {C w} (code : Code) (s : ScopeRef), w.Books C →
    (engine.run code s).Sound P C (Share.scope s) w Share.ref 0
  call : ∀ {C w} (f : Ref) (args : List Ref), w.Books C →
    (engine.call f args).Sound P C (Share.refs (f :: args)) w Share.ref 0

theorem Payload.exists_thunk {p : Payload} (h : p.tag = .evaluable) : ∃ t, p = .thunk t := by
  cases p with
  | thunk t => exact ⟨t, rfl⟩
  | constant c => cases c <;> cases h
  | _ => cases h

namespace Thunk

/-! ### Finding thunks -/

theorem find?_eq_some {h : Heap} {r : Ref} {id : ObjectId} {o : Object} {t : Thunk}
    (hf : find? h r = some (id, o, t)) :
    r = some id ∧ h.object? id = some o ∧ o.payload = .thunk t := by
  unfold find? at hf
  split at hf
  · cases hf
  · split at hf
    · next o' ho =>
      split at hf
      · next t' ht =>
        cases hf
        exact ⟨rfl, ho, ht⟩
      · cases hf
    · cases hf

theorem find?_of_thunk {h : Heap} {id : ObjectId} {o : Object} {t : Thunk}
    (ho : h.object? id = some o) (ht : o.payload = .thunk t) :
    find? h (some id) = some (id, o, t) := by
  simp only [find?, ho, ht]

theorem isThunk_eq (h : Heap) (r : Ref) : h.isThunk r = (find? h r).isSome := by
  cases r with
  | none => rfl
  | some id =>
    have hg : h.get? (some id) = h.object? id := rfl
    simp only [Heap.isThunk, find?, hg]
    cases h.object? id with
    | none => rfl
    | some o =>
      obtain ⟨refs, dead, payload⟩ := o
      cases payload <;> rfl

/-- What is no thunk is its own value. -/
theorem force_eq_self {engine : Engine} {w : World} {r : Ref} (hr : w.heap.isThunk r = false) :
    force engine r w = .ok r w := by
  rw [isThunk_eq, Option.isSome_eq_false_iff, Option.isNone_iff_eq_none] at hr
  rw [force, get_bind, hr]
  rfl

/-- Thunks are found where nothing is destroyed. -/
theorem find?_mirror {h k : Heap} (hm : h.Mirrors k) {r : Ref} (hr : h.Keeps (Share.ref r)) :
    find? h r = none ∧ find? k r = none ∨ ∃ id o t n, find? h r = some (id, o, t) ∧
      o.dead = false ∧ find? k r = some (id, { o with refs := n }, t) := by
  cases r with
  | none => exact .inl ⟨rfl, rfl⟩
  | some id =>
    obtain ⟨o, ho, hd⟩ := Heap.keeps_ref_some.mp hr
    obtain ⟨n, hn⟩ := hm.object ho hd
    obtain ⟨refs, dead, payload⟩ := o
    cases payload with
    | thunk t => exact .inr ⟨id, _, t, n, find?_of_thunk ho rfl, hd, find?_of_thunk hn rfl⟩
    | _ => exact .inl ⟨by simp only [find?, ho], by simp only [find?, hn]⟩

/-! ### Making thunks -/

theorem sound_make {code : Code} {s : ScopeRef} (hb : w.Books C)
    (hs : w.Sees S (Share.scope s)) : (make code s).Sound P C S w Share.ref B := by
  refine (Scope.sound_retain (hb.cast (zero_add C)) hs).bind fun {v w1} _ hb1 _ => ?_
  have hmake := Object.sound_make (P := P) (S := S) (T := 0) (C := C) (B := B)
    (p := .thunk { code := code, progress := .pending v }) rfl (hb1.cast (by simp))
  simpa using hmake

/-! ### Keeping the value -/

theorem leads_enter (P : Prop) (b : Bool) (c : Conduct) :
    c.Leads P { c with reentered := c.reentered || b } where
  applied := id
  orphaned := id
  reentered h := by simp [h]
  abandoned := id
  knotted := id
  wrapped := id
  spread := .inl
  plain _ := rfl

theorem leads_abandon (P : Prop) (b : Bool) (c : Conduct) :
    c.Leads P { c with abandoned := c.abandoned || b } where
  applied := id
  orphaned := id
  reentered := id
  abandoned h := by simp [h]
  knotted := id
  wrapped := id
  spread := .inl
  plain _ := rfl

theorem settle_eq {r value : Ref} {id : ObjectId} {o : Object} {t : Thunk}
    (hf : find? w.heap r = some (id, o, t)) : settle r value w =
      match t.progress with
      | .pending scope => (keep id o t value w).releaseScope scope
      | .done _ => keep id o t value w := by
  cases hp : t.progress with
  | pending scope => simp only [settle, hf, hp]
  | done _ => simp only [settle, hf, hp]

theorem leads_keep (P : Prop) {id : ObjectId} {o : Object} {t : Thunk} (value : Ref)
    (ho : w.heap.object? id = some o) (ht : o.payload = .thunk t) :
    w.Leads P (keep id o t value w) where
  heap := .setObject ho (by simp only [Object.tag, ht]; rfl) fun hd => hd
  frames := rfl
  conduct := leads_abandon P o.dead w.conduct

/-- The books while a thunk gets its value: what it held until then is owned by the caller. -/
theorem books_keep {id : ObjectId} {o : Object} {t : Thunk} {value : Ref}
    (ho : w.heap.object? id = some o) (ht : o.payload = .thunk t)
    (hb : w.Books (Share.ref value + C))
    (hfr : w.conduct.reentered = false → ∀ f ∈ w.frames, f.owner ≠ id)
    (hd : o.dead = false) : (keep id o t value w).Books ((t.progress.owned : Share) + C) where
  reclaim := hb.reclaim
  nil := hb.nil_of_leads (leads_keep True value ho ht).heap
  frames hr f hf :=
    (hb.frames hr f hf).setObject ho fun hown => absurd hown (hfr hr f hf)
  accounts := by
    obtain ⟨L, hL, ha⟩ := hb.accounts
    refine ⟨L, fun htidy => hL ((leads_abandon True o.dead w.conduct).tidy htidy), fun hw => ?_⟩
    refine (ha hw).setPayload ho hd (by rw [ht]; rfl) ?_
    rw [ht]
    change (t.progress.owned : Share) + C + L + Share.ref value =
      Share.ref value + C + L + (t.progress.owned : Share)
    abel

/-- A dead thunk holds nothing, so that the value is lost. -/
theorem books_keep_dead {id : ObjectId} {o : Object} {t : Thunk} {value : Ref}
    (ho : w.heap.object? id = some o) (ht : o.payload = .thunk t)
    (hb : w.Books (Share.ref value + C))
    (hfr : w.conduct.reentered = false → ∀ f ∈ w.frames, f.owner ≠ id)
    (hd : o.dead = true) : (keep id o t value w).Books C := by
  have hb' : (keep id o t value w).Books (Share.ref value + C) := by
    refine ⟨hb.reclaim, hb.nil_of_leads (leads_keep True value ho ht).heap, fun hr f hf =>
      (hb.frames hr f hf).setObject ho fun hown => absurd hown (hfr hr f hf), ?_⟩
    obtain ⟨L, hL, ha⟩ := hb.accounts
    refine ⟨L, fun htidy => hL ((leads_abandon True o.dead w.conduct).tidy htidy), fun hw => ?_⟩
    refine (ha hw).setDeadPayload ho hd rfl fun s hs => ?_
    -- the value is an object and no scope
    have hmem : Handle.scope s ∈ Share.ref value := hs
    obtain ⟨_, -, he⟩ := Share.mem_ref.mp hmem
    cases he
  refine hb'.lose fun htidy => ?_
  have := htidy.abandoned
  simp [keep, World.note, World.witness, hd] at this

/-- **Keeping the value of a thunk.** A thunk that still is as it was exchanges its scope for the
value; otherwise something is lost. -/
theorem sound_settle {r value : Ref} {id : ObjectId} {o : Object} {t : Thunk}
    (hfind : find? w.heap r = some (id, o, t)) (hb : w.Books (Share.ref value + C))
    (hfr : w.conduct.reentered = false → ∀ f ∈ w.frames, f.owner ≠ id)
    (hpend : w.conduct.reentered = false → o.dead = false → ∃ s, t.progress = .pending s)
    (hr : Share.ref r ⊆ S + C) :
    (modify (settle r value) : Run PUnit).Sound P C S w (fun _ => 0) B := by
  obtain ⟨hrid, ho, ht⟩ := find?_eq_some hfind
  have hleads : w.Leads P (settle r value w) := by
    rw [settle_eq hfind]
    split
    · exact (leads_keep P value ho ht).trans (World.leads_drop P _ _)
    · exact leads_keep P value ho ht
  refine .modify hleads ?_ (fun _ u hm htame hS hS' => ?_) fun _ htame hspare => ?_
  · rw [zero_add, settle_eq hfind]
    cases hd : o.dead with
    | false =>
      -- a living thunk: its scope is given up, or an earlier value is lost
      have hk := books_keep ho ht hb hfr hd
      split
      · next s hs =>
        rw [hs] at hk
        exact hk.drop
      · next v hv =>
        refine hk.lose fun htidy => ?_
        obtain ⟨s, hs⟩ := hpend htidy.reentered hd
        rw [hv] at hs
        cases hs
    | true =>
      have hk := books_keep_dead ho ht hb hfr hd
      split
      · next s hs =>
        -- a dead thunk has no scope any more
        have hnone : w.conduct.wrapped = false → s = none := fun hw => by
          obtain ⟨L, -, ha⟩ := hb.accounts
          cases s with
          | none => rfl
          | some id' =>
            refine absurd ?_ ((ha hw).spent id o ho hd id')
            rw [ht]
            change Handle.scope id' ∈ t.progress.owned
            rw [hs]
            exact List.mem_singleton.mpr rfl
        refine World.Books.drop ?_
        cases hw : w.conduct.wrapped with
        | true => exact hk.any_of_wrapped hw
        | false =>
          rw [hnone hw]
          exact hk.cast (zero_add C)
      · exact hk
  · -- the thunk lives, so that it is found in the mirror with the same contents
    have htame0 := hleads.conduct.tame htame
    obtain ⟨h1, -⟩ | ⟨id', o', t', n, h1, hd, h2⟩ := find?_mirror hm.heap (hb.sees hr htame0 hS)
    · rw [hfind] at h1
      cases h1
    · rw [hfind] at h1
      cases h1
      have hkeep : (keep id o t value w).Mirrors (keep id { o with refs := n } t value u) :=
        { hm with heap := hm.heap.setObject ho _ rfl }
      rw [settle_eq hfind, settle_eq h2]
      cases t.progress with
      | pending s => exact hkeep.drop _
      | done v => exact hkeep
  · -- the thunk is owned, or lent and not destroyed even at the end
    have howned := (Heap.keeps_add.mp (hb.keeps (hleads.conduct.tame htame).wrapped)).2
    have hspare' := ((hspare.of_leads hleads.heap).add howned.spares).mono hr
    have hd : o.dead = false := by
      rw [hrid] at hspare'
      refine Bool.eq_false_iff.mpr fun hd => ?_
      exact hspare' id (by simp [Share.ref_some]) ⟨o, ho, hd⟩
    have hkeep : (keep id o t value w).conduct.abandoned = w.conduct.abandoned := by
      simp [keep, World.note, World.witness, hd]
    rw [settle_eq hfind]
    split
    · exact (congrArg Conduct.abandoned (World.conduct_drop _ _)).trans hkeep
    · exact hkeep

/-! ### The value -/

theorem value_eq {h : Heap} {r : Ref} : value h r = (match find? h r with
    | some (_, _, t) => match t.progress with
      | .done v => v
      | .pending _ => none
    | none => none) := by
  unfold value
  cases find? h r with
  | none => rfl
  | some x =>
    obtain ⟨id, o, code, progress⟩ := x
    cases progress <;> rfl

theorem value_mirror {h k : Heap} (hm : h.Mirrors k) {r : Ref} (hr : h.Keeps (Share.ref r)) :
    value k r = value h r := by
  obtain ⟨h1, h2⟩ | ⟨id, o, t, n, h1, -, h2⟩ := find?_mirror hm hr <;>
    simp only [value_eq, h1, h2]

theorem sees_value {r : Ref} (hb : w.Books C) (hr : w.Sees S (Share.ref r)) :
    w.Sees S (Share.ref (value w.heap r)) := fun ht hS => by
  rw [value_eq]
  cases hf : find? w.heap r with
  | none => simp
  | some x =>
    obtain ⟨id, o, t⟩ := x
    obtain ⟨rfl, ho, hp⟩ := find?_eq_some hf
    -- a living thunk owns its value
    have hlive := Heap.keeps_ref_some.mp (hr ht hS)
    have hd : o.dead = false := by
      obtain ⟨o', ho', hd⟩ := hlive
      rw [ho, Option.some.injEq] at ho'
      rw [ho']
      exact hd
    have howned := (hb.closed ht.wrapped).object ho hd
    rw [hp] at howned
    obtain ⟨code, progress⟩ := t
    cases progress with
    | pending s => simp
    | done v => exact howned

/-! ### Evaluation -/

/-- A thunk that is not evaluated yet, and that is not being evaluated, holds its scope. -/
theorem holds_of_pending {h : Heap} {id : ObjectId} {o : Object} {t : Thunk} {s : ScopeRef}
    (ho : h.object? id = some o) (ht : o.payload = .thunk t) (hp : t.progress = .pending s) :
    h.Holds ⟨id, s⟩ := by
  refine ⟨o, ho, fun _ => ⟨?_, fun t' ht' => ?_⟩⟩
  · rw [ht]
    change Share.scope s ⊆ (t.progress.owned : Share)
    rw [hp]
    exact fun _ hx => hx
  · rw [ht] at ht'
    cases ht'
    exact hp

/-- A thunk is found as one later on. -/
theorem find?_of_leads {h h' : Heap} (hl : h.Leads h') {id : ObjectId} {o : Object} {t : Thunk}
    (ho : h.object? id = some o) (ht : o.payload = .thunk t) :
    ∃ o' t', find? h' (some id) = some (id, o', t') := by
  obtain ⟨o', ho', htag, -⟩ := hl.object ho
  obtain ⟨t', ht'⟩ := Payload.exists_thunk (htag.trans (by rw [Object.tag, ht]; rfl))
  exact ⟨o', t', find?_of_thunk ho' ht'⟩

/-- Evaluating a thunk for the first time. -/
theorem sound_force_pending (he : engine.Sound P) {id : ObjectId} {o : Object} {t : Thunk}
    {s : ScopeRef} (hb : w.Books C) (hr : Share.ref (some id) ⊆ S + C)
    (ho : w.heap.object? id = some o) (ht : o.payload = .thunk t) (hp : t.progress = .pending s) :
    (do
      modify (enter id)
      let v ← Run.within ⟨id, s⟩ (engine.run t.code s)
      modify (settle (some id) v)
      Object.retain (value (← get).heap (some id)) : Run Ref).Sound P C S w Share.ref 0 := by
  have hb0 := hb.cast (zero_add C)
  refine (Sound.note (G := fun _ => 0) (fun _ => ⟨_, rfl⟩)
    (leads_enter P (w.frames.any (·.owner = id)) w.conduct) rfl hb0).bind
      fun {_ w1} h1 hb1 hl1 => ?_
  cases h1
  -- no other evaluation of this thunk is under way, or else there is a note of it
  have hfree : (enter id w).conduct.reentered = false → ∀ f ∈ w.frames, f.owner ≠ id := by
    intro hre f hf hown
    have hany : w.frames.any (·.owner = id) = true :=
      List.any_eq_true.mpr ⟨f, hf, by simpa using hown⟩
    simp [enter, World.note, World.witness, hany] at hre
  have hrun : { enter id w with frames := ⟨id, s⟩ :: (enter id w).frames }.Books (0 + C) →
      (engine.run t.code s).Sound P C (Share.scope s + S)
        { enter id w with frames := ⟨id, s⟩ :: (enter id w).frames } Share.ref 0 := fun hb2 =>
    (he.run t.code s (hb2.cast (zero_add C).symm)).relax hb2 fun x hx => by simp [hx]
  have hwithin : (Run.within ⟨id, s⟩ (engine.run t.code s)).Sound P C S (enter id w)
      Share.ref 0 :=
    .within hb1 (fun _ => holds_of_pending ho ht hp) (hr (by simp [Share.ref_some])) hrun
  refine hwithin.bind fun {v w2} h2 hb2 hl2 => ?_
  obtain ⟨o2, t2, hfind⟩ := find?_of_leads hl2.heap ho ht
  obtain ⟨-, ho2, hp2⟩ := find?_eq_some hfind
  -- the thunk is still pending in its scope, unless it was evaluated meanwhile
  have hpend : w2.conduct.reentered = false → o2.dead = false → t2.progress = .pending s := by
    intro hre hd
    obtain ⟨w2', hinner, rfl⟩ := within_ok h2
    have hb2' : { enter id w with frames := ⟨id, s⟩ :: (enter id w).frames }.Books (0 + C) :=
      ⟨hb1.reclaim, hb1.nil, fun hr => List.forall_mem_cons.mpr
        ⟨holds_of_pending ho ht hp, hb1.frames hr⟩, hb1.accounts⟩
    have hinner' := hrun hb2'
    have hframes : w2'.frames = ⟨id, s⟩ :: (enter id w).frames :=
      final_ok hinner ▸ hinner'.leads.frames
    obtain ⟨o3, ho3, hheld⟩ :=
      (hinner'.ok hinner).frames hre ⟨id, s⟩ (hframes ▸ List.mem_cons_self)
    have : o2 = o3 := Option.some.inj (ho2.symm.trans ho3)
    subst this
    exact (hheld hd).2 t2 hp2
  refine (sound_settle hfind hb2 (fun hre f hf => ?_) (fun hre hd => ⟨s, hpend hre hd⟩)
    hr).bind fun {_ w3} _ hb3 _ => ?_
  · exact hfree (Conduct.unmarked hl2.conduct.reentered hre) f (hl2.frames ▸ hf)
  have hb3' := hb3.cast (zero_add C).symm
  refine .get_bind ?_ fun _ u hm htame hS => ?_
  · have := Object.sound_retain (P := P) (B := 0) hb3 (sees_value hb3' (hb3.sees hr))
    simpa using this
  · rw [value_mirror hm.heap (hb3.sees hr htame hS)]

/-- **The value of a thunk.** What is no thunk is its own value, of which the caller owns nothing
new. -/
theorem sound_force (he : engine.Sound P) {r : Ref} (hb : w.Books C)
    (hr : Share.ref r ⊆ S + C) : (force engine r).Sound P C S w
      (fun v => if w.heap.isThunk r then Share.ref v else 0) 0 := by
  have hb0 := hb.cast (zero_add C)
  refine .get_bind ?_ fun _ u hm htame hS => ?_
  · rw [isThunk_eq]
    cases hf : find? w.heap r with
    | none => exact .pure hb0
    | some x =>
      obtain ⟨id, o, t⟩ := x
      obtain ⟨rfl, ho, ht⟩ := find?_eq_some hf
      simp only [Option.isSome_some, if_true]
      split
      · next hd =>
        -- a destroyed thunk, but this one is lent or owned
        refine .fail hb0 fun _ htame hS => ?_
        exact absurd ⟨o, ho, hd⟩ (Heap.keeps_ref_some.mp (hb0.sees hr htame hS)).not_dead
      · next hd =>
        split
        · next v hv =>
          -- evaluated before: the caller becomes another owner of the value
          have hvalue : value w.heap (some id) = v := by simp only [value_eq, hf, hv]
          have := Object.sound_retain (P := P) (B := 0) hb0 (sees_value hb (hb0.sees hr))
          rw [hvalue] at this
          simpa using this
        · next s hs => exact sound_force_pending he hb hr ho ht hs
  · obtain ⟨h1, h2⟩ | ⟨id, o, t, n, h1, -, h2⟩ := find?_mirror hm.heap (hb0.sees hr htame hS) <;>
      simp only [h1, h2]

end Thunk

/-! ### Arguments -/

namespace Arguments

/-- Each value is an argument, or was added. -/
theorem forceAfter_values {owned args values owned' : List Ref}
    (h : forceAfter engine owned args w = .ok (values, owned') w') :
    Share.refs owned ⊆ Share.refs owned' ∧
      Share.refs values ⊆ Share.refs args + Share.refs owned' := by
  induction args generalizing owned w values with
  | nil =>
    cases h
    exact ⟨fun _ hx => hx, by simp⟩
  | cons arg rest ih =>
    unfold forceAfter at h
    rw [get_bind] at h
    split at h
    · -- the value of a thunk is added to what is owned, other arguments are taken as they are
      obtain ⟨v, w1, -, h⟩ := of_bind_ok h
      obtain ⟨⟨values', owned''⟩, w2, h2, h⟩ := of_bind_ok h
      cases h
      obtain ⟨h3, h4⟩ := ih h2
      simp only [Share.refs_append, Share.refs_cons, Share.refs_nil, add_zero,
        Share.add_subset] at h3
      refine ⟨h3.1, ?_⟩
      simp only [Share.refs_cons, Share.add_subset]
      exact ⟨fun x hx => by simp [h3.2 hx], fun x hx => by
        rcases Multiset.mem_add.mp (h4 hx) with h | h <;> simp [h]⟩
    · obtain ⟨⟨values', owned''⟩, w2, h2, h⟩ := of_bind_ok h
      cases h
      obtain ⟨h3, h4⟩ := ih h2
      refine ⟨h3, ?_⟩
      simp only [Share.refs_cons, Share.add_subset]
      exact ⟨fun x hx => by simp [hx], fun x hx => by
        rcases Multiset.mem_add.mp (h4 hx) with h | h <;> simp [h]⟩

theorem sound_forceAfter (he : engine.Sound P) (owned : List Ref) {args : List Ref}
    (hb : w.Books (Share.refs owned + C)) (ha : Share.refs args ⊆ S + C) :
    (forceAfter engine owned args).Sound P C S w (fun p => Share.refs p.2) 0 := by
  induction args generalizing owned w with
  | nil => exact .pure hb
  | cons arg rest ih =>
    rw [Share.refs_cons, Share.add_subset] at ha
    refine .get_bind ?_ fun _ u hm htame hS => by rw [hm.heap.isThunk (hb.sees ha.1 htame hS)]
    split
    · next hthunk =>
      have hforce := Thunk.sound_force (S := S) he hb fun x hx => by
        rcases Multiset.mem_add.mp (ha.1 hx) with h | h <;> simp [h]
      simp only [hthunk, if_true] at hforce
      -- if this one fails, the values so far are given up
      refine (Sound.onFailure (Handle.objects owned) hforce).bind
        fun {v w1} _ hb1 _ => ?_
      refine (ih (owned ++ [v]) (hb1.cast ?_) ha.2).bind fun {p w2} _ hb2 _ =>
        .pure hb2
      rw [Share.refs_concat]
      rfl
    · exact (ih owned hb ha.2).bind fun {p w2} _ hb2 _ => .pure hb2

/-- **A function of the values of arguments.** The values are owned or lent while it runs. -/
theorem sound_forcing (he : engine.Sound P) {args : List Ref} {f : List Ref → Run Ref}
    (hb : w.Books C) (ha : Share.refs args ⊆ S + C)
    (hf : ∀ {values H w'}, w'.Books (H + C) → Share.refs values ⊆ S + (H + C) →
      (f values).Sound P (H + C) S w' Share.ref 0) :
    (forcing engine args f).Sound P C S w Share.ref 0 := by
  refine (sound_forceAfter he [] (hb.cast (zero_add C)) ha).bind
    fun {p w1} h1 hb1 _ => ?_
  obtain ⟨values, owned⟩ := p
  refine Sound.ensuring _ (hf hb1 fun x hx => ?_)
  obtain ⟨-, hvalues⟩ := forceAfter_values h1
  rcases Multiset.mem_add.mp (hvalues hx) with h | h
  · rcases Multiset.mem_add.mp (ha h) with h | h <;> simp [h]
  · exact Multiset.mem_add.mpr (.inr (Multiset.mem_add.mpr (.inl h)))

end Arguments

end CountedLisp
