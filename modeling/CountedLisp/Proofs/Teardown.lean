import CountedLisp.Proofs.Confluence

/-!
# Tearing down

References are given up one after the other, and what loses its last one is destroyed and gives up
its own. Releasing a reference goes this way, and so does closing a workspace, where scopes are also
destroyed that still have owners. `Heap.Teardown` is what the two have in common.

A step either takes one off a count (`Heap.Lessens`) or destroys something (`Heap.Destroys`). What
is destroyed is gone: it owns nothing, has no count, and is not destroyed again
(`Teardown.nodup`). It gives up the references that it owned in the beginning, each of them once;
and apart from these nothing is given up but what was to be given up anyway (`Teardown.given_eq`).
-/

namespace CountedLisp

/-! ### One step -/

/-- One is taken off the count of an object, unless it is zero. -/
theorem Object.toNat_refs_lessened (o : Object) :
    (if o.lessened.payload.isImmortal then none else some o.lessened.refs.toNat) =
      (if o.payload.isImmortal then none else some o.refs.toNat).map (· - 1) := by
  cases hi : o.payload.isImmortal with
  | true => simp [Object.lessened, hi]
  | false =>
    by_cases h0 : o.refs = 0
    · simp [Object.lessened, hi, h0]
    · by_cases h1 : o.refs = 1
      · have hne : o.payload.emptied.isImmortal = false := by
          cases hp : o.payload <;> simp_all [Payload.emptied, Payload.isImmortal]
        simp [Object.lessened, h1, hi, Object.destroyed, hne]
      · simp [Object.lessened, hi, h0, h1, Nat.eq_sub_of_add_eq (Heap.toNat_sub_one h0)]

/-- One is taken off the count of a scope, unless it is zero. -/
theorem Scope.toNat_refs_lessened (s : Scope) : s.lessened.refs.toNat = s.refs.toNat - 1 := by
  unfold Scope.lessened
  split_ifs with h0 hlast
  · simp [h0]
  · have h1 : s.refs = 1 := by simpa using (Bool.and_eq_true_iff.mp hlast).1
    simp [Scope.destroyed, h1]
  · exact Nat.eq_sub_of_add_eq (Heap.toNat_sub_one h0)

namespace Heap

/-- The references that an object or a scope owns. -/
def ownedBy (h : Heap) : Handle → List Handle
  | .object id => (h.object? id).elim [] (·.payload.owned)
  | .scope id => (h.scope? id).elim [] (·.owned)

/-- What has been destroyed, without any count left. -/
def Gone (h : Heap) : Handle → Prop
  | .object id => ∃ o, h.object? id = some o ∧ o.dead = true ∧ o.refs = 0
  | .scope id => ∃ s, h.scope? id = some s ∧ s.dead = true ∧ s.refs = 0

theorem lives_dropOne_of_ne (h : Heap) {x y : Handle} (hxy : x ≠ y) :
    (h.dropOne x).heap.Lives y ↔ h.Lives y := by
  cases y with
  | object id => simp only [Lives, object?_dropOne, if_neg hxy]
  | scope id => simp only [Lives, scope?_dropOne, if_neg hxy]

/-- A step that destroys nothing frees nothing, and what lives goes on to live. -/
theorem dropOne_of_demise_eq_none {h : Heap} {x : Handle} (hx : (h.dropOne x).demise = none) :
    (h.dropOne x).freed = [] ∧ ∀ y, (h.dropOne x).heap.Lives y ↔ h.Lives y := by
  have hself : (h.dropOne x).freed = [] ∧ ((h.dropOne x).heap.Lives x ↔ h.Lives x) := by
    cases x with
    | object id =>
      simp only [dropOne, dropObject] at hx ⊢
      cases ho : h.object? id with
      | none => simp
      | some o =>
        simp only [ho] at hx ⊢
        split_ifs at hx ⊢
        · simp
        · simp [Lives, object?_setObject_self _ ho, ho]
    | scope id =>
      simp only [dropOne, dropScope, destroyScope] at hx ⊢
      cases hs : h.scope? id with
      | none => simp
      | some s =>
        simp only [hs] at hx ⊢
        split_ifs at hx ⊢
        · simp
        · simp [Lives, scope?_setScope_self _ hs, hs]
        · simp [Lives, scope?_setScope_self _ hs, hs]
  refine ⟨hself.1, fun y => ?_⟩
  by_cases hxy : x = y
  · exact hxy ▸ hself.2
  · exact lives_dropOne_of_ne h hxy

/-- A step that destroys something takes away the last reference to it, and frees what it owned. -/
theorem dropOne_of_demise_ne_none {h : Heap} {x : Handle} (hx : (h.dropOne x).demise ≠ none) :
    h.count? x = some 1 ∧ (h.dropOne x).freed = h.ownedBy x ∧ (h.dropOne x).heap.Dead x := by
  cases x with
  | object id =>
    simp only [dropOne, dropObject] at hx ⊢
    cases ho : h.object? id with
    | none => simp [ho] at hx
    | some o =>
      simp only [ho] at hx ⊢
      split_ifs at hx ⊢ with hstop h1
      · exact absurd rfl hx
      · refine ⟨?_, by simp [ownedBy, ho], o.destroyed, object?_setObject_self _ ho, rfl⟩
        have hi : o.payload.isImmortal = false := by
          cases hi : o.payload.isImmortal <;> simp_all
        simp [count?, ho, hi, h1]
      · exact absurd rfl hx
  | scope id =>
    simp only [dropOne, dropScope, destroyScope] at hx ⊢
    cases hs : h.scope? id with
    | none => simp [hs] at hx
    | some s =>
      simp only [hs] at hx ⊢
      split_ifs at hx ⊢ with h0 h1 hd
      · exact absurd rfl hx
      · exact absurd rfl hx
      · refine ⟨by simp [count?, hs, h1], by simp [ownedBy, hs, Scope.owned], s.destroyed, ?_, rfl⟩
        simp only [scope?_updateRegistry, setScope_setScope]
        exact scope?_setScope_self _ hs
      · exact absurd rfl hx

theorem sameAt_dropOne (h : Heap) {x y : Handle} (hxy : x ≠ y) :
    h.SameAt (h.dropOne x).heap y := by
  cases y with
  | object id => exact (object?_dropOne h x id).trans (if_neg hxy)
  | scope id => exact (scope?_dropOne h x id).trans (if_neg hxy)

/-- One is taken off the count of the target, unless it is zero. -/
theorem count?_dropOne (h : Heap) (x y : Handle) :
    (h.dropOne x).heap.count? y = if x = y then (h.count? y).map (· - 1) else h.count? y := by
  cases y with
  | object id =>
    simp only [count?, object?_dropOne]
    split_ifs
    · cases h.object? id with
      | none => rfl
      | some o => exact o.toNat_refs_lessened
    · rfl
  | scope id =>
    simp only [count?, scope?_dropOne]
    split_ifs
    · cases h.scope? id with
      | none => rfl
      | some s => exact congrArg some s.toNat_refs_lessened
    · rfl

/-- What is destroyed owns nothing any more, and everything else owns what it has owned. -/
theorem ownedBy_dropOne (h : Heap) (x y : Handle) :
    (h.dropOne x).heap.ownedBy y =
      if x = y ∧ (h.dropOne x).demise ≠ none then [] else h.ownedBy y := by
  by_cases hxy : x = y
  · subst hxy
    cases x with
    | object id =>
      simp only [dropOne, dropObject]
      cases ho : h.object? id with
      | none => simp
      | some o =>
        simp only [true_and]
        split_ifs <;> simp_all [ownedBy, object?_setObject_self _ ho, Object.destroyed]
    | scope id =>
      simp only [dropOne, dropScope, destroyScope]
      cases hs : h.scope? id with
      | none => simp
      | some s =>
        simp only [true_and]
        split_ifs <;> simp_all [ownedBy, scope?_setScope_self _ hs, setScope_setScope] <;> rfl
  · simp only [hxy, false_and, if_false]
    cases y with
    | object id => simp only [ownedBy, object?_dropOne, if_neg hxy]
    | scope id => simp only [ownedBy, scope?_dropOne, if_neg hxy]

theorem ownedBy_dropOne_subset (h : Heap) (x y : Handle) :
    (h.dropOne x).heap.ownedBy y ⊆ h.ownedBy y := by
  rw [ownedBy_dropOne]
  split_ifs
  · exact List.nil_subset _
  · exact List.Subset.refl _

/-- What lives owns what it has owned before. -/
theorem Fades.ownedBy {h h' : Heap} (hf : h.Fades h') {x : Handle} (hx : h'.Lives x) :
    h'.ownedBy x = h.ownedBy x := by
  cases x with
  | object id =>
    obtain ⟨o', ho', hd'⟩ := hx
    obtain ⟨o, ho, -, hp⟩ := hf.living ho' hd'
    simp [Heap.ownedBy, ho, ho', hp]
  | scope id =>
    obtain ⟨s', hs', hd'⟩ := hx
    obtain ⟨s, hs, he⟩ := hf.livingScope hs' hd'
    rw [he] at hs
    simp [Heap.ownedBy, hs, hs', Scope.owned]

namespace SameAt

variable {h h' : Heap} {y : Handle}

theorem lives_iff (hs : h.SameAt h' y) : h'.Lives y ↔ h.Lives y := by
  cases y with
  | object id => rw [Lives, hs.object?_eq, Lives]
  | scope id => rw [Lives, hs.scope?_eq, Lives]

theorem ownedBy_eq (hs : h.SameAt h' y) : h'.ownedBy y = h.ownedBy y := by
  cases y with
  | object id => rw [Heap.ownedBy, hs.object?_eq, Heap.ownedBy]
  | scope id => rw [Heap.ownedBy, hs.scope?_eq, Heap.ownedBy]

end SameAt

namespace Gone

variable {h h' : Heap} {x : Handle}

theorem of_dead (hx : h.Dead x) (h0 : h.count? x = some 0) : h.Gone x := by
  cases x with
  | object id =>
    obtain ⟨o, ho, hd⟩ := hx
    refine ⟨o, ho, hd, ?_⟩
    simp only [count?, ho, Option.bind_some] at h0
    split_ifs at h0
    exact UInt32.toNat_inj.mp (Option.some.inj h0)
  | scope id =>
    obtain ⟨s, hs, hd⟩ := hx
    refine ⟨s, hs, hd, ?_⟩
    simp only [count?, hs, Option.map_some] at h0
    exact UInt32.toNat_inj.mp (Option.some.inj h0)

theorem of_sameAt (hx : h.Gone x) (hs : h.SameAt h' x) : h'.Gone x := by
  cases x with
  | object id =>
    obtain ⟨o, ho, hrest⟩ := hx
    exact ⟨o, hs.object?_eq.trans ho, hrest⟩
  | scope id =>
    obtain ⟨s, hs', hrest⟩ := hx
    exact ⟨s, hs.scope?_eq.trans hs', hrest⟩

/-- A reference to what is gone does nothing. -/
theorem dropOne (hx : h.Gone x) (y : Handle) : (h.dropOne y).heap.Gone x := by
  by_cases hyx : y = x
  · subst hyx
    refine hx.of_sameAt ?_
    cases y with
    | object id =>
      obtain ⟨o, ho, -, hrefs⟩ := hx
      show (h.dropOne (.object id)).heap.object? id = h.object? id
      simp [object?_dropOne, ho, Object.lessened, hrefs]
    | scope id =>
      obtain ⟨s, hs, -, hrefs⟩ := hx
      show (h.dropOne (.scope id)).heap.scope? id = h.scope? id
      simp [scope?_dropOne, hs, Scope.lessened, hrefs]
  · exact hx.of_sameAt (sameAt_dropOne h hyx)

theorem dead (hx : h.Gone x) : h.Dead x := by
  cases x with
  | object id =>
    obtain ⟨o, ho, hd, -⟩ := hx
    exact ⟨o, ho, hd⟩
  | scope id =>
    obtain ⟨s, hs, hd, -⟩ := hx
    exact ⟨s, hs, hd⟩

theorem count?_ne_one (hx : h.Gone x) : h.count? x ≠ some 1 := by
  cases x with
  | object id =>
    obtain ⟨o, ho, -, hrefs⟩ := hx
    simp only [count?, ho, Option.bind_some, hrefs]
    split_ifs <;> simp
  | scope id =>
    obtain ⟨s, hs, -, hrefs⟩ := hx
    simp [count?, hs, hrefs]

end Gone

/-! ### Steps -/

/-- A count has become less, and nothing has been destroyed. -/
structure Lessens (h k : Heap) : Prop where
  fades : h.Fades k
  lives : ∀ y, k.Lives y ↔ h.Lives y
  ownedBy : ∀ y, k.ownedBy y = h.ownedBy y
  gone : ∀ y, h.Gone y → k.Gone y

/-- Something that was not gone before has been destroyed, and nothing else has changed. -/
structure Destroys (h k : Heap) (x : Handle) : Prop where
  fades : h.Fades k
  present : ¬h.Gone x
  gone : k.Gone x
  ownedBy : k.ownedBy x = []
  others : ∀ y ≠ x, h.SameAt k y

theorem lessens_dropOne {h : Heap} {x : Handle} (hx : (h.dropOne x).demise = none) :
    h.Lessens (h.dropOne x).heap where
  fades := (drops_dropOne h x).fades
  lives := (dropOne_of_demise_eq_none hx).2
  ownedBy y := by rw [ownedBy_dropOne, if_neg fun hy => hy.2 hx]
  gone _ hy := hy.dropOne x

/-- The last reference to something is given up. -/
theorem destroys_dropOne {h : Heap} {x : Handle} (hx : (h.dropOne x).demise ≠ none) :
    h.Destroys (h.dropOne x).heap x where
  fades := (drops_dropOne h x).fades
  present hgone := hgone.count?_ne_one (dropOne_of_demise_ne_none hx).1
  gone := by
    obtain ⟨hcount, -, hdead⟩ := dropOne_of_demise_ne_none hx
    exact .of_dead hdead (by rw [count?_dropOne, if_pos rfl, hcount]; rfl)
  ownedBy := by rw [ownedBy_dropOne, if_pos ⟨rfl, hx⟩]
  others _ hy := sameAt_dropOne h (Ne.symm hy)

/-- A living scope is destroyed although it may be owned. -/
theorem destroys_destroyScope {h : Heap} {id : ScopeId} {s : Scope} (hs : h.scope? id = some s)
    (hd : s.dead = false) : h.Destroys (h.destroyScope id s).heap (.scope id) := by
  rw [destroyScope, if_neg (by simp [hd])]
  have hself := scope?_setScope_self s.destroyed hs
  refine ⟨?_, ?_, ⟨s.destroyed, by simpa using hself, rfl, rfl⟩, ?_, fun y hy => ?_⟩
  · exact (Fades.setScope hs (fun _ => rfl) fun hd => by cases hd).trans (.updateRegistry _ _ _)
  · rintro ⟨t, ht, hdead, -⟩
    rw [hs, Option.some.injEq] at ht
    rw [← ht, hd] at hdead
    cases hdead
  · simp [Heap.ownedBy, hself]
  · exact (sameAt_setScope s.destroyed hy).trans (sameAt_updateRegistry _ _ _ y)

/-! ### All steps -/

/-- References are given up in order, each of them followed at once by those that were owned by what
it destroys; and whenever none is left, something may be destroyed that nobody has given up. The
references that are given up on the way and what is destroyed are recorded in order. -/
inductive Teardown : Heap → List Handle → List Handle → List Handle → Heap → Prop where
  /-- Nothing is left to be given up. -/
  | done (h : Heap) : Teardown h [] [] [] h
  /-- A reference is given up without anything being destroyed. -/
  | less {h k h' : Heap} {x : Handle} {rest given fallen : List Handle} (hx : h.Lessens k)
    (hc : Teardown k rest given fallen h') : Teardown h (x :: rest) (x :: given) fallen h'
  /-- The last reference to something is given up. -/
  | last {h k h' : Heap} {x : Handle} {rest given fallen : List Handle} (hx : h.Destroys k x)
    (hc : Teardown k (h.ownedBy x ++ rest) given fallen h') :
    Teardown h (x :: rest) (x :: given) (x :: fallen) h'
  /-- Something is destroyed although it may be owned. -/
  | destroy {h k h' : Heap} {x : Handle} {given fallen : List Handle} (hx : h.Destroys k x)
    (hc : Teardown k (h.ownedBy x) given fallen h') : Teardown h [] given (x :: fallen) h'

namespace Teardown

variable {h h' : Heap} {work given fallen : List Handle}

theorem fades (hc : h.Teardown work given fallen h') : h.Fades h' := by
  induction hc with
  | done h => exact .refl h
  | less hx _ ih => exact hx.fades.trans ih
  | last hx _ ih => exact hx.fades.trans ih
  | destroy hx _ ih => exact hx.fades.trans ih

/-- What is gone stays so, and is not destroyed again. -/
theorem gone_of_gone (hc : h.Teardown work given fallen h') {y : Handle} (hy : h.Gone y) :
    h'.Gone y ∧ y ∉ fallen := by
  have hne {h k : Heap} {x : Handle} (hx : h.Destroys k x) (hy : h.Gone y) : y ≠ x ∧ k.Gone y := by
    have hyx : y ≠ x := fun he => hx.present (he ▸ hy)
    exact ⟨hyx, hy.of_sameAt (hx.others y hyx)⟩
  induction hc with
  | done => exact ⟨hy, List.not_mem_nil⟩
  | less hx _ ih => exact ih (hx.gone y hy)
  | last hx _ ih =>
    obtain ⟨hyx, hk⟩ := hne hx hy
    exact ⟨(ih hk).1, List.not_mem_cons_of_ne_of_not_mem hyx (ih hk).2⟩
  | destroy hx _ ih =>
    obtain ⟨hyx, hk⟩ := hne hx hy
    exact ⟨(ih hk).1, List.not_mem_cons_of_ne_of_not_mem hyx (ih hk).2⟩

/-- What is destroyed is gone. -/
theorem gone (hc : h.Teardown work given fallen h') {y : Handle} (hy : y ∈ fallen) :
    h'.Gone y := by
  induction hc with
  | done => cases hy
  | less _ _ ih => exact ih hy
  | last hx hc ih | destroy hx hc ih =>
    rcases List.mem_cons.mp hy with rfl | hy
    · exact (hc.gone_of_gone hx.gone).1
    · exact ih hy

/-- **Nothing is destroyed twice.** -/
theorem nodup (hc : h.Teardown work given fallen h') : fallen.Nodup := by
  induction hc with
  | done => exact List.nodup_nil
  | less _ _ ih => exact ih
  | last hx hc ih | destroy hx hc ih => exact List.nodup_cons.mpr ⟨(hc.gone_of_gone hx.gone).2, ih⟩

/-- What has lived and is dead in the end is what was destroyed. -/
theorem mem_fallen (hc : h.Teardown work given fallen h') {y : Handle} (hy : h.Lives y) :
    y ∈ fallen ↔ h'.Dead y := by
  induction hc with
  | done => exact iff_of_false List.not_mem_nil hy.not_dead
  | less hx _ ih => exact ih ((hx.lives y).mpr hy)
  | @last h k h' x rest given fallen hx hc ih | @destroy h k h' x given fallen hx hc ih =>
    rw [List.mem_cons]
    by_cases hyx : y = x
    · exact iff_of_true (.inl hyx) (hc.fades.dead (hyx ▸ hx.gone.dead))
    · rw [or_iff_right hyx]
      exact ih ((hx.others y hyx).lives_iff.mpr hy)

/-- What owns nothing goes on to own nothing. -/
theorem ownedBy_eq_nil (hc : h.Teardown work given fallen h') {y : Handle}
    (hy : h.ownedBy y = []) : h'.ownedBy y = [] := by
  induction hc with
  | done => exact hy
  | less hx _ ih => exact ih ((hx.ownedBy y).trans hy)
  | @last h k h' x rest given fallen hx hc ih | @destroy h k h' x given fallen hx hc ih =>
    refine ih ?_
    by_cases hyx : y = x
    · exact hyx ▸ hx.ownedBy
    · exact (hx.others y hyx).ownedBy_eq.trans hy

/-- What is destroyed owns nothing any more. -/
theorem ownedBy_of_mem_fallen (hc : h.Teardown work given fallen h') {y : Handle}
    (hy : y ∈ fallen) : h'.ownedBy y = [] := by
  induction hc with
  | done => cases hy
  | less _ _ ih => exact ih hy
  | last hx hc ih | destroy hx hc ih =>
    rcases List.mem_cons.mp hy with rfl | hy
    · exact hc.ownedBy_eq_nil hx.ownedBy
    · exact ih hy

/-- What is destroyed later on owns what it has owned from the beginning. -/
theorem flatMap_ownedBy {k : Heap} {x : Handle} (hc : k.Teardown work given fallen h')
    (hx : h.Destroys k x) : fallen.flatMap k.ownedBy = fallen.flatMap h.ownedBy := by
  refine List.flatMap_congr fun y hy => (hx.others y ?_).ownedBy_eq
  rintro rfl
  exact (hc.gone_of_gone hx.gone).2 hy

/-- **Everything is given up once**: the references that are to be given up, and those that were
owned by what is destroyed. -/
theorem given_eq (hc : h.Teardown work given fallen h') :
    (given : Share) = (work : Share) + (fallen.flatMap h.ownedBy : List Handle) := by
  induction hc with
  | done => rfl
  | @less h k h' x rest given fallen hx hc ih =>
    have hsame : fallen.flatMap k.ownedBy = fallen.flatMap h.ownedBy :=
      List.flatMap_congr fun y _ => hx.ownedBy y
    rw [← Multiset.cons_coe, ih, hsame, ← Multiset.cons_coe, Multiset.cons_add]
  | @last h k h' x rest given fallen hx hc ih =>
    rw [← Multiset.cons_coe, ih, hc.flatMap_ownedBy hx, List.flatMap_cons, ← Multiset.coe_add,
      ← Multiset.coe_add, ← Multiset.cons_coe, Multiset.cons_add, add_comm (h.ownedBy x : Share),
      add_assoc]
  | @destroy h k h' x given fallen hx hc ih =>
    rw [ih, hc.flatMap_ownedBy hx, List.flatMap_cons, ← Multiset.coe_add]
    exact (zero_add _).symm

end Teardown

end Heap

end CountedLisp
