import CountedLisp.Proofs.Confluence
import CountedLisp.Proofs.Registries

/-!
# The lifetime of a thunk

A thunk is pending, then it may get a value, and in the end it is destroyed, with a value or
without. `Thunk.Passage` says which way it goes, and how often its code gives a value on the way.

`World.Ages w new w'` compares a world with a later one, `new` being what has happened to thunks
meanwhile. Every thunk has gone its way, provided that its evaluation was not disturbed: its code
was not run again while it was running, and the thunk was not destroyed before there was a value
(`Thunk.Calm`). In particular no value comes out of the code of a thunk while this code is running
further out.

All operations on the store let worlds age in this way (`World.elementary_later`), and so does every
client, whatever it does. Evaluating a thunk is the only one that changes what a thunk is: it runs
code, which is a run by itself and finds the thunk in use, so that the thunk is still pending when
the value is there. What the other operations can do is said once, by `World.Tends`, and is enough
for any relation between worlds that evaluating a thunk respects (`World.Elementary.of_tends`).
-/

namespace CountedLisp

open Run

namespace Thunk

/-! ### One thunk -/

/-- The way of a thunk, from and to how far it has come and whether it is dead. Its code gives a
value so many times. -/
inductive Passage : Progress → Bool → Nat → Progress → Bool → Prop where
  | stays (p : Progress) (d : Bool) : Passage p d 0 p d
  | falls (p : Progress) (d : Bool) : Passage p d 0 p.emptied true
  | settles (s : ScopeRef) (v : Ref) : Passage (.pending s) false 1 (.done v) false
  /-- It gets a value and is destroyed. -/
  | expires (s : ScopeRef) : Passage (.pending s) false 1 (.done none) true

theorem emptied_emptied (p : Progress) : p.emptied.emptied = p.emptied := by
  cases p <;> rfl

namespace Passage

variable {p p' p'' : Progress} {d d' d'' : Bool} {m n : Nat}

protected theorem trans (h1 : Passage p d m p' d') (h2 : Passage p' d' n p'' d'') :
    Passage p d (n + m) p'' d'' := by
  cases h1 with
  | stays => exact h2
  | falls =>
    generalize hq : p.emptied = q at h2
    cases h2 with
    | stays => exact hq ▸ .falls p d
    | falls =>
      rw [← hq, emptied_emptied]
      exact .falls p d
  | settles s v =>
    cases h2 with
    | stays => exact .settles s v
    | falls => exact .expires s
  | expires s =>
    cases h2 with
    | stays => exact .expires s
    | falls => exact .expires s

/-- What lives and has given no value is what it was. -/
theorem eq_of_zero (h : Passage p d 0 p' false) : p' = p ∧ d = false := by
  cases h with
  | stays => exact ⟨rfl, rfl⟩

/-- It gives one value at most. -/
theorem le_one (h : Passage p d n p' d') : n ≤ 1 := by
  cases h <;> omega

/-- What is dead or has a value stays so. -/
theorem finished (h : Passage p d n p' d') (hp : d = true ∨ ∃ v, p = .done v) :
    d' = true ∨ ∃ v, p' = .done v := by
  cases h with
  | stays => exact hp
  | falls => exact .inl rfl
  | settles s v => exact .inr ⟨v, rfl⟩
  | expires => exact .inl rfl

theorem finished_of_pos (h : Passage p d n p' d') (hn : 0 < n) : d' = true ∨ ∃ v, p' = .done v := by
  cases h with
  | stays | falls => cases hn
  | settles s v => exact .inr ⟨v, rfl⟩
  | expires => exact .inl rfl

end Passage

/-- Nothing has disturbed the evaluation of a thunk: its code was not run again while it was
running, and the thunk was not destroyed meanwhile. -/
def Calm (id : ObjectId) (new : List Happening) : Prop :=
  .entered id true ∉ new ∧ .returned id true ∉ new

/-- How often the code of a thunk has given a value. -/
def yields (id : ObjectId) (new : List Happening) : Nat :=
  new.count (.returned id false)

/-- The code of a thunk is not run any more once it has given a value. -/
def Orderly (id : ObjectId) (new : List Happening) : Prop :=
  new.Pairwise fun later earlier =>
    earlier = .returned id false → ∀ again, later ≠ .entered id again

theorem calm_append {id : ObjectId} {l m : List Happening} :
    Calm id (l ++ m) ↔ Calm id l ∧ Calm id m := by
  simp only [Calm, List.mem_append, not_or]
  tauto

theorem yields_append (id : ObjectId) (l m : List Happening) :
    yields id (l ++ m) = yields id l + yields id m :=
  List.count_append

/-- How a thunk fares while some things happen. -/
structure Fares (id : ObjectId) (o : Object) (t : Thunk) (new : List Happening) (o' : Object)
    (t' : Thunk) : Prop where
  code : t'.code = t.code
  passage : Passage t.progress o.dead (yields id new) t'.progress o'.dead
  orderly : Orderly id new
  /-- What is dead or has a value is not run. -/
  idle : (o.dead = true ∨ ∃ v, t.progress = .done v) → ∀ again, .entered id again ∉ new

namespace Fares

variable {id : ObjectId} {o o' o'' : Object} {t t' t'' : Thunk} {l m : List Happening}

/-- Nothing has happened to it. -/
theorem of_nil (hc : t'.code = t.code) (hp : Passage t.progress o.dead 0 t'.progress o'.dead) :
    Fares id o t [] o' t' :=
  ⟨hc, hp, .nil, fun _ _ => List.not_mem_nil⟩

protected theorem trans (h1 : Fares id o t l o' t') (h2 : Fares id o' t' m o'' t'') :
    Fares id o t (m ++ l) o'' t'' where
  code := h2.code.trans h1.code
  passage := by
    rw [yields_append]
    exact h1.passage.trans h2.passage
  orderly := by
    refine List.pairwise_append.mpr ⟨h2.orderly, h1.orderly, ?_⟩
    rintro _ hlater _ hearlier rfl again rfl
    exact h2.idle (h1.passage.finished_of_pos (List.count_pos_iff.mpr hearlier)) again hlater
  idle hover again hmem := by
    rcases List.mem_append.mp hmem with hmem | hmem
    · exact h2.idle (h1.passage.finished hover) again hmem
    · exact h1.idle hover again hmem

end Fares

end Thunk

/-! ### Heaps in which thunks are left alone -/

/-- What can become of an object as long as no thunk gets a value. -/
structure Object.Tends (o o' : Object) : Prop where
  tag : o'.tag = o.tag
  dead : o.dead = true → o'.dead = true
  thunk : ∀ t, o.payload = .thunk t →
    ∃ t', o'.payload = .thunk t' ∧ t'.code = t.code ∧
      Thunk.Passage t.progress o.dead 0 t'.progress o'.dead

namespace Object.Tends

variable {o : Object}

protected theorem refl (o : Object) : o.Tends o :=
  ⟨rfl, id, fun t ht => ⟨t, ht, rfl, .stays _ _⟩⟩

protected theorem trans {o' o'' : Object} (h1 : o.Tends o') (h2 : o'.Tends o'') : o.Tends o'' where
  tag := h2.tag.trans h1.tag
  dead hd := h2.dead (h1.dead hd)
  thunk t ht := by
    obtain ⟨t', ht', hcode', hp'⟩ := h1.thunk t ht
    obtain ⟨t'', ht'', hcode'', hp''⟩ := h2.thunk t' ht'
    exact ⟨t'', ht'', hcode''.trans hcode', hp'.trans hp''⟩

/-- Only the count changes. -/
theorem refs (o : Object) (n : UInt32) : o.Tends { o with refs := n } :=
  ⟨rfl, id, fun t ht => ⟨t, ht, rfl, .stays _ _⟩⟩

/-- Something else is put into an object that is no thunk. -/
theorem payload {p : Payload} (ht : p.tag = o.tag) (hne : o.tag ≠ .evaluable) :
    o.Tends { o with payload := p } :=
  ⟨ht, id, fun t h => absurd (by rw [Object.tag, h]; rfl) hne⟩

theorem destroyed (o : Object) : o.Tends o.destroyed where
  tag := o.payload.tag_emptied
  dead _ := rfl
  thunk t ht := by
    refine ⟨{ t with progress := t.progress.emptied }, ?_, rfl, .falls _ _⟩
    rw [Object.destroyed, ht]
    rfl

theorem lessened (o : Object) : o.Tends o.lessened := by
  unfold Object.lessened
  split_ifs
  · exact .refl o
  · exact .destroyed o
  · exact .refs o _

/-- A thunk that has a value had one before, the same unless it was destroyed. -/
theorem of_done {o' : Object} {t' : Thunk} {v : Ref} (h : o.Tends o') (ht' : o'.payload = .thunk t')
    (hv : t'.progress = .done v) :
    ∃ t u, o.payload = .thunk t ∧ t.progress = .done u ∧ (v = u ∨ v = none) := by
  have htag : o.payload.tag = .evaluable := h.tag.symm.trans (by rw [Object.tag, ht']; rfl)
  obtain ⟨⟨code, progress⟩, ht⟩ := Payload.exists_thunk htag
  obtain ⟨t₁, ht₁, -, hpass⟩ := h.thunk _ ht
  rw [ht', Payload.thunk.injEq] at ht₁
  subst ht₁
  obtain ⟨code', progress'⟩ := t'
  dsimp only at hv hpass
  generalize o.dead = d, o'.dead = d' at hpass
  cases hpass with
  | stays => exact ⟨_, v, ht, hv, .inl rfl⟩
  | falls =>
    cases progress with
    | pending s => cases hv
    | done u =>
      cases hv
      exact ⟨_, u, ht, rfl, .inr rfl⟩

theorem fresh {o' : Object} (h : o.Tends o') (hf : o.payload.isFresh = true) :
    o'.payload.isFresh = true := by
  refine Bool.eq_true_of_not_eq_false fun hf' => ?_
  obtain ⟨t', v, ht', hv⟩ := Payload.isFresh_eq_false_iff.mp hf'
  obtain ⟨t, u, ht, hu, -⟩ := h.of_done ht' hv
  rw [Payload.isFresh_eq_false_iff.mpr ⟨t, u, ht, hu⟩] at hf
  cases hf

end Object.Tends

/-- What can become of a heap as long as no thunk gets a value. -/
structure Heap.Tends (h h' : Heap) : Prop where
  object : ∀ {id o}, h.object? id = some o → ∃ o', h'.object? id = some o' ∧ o.Tends o'
  scope : ∀ {id s}, h.scope? id = some s → ∃ s', h'.scope? id = some s' ∧
    (s.dead = true → s'.dead = true)
  /-- No thunk is new and has a value. -/
  fresh : ∀ {id o}, h.object? id = none → h'.object? id = some o → o.payload.isFresh = true

namespace Heap.Tends

variable {h h' h'' : Heap}

theorem leads (ht : h.Tends h') : h.Leads h' where
  object ho := by
    obtain ⟨o', ho', hx⟩ := ht.object ho
    exact ⟨o', ho', hx.tag, hx.dead⟩
  scope := ht.scope

/-- The objects are the same. -/
theorem of_leads (hl : h.Leads h') (ho : h'.objects = h.objects) : h.Tends h' where
  object {id o} hx := ⟨o, by rw [object?, ho]; exact hx, .refl o⟩
  scope := hl.scope
  fresh {id o} hnone hx := by
    rw [object?, ho] at hx
    rw [object?, hx] at hnone
    cases hnone

protected theorem refl (h : Heap) : h.Tends h := .of_leads (.refl h) rfl

protected theorem trans (h1 : h.Tends h') (h2 : h'.Tends h'') : h.Tends h'' where
  object ho := by
    obtain ⟨o', ho', hx'⟩ := h1.object ho
    obtain ⟨o'', ho'', hx''⟩ := h2.object ho'
    exact ⟨o'', ho'', hx'.trans hx''⟩
  scope := (h1.leads.trans h2.leads).scope
  fresh {id o''} hnone ho'' := by
    cases ho' : h'.object? id with
    | none => exact h2.fresh ho' ho''
    | some o' =>
      obtain ⟨o₁, ho₁, hx⟩ := h2.object ho'
      rw [ho'', Option.some.injEq] at ho₁
      exact ho₁ ▸ hx.fresh (h1.fresh hnone ho')

theorem setObject {id : ObjectId} {o o' : Object} (ho : h.object? id = some o) (hx : o.Tends o') :
    h.Tends (h.setObject id o') where
  object {id' y} hy := by
    rcases object?_setObject_of o' ho hy with ⟨-, rfl, ho'⟩ | ⟨-, hy'⟩
    · exact ⟨o', ho', hx⟩
    · exact ⟨y, hy', .refl y⟩
  scope {_ s} hs := ⟨s, hs, fun hd => hd⟩
  fresh {id' y} hnone hy := by
    rcases object?_setObject_cases ho hy with ⟨rfl, -⟩ | ⟨-, hy⟩
    · rw [ho] at hnone
      cases hnone
    · rw [hnone] at hy
      cases hy

theorem addObject (h : Heap) {p : Payload} (hp : p.isFresh = true) : h.Tends (h.addObject p).2 where
  object {_ o} ho := ⟨o, by rw [object?_addObject_old p (lt_size_of_object? ho), ho], .refl o⟩
  scope {_ s} hs := ⟨s, hs, id⟩
  fresh {id o} hnone ho := by
    rcases object?_addObject_cases ho with ⟨-, rfl⟩ | ⟨-, ho⟩
    · exact hp
    · rw [hnone] at ho
      cases ho

theorem dropOne (h : Heap) (x : Handle) : h.Tends (h.dropOne x).heap where
  object {id o} ho := by
    rw [object?_dropOne, ho]
    split_ifs
    · exact ⟨o.lessened, rfl, .lessened o⟩
    · exact ⟨o, rfl, .refl o⟩
  scope := (drops_dropOne h x).fades.scope
  fresh {id o} hnone ho := by
    rw [object?_dropOne, hnone] at ho
    split_ifs at ho
    cases ho

theorem drop (h : Heap) (died : Array Demise) (work : List Handle) :
    h.Tends (h.drop died work).1 := by
  fun_induction Heap.drop h died work with
  | case1 => exact .refl _
  | case2 h died x rest step ih => exact (dropOne h x).trans ih

theorem destroyScope {id : ScopeId} {s : Scope} (hs : h.scope? id = some s) :
    h.Tends (h.destroyScope id s).heap := by
  unfold Heap.destroyScope
  split_ifs
  · exact .refl h
  · refine of_leads ((Leads.setScope hs fun _ => rfl).trans (.updateRegistry _ _ _)) ?_
    cases s.registry <;> rfl

theorem destroy (h : Heap) (id : ScopeId) : h.Tends (h.destroy id).1 := by
  unfold Heap.destroy
  split
  · exact .refl h
  · next s hs => exact (destroyScope hs).trans (drop _ _ _)

end Heap.Tends

/-! ### Worlds -/

/-- What can become of a world as long as no thunk is evaluated. -/
structure World.Tends (w w' : World) : Prop where
  heap : w.heap.Tends w'.heap
  conduct : w.conduct.Stays w'.conduct
  frames : w'.frames = w.frames
  history : w'.history = w.history
  nested : w'.nested = w.nested

namespace World.Tends

variable {w w' w'' : World}

theorem of_heap {h' : Heap} (hh : w.heap.Tends h') : w.Tends { w with heap := h' } :=
  ⟨hh, ⟨id, id, id⟩, rfl, rfl, rfl⟩

protected theorem refl (w : World) : w.Tends w := of_heap (.refl w.heap)

protected theorem trans (h1 : w.Tends w') (h2 : w'.Tends w'') : w.Tends w'' where
  heap := h1.heap.trans h2.heap
  conduct :=
    ⟨fun h => h2.conduct.reentered (h1.conduct.reentered h),
      fun h => h2.conduct.abandoned (h1.conduct.abandoned h),
      fun h => h2.conduct.wrapped (h1.conduct.wrapped h)⟩
  frames := h2.frames.trans h1.frames
  history := h2.history.trans h1.history
  nested := h2.nested.trans h1.nested

theorem drop (work : List Handle) (w : World) : w.Tends (w.drop work) := by
  unfold World.drop
  split
  · exact ⟨.drop _ _ _, ⟨id, id, id⟩, rfl, rfl, rfl⟩
  · exact .refl w

end World.Tends

instance : IsPreorder World World.Tends where
  refl := .refl
  trans _ _ _ := .trans

/-- The second world is a later one. Of what has happened to thunks meanwhile nothing has disturbed
their evaluation, or else it is on record; and each thunk that was not disturbed has gone its
way. -/
structure World.Ages (w : World) (new : List Happening) (w' : World) : Prop where
  heap : w.heap.Leads w'.heap
  frames : w'.frames = w.frames
  history : w'.history = new ++ w.history
  reentered : (w.conduct.reentered = true ∨ ∃ id, .entered id true ∈ new) →
    w'.conduct.reentered = true
  abandoned : (w.conduct.abandoned = true ∨ ∃ id, .returned id true ∈ new) →
    w'.conduct.abandoned = true
  thunk : ∀ {id o t}, w.heap.object? id = some o → o.payload = .thunk t → Thunk.Calm id new →
    ∃ o' t', w'.heap.object? id = some o' ∧ o'.payload = .thunk t' ∧
      Thunk.Fares id o t new o' t' ∧
      ((∃ f ∈ w.frames, f.owner = id) → Thunk.yields id new = 0)

/-- The second world is a later one. -/
def World.Later (w w' : World) : Prop :=
  ∃ new, w.Ages new w'

namespace World

variable {w w' w'' : World}

theorem Ages.trans {l m : List Happening} (h1 : w.Ages l w') (h2 : w'.Ages m w'') :
    w.Ages (m ++ l) w'' where
  heap := h1.heap.trans h2.heap
  frames := h2.frames.trans h1.frames
  history := by rw [h2.history, h1.history, List.append_assoc]
  reentered h := h2.reentered <| by
    simp only [List.mem_append, exists_or] at h
    rcases h with h | h | h
    · exact .inl (h1.reentered (.inl h))
    · exact .inr h
    · exact .inl (h1.reentered (.inr h))
  abandoned h := h2.abandoned <| by
    simp only [List.mem_append, exists_or] at h
    rcases h with h | h | h
    · exact .inl (h1.abandoned (.inl h))
    · exact .inr h
    · exact .inl (h1.abandoned (.inr h))
  thunk {id o t} ho ht hcalm := by
    obtain ⟨hm, hl⟩ := Thunk.calm_append.mp hcalm
    obtain ⟨o', t', ho', ht', hfares', hf'⟩ := h1.thunk ho ht hl
    obtain ⟨o'', t'', ho'', ht'', hfares'', hf''⟩ := h2.thunk ho' ht' hm
    refine ⟨o'', t'', ho'', ht'', hfares'.trans hfares'', fun hf => ?_⟩
    rw [Thunk.yields_append, hf' hf, hf'' (by rwa [h1.frames])]

theorem Ages.eq_new {l new : List Happening} (h : w.Ages l w')
    (hnew : w'.history = new ++ w.history) : l = new :=
  List.append_cancel_right (h.history.symm.trans hnew)

/-- Whatever disturbs the evaluation of a thunk is on record. -/
theorem Ages.calm {new : List Happening} (h : w.Ages new w') (hre : w'.conduct.reentered = false)
    (hab : w'.conduct.abandoned = false) (id : ObjectId) : Thunk.Calm id new := by
  refine ⟨fun hmem => ?_, fun hmem => ?_⟩
  · rw [h.reentered (.inr ⟨id, hmem⟩)] at hre
    cases hre
  · rw [h.abandoned (.inr ⟨id, hmem⟩)] at hab
    cases hab

namespace Later

/-- A change in which no thunk gets a value. -/
theorem of_tends (h : w.Tends w') : w.Later w' := by
  refine ⟨[], h.heap.leads, h.frames, h.history, fun hre => ?_, fun hab => ?_,
    fun {id o t} ho ht _ => ?_⟩
  · exact h.conduct.reentered (hre.resolve_right (by simp))
  · exact h.conduct.abandoned (hab.resolve_right (by simp))
  · obtain ⟨o', ho', hx⟩ := h.heap.object ho
    obtain ⟨t', ht', hcode, hp⟩ := hx.thunk t ht
    exact ⟨o', t', ho', ht', .of_nil hcode hp, fun _ => rfl⟩

protected theorem refl (w : World) : w.Later w := of_tends (.refl w)

protected theorem trans (h1 : w.Later w') (h2 : w'.Later w'') : w.Later w'' := by
  obtain ⟨l, h1⟩ := h1
  obtain ⟨m, h2⟩ := h2
  exact ⟨m ++ l, h1.trans h2⟩

theorem drop (work : List Handle) (w : World) : w.Later (w.drop work) :=
  of_tends (.drop work w)

end Later

instance : IsPreorder World World.Later where
  refl := .refl
  trans _ _ _ := .trans

end World

/-! ### Operations on the store -/

namespace Run

variable {α : Type}

theorem tends_updateHeap {f : Heap → α × Heap} (hf : ∀ h : Heap, h.Tends (f h).2) :
    (Run.updateHeap f).Respects World.Tends := fun w => .of_heap (hf w.heap)

/-- The objects are left as they are. -/
theorem tends_modifyScopes {f : Heap → Heap} (hl : ∀ h : Heap, h.Leads (f h))
    (ho : ∀ h, (f h).objects = h.objects) : (Run.modifyHeap f).Respects World.Tends :=
  fun w => .of_heap (.of_leads (hl w.heap) (ho w.heap))

theorem tends_traceScope (name body : Text) :
    (Run.traceScope name body).Respects World.Tends := by
  refine .reading fun w => ?_
  split_ifs
  · exact .modify fun w => ⟨.refl _, ⟨id, id, id⟩, rfl, rfl, rfl⟩
  · exact .pure _

end Run

theorem Object.tends_retain (r : Ref) : (retain r).Respects World.Tends := by
  cases r with
  | none => exact .pure none
  | some id =>
    refine .get_bind fun w => ?_
    split
    · exact .refl w
    · next o ho =>
      split_ifs
      · exact .refl w
      · exact .refl w
      · exact .refl w
      · exact .of_heap (.setObject ho (.refs o _))

theorem Slots.tends_append (r item : Ref) : (append r item).Respects World.Tends := by
  intro w
  refine Respects.bind_of (respects_contents _ r w) fun items w1 h1 => ?_
  obtain ⟨rfl, o, ho, -, hp⟩ := contents_ok h1
  cases r with
  | none => exact .refl w1
  | some id =>
    have htag : o.tag = .vector := by rw [Object.tag, hp]; rfl
    have hfill : (fill id (items ++ [item])).final w1 =
        { w1 with
          heap := w1.heap.setObject id { o with payload := .vector (items ++ [item]) } } := by
      have ho' : w1.heap.object? id = some o := ho
      simp only [final, fill, get_bind, ho']
      rfl
    show w1.Tends ((fill id (items ++ [item])).final w1)
    rw [hfill]
    exact .of_heap (.setObject ho (.payload htag.symm (by rw [htag]; decide)))

namespace Pair

theorem tends_update {h : Heap} {r : Ref} (left right : Ref)
    (hr : ∃ o, h.get? r = some o ∧ o.tag = .pair) : h.Tends (update r left right h) := by
  obtain ⟨o, ho, htag⟩ := hr
  cases r with
  | none => cases ho
  | some id =>
    have ho' : h.object? id = some o := ho
    simp only [update, ho']
    exact .setObject ho (.payload htag.symm (by rw [htag]; decide))

/-- A pair gets another object on one side. -/
theorem tends_set (op : Text) (r v : Ref) (sidesOf : Ref × Ref → Ref × Ref)
    (old : Ref × Ref → Ref) : (do
      let p ← sides op r
      let _ ← Object.retain v
      Run.modifyHeap (update r (sidesOf p).1 (sidesOf p).2)
      Object.release (old p) : Run Unit).Respects World.Tends := by
  intro w
  refine Respects.bind_of (respects_sides _ r w) fun p w1 h1 => ?_
  obtain ⟨rfl, o, ho, -, hp⟩ := sides_ok h1
  have hretain := Object.tends_retain v w1
  refine Respects.bind_of hretain fun _ w2 h2 => ?_
  rw [final_ok h2] at hretain
  -- it is still a pair
  have hpair : ∃ o', w2.heap.get? r = some o' ∧ o'.tag = .pair := by
    cases r with
    | none => cases ho
    | some id =>
      obtain ⟨o', ho', hx⟩ := hretain.heap.object ho
      exact ⟨o', ho', hx.tag.trans (by rw [Object.tag, hp]; rfl)⟩
  have hupdate := hretain.trans (.of_heap (tends_update (sidesOf p).1 (sidesOf p).2 hpair))
  exact Respects.bind_of hupdate fun _ w3 h3 => by
    cases h3
    exact hupdate.trans (.drop _ _)

theorem tends_setLeft (r v : Ref) : (setLeft r v).Respects World.Tends :=
  tends_set "set-car!" r v (fun p => (v, p.2)) Prod.fst

theorem tends_setRight (r v : Ref) : (setRight r v).Respects World.Tends :=
  tends_set "set-cdr!" r v (fun p => (p.1, v)) Prod.snd

end Pair

theorem Procedure.tends_addCall (id : ObjectId) (s : ScopeId) (h : Heap) :
    h.Tends (addCall id s h) := by
  unfold addCall
  split
  · next o ho =>
    split
    · next c hp =>
      have htag : o.tag = .lambda := by rw [Object.tag, hp]; rfl
      exact .setObject ho (.payload htag.symm (by rw [htag]; decide))
    · exact .refl h
  · exact .refl h

namespace Scope

theorem tends_retain (s : ScopeRef) : (retain s).Respects World.Tends := by
  cases s with
  | none => exact .pure none
  | some id =>
    refine .get_bind fun w => ?_
    split
    · exact .refl w
    · next x hx =>
      split_ifs
      · exact .refl w
      · exact ⟨.of_leads (.setScope hx fun hd => hd) rfl,
          ⟨fun h => h, fun h => h, fun h => wrapped_countUp (.inl h)⟩, rfl, rfl, rfl⟩

theorem tends_make (parent : ScopeRef) : (make parent).Respects World.Tends :=
  (tends_updateHeap fun _ => .of_leads ⟨fun {_ o} ho => ⟨o, ho, rfl, id⟩,
    fun {_ s} hs => ⟨s, hs, id⟩⟩ rfl).bind fun _ => (tends_retain parent).bind fun _ =>
      (tends_updateHeap fun h => by
        rw [enter_eq]
        exact .of_leads ((Heap.Leads.addScope _ _).trans (.updateRegistry _ _ _))
          (Heap.objects_updateRegistry _ _ _)).bind fun _ =>
            (tends_traceScope _ _).bind fun _ => .pure _

theorem tends_store (id : ScopeId) (name : Text) (value : Ref) :
    (Run.modifyHeap (store id name value)).Respects World.Tends := by
  refine tends_modifyScopes (fun h => ?_) fun h => ?_
  · unfold store
    split
    · next x hx => exact .setScope hx fun hd => hd
    · exact .refl h
  · unfold store
    split <;> rfl

theorem tends_append (id : ScopeId) (name : Text) (value : Ref) :
    (Run.modifyHeap (append id name value)).Respects World.Tends := by
  refine tends_modifyScopes (fun h => ?_) fun h => ?_
  · unfold append
    split
    · next x hx => exact .setScope hx fun hd => hd
    · exact .refl h
  · unfold append
    split <;> rfl

theorem tends_bind (s : ScopeRef) (name : Text) (value : Ref) :
    (bind s name value).Respects World.Tends := by
  refine (respects_expect _ s).bind fun _ => (Object.tends_retain value).bind fun _ =>
    (tends_store _ _ _).bind fun _ => ?_
  split
  · exact .modify (.drop _)
  · exact .pure _

theorem tends_assign (s : ScopeRef) (name : Text) (value : Ref) :
    (assign s name value).Respects World.Tends := by
  refine (respects_expect _ s).bind fun _ => .reading fun w => ?_
  dsimp only
  split
  · exact .fail _
  · exact (Object.tends_retain value).bind fun _ => (tends_store _ _ _).bind fun _ =>
      Respects.bind (.modify (.drop _)) fun _ => tends_updateHeap fun h => .addObject h rfl

theorem tends_appendAll (id : ScopeId) (b : List (Text × Ref)) :
    (appendAll id b).Respects World.Tends := by
  induction b with
  | nil => exact .pure _
  | cons e b ih =>
    exact (Object.tends_retain e.2).bind fun _ => (tends_append _ _ _).bind fun _ => ih

theorem tends_adopt (s : ScopeRef) : (adopt s).Respects World.Tends :=
  (respects_expect _ s).bind fun _ => (tends_make _).bind fun _ =>
    (tends_appendAll _ _).bind fun _ => Respects.bind (.modify (.drop _)) fun _ => .pure _

end Scope

/-- A relation holds between the worlds before and after each operation on the store if it holds
where no thunk is evaluated, can be carried out of a body, and is respected by evaluating a
thunk. -/
theorem World.Elementary.of_tends {R : World → World → Prop}
    (htends : ∀ {w w' : World}, w.Tends w' → R w w')
    (hwithin : ∀ {f : Frame} {w w' : World}, R { w with frames := f :: w.frames } w' →
      R w { w' with frames := w.frames })
    (hforce : ∀ {engine : Engine}, engine.Respects R → ∀ r, (Thunk.force engine r).Respects R) :
    World.Elementary R where
  silent _ _ _ _ := htends ⟨.refl _, ⟨id, id, id⟩, rfl, rfl, rfl⟩
  note _ _ hf := htends ⟨.refl _, hf, rfl, rfl, rfl⟩
  drop work w := htends (.drop work w)
  destroy id w := htends
    ⟨.destroy w.heap id, ⟨fun h => h, fun h => h, fun h => h⟩, rfl, rfl, rfl⟩
  within := hwithin
  makeObject _ hp := fun _ => htends (.of_heap (.addObject _ hp))
  retain r := fun w => htends (Object.tends_retain r w)
  append r item := fun w => htends (Slots.tends_append r item w)
  setLeft r v := fun w => htends (Pair.tends_setLeft r v w)
  setRight r v := fun w => htends (Pair.tends_setRight r v w)
  addCall id s := fun w => htends (.of_heap (Procedure.tends_addCall id s w.heap))
  force := hforce
  makeScope parent := fun w => htends (Scope.tends_make parent w)
  retainScope s := fun w => htends (Scope.tends_retain s w)
  bindName s name value := fun w => htends (Scope.tends_bind s name value w)
  assignName s name value := fun w => htends (Scope.tends_assign s name value w)
  adopt s := fun w => htends (Scope.tends_adopt s w)
  globals := fun _ => htends <| .of_heap <|
    .of_leads ⟨fun {_ o} ho => ⟨o, ho, rfl, id⟩,
      fun hs => (Heap.Leads.addScope _ _).scope hs⟩ rfl

/-! ### Evaluating a thunk -/

namespace Thunk

variable {w w' : World} {id : ObjectId} {s : ScopeRef} {new : List Happening}

/-- The world in which the code of a thunk is run. -/
def inside (id : ObjectId) (s : ScopeRef) (w : World) : World :=
  { enter id w with frames := ⟨id, s⟩ :: w.frames }

/-- While the code of a thunk is running the thunk is in use. -/
theorem ages_enter {o : Object} {t : Thunk} (h : (inside id s w).Ages new w')
    (ho : w.heap.object? id = some o) (ht : o.payload = .thunk t) (hd : o.dead = false)
    (hp : t.progress = .pending s) :
    w.Ages (new ++ [.entered id (w.frames.any (·.owner = id))]) { w' with frames := w.frames } where
  heap := h.heap
  frames := rfl
  history := by
    rw [List.append_assoc]
    exact h.history
  reentered hre := h.reentered <| by
    rcases hre with hre | ⟨id', hmem⟩
    · exact .inl (by simp [inside, enter, World.note, World.witness, hre])
    · rcases List.mem_append.mp hmem with hmem | hmem
      · exact .inr ⟨id', hmem⟩
      · -- the mark is made when the code is entered
        simp only [List.mem_singleton, Happening.entered.injEq] at hmem
        exact .inl (by simp [inside, enter, World.note, World.witness, ← hmem.2])
  abandoned hab := h.abandoned <| by
    rcases hab with hab | ⟨id', hmem⟩
    · exact .inl hab
    · exact .inr ⟨id', by simpa using hmem⟩
  thunk {id₁ o₁ t₁} ho₁ ht₁ hcalm := by
    obtain ⟨o', t', ho', ht', hfares, hf⟩ := h.thunk ho₁ ht₁ (calm_append.mp hcalm).1
    -- until its code is entered, nothing has happened to the thunk, which is pending
    have hstart : Fares id₁ o₁ t₁ [.entered id (w.frames.any (·.owner = id))] o₁ t₁ := by
      refine ⟨rfl, .stays _ _, List.pairwise_singleton _ _, fun hover again hmem => ?_⟩
      obtain ⟨rfl, -⟩ := Happening.entered.inj (List.mem_singleton.mp hmem)
      rw [ho, Option.some.injEq] at ho₁
      subst ho₁
      rw [ht, Payload.thunk.injEq] at ht₁
      subst ht₁
      simp [hd, hp] at hover
    refine ⟨o', t', ho', ht', hstart.trans hfares, fun hframe => ?_⟩
    obtain ⟨f, hmem, hown⟩ := hframe
    rw [yields_append, hf ⟨f, List.mem_cons_of_mem _ hmem, hown⟩]
    simp [yields]

/-- A thunk that is in use stays what it is as long as it lives, and its code gives no value. -/
theorem eq_of_frame {o o' : Object} {t t' : Thunk} (h : w.Ages new w')
    (hf : ∃ f ∈ w.frames, f.owner = id) (hcalm : Calm id new)
    (ho : w.heap.object? id = some o) (ht : o.payload = .thunk t)
    (ho' : w'.heap.object? id = some o') (ht' : o'.payload = .thunk t') (hd' : o'.dead = false) :
    yields id new = 0 ∧ t' = t ∧ o.dead = false := by
  obtain ⟨o₁, t₁, ho₁, ht₁, hfares, hzero⟩ := h.thunk ho ht hcalm
  rw [ho', Option.some.injEq] at ho₁
  subst ho₁
  rw [ht', Payload.thunk.injEq] at ht₁
  subst ht₁
  have hpass := hfares.passage
  rw [hzero hf, hd'] at hpass
  obtain ⟨hprogress, hd⟩ := hpass.eq_of_zero
  obtain ⟨code, progress⟩ := t
  obtain ⟨code', progress'⟩ := t'
  exact ⟨hzero hf, by rw [Thunk.mk.injEq]; exact ⟨hfares.code, hprogress⟩, hd⟩

/-- **The value of a thunk.** When the code has given a value, and nothing has disturbed it, the
thunk is still pending: no value has come out of its code in between, since the thunk was in use. -/
theorem ages_keep {o o' : Object} {t t' : Thunk} (value : Ref)
    (h : (inside id s w).Ages new w')
    (ho : w.heap.object? id = some o) (ht : o.payload = .thunk t) (hd : o.dead = false)
    (hp : t.progress = .pending s)
    (ho' : w'.heap.object? id = some o') (ht' : o'.payload = .thunk t') :
    w.Ages (.returned id o'.dead :: (new ++ [.entered id (w.frames.any (·.owner = id))]))
      (keep id o' t' value { w' with frames := w.frames }) := by
  have hbefore := ages_enter h ho ht hd hp
  have hkeep : w'.heap.Leads (keep id o' t' value { w' with frames := w.frames }).heap :=
    .setObject ho' (by simp only [Object.tag, ht']; rfl) fun hd => hd
  refine ⟨hbefore.heap.trans hkeep, rfl, congrArg (List.cons _) hbefore.history, fun hre => ?_,
    fun hab => ?_, fun {id₁ o₁ t₁} ho₁ ht₁ hcalm => ?_⟩
  · exact hbefore.reentered (by simpa using hre)
  · -- the mark is made when the value is there
    show (w'.conduct.abandoned || o'.dead) = true
    rw [Bool.or_eq_true]
    rcases hab with hab | ⟨id₁, hmem⟩
    · exact .inl (hbefore.abandoned (.inl hab))
    · rcases List.mem_cons.mp hmem with hmem | hmem
      · exact .inr (Happening.returned.inj hmem).2.symm
      · exact .inl (hbefore.abandoned (.inr ⟨id₁, hmem⟩))
  · obtain ⟨-, hrest⟩ := calm_append (l := [.returned id o'.dead]).mp hcalm
    obtain ⟨o₂, t₂, ho₂, ht₂, hfares, hframe⟩ := hbefore.thunk ho₁ ht₁ hrest
    -- nothing is entered when the value comes
    have horderly : Orderly id₁ (.returned id o'.dead ::
        (new ++ [.entered id (w.frames.any (·.owner = id))])) :=
      List.pairwise_cons.mpr ⟨fun _ _ _ _ => by simp, hfares.orderly⟩
    have hidle (hover : o₁.dead = true ∨ ∃ v, t₁.progress = .done v) (again : Bool)
        (hmem : .entered id₁ again ∈ (.returned id o'.dead ::
          (new ++ [.entered id (w.frames.any (·.owner = id))]) : List Happening)) : False :=
      hfares.idle hover again ((List.mem_cons.mp hmem).resolve_left (by simp))
    by_cases hid : id₁ = id
    · subst hid
      obtain ⟨hnew, hentered⟩ := calm_append.mp hrest
      have hd' : o'.dead = false := Bool.eq_false_iff.mpr fun hd' => hcalm.2 (by simp [hd'])
      obtain ⟨hzero, rfl, -⟩ :=
        eq_of_frame h ⟨⟨id₁, s⟩, by simp [inside], rfl⟩ hnew ho₁ ht₁ ho' ht' hd'
      rw [ho, Option.some.injEq] at ho₁
      subst ho₁
      rw [ht, Payload.thunk.injEq] at ht₁
      subst ht₁
      have hyields : yields id₁ (.returned id₁ o'.dead ::
          (new ++ [.entered id₁ (w.frames.any (·.owner = id₁))])) = 1 := by
        simp only [yields] at hzero
        simp [yields, hd', hzero]
      refine ⟨_, _, Heap.object?_setObject_self _ ho', rfl, ⟨rfl, ?_, horderly, hidle⟩,
        fun hf => ?_⟩
      · rw [hyields, hp, hd]
        exact hd' ▸ .settles s value
      · -- otherwise the code would have been entered again
        exact absurd (by simpa using hf) hentered.1
    · -- another thunk
      have hyields (l : List Happening) : yields id₁ (.returned id o'.dead :: l) = yields id₁ l :=
        List.count_cons_of_ne fun he => hid (Happening.returned.inj he).1.symm
      rw [← hyields] at hframe
      refine ⟨o₂, t₂, ?_, ht₂, ⟨hfares.code, ?_, horderly, hidle⟩, hframe⟩
      · exact (Heap.object?_setObject_ne _ hid).trans ho₂
      · rw [hyields]
        exact hfares.passage

theorem later_settle {o : Object} {t : Thunk} (value : Ref)
    (h : (inside id s w).Ages new w')
    (ho : w.heap.object? id = some o) (ht : o.payload = .thunk t) (hd : o.dead = false)
    (hp : t.progress = .pending s) :
    w.Later (settle (some id) value { w' with frames := w.frames }) := by
  obtain ⟨o', t', hfind⟩ := find?_of_leads h.heap ho ht
  obtain ⟨-, ho', ht'⟩ := find?_eq_some hfind
  have hkeep : w.Later (keep id o' t' value { w' with frames := w.frames }) :=
    ⟨_, ages_keep value h ho ht hd hp ho' ht'⟩
  rw [settle_eq (w := { w' with frames := w.frames }) hfind]
  split
  · exact hkeep.trans (.drop _ _)
  · exact hkeep

theorem later_force {engine : Engine} (he : engine.Respects World.Later) (r : Ref) :
    (force engine r).Respects World.Later := by
  refine .get_bind fun w => ?_
  split
  · exact .refl w
  · next id o t hfind =>
    obtain ⟨rfl, ho, ht⟩ := find?_eq_some hfind
    split_ifs with hd
    · exact .refl w
    · have hd : o.dead = false := Bool.eq_false_iff.mpr hd
      split
      · exact .of_tends (Object.tends_retain _ w)
      · next s hp =>
        -- the world ages at each of the three steps: entering, running and keeping the value
        have hwithin : w.Later ((Run.within ⟨id, s⟩ (engine.run t.code s)).final (enter id w)) := by
          rw [final_within]
          obtain ⟨new, h⟩ := he.run t.code s (inside id s w)
          exact ⟨_, ages_enter h ho ht hd hp⟩
        refine Respects.bind_of (v := w)
          ⟨_, ages_enter (World.Later.refl _).choose_spec ho ht hd hp⟩ fun _ w₁ h₁ => ?_
        cases h₁
        refine Respects.bind_of hwithin fun v w₂ h₂ => ?_
        obtain ⟨w', hrun, rfl⟩ := within_ok h₂
        obtain ⟨new, h⟩ := he.run t.code s (inside id s w)
        rw [final_ok (w := inside id s w) hrun] at h
        have hsettle := later_settle v h ho ht hd hp
        refine Respects.bind_of hsettle fun _ w₃ h₃ => ?_
        cases h₃
        exact hsettle.trans (.of_tends (Object.tends_retain _ _))

end Thunk

/-- **The operations on the store** let worlds age. -/
theorem World.elementary_later : World.Elementary World.Later := by
  refine .of_tends .of_tends (fun h => ?_) Thunk.later_force
  obtain ⟨new, h⟩ := h
  refine ⟨new, h.heap, rfl, h.history, h.reentered, h.abandoned, fun ho ht hcalm => ?_⟩
  obtain ⟨o', t', ho', ht', hfares, hf⟩ := h.thunk ho ht hcalm
  refine ⟨o', t', ho', ht', hfares, fun hframe => hf ?_⟩
  obtain ⟨f, hmem, hown⟩ := hframe
  exact ⟨f, List.mem_cons_of_mem _ hmem, hown⟩

namespace Client

variable {engine : Engine}

/-- **Whatever is done**, worlds age. -/
theorem later_afterDeeds (he : Lawless engine) (w : World) (deeds : List Deed) :
    w.Later (afterDeeds engine w deeds) :=
  respects_afterDeeds World.elementary_later (he.respects World.elementary_later) w deeds

end Client

end CountedLisp
