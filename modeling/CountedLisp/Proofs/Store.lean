import CountedLisp.Proofs.Reading
import Mathlib.Tactic.Abel

/-!
# Changing objects

Every function that makes, counts or changes an object is sound. What they take and give is read off
the statements: a new object is owned by whoever made it and takes over what its payload owns, a new
owner owns one reference more, and a pair that gets a new side gives up the old one.

`T` is what the caller owns besides, for functions that never fail.
-/

namespace CountedLisp

open Run

variable {P : Prop} {C S T B : Share} {w w' : World}

/-! ### Counting -/

/-- Giving up references. -/
theorem sound_drop {work : List Handle} (hb : w.Books ((work : Share) + (T + C))) :
    (modify (World.drop work) : Run PUnit).Sound P C S w (fun _ => T) B :=
  .modify (World.leads_drop P work w) hb.drop (fun _ _ hm _ _ _ => hm.drop work)
    fun _ _ _ => congrArg Conduct.abandoned (World.conduct_drop work w)

/-- A change to the heap. -/
theorem sound_modifyHeap {f : Heap → Heap} {D E : Share} (hp : w.heap.Passes (f w.heap) D E)
    (hb : w.Books (D + C))
    (hm : P → ∀ u, w.Mirrors u → w.conduct.Tame → w.heap.Keeps S →
      (f w.heap).Mirrors (f u.heap)) :
    (Run.modifyHeap f).Sound P C S w (fun _ => E) B :=
  .modify ⟨hp.leads, rfl, .refl P _⟩ (hb.pass hp) (fun hP u hu ht hS _ =>
    { hu with heap := hm hP u hu ht hS }) fun _ _ _ => rfl

namespace Object

theorem sound_release {r : Ref} (hb : w.Books (Share.ref r + C)) :
    (release r).Sound P C S w (fun _ => 0) B :=
  sound_drop (hb.cast (by rw [zero_add]; rfl))

theorem retain_eq (id : ObjectId) (w : World) :
    retain (some id) w = match w.heap.object? id with
      | none => .error (.breach danglingBreach) w
      | some o =>
        if o.payload.isImmortal || !w.reclaim then .ok (some id) w
        else if o.dead then .error (.breach (releasedBreach o.tag).text) w
        else if o.refs = maxCount then .error (.breach overflowBreach.text) w
        else .ok (some id)
          { w with heap := w.heap.setObject id { o with refs := o.refs + 1 } } := by
  unfold retain
  dsimp only
  rw [get_bind]
  cases w.heap.object? id with
  | none => rfl
  | some o =>
    dsimp only
    split_ifs <;> rfl

/-- Adding an owner changes counts only. -/
theorem retain_ok {r v : Ref} (h : retain r w = .ok v w') :
    r = v ∧ ∃ h', w' = { w with heap := h' } ∧ (∀ s, h'.scope? s = w.heap.scope? s) ∧
      ∀ {id o}, w.heap.object? id = some o → ∃ n, h'.object? id = some { o with refs := n } := by
  cases r with
  | none =>
    cases h
    exact ⟨rfl, w.heap, rfl, fun _ => rfl, fun {_ o} ho => ⟨o.refs, ho⟩⟩
  | some id =>
    rw [retain_eq] at h
    split at h
    · cases h
    · next o ho =>
      split_ifs at h
      · cases h
        exact ⟨rfl, w.heap, rfl, fun _ => rfl, fun {_ o} ho => ⟨o.refs, ho⟩⟩
      · cases h
        refine ⟨rfl, _, rfl, fun _ => rfl, fun {id' o'} ho' => ?_⟩
        rcases Heap.object?_setObject_of { o with refs := o.refs + 1 } ho ho' with
          ⟨-, rfl, hself⟩ | ⟨-, hother⟩
        · exact ⟨_, hself⟩
        · exact ⟨o'.refs, hother⟩

/-- In a world that does not reclaim, adding an owner changes nothing. -/
theorem retain_mirror {u : World} (hm : w.Mirrors u) {r : Ref} (hr : w.heap.Keeps (Share.ref r)) :
    retain r u = .ok r u := by
  cases r with
  | none => rfl
  | some id =>
    obtain ⟨o, ho, hd⟩ := Heap.keeps_ref_some.mp hr
    obtain ⟨n, hn⟩ := hm.heap.object ho hd
    rw [retain_eq, hn]
    simp [hm.reclaim]

/-- **A new owner** of something living. -/
theorem sound_retain {r : Ref} (hb : w.Books (T + C)) (hr : w.Sees S (Share.ref r)) :
    (retain r).Sound P C S w (fun v => Share.ref v + T) B := by
  cases r with
  | none => exact .pure (by simpa using hb)
  | some id =>
    have hmirror := fun (_ : P) u (hm : w.Mirrors u) ht hS => retain_mirror hm (hr ht hS)
    have heq := retain_eq id w
    -- a breach cannot happen if the object lives
    have hbreach : ∀ {m}, retain (some id) w = .error (.breach m) w →
        (w.conduct.Tame → w.heap.Keeps S → False) →
        (retain (some id)).Sound P C S w (fun v => Share.ref v + T) B := fun he hno =>
      (Sound.breach hb fun _ => hno).congr he fun _ _ _ ht hS => (hno ht hS).elim
    cases ho : w.heap.object? id with
    | none =>
      rw [ho] at heq
      refine hbreach heq fun ht hS => ?_
      obtain ⟨o, ho', -⟩ := Heap.keeps_ref_some.mp (hr ht hS)
      rw [ho] at ho'
      cases ho'
    | some o =>
      have hcond : (o.payload.isImmortal || !w.reclaim) = o.payload.isImmortal := by
        simp [hb.reclaim]
      simp only [ho, hcond] at heq
      -- the empty list, something destroyed, a count at its maximum, and the usual case
      split_ifs at heq with hi hd hmax
      · refine .of_ok heq (.refl P w) ?_
          (fun hP u hm ht hS _ => ⟨u, hmirror hP u hm ht hS, hm⟩) fun _ => rfl
        exact ((hb.cast (zero_add _)).pass (.addImmortal ho hi)).cast (add_assoc _ _ _)
      · refine hbreach heq fun ht hS => ?_
        exact (Heap.keeps_ref_some.mp (hr ht hS)).not_dead ⟨o, ho, hd⟩
      · exact .of_overflow heq hb
      · have hp : w.heap.Passes (w.heap.setObject id { o with refs := o.refs + 1 }) 0
            (Share.ref (some id)) := .retainObject ho (Bool.eq_false_iff.mpr hd) hmax
        refine .of_ok heq ⟨hp.leads, rfl, .refl P _⟩ ?_ (fun hP u hm ht hS _ =>
          ⟨u, hmirror hP u hm ht hS, { hm with heap := hm.heap.setRefs ho _ }⟩) fun _ => rfl
        exact ((hb.cast (zero_add _)).pass hp).cast (add_assoc _ _ _)

/-! ### Making objects -/

/-- **A new object** takes over what its payload owns. -/
theorem sound_make {p : Payload} (hp : p.isImmortal = false)
    (hb : w.Books ((p.owned : Share) + (T + C))) :
    (make p).Sound P C S w (fun v => Share.ref v + T) B := by
  have hpass := Heap.Passes.addObject w.heap hp
  refine .of_ok (a := some (w.heap.addObject p).1)
    (v := { w with heap := (w.heap.addObject p).2 }) rfl ⟨hpass.leads, rfl, .refl P _⟩ ?_
    (fun _ u hm _ _ _ => ⟨{ u with heap := (u.heap.addObject p).2 }, ?_, ?_⟩) fun _ => rfl
  · exact (hb.pass hpass).cast (add_assoc _ _ _)
  · rw [← (hm.heap.addObject p).1]
    rfl
  · exact { hm with heap := (hm.heap.addObject p).2 }

/-- A new object that owns nothing. -/
theorem sound_make_plain {p : Payload} (hp : p.isImmortal = false) (ho : p.owned = [])
    (hb : w.Books C) : (make p).Sound P C S w Share.ref B := by
  have := sound_make (P := P) (C := C) (S := S) (T := 0) (B := B) hp
    (hb.cast (by simp [ho]))
  simpa using this

theorem sound_constant (c : Constant) (hb : w.Books C) :
    (constant c).Sound P C S w Share.ref B :=
  sound_make_plain rfl rfl hb

end Object

/-! ### Vectors -/

namespace Slots

theorem sound_retainAll (items : List Ref) (hb : w.Books (T + C))
    (hi : Share.refs items ⊆ S + C) :
    (retainAll items).Sound P C S w (fun _ => Share.refs items + T) B := by
  induction items generalizing w T with
  | nil => exact .pure (by simpa using hb)
  | cons r items ih =>
    rw [Share.refs_cons, Share.add_subset] at hi
    refine (Object.sound_retain hb (hb.sees hi.1)).bind fun {v w1} h1 hb1 _ => ?_
    obtain ⟨rfl, -⟩ := Object.retain_ok h1
    have := ih hb1 hi.2
    simpa [add_left_comm, add_assoc] using this

theorem sound_make {items : List Ref} (hb : w.Books C) (hi : Share.refs items ⊆ S + C) :
    (make items).Sound P C S w Share.ref B := by
  refine (sound_retainAll items (T := 0) (by simpa using hb) hi).bind fun {_ w1} _ hb1 _ => ?_
  have := Object.sound_make (P := P) (S := S) (T := 0) (C := C) (B := B)
    (p := .vector items) rfl (hb1.cast (by simp))
  simpa using this

theorem fill_some {id : ObjectId} {o : Object} (items : List Ref)
    (ho : w.heap.object? id = some o) : fill id items w =
      .ok () { w with heap := w.heap.setObject id { o with payload := .vector items } } := by
  unfold fill
  rw [get_bind, ho]
  rfl

/-- Adding to a vector takes over the caller's reference, unless it fails. -/
theorem sound_append {r item : Ref} (hb : w.Books (Share.ref item + C))
    (hr : Share.ref r ⊆ S + C) :
    (append r item).Sound P C S w (fun _ => 0) (Share.ref item) := by
  refine (reads_contents hb (hb.sees hr)).bind hb fun {items} h => ?_
  obtain ⟨-, o, hget, hd, hp⟩ := contents_ok h
  obtain ⟨id, rfl, ho⟩ := Heap.get?_eq_some hget
  -- a vector owns no scopes, so no body that is being run depends on it
  have hscope : ∀ s, Share.scope s ⊆ (o.payload.owned : Share) →
      Share.scope s ⊆ ((Payload.vector (items ++ [item])).owned : Share) := fun s hs => by
    rw [hp, Share.owned_vector] at hs
    rw [Share.scope_subset_refs hs]
    exact Multiset.zero_subset _
  have hpass : w.heap.Passes
      (w.heap.setObject id { o with payload := .vector (items ++ [item]) }) (Share.ref item) 0 :=
    .setPayload ho hd (by rw [hp]; rfl) (fun _ => nofun) hscope (by rw [hp]; simp [add_comm])
  refine .of_ok (fill_some _ ho) ⟨hpass.leads, rfl, .refl P _⟩ (hb.pass hpass)
    (fun _ u hm _ _ _ => ?_) fun _ => rfl
  obtain ⟨n, hn⟩ := hm.heap.object ho hd
  exact ⟨_, fill_some _ hn, { hm with heap := hm.heap.setObject ho _ rfl }⟩

end Slots

/-! ### Pairs and lists -/

namespace Pair

theorem sound_make {left right : Ref} (hb : w.Books C)
    (hs : Share.ref left + Share.ref right ⊆ S + C) :
    (make left right).Sound P C S w Share.ref B := by
  rw [Share.add_subset] at hs
  have hb0 := hb.cast (zero_add C)
  refine (Object.sound_retain hb0 (hb0.sees hs.1)).bind fun {v w1} h1 hb1 _ => ?_
  obtain ⟨rfl, -⟩ := Object.retain_ok h1
  refine (Object.sound_retain hb1 (hb1.sees hs.2)).bind fun {v w2} h2 hb2 _ => ?_
  obtain ⟨rfl, -⟩ := Object.retain_ok h2
  have hmake := Object.sound_make (P := P) (S := S) (T := 0) (C := C) (B := B)
    (p := .pair left right) rfl (hb2.cast (by simp only [Share.owned_pair]; abel))
  simpa using hmake

/-- The heap with the sides of a living pair replaced. -/
theorem update_some {h : Heap} {id : ObjectId} {o : Object} (left right : Ref)
    (ho : h.object? id = some o) :
    update (some id) left right h = h.setObject id { o with payload := .pair left right } := by
  simp only [update, ho]

/-- A new side for a pair: the pair gets the new one and gives up the old one. -/
theorem sound_exchange {id : ObjectId} {o : Object} {v left right old : Ref} (hb : w.Books C)
    (hv : Share.ref v ⊆ S + C) (ho : w.heap.object? id = some o) (hd : o.dead = false)
    {a b : Ref} (hp : o.payload = .pair a b)
    (hbal : Share.ref old + (Share.ref left + Share.ref right) =
      Share.ref v + (Share.ref a + Share.ref b)) :
    (do
      let _ ← Object.retain v
      Run.modifyHeap (update (some id) left right)
      Object.release old : Run Unit).Sound P C S w (fun _ => 0) B := by
  have hb0 := hb.cast (zero_add C)
  refine (Object.sound_retain hb0 (hb0.sees hv)).bind fun {r w1} h1 hb1 _ => ?_
  obtain ⟨rfl, h', rfl, -, hobj⟩ := Object.retain_ok h1
  obtain ⟨n, ho1⟩ := hobj ho
  have hscope : ∀ s, Share.scope s ⊆ (o.payload.owned : Share) →
      Share.scope s ⊆ ((Payload.pair left right).owned : Share) := fun s hs => by
    rw [hp, Share.owned_pair, ← Share.refs_pair] at hs
    rw [Share.scope_subset_refs hs]
    exact Multiset.zero_subset _
  -- the pair takes over the new reference, and the caller gets the old one to give it up
  have hpass : h'.Passes (update (some id) left right h') (Share.ref v) (Share.ref old) := by
    rw [update_some left right ho1]
    exact .setPayload ho1 hd (by rw [hp]; rfl) (fun _ => nofun) hscope (by simp [hp, hbal])
  refine (sound_modifyHeap hpass (hb1.cast (by simp)) fun _ u hm _ _ => ?_).bind
    fun {_ w2} _ hb2 _ => Object.sound_release hb2
  obtain ⟨m, hm1⟩ := hm.heap.object ho1 hd
  dsimp only
  rw [update_some left right ho1, update_some left right hm1]
  exact hm.heap.setObject ho1 _ rfl

theorem sound_setLeft {r v : Ref} (hb : w.Books C) (hr : Share.ref r ⊆ S + C)
    (hv : Share.ref v ⊆ S + C) : (setLeft r v).Sound P C S w (fun _ => 0) 0 := by
  have hb0 := hb.cast (zero_add C)
  refine (reads_sides hb (hb0.sees hr)).bind hb0 fun {p} h => ?_
  obtain ⟨-, o, hget, hd, hp⟩ := sides_ok h
  obtain ⟨id, rfl, ho⟩ := Heap.get?_eq_some hget
  exact sound_exchange hb hv ho hd hp (by abel)

theorem sound_setRight {r v : Ref} (hb : w.Books C) (hr : Share.ref r ⊆ S + C)
    (hv : Share.ref v ⊆ S + C) : (setRight r v).Sound P C S w (fun _ => 0) 0 := by
  have hb0 := hb.cast (zero_add C)
  refine (reads_sides hb (hb0.sees hr)).bind hb0 fun {p} h => ?_
  obtain ⟨-, o, hget, hd, hp⟩ := sides_ok h
  obtain ⟨id, rfl, ho⟩ := Heap.get?_eq_some hget
  exact sound_exchange hb hv ho hd hp (by abel)

theorem sound_makeList {items : List Ref} (hb : w.Books C) (hi : Share.refs items ⊆ S + C) :
    (makeList items).Sound P C S w Share.ref B := by
  induction items with
  | nil => exact .pure hb.emptyList
  | cons item items ih =>
    -- lists are built from the end; the new pair takes over the tail
    rw [Share.refs_cons, Share.add_subset] at hi
    refine (ih hi.2).bind fun {tail w1} h1 hb1 _ => ?_
    refine (Object.sound_retain hb1 (hb1.sees hi.1)).bind fun {v w2} h2 hb2 _ => ?_
    obtain ⟨rfl, -⟩ := Object.retain_ok h2
    have hmake := Object.sound_make (P := P) (S := S) (T := 0) (C := C) (B := B)
      (p := .pair item tail) rfl (hb2.cast (by simp only [Share.owned_pair]; abel))
    simpa using hmake

end Pair

end CountedLisp
