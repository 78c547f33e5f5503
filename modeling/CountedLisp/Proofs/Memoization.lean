import CountedLisp.Proofs.Bindings
import CountedLisp.Proofs.Cascades
import CountedLisp.Proofs.Neutrality

/-!
# Thunks keep their value

A thunk holds one of two things: the scope to run its code in, as long as it has no value, and the
value from then on. `Thunk.Memoizes` says what becomes of them, in any world whatsoever. If the code
fails the thunk still holds its scope; if it gives a value, the scope is given up once and the value
is kept; a value that is there gets one owner more each time it is asked for, and nothing is run;
and when the thunk is destroyed, what it holds is given up once.

By `World.elementary_later` no other ways are open to a thunk, whatever is done, as long as its
evaluation is not disturbed. So its code gives a value at most once, and what the thunk holds tells
whether it has done so (`Thunk.Stage`).
-/

namespace CountedLisp

open Run

variable {engine : Engine} {w w' : World} {id : ObjectId} {t : Thunk} {code : Code} {s : ScopeRef}
  {v : Ref}

namespace Heap

/-- There is a living thunk. -/
def HasThunk (h : Heap) (id : ObjectId) (t : Thunk) : Prop :=
  ∃ o, h.object? id = some o ∧ o.dead = false ∧ o.payload = .thunk t

namespace HasThunk

variable {h : Heap}

theorem lives (ht : h.HasThunk id t) : h.Lives (.object id) := by
  obtain ⟨o, ho, hd, -⟩ := ht
  exact ⟨o, ho, hd⟩

theorem ownedBy_eq (ht : h.HasThunk id t) : h.ownedBy (.object id) = t.progress.owned := by
  obtain ⟨o, ho, -, hp⟩ := ht
  simp only [ownedBy, ho, Option.elim_some, hp]
  rfl

/-- A thunk that is not destroyed stays what it is when references are given up. -/
theorem of_fades {h' : Heap} (ht : h.HasThunk id t) (hf : h.Fades h')
    (hl : h'.Lives (.object id)) : h'.HasThunk id t := by
  obtain ⟨o, ho, -, hp⟩ := ht
  obtain ⟨o', ho', hd'⟩ := hl
  obtain ⟨o₁, ho₁, -, hp'⟩ := hf.living ho' hd'
  rw [ho, Option.some.injEq] at ho₁
  subst ho₁
  exact ⟨o', ho', hd', hp'.symm.trans hp⟩

theorem of_retain (ht : w.heap.HasThunk id t) {r : Ref} (hr : Object.retain r w = .ok v w') :
    w'.heap.HasThunk id t := by
  obtain ⟨-, h', rfl, -, hobject⟩ := Object.retain_ok hr
  obtain ⟨o, ho, hd, hp⟩ := ht
  obtain ⟨n, hn⟩ := hobject ho
  exact ⟨_, hn, hd, hp⟩

/-- The value of a thunk lives if nothing is owned that is destroyed. -/
theorem keeps_value (ht : h.HasThunk id ⟨code, .done v⟩) (hc : h.Closed) :
    h.Keeps (Share.ref v) := by
  obtain ⟨o, ho, hd, hp⟩ := ht
  have howned := hc.object ho hd
  rwa [hp] at howned

end HasThunk

end Heap

theorem Object.leads_retain {r : Ref} (hr : retain r w = .ok v w') : w.Leads True w' := by
  obtain ⟨-, h', rfl, hscope, hobject⟩ := retain_ok hr
  refine ⟨⟨fun ho => ?_, fun {id x} hx => ⟨x, (hscope id).trans hx, fun hd => hd⟩⟩, rfl,
    .refl True _⟩
  obtain ⟨n, hn⟩ := hobject ho
  exact ⟨_, hn, rfl, fun hd => hd⟩

/-- A new owner, and nothing else. -/
theorem Object.retain_adds (hw : w.reclaim = true) (hkeeps : w.heap.Keeps (Share.ref v))
    (hfull : ¬ w.heap.Full v) : ∃ h' : Heap, retain v w = .ok v { w with heap := h' } ∧
      (∀ y, h'.count? y = (w.heap.count? y).map (· + (Share.ref v).count y)) ∧
      ∀ y ∉ Share.ref v, w.heap.SameAt h' y := by
  cases v with
  | none => exact ⟨w.heap, rfl, fun y => by simp, fun y _ => .refl w.heap y⟩
  | some x =>
    obtain ⟨o, ho, hd⟩ := Heap.keeps_ref_some.mp hkeeps
    -- elsewhere nothing changes
    have hother {h' : Heap} (hsame : ∀ y ∉ Share.ref (some x), w.heap.SameAt h' y) {y : Handle}
        (hy : y ≠ .object x) :
        h'.count? y = (w.heap.count? y).map (· + (Share.ref (some x)).count y) := by
      have hmem : y ∉ Share.ref (some x) := by simpa [Share.ref_some] using hy
      rw [(hsame y hmem).count?_eq, Multiset.count_eq_zero_of_notMem hmem]
      simp
    rw [retain_eq, ho]
    cases hi : o.payload.isImmortal with
    | true =>
      refine ⟨w.heap, by simp [hi], fun y => ?_, fun y _ => .refl w.heap y⟩
      by_cases hy : y = .object x
      · simp [hy, Heap.count?, ho, hi]
      · exact hother (fun y _ => .refl w.heap y) hy
    | false =>
      have hmax : o.refs ≠ maxCount := fun hmax => hfull ⟨x, o, rfl, ho, hi, hmax⟩
      have hsame : ∀ y ∉ Share.ref (some x),
          w.heap.SameAt (w.heap.setObject x { o with refs := o.refs + 1 }) y := fun y hy =>
        Heap.sameAt_setObject _ fun he => hy (by simp [Share.ref_some, he])
      refine ⟨_, by simp [hi, hw, hd, hmax], fun y => ?_, hsame⟩
      by_cases hy : y = .object x
      · subst hy
        simp [Heap.count?, Heap.object?_setObject_self _ ho, ho, hi, Heap.toNat_add_one hmax,
          Share.ref_some]
      · exact hother hsame hy

namespace Thunk

/-! ### Asking for the value -/

/-- A value that is there gets a new owner, and nothing is run. -/
theorem force_done (ht : w.heap.HasThunk id ⟨code, .done v⟩) :
    force engine (some id) w = Object.retain v w := by
  obtain ⟨o, ho, hd, hp⟩ := ht
  simp only [force, get_bind, find?_of_thunk ho hp, hd]
  rfl

/-- The code of a thunk that has no value is run. -/
theorem force_pending (ht : w.heap.HasThunk id ⟨code, .pending s⟩) :
    force engine (some id) w = (do
      let v ← Run.within ⟨id, s⟩ (engine.run code s)
      modify (settle (some id) v)
      Object.retain (value (← get).heap (some id)) : Run Ref) (enter id w) := by
  obtain ⟨o, ho, hd, hp⟩ := ht
  simp only [force, get_bind, find?_of_thunk ho hp, hd]
  rfl

theorem force_error {e : Halt} (ht : w.heap.HasThunk id ⟨code, .pending s⟩)
    (hrun : engine.run code s (inside id s w) = .error e w') :
    force engine (some id) w = .error e { w' with frames := w.frames } := by
  rw [force_pending ht]
  exact bind_error (within_of_error (w := enter id w) hrun)

theorem force_ok (ht : w.heap.HasThunk id ⟨code, .pending s⟩)
    (hrun : engine.run code s (inside id s w) = .ok v w') :
    force engine (some id) w =
      Object.retain (value (settle (some id) v { w' with frames := w.frames }).heap (some id))
        (settle (some id) v { w' with frames := w.frames }) := by
  rw [force_pending ht, bind_ok (within_of_ok (w := enter id w) hrun)]
  rfl

theorem value_of_hasThunk {h : Heap} (ht : h.HasThunk id ⟨code, .done v⟩) :
    value h (some id) = v := by
  obtain ⟨o, ho, -, hp⟩ := ht
  rw [value_eq, find?_of_thunk ho hp]

/-- The code of a thunk is run while the thunk is in use, so that the thunk is what it was when the
code has come to its end. -/
theorem hasThunk_after {new : List Happening} (he : engine.Respects World.Later)
    (ht : w.heap.HasThunk id ⟨code, .pending s⟩)
    (hrun : (engine.run code s).final (inside id s w) = w')
    (hnew : w'.history = new ++ (inside id s w).history) (hcalm : Calm id new)
    (hl : w'.heap.Lives (.object id)) : w'.heap.HasThunk id ⟨code, .pending s⟩ := by
  obtain ⟨l, hages⟩ := he.run code s (inside id s w)
  rw [hrun] at hages
  obtain rfl := hages.eq_new hnew
  obtain ⟨o, ho, hd, hp⟩ := ht
  obtain ⟨o', t', ho', hp', -, -⟩ := hages.thunk ho hp hcalm
  obtain ⟨o₁, ho₁, hd₁⟩ := hl
  rw [ho', Option.some.injEq] at ho₁
  subst ho₁
  obtain ⟨-, rfl, -⟩ :=
    eq_of_frame hages ⟨⟨id, s⟩, by simp [inside], rfl⟩ hcalm ho hp ho' hp' hd₁
  exact ⟨o', ho', hd₁, hp'⟩

/-- A new thunk holds the scope that it was made in. -/
theorem hasThunk_make (hmake : make code s w = .ok (some id) w') :
    w'.heap.HasThunk id ⟨code, .pending s⟩ := by
  obtain ⟨s', w₁, hretain, hmake⟩ := of_bind_ok hmake
  obtain rfl := Scope.retain_ok hretain
  cases hmake
  exact ⟨_, Heap.object?_addObject_new _ _, rfl, rfl⟩

/-! ### What a thunk holds -/

/-- What becomes of what a thunk holds. -/
structure Memoizes (engine : Engine) (id : ObjectId) (code : Code) (s : ScopeRef) : Prop where
  /-- It holds its scope from the beginning. -/
  made : ∀ {u u'}, make code s u = .ok (some id) u' → u'.heap.HasThunk id ⟨code, .pending s⟩
  /-- If the code fails, so does asking for the value, and the thunk still has to be evaluated. -/
  fails : ∀ {u e u'}, u.heap.HasThunk id ⟨code, .pending s⟩ →
    engine.run code s (inside id s u) = .error e u' →
    force engine (some id) u = .error e { u' with frames := u.frames } ∧
      ∀ new, u'.history = new ++ (inside id s u).history → Calm id new →
        u'.heap.Lives (.object id) → u'.heap.HasThunk id ⟨code, .pending s⟩
  /-- If the code gives a value the thunk keeps it, and then gives up its scope once. -/
  settles : ∀ {u v u'}, u.heap.HasThunk id ⟨code, .pending s⟩ →
    engine.run code s (inside id s u) = .ok v u' →
    ∀ new, u'.history = new ++ (inside id s u).history → Calm id new →
      u'.heap.Lives (.object id) →
      ∃ u₁ : World, u₁.heap.HasThunk id ⟨code, .done v⟩ ∧
        (∀ y ≠ .object id, u'.heap.SameAt u₁.heap y) ∧
        force engine (some id) u =
          Object.retain (value (u₁.releaseScope s).heap (some id)) (u₁.releaseScope s) ∧
        ((u₁.releaseScope s).heap.Lives (.object id) →
          value (u₁.releaseScope s).heap (some id) = v)
  /-- The value gets one owner more, whenever it is asked for again, and nothing else happens. -/
  again : ∀ {u v}, u.heap.HasThunk id ⟨code, .done v⟩ → ∀ other,
    force other (some id) u = Object.retain v u ∧
      (u.reclaim = true → u.heap.Closed → ¬ u.heap.Full v →
        ∃ h' : Heap, force other (some id) u = .ok v { u with heap := h' } ∧
          (∀ y, h'.count? y = (u.heap.count? y).map (· + (Share.ref v).count y)) ∧
          ∀ y ∉ Share.ref v, u.heap.SameAt h' y)
  /-- When the thunk is destroyed, what it holds is given up once. -/
  falls : ∀ {h : Heap} {t : Thunk}, h.HasThunk id t → ∀ died work, ∃ given fallen : List Handle,
    h.Cascade work given fallen (h.drop died work).1 ∧
    given.Perm (work ++ fallen.flatMap h.ownedBy) ∧ h.ownedBy (.object id) = t.progress.owned ∧
    (fallen.count (.object id) = 1 ∧ (h.drop died work).1.Gone (.object id) ∧
        (h.drop died work).1.ownedBy (.object id) = [] ∨
      fallen.count (.object id) = 0 ∧ (h.drop died work).1.HasThunk id t)

/-- What a thunk holds, so many values having come out of its code. -/
inductive Stage (h : Heap) (id : ObjectId) (code : Code) (s : ScopeRef) : Nat → Prop where
  | waiting (ht : h.HasThunk id ⟨code, .pending s⟩)
    (howned : h.ownedBy (.object id) = Handle.ofScope s) : Stage h id code s 0
  | settled {v : Ref} (ht : h.HasThunk id ⟨code, .done v⟩)
    (howned : h.ownedBy (.object id) = Handle.objects [v]) : Stage h id code s 1
  | fallen {n : Nat} (hn : n ≤ 1) (hd : h.Dead (.object id))
    (howned : h.ownedBy (.object id) = []) : Stage h id code s n

theorem Stage.le_one {h : Heap} {n : Nat} (hs : Stage h id code s n) : n ≤ 1 := by
  cases hs with
  | waiting => exact Nat.zero_le 1
  | settled => exact le_rfl
  | fallen hn => exact hn

theorem memoizes (he : engine.Respects World.Later) (id : ObjectId) (code : Code) (s : ScopeRef) :
    Memoizes engine id code s where
  made := hasThunk_make
  fails ht hrun :=
    ⟨force_error ht hrun, fun _ hnew hcalm hl =>
      hasThunk_after he ht (final_error hrun) hnew hcalm hl⟩
  settles {u v u'} ht hrun new hnew hcalm hl := by
    obtain ⟨o, ho, hd, hp⟩ := hasThunk_after he ht (final_ok hrun) hnew hcalm hl
    have hkeep : (keep id o ⟨code, .pending s⟩ v { u' with frames := u.frames }).heap.HasThunk id
        ⟨code, .done v⟩ := ⟨_, Heap.object?_setObject_self _ ho, hd, rfl⟩
    have hsettle : settle (some id) v { u' with frames := u.frames } =
        (keep id o ⟨code, .pending s⟩ v { u' with frames := u.frames }).releaseScope s :=
      settle_eq (w := { u' with frames := u.frames }) (find?_of_thunk ho hp)
    refine ⟨_, hkeep, fun y hy => ?_, hsettle ▸ force_ok ht hrun, fun hl' => ?_⟩
    · exact Heap.sameAt_setObject _ hy
    · exact value_of_hasThunk (hkeep.of_fades (World.fades_drop _ _) hl')
  again ht other := by
    refine ⟨force_done ht, fun hw hclosed hfull => ?_⟩
    rw [force_done ht]
    exact Object.retain_adds hw (ht.keeps_value hclosed) hfull
  falls {h t} ht died work := by
    obtain ⟨given, fallen, hc⟩ := h.exists_cascade died work
    refine ⟨given, fallen, hc, ?_, ht.ownedBy_eq, ?_⟩
    · exact Multiset.coe_eq_coe.mp (by rw [hc.teardown.given_eq, Multiset.coe_add])
    · have hdown := hc.teardown
      -- what is destroyed is destroyed once, and what is not keeps its payload
      by_cases hmem : .object id ∈ fallen
      · exact .inl ⟨List.count_eq_one_of_mem hdown.nodup hmem, hdown.gone hmem,
          hdown.ownedBy_of_mem_fallen hmem⟩
      · refine .inr ⟨List.count_eq_zero_of_not_mem hmem, ht.of_fades hdown.fades ?_⟩
        exact Heap.lives_of_knows (hdown.fades.knows ht.lives.knows) fun hdead =>
          hmem ((hdown.mem_fallen ht.lives).mpr hdead)

/-- Keeping a value brings nothing back to life, and no mark is taken back. -/
theorem leads_settle (r v : Ref) (w : World) : w.Leads True (settle r v w) := by
  cases hf : find? w.heap r with
  | none =>
    simp only [settle, hf]
    exact .refl True w
  | some x =>
    obtain ⟨id, o, t⟩ := x
    obtain ⟨-, ho, ht⟩ := find?_eq_some hf
    rw [settle_eq hf]
    split
    · exact (leads_keep True v ho ht).trans (World.leads_drop True _ _)
    · exact leads_keep True v ho ht

/-- The value that a thunk gives is the one that it keeps. -/
theorem hasThunk_force (he : engine.Respects World.Later) {p : Progress}
    (ht : w.heap.HasThunk id ⟨code, p⟩) (hok : force engine (some id) w = .ok v w')
    (hre : w'.conduct.reentered = false) (hab : w'.conduct.abandoned = false)
    (hl : w'.heap.Lives (.object id)) : w'.heap.HasThunk id ⟨code, .done v⟩ := by
  cases p with
  | done x =>
    rw [force_done ht] at hok
    obtain rfl := (Object.retain_ok hok).1
    exact ht.of_retain hok
  | pending s =>
    cases hrun : engine.run code s (inside id s w) with
    | error e w₁ =>
      rw [force_error ht hrun] at hok
      cases hok
    | ok x w₁ =>
      obtain ⟨new, hages⟩ := he.run code s (inside id s w)
      rw [final_ok hrun] at hages
      -- the thunk lives and was not disturbed when the value was there
      have hretain := (force_ok ht hrun).symm.trans hok
      have hleads := (leads_settle (some id) x { w₁ with frames := w.frames }).trans
        (Object.leads_retain hretain)
      have hl₁ : w₁.heap.Lives (.object id) :=
        hleads.heap.lives (hages.heap.knows ht.lives.knows) hl
      have hcalm := hages.calm (Conduct.unmarked hleads.conduct.reentered hre)
        (Conduct.unmarked hleads.conduct.abandoned hab) id
      obtain ⟨u, hu, -, hforce, hvalue⟩ :=
        (memoizes he id code s).settles ht hrun new hages.history hcalm hl₁
      rw [hok] at hforce
      have hlu : (u.releaseScope s).heap.Lives (.object id) :=
        (Object.leads_retain hforce.symm).heap.lives
          ((World.fades_drop _ u).knows hu.lives.knows) hl
      rw [hvalue hlu] at hforce
      obtain rfl := (Object.retain_ok hforce.symm).1
      exact (hu.of_fades (World.fades_drop _ u) hlu).of_retain hforce.symm

/-- The stage of a thunk tells whether a value has come out of its code. -/
theorem stage_of_ages {new : List Happening} (h : w.Ages new w')
    (ht : w.heap.HasThunk id ⟨code, .pending s⟩) (hcalm : Calm id new) :
    Stage w'.heap id code s (yields id new) ∧ Orderly id new := by
  obtain ⟨o, ho, hd, hp⟩ := ht
  obtain ⟨o', ⟨code', progress'⟩, ho', hp', hfares, -⟩ := h.thunk ho hp hcalm
  obtain rfl : code' = code := hfares.code
  refine ⟨?_, hfares.orderly⟩
  have howned : w'.heap.ownedBy (.object id) = progress'.owned := by
    simp only [Heap.ownedBy, ho', Option.elim_some, hp']
    rfl
  have hpass := hfares.passage
  rw [hd] at hpass
  generalize yields id new = n at hpass ⊢
  generalize hd' : o'.dead = d' at hpass
  cases hpass with
  | stays => exact .waiting ⟨o', ho', hd', hp'⟩ howned
  | falls => exact .fallen (Nat.zero_le 1) ⟨o', ho', hd'⟩ howned
  | settles => exact .settled ⟨o', ho', hd', hp'⟩ howned
  | expires => exact .fallen le_rfl ⟨o', ho', hd'⟩ howned

/-- A value stays the same as long as the thunk lives. -/
theorem hasThunk_of_ages {new : List Happening} (h : w.Ages new w')
    (ht : w.heap.HasThunk id ⟨code, .done v⟩) (hcalm : Calm id new) :
    w'.heap.HasThunk id ⟨code, .done v⟩ ∨ w'.heap.Dead (.object id) := by
  obtain ⟨o, ho, hd, hp⟩ := ht
  obtain ⟨o', ⟨code', progress'⟩, ho', hp', hfares, -⟩ := h.thunk ho hp hcalm
  obtain rfl : code' = code := hfares.code
  have hpass := hfares.passage
  rw [hd] at hpass
  generalize yields id new = n at hpass
  generalize hd' : o'.dead = d' at hpass
  cases hpass with
  | stays => exact .inl ⟨o', ho', hd', hp'⟩
  | falls => exact .inr ⟨o', ho', hd'⟩

/-- **A thunk is evaluated once.** From when it has no value yet, whatever is done: if its
evaluation was not disturbed, its code has given one value at most and was not run any more then.
The thunk holds its scope as long as it lives and has no value, its value from then on as long as it
lives, and nothing when it is destroyed; and this value stays the same. What happens each time is
told by `Memoizes`. -/
theorem memoized_once (he : Client.Lawless engine) (hstart : w.heap.HasThunk id ⟨code, .pending s⟩)
    (deeds : List Client.Deed) (hrun : Client.afterDeeds engine w deeds = w')
    {new : List Happening} (hnew : w'.history = new ++ w.history) (hcalm : Calm id new) :
    yields id new ≤ 1 ∧ Orderly id new ∧ Stage w'.heap id code s (yields id new) ∧
      (∀ v, w'.heap.HasThunk id ⟨code, .done v⟩ → ∀ (later : List Client.Deed) (w'' : World),
        Client.afterDeeds engine w' later = w'' → ∀ new', w''.history = new' ++ w'.history →
          Calm id new' → w''.heap.HasThunk id ⟨code, .done v⟩ ∨ w''.heap.Dead (.object id)) ∧
      Memoizes engine id code s := by
  obtain ⟨l, hages⟩ := Client.later_afterDeeds he w deeds
  rw [hrun] at hages
  obtain rfl := hages.eq_new hnew
  obtain ⟨hstage, horderly⟩ := stage_of_ages hages hstart hcalm
  refine ⟨hstage.le_one, horderly, hstage, ?_, memoizes (he.respects World.elementary_later) _ _ _⟩
  rintro v ht later _ rfl new' hnew' hcalm'
  obtain ⟨m, hages'⟩ := Client.later_afterDeeds he w' later
  obtain rfl := hages'.eq_new hnew'
  exact hasThunk_of_ages hages' ht hcalm'

/-- The value of a name. -/
def nameLookup : Code :=
  .expression (.atom ⟨.identifier, "x", ⟨1, 1⟩⟩)

/-- The world with a scope, and a thunk that waits for a name to be bound there. -/
def pendingWorld : World :=
  Client.afterDeeds (.ofDepth 1) {} [.call (.scope none), .call (.thunk nameLookup (some ⟨0⟩))]

/-- The value is asked for before the name is bound, and twice afterwards. -/
def forcedThrice : List Client.Deed :=
  [.call (.force (some ⟨1⟩)), .call (.constant (.boolean true)),
    .call (.bind (some ⟨0⟩) "x" (some ⟨2⟩)), .call (.force (some ⟨1⟩)), .call (.force (some ⟨1⟩))]

/-- The code is run twice, but gives a value once. -/
theorem memoized_once_forcedThrice : ∃ (w : World) (new : List Happening) (v : Ref),
    pendingWorld.heap.HasThunk ⟨1⟩ ⟨nameLookup, .pending (some ⟨0⟩)⟩ ∧
    Client.afterDeeds (.ofDepth 1) pendingWorld forcedThrice = w ∧
    w.history = new ++ pendingWorld.history ∧ Calm ⟨1⟩ new ∧
    new.count (.entered ⟨1⟩ false) = 2 ∧ yields ⟨1⟩ new = 1 ∧ Orderly ⟨1⟩ new ∧
    w.heap.HasThunk ⟨1⟩ ⟨nameLookup, .done v⟩ ∧ w.heap.ownedBy (.object ⟨1⟩) = Handle.objects [v] ∧
    (Client.afterDeeds (.ofDepth 1) w [.call (.force (some ⟨1⟩))]).heap.HasThunk ⟨1⟩
      ⟨nameLookup, .done v⟩ ∧
    Memoizes (.ofDepth 1) ⟨1⟩ nameLookup (some ⟨0⟩) := by
  have hstart : pendingWorld.heap.HasThunk ⟨1⟩ ⟨nameLookup, .pending (some ⟨0⟩)⟩ :=
    ⟨_, rfl, rfl, rfl⟩
  have hnew : (Client.afterDeeds (.ofDepth 1) pendingWorld forcedThrice).history =
      [.returned ⟨1⟩ false, .entered ⟨1⟩ false, .entered ⟨1⟩ false] ++ pendingWorld.history := by
    decide +kernel
  have hcalm : Calm ⟨1⟩ [.returned ⟨1⟩ false, .entered ⟨1⟩ false, .entered ⟨1⟩ false] := by
    constructor <;> decide
  obtain ⟨-, horderly, hstage, hlater, hmemoizes⟩ :=
    memoized_once (.program 1) hstart forcedThrice rfl hnew hcalm
  generalize hn : yields ⟨1⟩ [.returned ⟨1⟩ false, .entered ⟨1⟩ false, .entered ⟨1⟩ false] = n
    at hstage
  cases hstage with
  | waiting => cases hn
  | settled ht howned =>
    refine ⟨_, _, _, hstart, rfl, hnew, hcalm, rfl, hn, horderly, ht, howned, ?_, hmemoizes⟩
    refine (hlater _ ht _ _ rfl [] (by decide +kernel) ⟨nofun, nofun⟩).resolve_right ?_
    decide +kernel
  | fallen _ hd => exact absurd hd (by decide +kernel)

end Thunk

end CountedLisp
