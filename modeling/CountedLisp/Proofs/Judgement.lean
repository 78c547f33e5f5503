import CountedLisp.Proofs.Books

/-!
# Sound runs

`Run.Sound P C S act w G B` is the one statement that is proved of every function that runs in
a world `w` whose books are right. It says

* how the books stand at the end: if the run gives `a`, the caller owns `G a` in addition to `C`;
  if it fails, `B`;
* that the run agrees with the same run in a world that does not reclaim, provided that the run was
  tame and that what `S` points to, which the caller only lends, lives from the beginning to the
  end;
* that no thunk is destroyed while it is being evaluated, provided that the run was tame and that
  none of the objects in `S` is destroyed.

Agreement (`Run.Agree`) means the same result, or the same failure, and that this failure does not
tell of anything destroyed. Only the end of all counting, a count at its maximum, can get in
between.

`P` stands for the assumption that the bodies which are run are code of programs. The books do not
depend on it, so they can be kept for other bodies too.

A part of a run that only reads is `Run.Reads`. The rest of the module puts sound runs together.
-/

namespace CountedLisp

/-! ### Failures that tell of something destroyed -/

/-- What reports expect that show a piece of the program as what they found. -/
def Report.quoting : List Text :=
  [Text.ofString "identifier", Text.ofString "integer|double|char|string|void"]

/-- Whether a report says that something was expected to live, or that something destroyed was
found. -/
def Report.reportsLoss (r : Report) : Bool :=
  r.kind = .typeMismatch &&
    ((Text.ofString "live ").isPrefixOf r.expected ||
      (!Report.quoting.contains r.expected && (Text.ofString "released ").isPrefixOf r.actual))

/-- Whether a failure, or one that it wraps, tells of something destroyed. -/
def Failure.reportsLoss (f : Failure) : Bool :=
  f.chain.any fun e => e.report?.any Report.reportsLoss

/-- An early stop that does not come from anything destroyed. -/
def Halt.NoLoss : Halt → Prop
  | .failure f => f.reportsLoss = false
  | .breach _ => False
  | .fault => True
  | .exhausted => True

/-- Whether an early stop is a failure, which the callers of a function get to see. -/
def Halt.isFailure : Halt → Bool
  | .failure _ => true
  | .breach _ => false
  | .fault => false
  | .exhausted => false

/-! ### Worlds without destruction -/

namespace World

/-- The second world does not reclaim and is otherwise like the first one, except for logs and for
the record of conduct. -/
structure Mirrors (w u : World) : Prop where
  heap : w.heap.Mirrors u.heap
  reclaim : u.reclaim = false
  conf : u.conf = w.conf
  traceRefs : u.traceRefs = w.traceRefs
  foreign : u.foreign = w.foreign
  output : u.output = w.output
  errors : u.errors = w.errors
  exits : u.exits = w.exits

/-- A world mirrors itself. -/
theorem mirrors_self (w : World) : w.Mirrors { w with reclaim := false } where
  heap := .refl w.heap
  reclaim := rfl
  conf := rfl
  traceRefs := rfl
  foreign := rfl
  output := rfl
  errors := rfl
  exits := rfl

/-- Giving up references changes nothing but the heap and the log. -/
theorem drop_eq (work : List Handle) (w : World) :
    ∃ h l, w.drop work = { w with heap := h, log := l } ∧ w.heap.Fades h := by
  unfold drop
  split
  · exact ⟨_, _, rfl, w.heap.fades_drop #[] work⟩
  · exact ⟨w.heap, w.log, rfl, .refl w.heap⟩

theorem fades_drop (work : List Handle) (w : World) : w.heap.Fades (w.drop work).heap := by
  obtain ⟨h, l, he, hf⟩ := w.drop_eq work
  rw [he]
  exact hf

theorem leads_drop (P : Prop) (work : List Handle) (w : World) : w.Leads P (w.drop work) := by
  obtain ⟨h, l, he, hf⟩ := w.drop_eq work
  rw [he]
  exact ⟨hf.toLeads, rfl, .refl P w.conduct⟩

theorem conduct_drop (work : List Handle) (w : World) : (w.drop work).conduct = w.conduct := by
  obtain ⟨h, l, he, -⟩ := w.drop_eq work
  rw [he]

theorem Mirrors.drop {w u : World} (hm : w.Mirrors u) (work : List Handle) :
    (w.drop work).Mirrors (u.drop work) := by
  -- in the mirror nothing is given up, and what is left here is mirrored still
  have hu : u.drop work = u := by simp [World.drop, hm.reclaim]
  obtain ⟨h, l, he, hf⟩ := w.drop_eq work
  rw [hu, he]
  exact { hm with heap := hm.heap.fades hf }

theorem Books.drop {w : World} {C : Share} {work : List Handle}
    (hb : w.Books ((work : Share) + C)) : (w.drop work).Books C := by
  have hp := hb.pass (.drop w.heap #[] work)
  rw [zero_add] at hp
  unfold World.drop
  rw [if_pos hb.reclaim]
  exact ⟨hp.reclaim, hp.nil, hp.frames, hp.accounts⟩

end World

namespace Run

variable {α β : Type}

/-! ### Agreement -/

/-- A run in a world agrees with the same run in a world that does not reclaim. -/
inductive Agree : EStateM.Result Halt World α → EStateM.Result Halt World α → Prop where
  /-- Both give the same. -/
  | ok {a : α} {w u : World} (hm : w.Mirrors u) : Agree (.ok a w) (.ok a u)
  /-- Both stop for the same reason, which is nothing destroyed. -/
  | error {e : Halt} {w u : World} (he : e.NoLoss) (hm : w.Mirrors u) :
    Agree (.error e w) (.error e u)
  /-- A count is at its maximum. -/
  | overflow {w : World} {r : EStateM.Result Halt World α} :
    Agree (.error (.breach Object.overflowBreach.text) w) r

/-- The world in which a run ends, however it ends. -/
def final (act : Run α) (w : World) : World :=
  match act w with
  | .ok _ w' => w'
  | .error _ w' => w'

theorem final_ok {act : Run α} {a : α} {w w' : World} (h : act w = .ok a w') :
    act.final w = w' := by
  simp [final, h]

theorem final_error {act : Run α} {e : Halt} {w w' : World} (h : act w = .error e w') :
    act.final w = w' := by
  simp [final, h]

theorem get_bind (k : World → Run α) (w : World) : (get >>= k : Run α) w = k w w := rfl

theorem bind_ok {act : Run α} {k : α → Run β} {a : α} {w w' : World} (h : act w = .ok a w') :
    (act >>= k) w = k a w' := by
  simp [bind, EStateM.bind, h]

theorem bind_error {act : Run α} {k : α → Run β} {e : Halt} {w w' : World}
    (h : act w = .error e w') : (act >>= k) w = .error e w' := by
  simp [bind, EStateM.bind, h]

/-- A run that comes to its end has come to the end of its first part. -/
theorem of_bind_ok {act : Run α} {k : α → Run β} {b : β} {w w' : World}
    (h : (act >>= k) w = .ok b w') : ∃ a w1, act w = .ok a w1 ∧ k a w1 = .ok b w' := by
  cases hw : act w with
  | ok a w1 =>
    rw [bind_ok hw] at h
    exact ⟨a, w1, rfl, h⟩
  | error e w1 =>
    rw [bind_error hw] at h
    cases h

theorem map_ok {act : Run α} {f : α → β} {a : α} {w w' : World} (h : act w = .ok a w') :
    (f <$> act) w = .ok (f a) w' := by
  simp [Functor.map, EStateM.map, h]

theorem of_map_ok {act : Run α} {f : α → β} {b : β} {w w' : World}
    (h : (f <$> act) w = .ok b w') : ∃ a, act w = .ok a w' ∧ f a = b := by
  cases hw : act w with
  | ok a w₁ =>
    rw [map_ok hw] at h
    cases h
    exact ⟨a, rfl, rfl⟩
  | error e w₁ => simp [Functor.map, EStateM.map, hw] at h

theorem map_eq_error {act : Run α} {f : α → β} {e : Halt} {w w' : World} :
    (f <$> act) w = .error e w' ↔ act w = .error e w' := by
  simp only [Functor.map, EStateM.map]
  cases act w with
  | ok => exact iff_of_false nofun nofun
  | error => simp only [EStateM.Result.error.injEq]

/-- Runs agree if their first parts do, and if what comes after these does. -/
theorem Agree.bind {act : Run α} {k : α → Run β} {w u : World} (h : Agree (act w) (act u))
    (hk : ∀ {a w' u'}, act w = .ok a w' → w'.Mirrors u' → Agree (k a w') (k a u')) :
    Agree ((act >>= k) w) ((act >>= k) u) := by
  cases hw : act w with
  | ok a w' =>
    rw [hw] at h
    generalize hu : act u = r at h
    cases h with
    | ok hm =>
      rw [bind_ok hw, bind_ok hu]
      exact hk hw hm
  | error e w' =>
    rw [hw] at h
    rw [bind_error hw]
    generalize hu : act u = r at h
    cases h with
    | error he hm =>
      rw [bind_error hu]
      exact .error he hm
    | overflow => exact .overflow

theorem onFailure_ok {act : Run α} {after : World → World} {a : α} {w w' : World}
    (h : act.onFailure after w = .ok a w') : act w = .ok a w' := by
  unfold Run.onFailure at h
  split at h
  · cases h
  · exact h

theorem within_ok {f : Frame} {act : Run α} {a : α} {w w' : World}
    (h : Run.within f act w = .ok a w') :
    ∃ w1, act { w with frames := f :: w.frames } = .ok a w1 ∧
      w' = { w1 with frames := w.frames } := by
  unfold Run.within at h
  split at h
  · next b w1 hw =>
    cases h
    exact ⟨w1, hw, rfl⟩
  · cases h

/-! ### Reading -/

/-- A part of a run that changes nothing, and that agrees with the same in a world that does not
reclaim if what `S` points to lives. -/
structure Reads (P : Prop) (S : Share) (act : Run α) (w : World) : Prop where
  still : act.final w = w
  same : P → ∀ u, w.Mirrors u → w.conduct.Tame → w.heap.Keeps S →
    (∃ a, act w = .ok a w ∧ act u = .ok a u) ∨
      ∃ e, e.NoLoss ∧ act w = .error e w ∧ act u = .error e u

/-! ### Soundness -/

/-- What is proved of every run, see above. -/
structure Sound (P : Prop) (C S : Share) (act : Run α) (w : World) (G : α → Share)
    (B : Share) : Prop where
  leads : w.Leads P (act.final w)
  ok : ∀ {a w'}, act w = .ok a w' → w'.Books (G a + C)
  failed : ∀ {f w'}, act w = .error (.failure f) w' → w'.Books (B + C)
  halted : P → ∀ {e w'}, act w = .error e w' → ∃ L, w'.Books (L + C)
  same : P → ∀ u, w.Mirrors u → (act.final w).conduct.Tame → w.heap.Keeps S →
    (act.final w).heap.Keeps S → Agree (act w) (act u)
  kept : P → (act.final w).conduct.Tame → (act.final w).heap.Spares S →
    (act.final w).conduct.abandoned = w.conduct.abandoned

namespace Sound

variable {P : Prop} {C S : Share} {w : World} {act : Run α} {k : α → Run β} {G : α → Share}
  {G' : β → Share} {B : Share}

/-! ### The ends of a run -/

protected theorem pure {a : α} (hb : w.Books (G a + C)) :
    (pure a : Run α).Sound P C S w G B where
  leads := .refl P w
  ok h := by cases h; exact hb
  failed h := by cases h
  halted _ _ _ h := by cases h
  same _ _ hm _ _ _ := .ok hm
  kept _ _ _ := rfl

/-- A failure, which is not the fault of anything destroyed as long as `S` lives. -/
protected theorem fail {f : Failure} (hb : w.Books (B + C))
    (hf : P → w.conduct.Tame → w.heap.Keeps S → f.reportsLoss = false) :
    (Run.fail f : Run α).Sound P C S w G B where
  leads := .refl P w
  ok h := by cases h
  failed h := by cases h; exact hb
  halted _ _ _ h := by cases h; exact ⟨B, hb⟩
  same hP _ hm ht hS _ := .error (hf hP ht hS) hm
  kept _ _ _ := rfl

/-- A breach, which does not happen as long as `S` lives. -/
protected theorem breach {m : Text} {D : Share} (hb : w.Books (D + C))
    (hf : P → w.conduct.Tame → w.heap.Keeps S → False) :
    (Run.breach m : Run α).Sound P C S w G B where
  leads := .refl P w
  ok h := by cases h
  failed h := by cases h
  halted _ _ _ h := by cases h; exact ⟨D, hb⟩
  same hP _ _ ht hS _ := (hf hP ht hS).elim
  kept _ _ _ := rfl

/-- An early stop that is no failure, so that what is owned besides `C` is lost. -/
protected theorem halt {e : Halt} {D : Share} (he : e.NoLoss) (hf : e.isFailure = false)
    (hb : w.Books (D + C)) : (throw e : Run α).Sound P C S w G B where
  leads := .refl P w
  ok h := by cases h
  failed h := by cases h; cases hf
  halted _ _ _ h := by cases h; exact ⟨D, hb⟩
  same _ _ hm _ _ _ := .error he hm
  kept _ _ _ := rfl

/-- A change to the world. -/
protected theorem modify {f : World → World} {G : PUnit → Share} (hl : w.Leads P (f w))
    (hb : (f w).Books (G ⟨⟩ + C))
    (hm : P → ∀ u, w.Mirrors u → (f w).conduct.Tame → w.heap.Keeps S → (f w).heap.Keeps S →
      (f w).Mirrors (f u))
    (hk : P → (f w).conduct.Tame → (f w).heap.Spares S →
      (f w).conduct.abandoned = w.conduct.abandoned) :
    (modify f : Run PUnit).Sound P C S w G B where
  leads := hl
  ok h := by cases h; exact hb
  failed h := by cases h
  halted _ _ _ h := by cases h
  same hP u hu ht hS hS' := .ok (hm hP u hu ht hS hS')
  kept := hk

/-- A run that comes to its end, and does so in the mirror. -/
theorem of_ok {a : α} {v : World} (hw : act w = .ok a v) (hl : w.Leads P v)
    (hb : v.Books (G a + C))
    (hu : P → ∀ u, w.Mirrors u → v.conduct.Tame → w.heap.Keeps S → v.heap.Keeps S →
      ∃ u', act u = .ok a u' ∧ v.Mirrors u')
    (hk : P → v.conduct.abandoned = w.conduct.abandoned) :
    act.Sound P C S w G B where
  leads := final_ok hw ▸ hl
  ok h := by rw [hw] at h; cases h; exact hb
  failed h := by rw [hw] at h; cases h
  halted _ _ _ h := by rw [hw] at h; cases h
  same hP u hm ht hS hS' := by
    rw [final_ok hw] at ht hS'
    obtain ⟨u', he, hm'⟩ := hu hP u hm ht hS hS'
    rw [hw, he]
    exact .ok hm'
  kept hP _ _ := by rw [final_ok hw]; exact hk hP

/-- A run that stops because a count is at its maximum, whatever the mirror does. -/
theorem of_overflow {D : Share} (hw : act w = .error (.breach Object.overflowBreach.text) w)
    (hb : w.Books (D + C)) : act.Sound P C S w G B where
  leads := by rw [final_error hw]; exact .refl P w
  ok h := by rw [hw] at h; cases h
  failed h := by rw [hw] at h; cases h
  halted _ _ _ h := by rw [hw] at h; cases h; exact ⟨D, hb⟩
  same _ _ _ _ _ _ := by rw [hw]; exact .overflow
  kept _ _ _ := by rw [final_error hw]

/-! ### Equal runs -/

/-- A run that is equal to a sound one, in this world and in those that mirror it. -/
theorem congr {act' : Run α} (h : act.Sound P C S w G B) (he : act' w = act w)
    (hu : P → ∀ u, w.Mirrors u → w.conduct.Tame → w.heap.Keeps S → act' u = act u) :
    act'.Sound P C S w G B := by
  have hfinal : act'.final w = act.final w := by simp [final, he]
  refine ⟨hfinal ▸ h.leads, fun hok => h.ok (he ▸ hok), fun hf => h.failed (he ▸ hf),
    fun hP _ _ hh => h.halted hP (he ▸ hh), fun hP u hm ht hS hS' => ?_, hfinal ▸ h.kept⟩
  rw [hfinal] at ht hS'
  rw [he, hu hP u hm (h.leads.conduct.tame ht) hS]
  exact h.same hP u hm ht hS hS'

/-- Reading the world; the mirror has to read something that makes no difference. -/
theorem get_bind {k : World → Run α} (h : (k w).Sound P C S w G B)
    (hu : P → ∀ u, w.Mirrors u → w.conduct.Tame → w.heap.Keeps S → k u u = k w u) :
    (get >>= k : Run α).Sound P C S w G B :=
  h.congr rfl hu

/-! ### One after the other -/

/-- **A run after a run.** -/
protected theorem bind (h1 : act.Sound P C S w G B)
    (h2 : ∀ {a w'}, act w = .ok a w' → w'.Books (G a + C) → w.Leads P w' →
      (k a).Sound P C S w' G' B) :
    (act >>= k).Sound P C S w G' B := by
  cases hw : act w with
  | ok a w' =>
    have hl : w.Leads P w' := final_ok hw ▸ h1.leads
    have h2 := h2 hw (h1.ok hw) hl
    have hbind : (act >>= k) w = k a w' := bind_ok hw
    have hfinal : (act >>= k).final w = (k a).final w' := by simp [final, hbind]
    refine ⟨hfinal ▸ hl.trans h2.leads, fun h => h2.ok (hbind ▸ h), fun h => h2.failed (hbind ▸ h),
      fun hP _ _ h => h2.halted hP (hbind ▸ h), fun hP u hm ht hS hS' => ?_, fun hP ht hS => ?_⟩
    · rw [hfinal] at ht hS'
      -- what `S` points to lives at the point in between, too
      have hmid := hl.keeps_between h2.leads hS hS'
      refine (h1.same hP u hm (final_ok hw ▸ h2.leads.conduct.tame ht) hS
        (final_ok hw ▸ hmid)).bind fun hw' hm' => ?_
      rw [hw] at hw'
      cases hw'
      exact h2.same hP _ hm' ht hmid hS'
    · rw [hfinal] at ht hS ⊢
      have hfirst := h1.kept hP (final_ok hw ▸ h2.leads.conduct.tame ht)
        (final_ok hw ▸ hS.of_leads h2.leads.heap)
      rw [final_ok hw] at hfirst
      exact (h2.kept hP ht hS).trans hfirst
  | error e w' =>
    have hbind : (act >>= k) w = .error e w' := bind_error hw
    have hfinal : (act >>= k).final w = act.final w := by simp [final, hbind, hw]
    refine ⟨hfinal ▸ h1.leads, fun h => ?_, fun h => ?_, fun hP _ _ h => ?_,
      fun hP u hm ht hS hS' => ?_, hfinal ▸ h1.kept⟩
    · rw [hbind] at h
      cases h
    · rw [hbind] at h
      cases h
      exact h1.failed hw
    · rw [hbind] at h
      cases h
      exact h1.halted hP hw
    · rw [hfinal] at ht hS'
      refine (h1.same hP u hm ht hS hS').bind fun hw' _ => ?_
      rw [hw] at hw'
      cases hw'

theorem final_books (h : act.Sound P C S w G B) (hP : P) :
    ∃ L, (act.final w).Books (L + C) := by
  cases hw : act w with
  | ok a w' =>
    rw [final_ok hw]
    exact ⟨G a, h.ok hw⟩
  | error e w' =>
    rw [final_error hw]
    exact h.halted hP hw

/-- **A run that stops early** in a tame world is not stopped by anything destroyed: the same
happens where nothing is destroyed. -/
theorem noLoss {e : Halt} {w' : World} (h : act.Sound P C 0 w G B) (hP : P)
    (he : act w = .error e w') (ht : w'.conduct.Tame) :
    e.NoLoss ∨ e = .breach Object.overflowBreach.text := by
  have hnone : ∀ k : Heap, k.Keeps 0 := fun _ => by simp
  have hagree := h.same hP _ w.mirrors_self (final_error he ▸ ht) (hnone _) (hnone _)
  rw [he] at hagree
  generalize act { w with reclaim := false } = r at hagree
  cases hagree with
  | error hb _ => exact .inl hb
  | overflow => exact .inr rfl

/-- What is owned need not be lent. -/
theorem relax {S' D : Share} (h : act.Sound P C S' w G B) (hb : w.Books (D + C))
    (hS : S' ⊆ S + C) : act.Sound P C S w G B where
  leads := h.leads
  ok := h.ok
  failed := h.failed
  halted := h.halted
  same hP u hm ht hkeep hkeep' := by
    -- what is owned lives at both ends, because the books are right there
    obtain ⟨L, hL⟩ := h.final_books hP
    have hC := (Heap.keeps_add.mp (hb.keeps (h.leads.conduct.tame ht).wrapped)).2
    have hC' := (Heap.keeps_add.mp (hL.keeps ht.wrapped)).2
    exact h.same hP u hm ht ((Heap.keeps_add.mpr ⟨hkeep, hC⟩).mono hS)
      ((Heap.keeps_add.mpr ⟨hkeep', hC'⟩).mono hS)
  kept hP ht hspare := by
    obtain ⟨L, hL⟩ := h.final_books hP
    have hC := (Heap.keeps_add.mp (hL.keeps ht.wrapped)).2
    exact h.kept hP ht ((hspare.add hC.spares).mono hS)

/-- Without a comparison nothing has to be lent. -/
theorem lend {S' : Share} (h : act.Sound False C S' w G B) :
    act.Sound False C S w G B :=
  ⟨h.leads, h.ok, h.failed, h.halted, fun hF => hF.elim, fun hF => hF.elim⟩

/-! ### What comes after a run, however it ends -/

/-- A change to the world after a run. -/
theorem ensuring_of {g : World → World} {C' S' : Share} (h : act.Sound P C' S' w G B)
    (hl : ∀ w' : World, w'.Leads P (g w'))
    (hb : ∀ {D : Share} {w' : World}, w'.Books (D + C') → (g w').Books (D + C))
    (hS : P → (g (act.final w)).conduct.Tame → w.heap.Keeps S → (g (act.final w)).heap.Keeps S →
      w.heap.Keeps S' ∧ (act.final w).heap.Keeps S')
    (hm : ∀ {w' u' : World}, w'.Mirrors u' → (g w').Mirrors (g u'))
    (hk : (g (act.final w)).conduct.Tame → (g (act.final w)).heap.Spares S →
      (act.final w).heap.Spares S')
    (hg : ∀ w' : World, (g w').conduct.abandoned = w'.conduct.abandoned) :
    (act.ensuring g).Sound P C S w G B := by
  -- the change comes last, whatever the run ends with
  have hfinal : (act.ensuring g).final w = g (act.final w) := by
    simp only [final, ensuring]
    cases act w <;> rfl
  refine ⟨hfinal ▸ h.leads.trans (hl _), fun hok => ?_, fun hf => ?_, fun hP _ _ hh => ?_,
    fun hP u hu ht hk hk' => ?_, fun hP ht hspare => ?_⟩
  · simp only [ensuring] at hok
    cases hw : act w with
    | ok a w' => rw [hw] at hok; cases hok; exact hb (h.ok hw)
    | error e w' => rw [hw] at hok; cases hok
  · simp only [ensuring] at hf
    cases hw : act w with
    | ok a w' => rw [hw] at hf; cases hf
    | error e w' => rw [hw] at hf; cases hf; exact hb (h.failed hw)
  · simp only [ensuring] at hh
    cases hw : act w with
    | ok a w' => rw [hw] at hh; cases hh
    | error e w' =>
      rw [hw] at hh
      cases hh
      obtain ⟨L, hL⟩ := h.halted hP hw
      exact ⟨L, hb hL⟩
  · rw [hfinal] at ht hk'
    obtain ⟨hS1, hS2⟩ := hS hP ht hk hk'
    have hagree := h.same hP u hu ((hl _).conduct.tame ht) hS1 hS2
    simp only [ensuring]
    generalize act w = r at hagree
    generalize act u = r' at hagree
    cases hagree with
    | ok hm' => exact .ok (hm hm')
    | error he hm' => exact .error he (hm hm')
    | overflow => exact .overflow
  · rw [hfinal] at ht hspare ⊢
    rw [hg]
    exact h.kept hP ((hl _).conduct.tame ht) (hk ht hspare)

/-- References that are given up after a run. -/
protected theorem ensuring (work : List Handle)
    (h : act.Sound P ((work : Share) + C) S w G B) :
    (act.ensuring (World.drop work)).Sound P C S w G B := by
  refine h.ensuring_of (World.leads_drop P work) (fun hb => ?_) (fun _ _ hk hk' => ⟨hk, ?_⟩)
    (fun hm => hm.drop work) (fun _ hS => hS.of_leads (World.fades_drop work _).toLeads)
    fun w => congrArg Conduct.abandoned (World.conduct_drop work w)
  · rw [add_left_comm] at hb
    exact hb.drop
  · -- what is lent and lives after giving up `work` lived before
    exact fun x hx => (World.fades_drop work _).lives_of_lives (hk' x hx)

/-- References that are given up after a run that stops early, at least if it fails. -/
theorem afterError {act' : Run α} {p : Halt → Bool} {work : List Handle}
    (h : act.Sound P ((work : Share) + C) S w G B)
    (he : ∀ w, act' w = match act w with
      | .ok a w' => .ok a w'
      | .error e w' => .error e (if p e then w'.drop work else w'))
    (hp : ∀ f, p (.failure f) = true) :
    act'.Sound P C S w (fun a => G a + (work : Share)) B := by
  cases hw : act w with
  | ok a w' =>
    have hok : act' w = act w := by rw [he, hw]
    have hfinal : act'.final w = act.final w := by simp [final, hok]
    refine ⟨hfinal ▸ h.leads, fun h' => ?_, fun h' => ?_, fun _ _ _ h' => ?_,
      fun hP u hm ht hS hS' => ?_, hfinal ▸ h.kept⟩
    · rw [add_assoc]
      exact h.ok (hok ▸ h')
    · rw [hok, hw] at h'
      cases h'
    · rw [hok, hw] at h'
      cases h'
    · rw [hfinal] at ht hS'
      have hagree := h.same hP u hm ht hS hS'
      rw [hok, he u]
      rw [hw] at hagree ⊢
      generalize act u = r at hagree
      cases hagree with
      | ok hm' => exact .ok hm'
  | error e w' =>
    have herr : act' w = .error e (if p e then w'.drop work else w') := by rw [he, hw]
    have hl : w'.Leads P (if p e then w'.drop work else w') := by
      split
      · exact World.leads_drop P work w'
      · exact .refl P w'
    have hfinal : act.final w = w' := final_error hw
    have hsame : (if p e then w'.drop work else w').conduct.abandoned = w'.conduct.abandoned := by
      split
      · rw [World.conduct_drop]
      · rfl
    refine ⟨final_error herr ▸ (hfinal ▸ h.leads).trans hl, fun h' => ?_, fun h' => ?_,
      fun hP _ _ h' => ?_, fun hP u hm ht hS hS' => ?_, fun hP ht hS => ?_⟩
    · rw [herr] at h'
      cases h'
    · rw [herr] at h'
      cases h'
      rw [hp, if_pos rfl]
      have hb := h.failed hw
      rw [add_left_comm] at hb
      exact hb.drop
    · rw [herr] at h'
      cases h'
      obtain ⟨L, hL⟩ := h.halted hP hw
      split
      · rw [add_left_comm] at hL
        exact ⟨L, hL.drop⟩
      · rw [← add_assoc] at hL
        exact ⟨_, hL⟩
    · rw [final_error herr] at ht hS'
      -- giving up references revives nothing
      have hbefore : w'.heap.Keeps S := by
        intro x hx
        have := hS' x hx
        split at this
        · exact (World.fades_drop work w').lives_of_lives this
        · exact this
      have hagree := h.same hP u hm (hfinal ▸ hl.conduct.tame ht) hS (hfinal ▸ hbefore)
      rw [herr, he u]
      rw [hw] at hagree
      generalize act u = r at hagree
      cases hagree with
      | error hbl hm' =>
        refine .error hbl ?_
        split
        · exact hm'.drop work
        · exact hm'
      | overflow => exact .overflow
    · rw [final_error herr] at ht hS ⊢
      rw [hsame, ← hfinal]
      exact h.kept hP (hfinal ▸ hl.conduct.tame ht) (hfinal ▸ hS.of_leads hl.heap)

protected theorem onHalt (work : List Handle)
    (h : act.Sound P ((work : Share) + C) S w G B) :
    (act.onHalt (World.drop work)).Sound P C S w (fun a => G a + (work : Share)) B :=
  h.afterError (p := fun _ => true) (fun _ => rfl) fun _ => rfl

protected theorem onFailure (work : List Handle)
    (h : act.Sound P ((work : Share) + C) S w G B) :
    (act.onFailure (World.drop work)).Sound P C S w (fun a => G a + (work : Share)) B := by
  refine h.afterError (p := Halt.isFailure) (fun w => ?_) fun _ => rfl
  simp only [Run.onFailure]
  cases act w with
  | ok a w' => rfl
  | error e w' => cases e <;> rfl

/-- The result of a run or its failure, which ends the run no more. -/
protected theorem attempt {D H : Share} (h : act.Sound P (H + C) S w G B) :
    act.attempt.Sound P C S w
      (fun r => (match r with | .ok a => G a | .error _ => B) + H) D := by
  have hfinal : act.attempt.final w = act.final w := by
    simp only [final, Run.attempt]
    cases act w with
    | ok a w' => rfl
    | error e w' => cases e <;> rfl
  refine ⟨hfinal ▸ h.leads, fun hok => ?_, fun hf => ?_, fun hP _ _ hh => ?_,
    fun hP u hm ht hS hS' => ?_, hfinal ▸ h.kept⟩
  · simp only [Run.attempt] at hok
    cases hw : act w with
    | ok a w' => rw [hw] at hok; cases hok; rw [add_assoc]; exact h.ok hw
    | error e w' =>
      rw [hw] at hok
      cases e with
      | failure f => cases hok; rw [add_assoc]; exact h.failed hw
      | _ => cases hok
  · simp only [Run.attempt] at hf
    cases hw : act w with
    | ok a w' => rw [hw] at hf; cases hf
    | error e w' => rw [hw] at hf; cases e <;> cases hf
  · simp only [Run.attempt] at hh
    cases hw : act w with
    | ok a w' => rw [hw] at hh; cases hh
    | error e w' =>
      obtain ⟨L, hL⟩ := h.halted hP hw
      rw [← add_assoc] at hL
      rw [hw] at hh
      cases e <;> cases hh <;> exact ⟨_, hL⟩
  · rw [hfinal] at ht hS'
    have hagree := h.same hP u hm ht hS hS'
    simp only [Run.attempt]
    generalize act w = r at hagree
    generalize act u = r' at hagree
    cases hagree with
    | ok hm' => exact .ok hm'
    | error he hm' =>
      -- only failures are caught
      rename_i e _ _
      cases e with
      | failure f => exact .ok hm'
      | breach m => exact he.elim
      | fault => exact .error he hm'
      | exhausted => exact .error he hm'
    | overflow => exact .overflow

/-! ### Bodies -/

/-- **A body** that its owner holds the scope of. The owner is lent or owned, so that the scope
lives as long as the body runs. -/
protected theorem within {f : Frame} {D : Share} (hb : w.Books (D + C))
    (hf : w.conduct.reentered = false → w.heap.Holds f) (howner : .object f.owner ∈ S + C)
    (h : { w with frames := f :: w.frames }.Books (D + C) →
      act.Sound P C (Share.scope f.scope + S) { w with frames := f :: w.frames } G B) :
    (Run.within f act).Sound P C S w G B := by
  have hb1 : { w with frames := f :: w.frames }.Books (D + C) :=
    ⟨hb.reclaim, hb.nil, fun hr => List.forall_mem_cons.mpr ⟨hf hr, hb.frames hr⟩, hb.accounts⟩
  have h := h hb1
  -- the end of the body without its frame
  have hend : ∀ {w' : World} {E : Share}, w'.frames = f :: w.frames → w'.Books E →
      { w' with frames := w.frames }.Books E := fun hfr hb' =>
    ⟨hb'.reclaim, hb'.nil, fun hr g hg => hb'.frames hr g (hfr ▸ List.mem_cons_of_mem f hg),
      hb'.accounts⟩
  have hfinal : (Run.within f act).final w =
      { act.final { w with frames := f :: w.frames } with frames := w.frames } := by
    simp only [final, Run.within]
    cases act { w with frames := f :: w.frames } <;> rfl
  refine ⟨hfinal ▸ ⟨h.leads.heap, rfl, h.leads.conduct⟩, fun hok => ?_, fun hfail => ?_,
    fun hP _ _ hh => ?_, fun hP u hm ht hS hS' => ?_, fun hP ht hS => ?_⟩
  · simp only [Run.within] at hok
    cases hw : act { w with frames := f :: w.frames } with
    | ok a w' =>
      rw [hw] at hok
      cases hok
      exact hend (final_ok hw ▸ h.leads.frames) (h.ok hw)
    | error e w' => rw [hw] at hok; cases hok
  · simp only [Run.within] at hfail
    cases hw : act { w with frames := f :: w.frames } with
    | ok a w' => rw [hw] at hfail; cases hfail
    | error e w' =>
      rw [hw] at hfail
      cases hfail
      exact hend (final_error hw ▸ h.leads.frames) (h.failed hw)
  · simp only [Run.within] at hh
    cases hw : act { w with frames := f :: w.frames } with
    | ok a w' => rw [hw] at hh; cases hh
    | error e w' =>
      rw [hw] at hh
      cases hh
      obtain ⟨L, hL⟩ := h.halted hP hw
      exact ⟨L, hend (final_error hw ▸ h.leads.frames) hL⟩
  · rw [hfinal] at ht hS'
    -- the owner lives at both ends and so does the scope
    have ht0 := h.leads.conduct.tame ht
    have hscope : w.heap.Keeps (Share.scope f.scope) :=
      (hf ht0.reentered).keeps (hb.closed ht0.wrapped)
        (Heap.keeps_add.mpr ⟨hS, (Heap.keeps_add.mp (hb.keeps ht0.wrapped)).2⟩ _ howner)
    obtain ⟨L, hL⟩ := h.final_books hP
    have hheld := hL.frames ht.reentered f (h.leads.frames ▸ List.mem_cons_self)
    have hscope' := hheld.keeps (hL.closed ht.wrapped)
      (Heap.keeps_add.mpr ⟨hS', (Heap.keeps_add.mp (hL.keeps ht.wrapped)).2⟩ _ howner)
    have hagree := h.same hP { u with frames := f :: u.frames } { hm with } ht
      (Heap.keeps_add.mpr ⟨hscope, hS⟩) (Heap.keeps_add.mpr ⟨hscope', hS'⟩)
    simp only [Run.within]
    generalize act { w with frames := f :: w.frames } = r at hagree
    generalize act { u with frames := f :: u.frames } = r' at hagree
    cases hagree with
    | ok hm' => exact .ok { hm' with }
    | error he hm' => exact .error he { hm' with }
    | overflow => exact .overflow
  · rw [hfinal] at ht hS ⊢
    exact h.kept hP ht ((Heap.spares_scope _ _).add hS)

end Sound

/-! ### Parts that only read -/

namespace Reads

variable {P : Prop} {C S : Share} {w : World} {act : Run α} {k : α → Run β} {G : β → Share}
  {B : Share}

theorem ok_world {a : α} {w' : World} (hr : act.Reads P S w) (h : act w = .ok a w') : w' = w :=
  (final_ok h).symm.trans hr.still

theorem error_world {e : Halt} {w' : World} (hr : act.Reads P S w) (h : act w = .error e w') :
    w' = w :=
  (final_error h).symm.trans hr.still

/-- **A run after reading**, in the same world. -/
theorem bind (hr : act.Reads P S w) (hb : w.Books (B + C))
    (h : ∀ {a}, act w = .ok a w → (k a).Sound P C S w G B) :
    (act >>= k).Sound P C S w G B := by
  cases hw : act w with
  | ok a w' =>
    obtain rfl := hr.ok_world hw
    -- the mirror reads the same, so the rest runs on the same value
    refine (h hw).congr (bind_ok hw) fun hP u hm ht hS => ?_
    rcases hr.same hP u hm ht hS with ⟨a', ha', hu⟩ | ⟨e, -, he, -⟩
    · rw [hw] at ha'
      cases ha'
      exact bind_ok hu
    · rw [hw] at he
      cases he
  | error e w' =>
    obtain rfl := hr.error_world hw
    have hbind : (act >>= k) w' = .error e w' := bind_error hw
    refine ⟨?_, fun hok => ?_, fun hf => ?_, fun _ _ _ hh => ?_, fun hP u hm ht hS _ => ?_,
      fun _ _ _ => by rw [final_error hbind]⟩
    · rw [final_error hbind]
      exact .refl P w'
    · rw [hbind] at hok
      cases hok
    · rw [hbind] at hf
      cases hf
      exact hb
    · rw [hbind] at hh
      cases hh
      exact ⟨B, hb⟩
    · rw [final_error hbind] at ht
      rw [hbind]
      rcases hr.same hP u hm ht hS with ⟨a', ha', -⟩ | ⟨e', hbl, he, hu⟩
      · rw [hw] at ha'
        cases ha'
      · rw [hw] at he
        cases he
        rw [bind_error hu]
        exact .error hbl hm

protected theorem pure (a : α) : (pure a : Run α).Reads P S w where
  still := rfl
  same _ _ _ _ _ := .inl ⟨a, rfl, rfl⟩

protected theorem fail {f : Failure}
    (hf : P → w.conduct.Tame → w.heap.Keeps S → f.reportsLoss = false) :
    (Run.fail f : Run α).Reads P S w where
  still := rfl
  same hP _ _ ht hS := .inr ⟨.failure f, hf hP ht hS, rfl, rfl⟩

protected theorem ofExcept {x : Except Failure α}
    (hf : ∀ f, x = .error f → f.reportsLoss = false) : (Run.ofExcept x).Reads P S w := by
  cases x with
  | ok a => exact .pure a
  | error f => exact .fail fun _ _ _ => hf f rfl

protected theorem throw {e : Halt} (he : e.NoLoss) : (throw e : Run α).Reads P S w where
  still := rfl
  same _ _ _ _ _ := .inr ⟨e, he, rfl, rfl⟩

protected theorem ofResult {x : Except Halt α} (he : ∀ e, x = .error e → e.NoLoss) :
    (Run.ofResult x).Reads P S w := by
  cases x with
  | ok a => exact .pure a
  | error e => exact .throw (he e rfl)

protected theorem orExhausted (x : Option α) : (Run.orExhausted x).Reads P S w := by
  cases x with
  | some a => exact .pure a
  | none => exact .throw trivial

/-- A part that is equal to one that reads, in this world and in those that mirror it. -/
theorem congr {act' : Run α} (hr : act.Reads P S w) (he : act' w = act w)
    (hu : P → ∀ u, w.Mirrors u → w.conduct.Tame → w.heap.Keeps S → act' u = act u) :
    act'.Reads P S w where
  still := by
    have hfinal : act'.final w = act.final w := by simp [final, he]
    rw [hfinal, hr.still]
  same hP u hm ht hS := by
    rw [he, hu hP u hm ht hS]
    exact hr.same hP u hm ht hS

/-- Reading something of the world that is the same in its mirrors. -/
theorem get_bind {k : World → Run α} (h : (k w).Reads P S w)
    (hu : P → ∀ u, w.Mirrors u → w.conduct.Tame → w.heap.Keeps S → k u u = k w u) :
    (get >>= k : Run α).Reads P S w :=
  h.congr rfl hu

/-- Reading after reading. -/
theorem andThen (hr : act.Reads P S w) (h : ∀ {a}, act w = .ok a w → (k a).Reads P S w) :
    (act >>= k).Reads P S w := by
  cases hw : act w with
  | ok a w' =>
    obtain rfl := hr.ok_world hw
    have hbind : (act >>= k) w' = k a w' := bind_ok hw
    refine ⟨?_, fun hP u hm ht hS => ?_⟩
    · simp only [final, hbind]
      exact (h hw).still
    · rcases hr.same hP u hm ht hS with ⟨a', ha', hu⟩ | ⟨e, -, he, -⟩
      · rw [hw] at ha'
        cases ha'
        rw [hbind, bind_ok hu]
        exact (h hw).same hP u hm ht hS
      · rw [hw] at he
        cases he
  | error e w' =>
    obtain rfl := hr.error_world hw
    have hbind : (act >>= k) w' = .error e w' := bind_error hw
    refine ⟨final_error hbind, fun hP u hm ht hS => ?_⟩
    rcases hr.same hP u hm ht hS with ⟨a', ha', -⟩ | ⟨e', hbl, he, hu⟩
    · rw [hw] at ha'
      cases ha'
    · exact .inr ⟨e', hbl, bind_error he, bind_error hu⟩

theorem map (hr : act.Reads P S w) (f : α → β) :
    (act >>= fun a => pure (f a)).Reads P S w :=
  hr.andThen fun _ => .pure _

/-- Reading is sound. -/
theorem sound {G : α → Share} (hr : act.Reads P S w) (hb : w.Books (B + C))
    (hok : ∀ {a}, act w = .ok a w → w.Books (G a + C)) : act.Sound P C S w G B := by
  have h := hr.bind (k := pure) hb fun h => .pure (hok h)
  rwa [bind_pure] at h

end Reads

/-! ### Logs and output -/

namespace Sound

variable {P : Prop} {C S : Share} {w : World} {G : PUnit → Share} {B : Share}

/-- A run that does nothing but add to the logs. -/
theorem logs {act : Run PUnit} (ha : ∀ w, ∃ l, act w = .ok ⟨⟩ { w with log := l })
    (hb : w.Books (G ⟨⟩ + C)) : act.Sound P C S w G B := by
  obtain ⟨l, hl⟩ := ha w
  refine .of_ok hl ⟨.refl w.heap, rfl, .refl P w.conduct⟩ (hb.output w.output l)
    (fun _ u hm _ _ _ => ?_) fun _ => rfl
  obtain ⟨l', hl'⟩ := ha u
  exact ⟨_, hl', { hm with }⟩

theorem trace (topic : Topic) (level : Level) (scope : Option Text) (body : Text)
    (hb : w.Books (G ⟨⟩ + C)) : (Run.trace topic level scope body).Sound P C S w G B :=
  logs (fun _ => ⟨_, rfl⟩) hb

theorem logs_traceScope (scope body : Text) (w : World) :
    ∃ l, Run.traceScope scope body w = .ok ⟨⟩ { w with log := l } := by
  unfold Run.traceScope
  rw [Run.get_bind]
  split
  · exact ⟨_, rfl⟩
  · exact ⟨w.log, rfl⟩

theorem traceScope (scope body : Text) (hb : w.Books (G ⟨⟩ + C)) :
    (Run.traceScope scope body).Sound P C S w G B :=
  logs (logs_traceScope scope body) hb

theorem print (t : Text) (hb : w.Books (G ⟨⟩ + C)) :
    (Run.print t).Sound P C S w G B :=
  .modify ⟨.refl w.heap, rfl, .refl P w.conduct⟩ (hb.output _ w.log) (fun _ _ hm _ _ _ =>
    { hm with output := by rw [World.print, World.print, hm.output] }) fun _ _ _ => rfl

/-- A change to the record of conduct, and to that of what happens to thunks. -/
theorem note {f : World → World} {g : World → Conduct → Conduct}
    (hf : ∀ w, ∃ l, f w = { w.note (g w) with history := l })
    (hl : w.conduct.Leads P (g w w.conduct))
    (hk : (g w w.conduct).abandoned = w.conduct.abandoned)
    (hb : w.Books (G ⟨⟩ + C)) : (modify f : Run PUnit).Sound P C S w G B := by
  obtain ⟨l, hw⟩ := hf w
  refine .modify ?_ ?_ (fun _ u hm _ _ _ => ?_) fun _ _ _ => ?_
  · rw [hw]
    exact ⟨.refl w.heap, rfl, hl⟩
  · rw [hw]
    exact { hb.note hl with }
  · obtain ⟨l', hu⟩ := hf u
    rw [hw, hu]
    exact { hm with }
  · rw [hw]
    exact hk

end Sound

end Run

end CountedLisp
