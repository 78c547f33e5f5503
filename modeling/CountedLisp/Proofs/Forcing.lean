import CountedLisp.Proofs.Memoization

/-!
# Evaluating arguments

The arguments of a function are evaluated from left to right, and the values of those that are
thunks are owned until the function is done. In a world whose counts are exact this is all or
nothing. Either all arguments have values, each of which is kept by its thunk, and giving up what
was added makes the counts exact again; or the first thunk that fails ends it, and then nothing is
left of what was added.

The values are described as of the end (`Arguments.Gives`). An argument may be evaluated while an
earlier one is, but what has a value keeps it, so that it does not matter when it got there.
-/

namespace CountedLisp

open Run

namespace Run

variable {α β : Type} {act : Run α} {f : α → β} {w w' : World}

theorem map_eq_map {act' : Run α} {u : World} (h : act w = act' u) :
    (f <$> act) w = (f <$> act') u := by
  simp only [Functor.map, EStateM.map, h]

theorem ensuring_congr {act' : Run α} {g : World → World} (h : act w = act' w) :
    act.ensuring g w = act'.ensuring g w := by
  simp only [Run.ensuring, h]

theorem ensuring_ok {g : World → World} {a : α} (h : act w = .ok a w') :
    act.ensuring g w = .ok a (g w') := by
  simp only [Run.ensuring, h]

theorem ensuring_error {g : World → World} {e : Halt} (h : act w = .error e w') :
    act.ensuring g w = .error e (g w') := by
  simp only [Run.ensuring, h]

/-- Giving up nothing. -/
theorem ensuring_releaseAll_nil (act : Run α) (w : World) :
    act.ensuring (World.releaseAll []) w = act w := by
  have hnil : ∀ w : World, w.releaseAll [] = w := fun w => by
    simp [World.releaseAll, World.drop, Handle.objects, Heap.drop_nil]
  simp only [Run.ensuring, hnil]
  cases act w <;> rfl

theorem onFailure_of_error {g : World → World} {e : Halt} (h : act w = .error e w') :
    act.onFailure g w = .error e (if e.isFailure then g w' else w') := by
  simp only [Run.onFailure, h]
  cases e <;> rfl

theorem onFailure_error {after : World → World} {e : Halt}
    (h : act.onFailure after w = .error e w') :
    ∃ w₁, act w = .error e w₁ ∧ ∀ f, e = .failure f → w' = after w₁ := by
  unfold Run.onFailure at h
  split at h
  · next hw =>
    cases h
    exact ⟨_, hw, fun _ _ => rfl⟩
  · next hne =>
    exact ⟨w', h, fun f hf => absurd (hf ▸ h) (hne f w')⟩

end Run

/-- Running code is neutral: the references that it leaves behind are those that it should, or else
the record of conduct tells why; and thunks go their way. -/
structure Engine.Neutral (engine : Engine) : Prop where
  sound : ∃ P : Prop, engine.Sound P
  later : engine.Respects World.Later

theorem Engine.neutral_ofDepth (n : Nat) : (Engine.ofDepth n).Neutral :=
  ⟨⟨True, Engine.sound_ofDepth n⟩, Engine.respects_ofDepth World.elementary_later n⟩

theorem Client.Conforms.neutral {engine : Engine} (h : Client.Conforms engine) : engine.Neutral :=
  ⟨⟨False, h.sound⟩, h.lawless.respects World.elementary_later⟩

/-! ### Thunks among objects -/

namespace Heap

variable {h h' : Heap} {r : Ref}

theorem isThunk_iff : h.isThunk r = true ↔ ∃ o, h.get? r = some o ∧ o.tag = .evaluable := by
  unfold isThunk
  cases h.get? r with
  | none => simp
  | some o =>
    obtain ⟨refs, dead, payload⟩ := o
    cases payload with
    | constant c => cases c <;> simp [Object.tag, Payload.tag, Constant.tag]
    | _ => simp [Object.tag, Payload.tag]

/-- An object is a thunk from the beginning or never. -/
theorem Leads.isThunk_eq (hl : h.Leads h') (hr : ∀ x ∈ Share.ref r, h.Knows x) :
    h'.isThunk r = h.isThunk r := by
  cases r with
  | none => rfl
  | some id =>
    have hget : ∃ o, h.object? id = some o :=
      ⟨_, Array.getElem?_eq_getElem (hr (.object id) (by simp [Share.ref_some]))⟩
    obtain ⟨o, ho⟩ := hget
    obtain ⟨o', ho', htag, -⟩ := hl.object ho
    rw [Bool.eq_iff_iff, isThunk_iff, isThunk_iff]
    simp [get?, ho, ho', htag]

/-- A thunk that lives. -/
theorem exists_hasThunk (ht : h.isThunk r = true) (hk : h.Keeps (Share.ref r)) :
    ∃ id t, r = some id ∧ h.HasThunk id t := by
  rw [Thunk.isThunk_eq] at ht
  obtain ⟨⟨id, o, t⟩, hf⟩ := Option.isSome_iff_exists.mp ht
  obtain ⟨rfl, ho, hp⟩ := Thunk.find?_eq_some hf
  obtain ⟨o', ho', hd⟩ := keeps_ref_some.mp hk
  rw [ho, Option.some.injEq] at ho'
  subst ho'
  exact ⟨id, t, rfl, o, ho, hd, hp⟩

end Heap

namespace Arguments

variable {engine : Engine} {w w' u : World} {owned owned' args values : List Ref} {e : Halt}

/-! ### One argument after the other -/

/-- A thunk that is evaluated, and the arguments after it. -/
theorem forceAfter_thunk {arg v : Ref} (hthunk : w.heap.isThunk arg = true)
    (hforce : (Thunk.force engine arg).onFailure (World.releaseAll owned) w = .ok v w')
    (rest : List Ref) : forceAfter engine owned (arg :: rest) w =
      ((fun p => (v :: p.1, p.2)) <$> forceAfter engine (owned ++ [v]) rest) w' := by
  rw [forceAfter, get_bind, if_pos hthunk, bind_ok hforce, map_eq_pure_bind]

/-- A thunk that cannot be evaluated. -/
theorem forceAfter_stop {arg : Ref} (hthunk : w.heap.isThunk arg = true)
    (hforce : (Thunk.force engine arg).onFailure (World.releaseAll owned) w = .error e w')
    (rest : List Ref) : forceAfter engine owned (arg :: rest) w = .error e w' := by
  rw [forceAfter, get_bind, if_pos hthunk, bind_error hforce]

/-- An argument that is no thunk, and the arguments after it. -/
theorem forceAfter_plain {arg : Ref} (hplain : w.heap.isThunk arg ≠ true) (rest : List Ref) :
    forceAfter engine owned (arg :: rest) w =
      ((fun p => (arg :: p.1, p.2)) <$> forceAfter engine owned rest) w := by
  rw [forceAfter, get_bind, if_neg hplain, map_eq_pure_bind]

/-- How the first of some arguments got its value. -/
theorem of_forceAfter_cons {arg : Ref} {rest : List Ref}
    (hok : forceAfter engine owned (arg :: rest) w = .ok (values, owned') w') :
    (∃ v w₁ values', w.heap.isThunk arg = true ∧
      (Thunk.force engine arg).onFailure (World.releaseAll owned) w = .ok v w₁ ∧
      forceAfter engine (owned ++ [v]) rest w₁ = .ok (values', owned') w' ∧
      values = v :: values') ∨
    ∃ values', w.heap.isThunk arg ≠ true ∧
      forceAfter engine owned rest w = .ok (values', owned') w' ∧ values = arg :: values' := by
  by_cases hthunk : w.heap.isThunk arg = true
  · cases hforce : (Thunk.force engine arg).onFailure (World.releaseAll owned) w with
    | error e w₁ =>
      rw [forceAfter_stop hthunk hforce] at hok
      cases hok
    | ok v w₁ =>
      rw [forceAfter_thunk hthunk hforce] at hok
      obtain ⟨⟨values', _⟩, hrest, he⟩ := of_map_ok hok
      cases he
      exact .inl ⟨v, w₁, values', hthunk, rfl, hrest, rfl⟩
  · rw [forceAfter_plain hthunk] at hok
    obtain ⟨⟨values', _⟩, hrest, he⟩ := of_map_ok hok
    cases he
    exact .inr ⟨values', hthunk, hrest, rfl⟩

/-- Arguments are evaluated one after the other. -/
theorem forceAfter_append (hok : forceAfter engine owned args w = .ok (values, owned') w')
    (rest : List Ref) : forceAfter engine owned (args ++ rest) w =
      ((fun p => (values ++ p.1, p.2)) <$> forceAfter engine owned' rest) w' := by
  induction args generalizing owned w values with
  | nil =>
    cases hok
    simp only [List.nil_append, Prod.mk.eta, id_map']
  | cons arg args ih =>
    rcases of_forceAfter_cons hok with
      ⟨v, w₁, values', hthunk, hforce, hrest, rfl⟩ | ⟨values', hplain, hrest, rfl⟩
    · rw [List.cons_append, forceAfter_thunk hthunk hforce, map_eq_map (ih hrest), ← comp_map]
      rfl
    · rw [List.cons_append, forceAfter_plain hplain, map_eq_map (ih hrest), ← comp_map]
      rfl

/-! ### Values -/

/-- The value of an argument is the argument itself, or what it keeps as its value if it is a
thunk. -/
inductive Gives (h : Heap) : Ref → Ref → Prop where
  | plain {arg : Ref} (ht : h.isThunk arg = false) : Gives h arg arg
  | kept {id : ObjectId} {code : Code} {v : Ref} (ht : h.HasThunk id ⟨code, .done v⟩) :
    Gives h (some id) v

theorem later_forceAfter (he : engine.Respects World.Later) (owned args : List Ref) :
    (forceAfter engine owned args).Respects World.Later :=
  (built_forceAfter owned args).respects World.elementary_later he

/-- The value of a thunk as of any later time, as long as the thunk lives and nothing has disturbed
an evaluation. -/
theorem gives_force {arg v : Ref} (he : engine.Respects World.Later)
    (hthunk : w.heap.isThunk arg = true) (hforce : Thunk.force engine arg w = .ok v w')
    (hbefore : w.Later w') (hafter : w'.Later u) (hre : u.conduct.reentered = false)
    (hab : u.conduct.abandoned = false) (hknown : ∀ x ∈ Share.ref arg, w.heap.Knows x)
    (hlives : u.heap.Keeps (Share.ref arg)) : Gives u.heap arg v := by
  obtain ⟨_, hbefore⟩ := hbefore
  obtain ⟨_, hafter⟩ := hafter
  -- it lives all the time
  have hlives' : w'.heap.Keeps (Share.ref arg) := fun x hx =>
    hafter.heap.lives (hbefore.heap.knows (hknown x hx)) (hlives x hx)
  obtain ⟨id, ⟨code, p⟩, rfl, ht⟩ := Heap.exists_hasThunk hthunk fun x hx =>
    hbefore.heap.lives (hknown x hx) (hlives' x hx)
  have hdone := Thunk.hasThunk_force he ht hforce
    (Conduct.unmarked (fun h => hafter.reentered (.inl h)) hre)
    (Conduct.unmarked (fun h => hafter.abandoned (.inl h)) hab) (Heap.keeps_ref_some.mp hlives')
  refine .kept ((Thunk.hasThunk_of_ages hafter hdone (hafter.calm hre hab id)).resolve_right ?_)
  exact (Heap.keeps_ref_some.mp hlives).not_dead

/-- The values as of any later time, as long as the arguments live and nothing has disturbed an
evaluation. -/
theorem gives_forceAfter (he : engine.Respects World.Later)
    (hok : forceAfter engine owned args w = .ok (values, owned') w') (hlater : w'.Later u)
    (hre : u.conduct.reentered = false) (hab : u.conduct.abandoned = false)
    (hknown : ∀ x ∈ Share.refs args, w.heap.Knows x) (hlives : u.heap.Keeps (Share.refs args)) :
    List.Forall₂ (Gives u.heap) args values := by
  induction args generalizing owned w values with
  | nil =>
    cases hok
    exact .nil
  | cons arg rest ih =>
    simp only [Share.refs_cons, Multiset.mem_add, or_imp, forall_and] at hknown
    rw [Share.refs_cons, Heap.keeps_add] at hlives
    rcases of_forceAfter_cons hok with
      ⟨v, w₁, values', hthunk, hforce, hrest, rfl⟩ | ⟨values', hplain, hrest, rfl⟩
    · replace hforce := onFailure_ok hforce
      -- all that comes after this argument
      have hstart : w.Later w₁ := final_ok hforce ▸ Thunk.later_force he arg w
      have hafter : w₁.Later u :=
        (final_ok hrest ▸ later_forceAfter he (owned ++ [v]) rest w₁ : w₁.Later w').trans hlater
      refine .cons ?_ (ih hrest (fun x hx => ?_) hlives.2)
      · exact gives_force he hthunk hforce hstart hafter hre hab hknown.1 hlives.1
      · obtain ⟨_, hages⟩ := hstart
        exact hages.heap.knows (hknown.2 x hx)
    · have hafter : w.Later u :=
        (final_ok hrest ▸ later_forceAfter he owned rest w : w.Later w').trans hlater
      refine .cons (.plain ?_) (ih hrest hknown.2 hlives.2)
      obtain ⟨_, hages⟩ := hafter
      rw [hages.heap.isThunk_eq hknown.1]
      exact Bool.eq_false_iff.mpr hplain

/-! ### Failure -/

/-- If it comes to a stop, this is due to a thunk; the arguments before it have values, and those
after it do not matter. -/
theorem forceAfter_error (herr : forceAfter engine owned args w = .error e w') :
    ∃ before arg after values owned' w₁, args = before ++ arg :: after ∧
      forceAfter engine owned before w = .ok (values, owned') w₁ ∧
      (Thunk.force engine arg).onFailure (World.releaseAll owned') w₁ = .error e w' ∧
      ∀ others, forceAfter engine owned (before ++ arg :: others) w = .error e w' := by
  induction args generalizing owned w with
  | nil => cases herr
  | cons arg rest ih =>
    by_cases hthunk : w.heap.isThunk arg = true
    · cases hforce : (Thunk.force engine arg).onFailure (World.releaseAll owned) w with
      | error e' w₁ =>
        -- it is this one
        rw [forceAfter_stop hthunk hforce] at herr
        cases herr
        exact ⟨[], arg, rest, [], owned, w, rfl, rfl, hforce, forceAfter_stop hthunk hforce⟩
      | ok v w₁ =>
        rw [forceAfter_thunk hthunk hforce] at herr
        obtain ⟨before, last, after, values, owned', w₂, rfl, hok, hlast, hothers⟩ :=
          ih (map_eq_error.mp herr)
        refine ⟨arg :: before, last, after, v :: values, owned', w₂, rfl, ?_, hlast,
          fun others => ?_⟩
        · rw [forceAfter_thunk hthunk hforce, map_ok hok]
        · rw [List.cons_append, forceAfter_thunk hthunk hforce]
          exact map_eq_error.mpr (hothers others)
    · rw [forceAfter_plain hthunk] at herr
      obtain ⟨before, last, after, values, owned', w₂, rfl, hok, hlast, hothers⟩ :=
        ih (map_eq_error.mp herr)
      refine ⟨arg :: before, last, after, arg :: values, owned', w₂, rfl, ?_, hlast,
        fun others => ?_⟩
      · rw [forceAfter_plain hthunk, map_ok hok]
      · rw [List.cons_append, forceAfter_plain hthunk]
        exact map_eq_error.mpr (hothers others)

/-! ### All or nothing -/

/-- **Evaluating arguments is all or nothing.** In a world whose counts are exact, the caller owns
the arguments, among others. Running the code of thunks is neutral, and no evaluation is disturbed.

If all arguments have values, each is the argument itself or what the thunk keeps as its value, the
code of no thunk has given a value twice, and the counts are exact again once the values are given
up. Otherwise there is a first thunk that stops it, whatever the arguments after it are. If this one
fails, the thunks before it keep their values, and the counts are exact. -/
theorem force_all_or_nothing (he : engine.Neutral) {C : Share} (hexact : w.Exact C)
    (hargs : Share.refs args ⊆ C) (htidy : ((force engine args).final w).conduct.Tidy)
    (hwrapped : ((force engine args).final w).conduct.wrapped = false) :
    (∀ values owned w', force engine args w = .ok (values, owned) w' →
      List.Forall₂ (Gives w'.heap) args values ∧
      (∀ id t new, w.heap.HasThunk id t → w'.history = new ++ w.history →
        Thunk.yields id new ≤ 1) ∧
      w'.Exact (Share.refs owned + C) ∧ (w'.releaseAll owned).Exact C) ∧
    ∀ e w', force engine args w = .error e w' →
      ∃ before arg after values owned w₁ w₂, args = before ++ arg :: after ∧
        force engine before w = .ok (values, owned) w₁ ∧
        Thunk.force engine arg w₁ = .error e w₂ ∧
        (∀ others, force engine (before ++ arg :: others) w = .error e w') ∧
        ∀ f, e = .failure f → w' = w₂.releaseAll owned ∧
          List.Forall₂ (Gives w'.heap) before values ∧ w'.Exact C := by
  obtain ⟨⟨P, hsound⟩, hlater⟩ := he
  have hforce : (force engine args).Sound P C 0 w (fun p => Share.refs p.2) 0 :=
    sound_forceAfter hsound [] (hexact.books.cast (zero_add C)) (by simpa using hargs)
  have hknown : ∀ x ∈ Share.refs args, w.heap.Knows x := fun x hx =>
    (hexact.accounts.lives_of_mem (hargs hx)).knows
  refine ⟨fun values owned w' hok => ?_, fun e w' herr => ?_⟩
  · rw [final_ok hok] at htidy hwrapped
    have hend : w'.Exact (Share.refs owned + C) := (hforce.ok hok).exact htidy hwrapped
    have hlives : w'.heap.Keeps (Share.refs args) := fun x hx =>
      hend.accounts.lives_of_mem (Multiset.mem_add.mpr (.inr (hargs hx)))
    have hdrop : (w'.releaseAll owned).conduct = w'.conduct := World.conduct_drop _ _
    refine ⟨gives_forceAfter hlater hok (.refl w') htidy.reentered htidy.abandoned hknown hlives,
      fun id t new ht hnew => ?_, hend,
      World.Books.exact (hforce.ok hok).drop (hdrop ▸ htidy) (hdrop ▸ hwrapped)⟩
    obtain ⟨_, hages⟩ := later_forceAfter hlater [] args w
    rw [show (forceAfter engine [] args).final w = w' from final_ok hok] at hages
    obtain rfl := hages.eq_new hnew
    obtain ⟨o, ho, -, hp⟩ := ht
    obtain ⟨_, _, -, -, hfares, -⟩ :=
      hages.thunk ho hp (hages.calm htidy.reentered htidy.abandoned id)
    exact hfares.passage.le_one
  · rw [final_error herr] at htidy hwrapped
    obtain ⟨before, arg, after, values, owned, w₁, rfl, hok, hstop, hothers⟩ :=
      forceAfter_error herr
    obtain ⟨w₂, hthunk, hw'⟩ := onFailure_error hstop
    refine ⟨before, arg, after, values, owned, w₁, w₂, rfl, hok, hthunk, hothers, ?_⟩
    rintro f rfl
    obtain rfl := hw' f rfl
    have hend : (w₂.releaseAll owned).Exact C :=
      ((hforce.failed herr).cast (zero_add C).symm).exact htidy hwrapped
    have hbefore : Share.refs before ⊆ Share.refs (before ++ arg :: after) := by
      rw [Share.refs_append]
      exact Multiset.subset_of_le (Multiset.le_add_right _ _)
    have hrest : w₁.Later (w₂.releaseAll owned) :=
      (final_error hthunk ▸ Thunk.later_force hlater arg w₁ : w₁.Later w₂).trans (.drop _ w₂)
    exact ⟨rfl, gives_forceAfter hlater hok hrest htidy.reentered htidy.abandoned
      (fun x hx => hknown x (hbefore hx))
      fun x hx => hend.accounts.lives_of_mem (hargs (hbefore hx)), hend⟩

/-- A scope, a thunk that gives a constant, a constant, and a thunk that fails because its name is
not bound. -/
def thunksAndConstant : List Client.Call :=
  [.scope none, .thunk (.expression (.atom ⟨.boolean, "#t", ⟨1, 2⟩⟩)) (some ⟨0⟩),
    .constant (.boolean false), .thunk (.expression (.atom ⟨.identifier, "x", ⟨1, 1⟩⟩)) (some ⟨0⟩)]

/-- The first thunk and the constant, each of them twice. -/
def repeatedArguments : List Ref :=
  [some ⟨1⟩, some ⟨2⟩, some ⟨1⟩, some ⟨2⟩]

/-- The thunk that fails comes second. -/
def failingArguments : List Ref :=
  [some ⟨1⟩, some ⟨3⟩, some ⟨2⟩]

/-- Whether the first arguments have values and the second ones fail, with a clean record. -/
def forcesFirstOnly (s : Client.Holdings) : Bool :=
  match force (.ofDepth 1) repeatedArguments s.world,
    force (.ofDepth 1) failingArguments s.world with
  | .ok _ w₁, .error (.failure _) w₂ =>
    decide ((∀ x ∈ Share.refs repeatedArguments, x ∈ s.owned) ∧
      (∀ x ∈ Share.refs failingArguments, x ∈ s.owned) ∧
      s.world.conduct = {} ∧ w₁.conduct = {} ∧ w₂.conduct = {})
  | _, _ => false

theorem force_all_or_nothing_thunks : ∃ (s : Client.Holdings) (values owned : List Ref)
    (w₁ w₂ : World) (f : Failure),
    Client.Holdings.afterAll .none ⟨0, {}⟩ thunksAndConstant = some s ∧
    s.world.Exact s.owned ∧ force (.ofDepth 1) repeatedArguments s.world = .ok (values, owned) w₁ ∧
    List.Forall₂ (Gives w₁.heap) repeatedArguments values ∧ w₁.Exact (Share.refs owned + s.owned) ∧
    (w₁.releaseAll owned).Exact s.owned ∧
    force (.ofDepth 1) failingArguments s.world = .error (.failure f) w₂ ∧ w₂.Exact s.owned := by
  have hends :
      (Client.Holdings.afterAll .none ⟨0, {}⟩ thunksAndConstant).any forcesFirstOnly = true := by
    decide +kernel
  obtain ⟨s, hrun, hends⟩ := Option.any_eq_true _ _ |>.mp hends
  unfold forcesFirstOnly at hends
  split at hends
  · next p w₁ f w₂ hok hfail =>
    obtain ⟨hrepeated, hfailing, hc, hc₁, hc₂⟩ := of_decide_eq_true hends
    have hbooks := (Client.Holdings.books_afterAll (C := 0) (Engine.sound_none False) hrun
      (World.Fresh.books ⟨rfl, rfl, rfl, rfl⟩)).1
    have hexact : s.world.Exact s.owned :=
      (hbooks.cast (add_zero _).symm).exact (by rw [hc]; exact ⟨rfl, rfl, rfl⟩) (by rw [hc])
    have hok' := (force_all_or_nothing (Engine.neutral_ofDepth 1) hexact hrepeated
      (by rw [final_ok hok, hc₁]; exact ⟨rfl, rfl, rfl⟩) (by rw [final_ok hok, hc₁])).1 _ _ _ hok
    obtain ⟨_, _, _, _, _, _, _, -, -, -, -, hfail'⟩ :=
      (force_all_or_nothing (Engine.neutral_ofDepth 1) hexact hfailing
        (by rw [final_error hfail, hc₂]; exact ⟨rfl, rfl, rfl⟩)
        (by rw [final_error hfail, hc₂])).2 _ _ hfail
    exact ⟨s, p.1, p.2, w₁, w₂, f, hrun, hexact, hok, hok'.1, hok'.2.2.1, hok'.2.2.2, hfail,
      (hfail' f rfl).2.2⟩
  · cases hends

end Arguments

end CountedLisp
