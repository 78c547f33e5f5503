import CountedLisp.Proofs.Forcing
import CountedLisp.Proofs.Traversals
import CountedLisp.Proofs.Veils

/-!
# Applying a function to a list

`apply` calls a function with leading arguments and the items of a list. This is the same as calling
the function with all of them, but for the record of conduct, if no leading argument is a thunk.

As any function of the library but two, `apply` asks for the values of its arguments. So a leading
argument that is a thunk is evaluated first, whether or not the function would have done so, and the
function is called with the value. Items of the list are passed on as they are.
-/

namespace CountedLisp

open Run

/-! ### Runs that end in the same way -/

namespace Run

variable {α : Type} {act : Run α}

/-- A change that stays behind the veil does not matter to a change after it. -/
theorem veiled_ensuring {v : Veil} {f g : World → World} (hf : ∀ w, v.cover (f w) = v.cover w)
    (hg : v.Blind g) (w : World) :
    veiled v ((act.ensuring f).ensuring g w) = veiled v (act.ensuring g w) := by
  have hfg : ∀ w, v.cover (g (f w)) = v.cover (g w) := fun w => by rw [← hg (f w), hf, hg]
  simp only [Run.ensuring]
  cases act w with
  | ok a w' => exact congrArg (EStateM.Result.ok a) (hfg w')
  | error e w' => exact congrArg (EStateM.Result.error e) (hfg w')

end Run

/-! ### The arguments of `apply` -/

namespace Heap

variable {h h' : Heap} {r : Ref}

theorem isThunk_of_hasTag {tag : Tag} (hr : Object.hasTag h tag r = true) (hne : tag ≠ .evaluable) :
    h.isThunk r = false := by
  refine Bool.eq_false_iff.mpr fun ht => ?_
  obtain ⟨o, ho, htag⟩ := isThunk_iff.mp ht
  simp only [Object.hasTag, ho, decide_eq_true_eq] at hr
  exact hne (hr.symm.trans htag)

theorem Leads.hasTag (hl : h.Leads h') {tag : Tag} (hr : Object.hasTag h tag r = true) :
    Object.hasTag h' tag r = true := by
  cases r with
  | none => cases hr
  | some id =>
    simp only [Object.hasTag, get?] at hr ⊢
    cases ho : h.object? id with
    | none => simp [ho] at hr
    | some o =>
      obtain ⟨o', ho', htag, -⟩ := hl.object ho
      simp only [ho, Option.bind_some] at hr
      simp only [ho', Option.bind_some, htag]
      exact hr

/-- A list is no thunk. -/
theorem isThunk_of_spine {items : List Ref} (hs : h.spine r = .proper items) :
    h.isThunk r = false := by
  rw [spine, follow] at hs
  refine Bool.eq_false_iff.mpr fun ht => ?_
  obtain ⟨o, ho, htag⟩ := isThunk_iff.mp ht
  obtain ⟨refs, dead, payload⟩ := o
  rw [ho] at hs
  cases payload <;> simp_all [Object.tag, Payload.tag]

end Heap

namespace Arguments

variable {engine : Engine} {w w' : World} {owned owned' args values : List Ref} {e : Halt}

theorem atLeast_ok {n : Nat} {op : Text} (hn : n ≤ args.length) :
    atLeast op args n w = .ok () w := by
  rw [atLeast, checkCount, if_pos (Int.ofNat_le.mpr hn)]
  rfl

/-- Arguments none of which is a thunk. -/
theorem force_plain (hplain : ∀ arg ∈ args, w.heap.isThunk arg = false) :
    force engine args w = .ok (args, []) w := by
  induction args with
  | nil => rfl
  | cons arg args ih =>
    obtain ⟨harg, hrest⟩ := List.forall_mem_cons.mp hplain
    exact (forceAfter_plain (by simp [harg]) args).trans (map_ok (ih hrest))

end Arguments

/-! ### Applying -/

namespace Procedure

variable {engine inner : Engine} {w w' : World} {a f l : Ref} {as vs bs os : List Ref}

/-- Spreading a list starts with a look at its items. -/
theorem spread_eq_bind (hf : Object.hasTag w.heap .lambda f = true) :
    spread engine f (vs ++ [l]) w = (Pair.items? l >>= fun items =>
      items.elim (Object.mismatch "apply" "list as last argument" l) fun items =>
        (engine.call f (vs ++ items)).ensuring (noteSpread (f :: (vs ++ items)))) w := by
  simp only [spread, Pair.if_isList_eq]
  rw [get_bind, if_pos hf]
  simp only [List.getLast?_append, List.getLast?_singleton, Option.some_or, List.dropLast_concat]
  refine congrFun (congrArg _ (funext fun items => ?_)) w
  cases items <;> rfl

/-- A function is called with the leading arguments and the items of the list. -/
theorem spread_eq (hf : Object.hasTag w.heap .lambda f = true) (hl : w.heap.spine l = .proper bs) :
    spread engine f (vs ++ [l]) w =
      (engine.call f (vs ++ bs)).ensuring (noteSpread (f :: (vs ++ bs))) w := by
  have hitems : Pair.items? l w = .ok (some bs) w := by rw [Pair.items?_eq, hl]
  rw [spread_eq_bind hf, bind_ok hitems]
  rfl

/-- The last argument has to be a list. -/
theorem spread_mismatch (hf : Object.hasTag w.heap .lambda f = true)
    (hl : w.heap.spine l = .improper) :
    spread engine f (vs ++ [l]) w = (do
      let t ← Run.orExhausted (w.heap.describe? l)
      Run.fail (.of .typeMismatch "apply" "list as last argument" t)) w := by
  have hitems : Pair.items? l w = .ok none w := by rw [Pair.items?_eq, hl]
  rw [spread_eq_bind hf, bind_ok hitems]
  rfl

/-- If there is a cycle in what is to be spread, looking at its items or describing it may not
end. -/
theorem spread_exhausted (hf : Object.hasTag w.heap .lambda f = true)
    (hl : w.heap.spine l = .endless ∨ w.heap.spine l = .improper ∧ w.heap.describe? l = none) :
    spread engine f (vs ++ [l]) w = .error .exhausted w := by
  rcases hl with hl | ⟨hl, hd⟩
  · have hitems : Pair.items? l w = .error .exhausted w := by rw [Pair.items?_eq, hl]
    rw [spread_eq_bind hf, bind_error hitems]
  · rw [spread_mismatch hf hl, hd]
    rfl

/-- Calling `apply` is asking for the values of all arguments and then spreading the last one, but
for the note that `apply` was called. -/
theorem exists_forcing (hv : engine.Ignores .marks)
    (ha : ∃ n, w.heap.get? a = some ⟨n, false, .lambda (.library .apply)⟩) (args : List Ref) :
    ∃ next : List Ref → Run Ref,
      veiled .marks (call engine a args w) =
        veiled .marks (Arguments.forcing engine args next w) ∧
      ∀ f rest u, rest ≠ [] → next (f :: rest) u = spread engine f rest u := by
  obtain ⟨n, ha⟩ := ha
  obtain ⟨next, happly, hbuilt, hnext⟩ : ∃ next : List Ref → Run Ref,
      callLibrary engine .apply args w = Arguments.forcing engine args next
        (w.note fun c => { c with applied := true }) ∧
      (∀ values, (next values).Built engine) ∧
      ∀ f rest u, rest ≠ [] → next (f :: rest) u = spread engine f rest u := by
    refine ⟨_, @bind_ok _ _ (modify (World.note fun c => { c with applied := true })) _ _ _ _ rfl,
      fun values => ?_, fun f rest u hrest => ?_⟩
    · refine (Arguments.built_checkCount _ _ _ _).bind fun _ => ?_
      split
      · exact built_spread _ _
      · exact .makeObject _ rfl
    · exact bind_ok (Arguments.atLeast_ok (by simpa [Nat.one_le_iff_ne_zero] using hrest))
  refine ⟨next, ?_, hnext⟩
  have hcall : call engine a args w = callLibrary engine .apply args w := by
    cases a with
    | none => cases ha
    | some id => simp only [call, get_bind, ha]
  rw [hcall, happly]
  exact ((Arguments.built_forcing args hbuilt).ignores hv).congr rfl

/-- The values of the arguments of `apply`. -/
theorem force_apply (hf : Object.hasTag w.heap .lambda f = true)
    (hforce : Arguments.force engine as w = .ok (vs, os) w') (hl : w'.heap.isThunk l = false) :
    Arguments.force engine (f :: (as ++ [l])) w = .ok (f :: (vs ++ [l]), os) w' := by
  have hthunk : w.heap.isThunk f ≠ true := by
    simp [Heap.isThunk_of_hasTag hf (by decide)]
  have hl' : Arguments.forceAfter engine os [l] w' = .ok ([l], os) w' :=
    Arguments.forceAfter_plain (by simp [hl]) []
  have has : Arguments.forceAfter engine [] (as ++ [l]) w = .ok (vs ++ [l], os) w' :=
    (Arguments.forceAfter_append hforce [l]).trans (map_ok hl')
  exact (Arguments.forceAfter_plain hthunk (as ++ [l])).trans (map_ok has)

theorem force_apply_error {e : Halt} (hf : Object.hasTag w.heap .lambda f = true)
    (hforce : Arguments.force engine as w = .error e w') (l : Ref) :
    Arguments.force engine (f :: (as ++ [l])) w = .error e w' := by
  have hthunk : w.heap.isThunk f ≠ true := by
    simp [Heap.isThunk_of_hasTag hf (by decide)]
  obtain ⟨before, arg, after, values, owned, w₁, rfl, -, -, hothers⟩ :=
    Arguments.forceAfter_error hforce
  refine (Arguments.forceAfter_plain hthunk _).trans (map_eq_error.mpr ?_)
  rw [List.append_assoc, List.cons_append]
  exact hothers _

/-- With the values of its arguments, `apply` calls the function with the last one spread, and then
gives the values up. -/
theorem apply_eq_spread (hv : engine.Ignores .marks)
    (ha : ∃ n, w.heap.get? a = some ⟨n, false, .lambda (.library .apply)⟩)
    (hf : Object.hasTag w.heap .lambda f = true)
    (hforce : Arguments.force engine as w = .ok (vs, os) w') (hl : w'.heap.isThunk l = false) :
    veiled .marks (call engine a (f :: (as ++ [l])) w) =
      veiled .marks ((spread engine f (vs ++ [l])).ensuring (World.releaseAll os) w') := by
  obtain ⟨next, happly, hnext⟩ := exists_forcing hv ha (f :: (as ++ [l]))
  rw [happly, Arguments.forcing, bind_ok (force_apply hf hforce hl)]
  show veiled .marks ((next (f :: (vs ++ [l]))).ensuring (World.releaseAll os) w') = _
  rw [ensuring_congr (hnext _ _ _ (by simp))]

/-- **`apply` agrees with calling** the function, once the leading arguments that are thunks have
been evaluated: the function is called with their values, which are given up afterwards, and with
the items that the list has then. If the evaluation of a leading argument fails, so does `apply`,
and the function is not called. In particular, with leading arguments none of which is a thunk,
applying a function is nothing else than calling it.

Neither is the function called if the evaluation has made the list into something else. This is a
mismatch of types with a description of it. Only if a cycle can be reached from there, looking for
the end of the list or for that of the description may have no end.

Each time the two end in the same way, with the same value or error and in the same world; only the
record of conduct tells that `apply` was called. -/
theorem apply_eq_call (hcall : ∀ f args, engine.call f args = call inner f args)
    (he : engine.Respects World.Later) (hv : engine.Ignores .marks)
    (ha : ∃ n, w.heap.get? a = some ⟨n, false, .lambda (.library .apply)⟩)
    (hf : Object.hasTag w.heap .lambda f = true) (as : List Ref) (l : Ref) :
    (∀ vs os w' bs, Arguments.force engine as w = .ok (vs, os) w' →
      w'.heap.spine l = .proper bs →
      veiled .marks (call engine a (f :: (as ++ [l])) w) =
        veiled .marks ((call inner f (vs ++ bs)).ensuring (World.releaseAll os) w')) ∧
    (∀ vs os w' t, Arguments.force engine as w = .ok (vs, os) w' → w'.heap.isThunk l = false →
      w'.heap.spine l = .improper → w'.heap.describe? l = some t →
      veiled .marks (call engine a (f :: (as ++ [l])) w) =
        veiled .marks (.error (.failure (.of .typeMismatch "apply" "list as last argument" t))
          (w'.releaseAll os))) ∧
    (∀ vs os w', Arguments.force engine as w = .ok (vs, os) w' → w'.heap.isThunk l = false →
      (w'.heap.spine l = .endless ∨
        w'.heap.spine l = .improper ∧ w'.heap.describe? l = none) →
      ¬w'.heap.Acyclic l ∧ veiled .marks (call engine a (f :: (as ++ [l])) w) =
        veiled .marks (.error .exhausted (w'.releaseAll os))) ∧
    (∀ e w', Arguments.force engine as w = .error e w' →
      veiled .marks (call engine a (f :: (as ++ [l])) w) = veiled .marks (.error e w')) ∧
    ∀ bs, (∀ x ∈ as, w.heap.isThunk x = false) → w.heap.spine l = .proper bs →
      veiled .marks (call engine a (f :: (as ++ [l])) w) =
        veiled .marks (call inner f (as ++ bs) w) := by
  have hlambda : ∀ vs os w', Arguments.force engine as w = .ok (vs, os) w' →
      Object.hasTag w'.heap .lambda f = true := by
    intro vs os w' hforce
    obtain ⟨_, hages⟩ := Arguments.later_forceAfter he [] as w
    rw [show (Arguments.forceAfter engine [] as).final w = w' from final_ok hforce] at hages
    exact hages.heap.hasTag hf
  have hok : ∀ vs os w' bs, Arguments.force engine as w = .ok (vs, os) w' →
      w'.heap.spine l = .proper bs →
      veiled .marks (call engine a (f :: (as ++ [l])) w) =
        veiled .marks ((call inner f (vs ++ bs)).ensuring (World.releaseAll os) w') := by
    intro vs os w' bs hforce hl
    have hspread : spread engine f (vs ++ [l]) w' =
        (call inner f (vs ++ bs)).ensuring (noteSpread (f :: (vs ++ bs))) w' := by
      rw [spread_eq (hlambda _ _ _ hforce) hl, hcall]
    rw [apply_eq_spread hv ha hf hforce (Heap.isThunk_of_spine hl), ensuring_congr hspread]
    -- the note on the arguments stays behind the veil
    refine veiled_ensuring (fun u => ?_) (Veil.blind_drop _) w'
    rfl
  refine ⟨hok, fun vs os w' t hforce hthunk hl ht => ?_, fun vs os w' hforce hthunk hl => ⟨?_, ?_⟩,
    fun e w' hforce => ?_, fun bs hplain hl => ?_⟩
  · have hspread : spread engine f (vs ++ [l]) w' =
        .error (.failure (.of .typeMismatch "apply" "list as last argument" t)) w' := by
      rw [spread_mismatch (hlambda _ _ _ hforce) hl, ht]
      rfl
    rw [apply_eq_spread hv ha hf hforce hthunk, ensuring_error hspread]
  · rcases hl with hl | ⟨-, hd⟩
    · exact Heap.not_acyclic_of_spine hl
    · exact Heap.not_acyclic_of_describe hd
  · rw [apply_eq_spread hv ha hf hforce hthunk,
      ensuring_error (spread_exhausted (hlambda _ _ _ hforce) hl)]
  · obtain ⟨next, happly, -⟩ := exists_forcing hv ha (f :: (as ++ [l]))
    rw [happly, Arguments.forcing, bind_error (force_apply_error hf hforce l)]
  · rw [hok _ _ _ _ (Arguments.force_plain hplain) hl, ensuring_releaseAll_nil]

/-- Two functions of the library, a thunk that gives a constant, one that fails because its name is
not bound, a list with the first thunk in it, and a pair that is its own right side. -/
def thunkWorld : World :=
  Client.afterDeeds (.ofDepth 0) {}
    [.call (.library .apply), .call (.library .isPromise), .call (.scope none),
      .call (.thunk (.expression (.atom ⟨.boolean, "#t", ⟨1, 2⟩⟩)) (some ⟨0⟩)),
      .call (.thunk (.expression (.atom ⟨.identifier, "x", ⟨1, 1⟩⟩)) (some ⟨0⟩)),
      .call (.list [some ⟨3⟩]), .call (.pair Heap.emptyList Heap.emptyList),
      .call (.setRight (some ⟨6⟩) (some ⟨6⟩))]

/-- The function of the library that a reference points to, if it lives. -/
def library? (h : Heap) (r : Ref) : Option Builtin :=
  (h.get? r).bind fun
    | ⟨_, false, .lambda (.library f)⟩ => some f
    | _ => none

theorem get?_of_library? {h : Heap} {r : Ref} {f : Builtin} (hf : library? h r = some f) :
    ∃ n, h.get? r = some ⟨n, false, .lambda (.library f)⟩ := by
  obtain ⟨o, ho, hlibrary⟩ := Option.bind_eq_some_iff.mp hf
  split at hlibrary
  · cases hlibrary
    exact ⟨_, ho⟩
  · cases hlibrary

/-- Whether the first thunk has a value, after which the empty list is a list still, a function is
none but has a description, and the pair is none, and the second thunk has no value. -/
def evaluates : Bool :=
  match Arguments.force (.ofDepth 2) [some ⟨3⟩] thunkWorld,
    Arguments.force (.ofDepth 2) [some ⟨4⟩] thunkWorld with
  | .ok _ w, .error _ _ =>
    decide (w.heap.spine Heap.emptyList = .proper [] ∧ w.heap.isThunk (some ⟨2⟩) = false ∧
      w.heap.spine (some ⟨2⟩) = .improper ∧
      w.heap.describe? (some ⟨2⟩) = some "LAMBDA #<procedure:library>" ∧
      w.heap.isThunk (some ⟨6⟩) = false ∧ w.heap.spine (some ⟨6⟩) = .endless)
  | _, _ => false

/-- Whether an object is a thunk, asked by `apply`: of a thunk, of a thunk and what is no list, of a
thunk and a chain of pairs without an end, of a thunk that fails, and of the thunk in the list. -/
theorem apply_eq_call_example : ∃ (vs os : List Ref) (w₁ w₂ : World) (e : Halt),
    Arguments.force (.ofDepth 2) [some ⟨3⟩] thunkWorld = .ok (vs, os) w₁ ∧
    veiled .marks (call (.ofDepth 2) (some ⟨1⟩) [some ⟨2⟩, some ⟨3⟩, Heap.emptyList] thunkWorld) =
      veiled .marks ((call (.ofDepth 1) (some ⟨2⟩) (vs ++ [])).ensuring (World.releaseAll os) w₁) ∧
    veiled .marks (call (.ofDepth 2) (some ⟨1⟩) [some ⟨2⟩, some ⟨3⟩, some ⟨2⟩] thunkWorld) =
      veiled .marks (.error (.failure (.of .typeMismatch "apply" "list as last argument"
        "LAMBDA #<procedure:library>")) (w₁.releaseAll os)) ∧
    veiled .marks (call (.ofDepth 2) (some ⟨1⟩) [some ⟨2⟩, some ⟨3⟩, some ⟨6⟩] thunkWorld) =
      veiled .marks (.error .exhausted (w₁.releaseAll os)) ∧
    Arguments.force (.ofDepth 2) [some ⟨4⟩] thunkWorld = .error e w₂ ∧
    veiled .marks (call (.ofDepth 2) (some ⟨1⟩) [some ⟨2⟩, some ⟨4⟩, Heap.emptyList] thunkWorld) =
      veiled .marks (.error e w₂) ∧
    veiled .marks (call (.ofDepth 2) (some ⟨1⟩) [some ⟨2⟩, some ⟨5⟩] thunkWorld) =
      veiled .marks (call (.ofDepth 1) (some ⟨2⟩) [some ⟨3⟩] thunkWorld) := by
  have happly := apply_eq_call (w := thunkWorld) (a := some ⟨1⟩) (f := some ⟨2⟩) (fun _ _ => rfl)
    (Engine.respects_ofDepth World.elementary_later 2) (Engine.ignores_ofDepth .marks 2)
    (get?_of_library? (by decide +kernel)) (by decide +kernel)
  have hends : evaluates = true := by decide +kernel
  unfold evaluates at hends
  split at hends
  · next p w₁ e w₂ hok herr =>
    obtain ⟨hlist, hthunk, hother, hdescribe, hpair, hendless⟩ := of_decide_eq_true hends
    exact ⟨p.1, p.2, w₁, w₂, e, hok, (happly [some ⟨3⟩] Heap.emptyList).1 _ _ _ _ hok hlist,
      (happly [some ⟨3⟩] (some ⟨2⟩)).2.1 _ _ _ _ hok hthunk hother hdescribe,
      ((happly [some ⟨3⟩] (some ⟨6⟩)).2.2.1 _ _ _ hok hpair (.inl hendless)).2, herr,
      (happly [some ⟨4⟩] Heap.emptyList).2.2.2.1 _ _ herr,
      (happly [] (some ⟨5⟩)).2.2.2.2 [some ⟨3⟩] (by simp) (by decide +kernel)⟩
  · cases hends

/-- The constant that a run gives. -/
def given : EStateM.Result Halt World Ref → Option Constant
  | .ok v w =>
    match w.heap.get? v with
    | some { payload := .constant c, .. } => some c
    | _ => none
  | .error _ _ => none

theorem given_veiled (v : Veil) (r : EStateM.Result Halt World Ref) :
    given (veiled v r) = given r := by
  cases r <;> rfl

/-- A thunk is a promise, but `apply` asks for its value, which is none. -/
theorem apply_ne_call_promise :
    Object.hasTag thunkWorld.heap .lambda (some ⟨2⟩) = true ∧
    thunkWorld.heap.spine Heap.emptyList = .proper [] ∧
    given (call (.ofDepth 2) (some ⟨1⟩) [some ⟨2⟩, some ⟨3⟩, Heap.emptyList] thunkWorld) =
      some (.boolean false) ∧
    given (call (.ofDepth 1) (some ⟨2⟩) [some ⟨3⟩] thunkWorld) = some (.boolean true) ∧
    veiled .marks (call (.ofDepth 2) (some ⟨1⟩) [some ⟨2⟩, some ⟨3⟩, Heap.emptyList] thunkWorld) ≠
      veiled .marks (call (.ofDepth 1) (some ⟨2⟩) [some ⟨3⟩] thunkWorld) := by
  have happly :
      given (call (.ofDepth 2) (some ⟨1⟩) [some ⟨2⟩, some ⟨3⟩, Heap.emptyList] thunkWorld) =
        some (.boolean false) := by decide +kernel
  have hdirect : given (call (.ofDepth 1) (some ⟨2⟩) [some ⟨3⟩] thunkWorld) =
      some (.boolean true) := by decide +kernel
  refine ⟨by decide +kernel, by decide +kernel, happly, hdirect, fun he => ?_⟩
  have hgiven := congrArg given he
  rw [given_veiled, given_veiled, happly, hdirect] at hgiven
  cases hgiven

end Procedure

end CountedLisp
