import CountedLisp.Proofs.Closing
import CountedLisp.Proofs.Neutrality
import Mathlib.Data.Fintype.Pigeonhole
import Mathlib.Data.Set.Finite.Lattice

/-!
# What closing leaves behind

A client has given up all that it owned, so that nothing is owned from outside but the scopes on the
stack of its workspace. Then two things are known about closing the workspace.

Whatever lies on a cycle of ownership, or is owned by one, keeps an owner until the end and outlives
the stack (`Heap.Upholds.drop`). Conversely, all that outlives the stack has an owner that does so,
too. As there are only finitely many things, the way back from owner to owner leads into a cycle
(`belowCycle_of_finite`). So scopes have to be destroyed that are still owned exactly if there are
scopes on cycles or owned by them.

Destroying a scope that is still owned makes the count of this scope wrong, but not that of any
object (`Heap.Remains`). So all objects that outlive the scopes have an owner again, which now is an
object.
-/

namespace CountedLisp

open Run Relation

/-! ### Cycles -/

/-- Something lies on a cycle of a relation, or further along from one. -/
def BelowCycle {α : Type} (R : α → α → Prop) (x : α) : Prop :=
  ∃ z, TransGen R z z ∧ ReflTransGen R z x

variable {α : Type} {R R' : α → α → Prop}

theorem BelowCycle.mono {x : α} (hx : BelowCycle R x) (hR : ∀ a b, R a b → R' a b) :
    BelowCycle R' x := by
  obtain ⟨z, hcycle, hpath⟩ := hx
  exact ⟨z, TransGen.mono hR _ _ hcycle, ReflTransGen.mono hR _ _ hpath⟩

/-- What lies on a cycle or below has a predecessor that does so, too. -/
theorem BelowCycle.exists_pred {x : α} (hx : BelowCycle R x) : ∃ y, BelowCycle R y ∧ R y x := by
  obtain ⟨z, hcycle, hpath⟩ := hx
  have hpath : TransGen R z x := by
    rcases hpath.cases_tail with rfl | ⟨y, hy, hyx⟩
    · exact hcycle
    · exact .tail' hy hyx
  obtain ⟨y, hy, hyx⟩ := TransGen.tail'_iff.mp hpath
  exact ⟨y, ⟨z, hcycle, hy⟩, hyx⟩

/-- In a finite set whose members all have a predecessor in the set, each of them lies on a cycle or
below. -/
theorem belowCycle_of_finite {S : Set α} (hS : S.Finite) (hR : ∀ x ∈ S, ∃ y ∈ S, R y x) {x : α}
    (hx : x ∈ S) : BelowCycle R x := by
  have : Nonempty α := ⟨x⟩
  choose! pred hpred using hR
  have hmem : ∀ n, pred^[n] x ∈ S := by
    intro n
    induction n with
    | zero => exact hx
    | succ n ih =>
      rw [Function.iterate_succ_apply']
      exact (hpred _ ih).1
  have hstep : ∀ n, R (pred^[n + 1] x) (pred^[n] x) := by
    intro n
    rw [Function.iterate_succ_apply']
    exact (hpred _ (hmem n)).2
  have hpath : ∀ i k, ReflTransGen R (pred^[i + k] x) (pred^[i] x) := by
    intro i k
    induction k with
    | zero => exact .refl
    | succ k ih => exact .head (hstep (i + k)) ih
  -- going back step by step, one comes to the same place twice
  have := hS.to_subtype
  obtain ⟨i, j, hij, heq⟩ :=
    Finite.exists_ne_map_eq_of_infinite fun n => (⟨pred^[n] x, hmem n⟩ : S)
  wlog hlt : i < j generalizing i j
  · exact this j i hij.symm heq.symm (by omega)
  obtain ⟨k, rfl⟩ := Nat.exists_eq_add_of_lt hlt
  have hsame : pred^[i] x = pred^[i + k + 1] x := congrArg Subtype.val heq
  refine ⟨pred^[i] x, ?_, ?_⟩
  · nth_rewrite 1 [hsame]
    exact TransGen.head' (hstep (i + k)) (hpath i k)
  · simpa using hpath 0 i

namespace Heap

/-! ### Owners -/

/-- Something living owns a reference. -/
def Owns (h : Heap) (x y : Handle) : Prop :=
  h.Lives x ∧ y ∈ h.ownedBy x

theorem owners_pos_iff {h : Heap} {x : Handle} : 0 < h.owners x ↔ ∃ y, h.Owns y x := by
  constructor
  · intro hpos
    rcases Nat.add_pos_iff_pos_or_pos.mp hpos with hpos | hpos
    · obtain ⟨o, hmem, hx⟩ := List.mem_flatMap.mp (List.count_pos_iff.mp hpos)
      obtain ⟨i, ho⟩ := Array.mem_iff_getElem?.mp (Array.mem_toList_iff.mp hmem)
      have ho : h.object? ⟨i⟩ = some o := ho
      rw [Object.held] at hx
      split_ifs at hx with hd
      · cases hx
      · exact ⟨.object ⟨i⟩, ⟨o, ho, Bool.eq_false_iff.mpr hd⟩, by simpa [ownedBy, ho] using hx⟩
    · obtain ⟨s, hmem, hx⟩ := List.mem_flatMap.mp (List.count_pos_iff.mp hpos)
      obtain ⟨i, hs⟩ := Array.mem_iff_getElem?.mp (Array.mem_toList_iff.mp hmem)
      have hs : h.scope? ⟨i⟩ = some s := hs
      rw [Scope.held] at hx
      split_ifs at hx with hd
      · cases hx
      · exact ⟨.scope ⟨i⟩, ⟨s, hs, Bool.eq_false_iff.mpr hd⟩, by simpa [ownedBy, hs] using hx⟩
  · rintro ⟨y, hy, hx⟩
    cases y with
    | object id =>
      obtain ⟨o, ho, hd⟩ := hy
      exact owners_pos_of_object ho (by simpa [Object.held, hd, ownedBy, ho] using hx)
    | scope id =>
      obtain ⟨s, hs, hd⟩ := hy
      exact owners_pos_of_scope hs (by simpa [Scope.held, hd, ownedBy, hs] using hx)

/-- The empty list owns nothing, and all else is counted. -/
theorem Owns.counted {h : Heap} {x y : Handle} (hxy : h.Owns x y) : h.count? x ≠ none := by
  obtain ⟨hx, hy⟩ := hxy
  cases x with
  | object id =>
    obtain ⟨o, ho, -⟩ := hx
    have hi : o.payload.isImmortal = false := by
      cases hp : o.payload <;> simp_all [ownedBy, Payload.isImmortal, Payload.owned]
    simp [count?, ho, hi]
  | scope id =>
    obtain ⟨s, hs, -⟩ := hx
    simp [count?, hs]

theorem Fades.owns {h h' : Heap} (hf : h.Fades h') {x y : Handle} (hxy : h'.Owns x y) :
    h.Owns x y :=
  ⟨hf.lives_of_lives hxy.1, hf.ownedBy hxy.1 ▸ hxy.2⟩

theorem finite_knows (h : Heap) : {x | h.Knows x}.Finite := by
  have hobjects := (Set.finite_lt_nat h.objects.size).image fun i => Handle.object ⟨i⟩
  have hscopes := (Set.finite_lt_nat h.scopes.size).image fun i => Handle.scope ⟨i⟩
  refine (hobjects.union hscopes).subset fun x hx => ?_
  cases x with
  | object id => exact .inl ⟨id.index, hx, rfl⟩
  | scope id => exact .inr ⟨id.index, hx, rfl⟩

/-! ### Exact books -/

theorem Kept.dead {h : Heap} (hk : h.Kept) {x : Handle} (hx : h.count? x = some 0) : h.Dead x := by
  cases x with
  | object id =>
    obtain ⟨o, ho, hcount⟩ := Option.bind_eq_some_iff.mp hx
    split_ifs at hcount with hi
    exact ⟨o, ho, hk.object ho (UInt32.toNat_inj.mp (Option.some.inj hcount))⟩
  | scope id =>
    obtain ⟨s, hs, hcount⟩ := Option.map_eq_some_iff.mp hx
    exact ⟨s, hs, hk.scope hs (UInt32.toNat_inj.mp hcount)⟩

/-- The books are exact: every count is the number of owners, and exactly what has none is dead. -/
structure Balanced (h : Heap) (C : Share) : Prop extends h.Accounts C where
  kept : h.Kept

namespace Balanced

variable {h : Heap} {C : Share}

theorem drop {died : Array Demise} {work : List Handle} (hb : h.Balanced ((work : Share) + C)) :
    (h.drop died work).1.Balanced C :=
  ⟨hb.toAccounts.drop, steady_kept.moves hb.kept (moves_drop h died work)⟩

/-- **All that lives without an owner outside lies on a cycle or below**, except for the empty
list. -/
theorem belowCycle (hb : h.Balanced 0) {x : Handle} (hx : h.Lives x) (hc : h.count? x ≠ none) :
    BelowCycle h.Owns x := by
  let S : Set Handle := {x | h.Lives x ∧ h.count? x ≠ none}
  have hS : S.Finite := h.finite_knows.subset fun x hx => hx.1.knows
  refine belowCycle_of_finite hS (fun x hx => ?_) (show x ∈ S from ⟨hx, hc⟩)
  obtain ⟨n, hn⟩ := Option.ne_none_iff_exists'.mp hx.2
  have hpos : 0 < h.owners x := by
    have hcount := hb.count x n hn
    rw [Multiset.count_zero, zero_add] at hcount
    refine Nat.pos_of_ne_zero fun h0 => hx.1.not_dead (hb.kept.dead ?_)
    rw [hn, hcount, h0]
  obtain ⟨y, hy⟩ := owners_pos_iff.mp hpos
  exact ⟨y, ⟨hy.1, hy.counted⟩, hy⟩

end Balanced

/-! ### What keeps itself alive -/

/-- Everything of a kind lives and is owned by something of that kind. -/
def Upholds (h : Heap) (K : Handle → Prop) : Prop :=
  ∀ x, K x → h.Lives x ∧ ∃ y, K y ∧ x ∈ h.ownedBy y

theorem Accounts.upholds {h : Heap} {C : Share} (ha : h.Accounts C) :
    h.Upholds (BelowCycle h.Owns) := by
  intro x hx
  obtain ⟨y, hy, hyx⟩ := hx.exists_pred
  exact ⟨ha.lives (Nat.add_pos_right _ (owners_pos_iff.mpr ⟨y, hyx⟩)), y, hy, hyx.2⟩

namespace Upholds

variable {h : Heap} {C : Share} {K : Handle → Prop}

/-- The last reference to something cannot be owned outside if it has an owner inside. -/
theorem step {x : Handle} (hk : h.Upholds K) (ha : h.Accounts (x ::ₘ C)) :
    (h.dropOne x).heap.Upholds K := by
  have hlives : ∀ y, K y → (h.dropOne x).heap.Lives y := by
    intro y hy
    obtain ⟨hl, z, hz, hzy⟩ := hk y hy
    by_cases hxy : x = y
    · subst hxy
      refine ((dropOne_of_demise_eq_none ?_).2 x).mpr hl
      by_contra hdemise
      have hcount := ha.count x 1 (dropOne_of_demise_ne_none hdemise).1
      have hpos : 0 < h.owners x := owners_pos_iff.mpr ⟨z, (hk z hz).1, hzy⟩
      rw [Multiset.count_cons_self] at hcount
      omega
    · exact (lives_dropOne_of_ne h hxy).mpr hl
  intro y hy
  obtain ⟨-, z, hz, hzy⟩ := hk y hy
  exact ⟨hlives y hy, z, hz, (drops_dropOne h x).fades.ownedBy (hlives z hz) ▸ hzy⟩

/-- **What keeps itself alive outlives all references from outside.** -/
theorem drop {died : Array Demise} {work : List Handle} (hk : h.Upholds K)
    (ha : h.Accounts ((work : Share) + C)) : (h.drop died work).1.Upholds K := by
  fun_induction Heap.drop with
  | case1 => exact hk
  | case2 h died x rest step ih =>
    rw [← Multiset.cons_coe, Multiset.cons_add] at ha
    have := ha.step (drops_dropOne h x)
    rw [← add_assoc, Multiset.coe_add] at this
    exact ih (hk.step ha) this

end Upholds

/-! ### Objects without scopes -/

/-- The counts of living objects are the numbers of their owners. Nothing is said about scopes. -/
def Remains (h : Heap) (C : Share) : Prop :=
  ∀ id o, h.object? id = some o → o.dead = false → o.payload.isImmortal = false →
    o.refs.toNat = C.count (.object id) + h.owners (.object id)

namespace Remains

variable {h h' : Heap} {C D : Share}

/-- Scopes that are owned outside do not matter. -/
theorem congr (hr : h.Remains C) (hCD : ∀ id, D.count (.object id) = C.count (.object id)) :
    h.Remains D := by
  intro id o ho hd hi
  rw [hCD]
  exact hr id o ho hd hi

/-- A scope that is destroyed hands over what it owns, whatever its count is. -/
theorem destroyed (hr : h.Remains C) {id : ScopeId} {s : Scope} (hs : h.scope? id = some s)
    (hd : s.dead = false) :
    ((h.setScope id s.destroyed).updateRegistry s.registry (Registry.erase s.serial)).Remains
      ((s.owned : Share) + C) := by
  intro id' o ho hod hi
  have hcount := hr id' o (by simpa using ho) hod hi
  have hown := owners_setScope s.destroyed hs (.object id')
  have hheld : s.held = s.owned := by rw [Scope.held, hd]; rfl
  have hgone : s.destroyed.held = [] := rfl
  rw [hheld, hgone, List.count_nil] at hown
  rw [owners_updateRegistry, Multiset.count_add, Multiset.coe_count]
  omega

/-- Giving up one reference hands the references of what is destroyed over to the outside. -/
theorem drops {x : Handle} {freed : List Handle} (hr : h.Remains (x ::ₘ C)) (hp : h.Spent)
    (hk : h.Kept) (hx : Drops h x h' freed) : h'.Remains ((freed : Share) + C) := by
  have hscope : ∀ {s : ScopeId}, x = .scope s → h.Remains C := fun hx =>
    hr.congr fun id => (Multiset.count_cons_of_ne (by rw [hx]; exact nofun) C).symm
  cases hx with
  | idle hx =>
    intro id o ho hd hi
    -- a living object is counted, so that its count would have gone down
    have hne : Handle.object id ≠ x := by
      rintro rfl
      rcases hx with hx | hx
      · simp [count?, ho, hi] at hx
      · have hlives : h.Lives (.object id) := ⟨o, ho, hd⟩
        exact hlives.not_dead (hk.dead hx)
    have hcount := hr id o ho hd hi
    rw [Multiset.count_cons_of_ne hne] at hcount
    simpa using hcount
  | @lessObject id o ho hi h0 h1 =>
    intro id' o' ho' hd' hi'
    have hown : (h.setObject id { o with refs := o.refs - 1 }).owners (.object id') =
        h.owners (.object id') := Nat.add_right_cancel (owners_setObject _ ho (.object id'))
    rw [hown, Multiset.coe_nil, zero_add]
    rcases object?_setObject_cases ho ho' with ⟨rfl, rfl⟩ | ⟨hid, ho'⟩
    · have hcount := hr id' o ho hd' hi
      have hpred := toNat_sub_one h0
      rw [Multiset.count_cons_self] at hcount
      show (o.refs - 1).toNat = _
      omega
    · have hne : Handle.object id' ≠ .object id := fun he => hid (by cases he; rfl)
      rw [← Multiset.count_cons_of_ne hne C]
      exact hr id' o' ho' hd' hi'
  | @lastObject id o ho hi h1 =>
    intro id' o' ho' hd' hi'
    rcases object?_setObject_cases ho ho' with ⟨-, rfl⟩ | ⟨hid, ho'⟩
    · cases hd'
    · have hcount := hr id' o' ho' hd' hi'
      have hne : Handle.object id' ≠ .object id := fun he => hid (by cases he; rfl)
      rw [Multiset.count_cons_of_ne hne] at hcount
      -- what is destroyed has lived until now, so that it held what it owned
      have hd : o.dead = false := by
        refine Bool.eq_false_iff.mpr fun hd => ?_
        exact absurd ((hp.object ho hd).symm.trans h1) (by decide)
      have hheld : o.held = o.payload.owned := by rw [Object.held, hd]; rfl
      have hgone : o.destroyed.held = [] := rfl
      have hown := owners_setObject o.destroyed ho (.object id')
      rw [hheld, hgone, List.count_nil] at hown
      rw [Multiset.count_add, Multiset.coe_count]
      omega
  | @lessScope id s hs =>
    intro id' o ho hd hi
    have hown : (h.setScope id { s with refs := s.refs - 1 }).owners (.object id') =
        h.owners (.object id') := Nat.add_right_cancel (owners_setScope _ hs (.object id'))
    rw [hown, Multiset.coe_nil, zero_add]
    exact hscope rfl id' o ho hd hi
  | lastScope hs _ hd => exact (hscope rfl).destroyed hs hd

end Remains

/-- **If there are no scopes, all that lives without an owner outside lies on a cycle of objects or
below**, except for the empty list. -/
theorem Remains.belowCycle {h : Heap} (hr : h.Remains 0) (hk : h.Kept)
    (hs : ∀ id, ¬h.Lives (.scope id)) {id : ObjectId} {o : Object} (ho : h.object? id = some o)
    (hd : o.dead = false) (hi : o.payload.isImmortal = false) :
    BelowCycle (fun a b : ObjectId => h.Owns (.object a) (.object b)) id := by
  let S : Set ObjectId := {id | h.Lives (.object id) ∧ h.count? (.object id) ≠ none}
  have hS : S.Finite := by
    have hinj : Set.InjOn Handle.object (Set.preimage Handle.object {x | h.Knows x}) :=
      fun a _ b _ he => by cases he; rfl
    exact (h.finite_knows.preimage hinj).subset fun id hx => hx.1.knows
  -- each of these objects has an owner among them: its count has to come from somewhere
  refine belowCycle_of_finite hS (fun id hx => ?_)
    (show id ∈ S from ⟨⟨o, ho, hd⟩, by simp [count?, ho, hi]⟩)
  obtain ⟨hlives, hcounted⟩ := hx
  have hpos : 0 < h.owners (.object id) := by
    obtain ⟨o, ho, hd⟩ := hlives
    have hi : o.payload.isImmortal = false := by
      cases hi : o.payload.isImmortal with
      | false => rfl
      | true => simp [count?, ho, hi] at hcounted
    have hcount := hr id o ho hd hi
    rw [Multiset.count_zero, zero_add] at hcount
    rw [← hcount]
    refine Nat.pos_of_ne_zero fun h0 => ?_
    have hdead := hk.object ho (UInt32.toNat_inj.mp h0)
    rw [hd] at hdead
    cases hdead
  obtain ⟨y, hy⟩ := owners_pos_iff.mp hpos
  cases y with
  | object a => exact ⟨a, ⟨hy.1, hy.counted⟩, hy⟩
  | scope s => exact absurd hy.1 (hs s)

/-! ### Registered scopes -/

/-- All living scopes are in a registry. -/
def Registered (h : Heap) (r : RegistryId) : Prop :=
  ∀ id, h.Lives (.scope id) → ∃ n, (n, id) ∈ h.registry r

namespace Registered

variable {h h' : Heap} {r : RegistryId}

theorem fades (hreg : h.Registered r) (ht : h.Tracked) (hf : h.Fades h') (ht' : h'.Tracked) :
    h'.Registered r := by
  rintro id ⟨s', hs', hd'⟩
  obtain ⟨s, hs, he⟩ := hf.livingScope hs' hd'
  obtain ⟨n, hn⟩ := hreg id ⟨s, hs, by rw [he]; exact hd'⟩
  obtain ⟨x, hx, hserial, hxr, -⟩ := (ht.mem_iff r n id).mp hn
  rw [hs, Option.some.injEq] at hx
  subst hx
  rw [he] at hserial hxr
  exact ⟨n, (ht'.mem_iff r n id).mpr ⟨s', hs', hserial, hxr, hd'⟩⟩

end Registered

end Heap

/-! ### Closing -/

namespace Workspace

variable {ws : Workspace} {w : World}

/-- The global scope is at the bottom of the stack, or the workspace has been closed. -/
def Rooted (ws : Workspace) (h : Heap) : Prop :=
  ws.scopes.items.getLast? = some ws.globals ∨
    ws.scopes.items = [] ∧ h.Dead (.scope ws.globals)

namespace Rooted

variable {h : Heap}

/-- Closing gives up what the stack owns; the global scope of a closed workspace cannot be given up
again. -/
theorem roots_eq (hroot : ws.Rooted h) (ha : h.Accounts ws.share) :
    (ws.roots : Share) = ws.share ∨ ws.share = 0 ∧ (h.drop #[] ws.roots).1 = h := by
  rcases hroot with hlast | ⟨hitems, hdead⟩
  · left
    rw [roots, share, Share.scopes, List.dropLast_append_getLast? _ hlast]
  · right
    refine ⟨by rw [share, hitems]; rfl, ?_⟩
    rw [roots, hitems]
    exact congrArg Prod.fst (Heap.drop_idle (ha.dead _ hdead) #[])

theorem balanced (hroot : ws.Rooted h) (hb : h.Balanced ws.share) :
    (h.drop #[] ws.roots).1.Balanced 0 := by
  rcases hroot.roots_eq hb.toAccounts with hroots | ⟨hshare, hsame⟩
  · rw [← hroots, ← add_zero (ws.roots : Share)] at hb
    exact hb.drop
  · rwa [hsame, ← hshare]

theorem upholds (hroot : ws.Rooted h) (ha : h.Accounts ws.share) :
    (h.drop #[] ws.roots).1.Upholds (BelowCycle h.Owns) := by
  rcases hroot.roots_eq ha with hroots | ⟨-, hsame⟩
  · have hall : h.Accounts ((ws.roots : Share) + 0) := by rwa [add_zero, hroots]
    exact ha.upholds.drop hall
  · rw [hsame]
    exact ha.upholds

/-- **Scopes outlive the stack exactly if they lie on a cycle or are owned by one.** -/
theorem lives_iff (hroot : ws.Rooted h) (hb : h.Balanced ws.share) {id : ScopeId} :
    (h.drop #[] ws.roots).1.Lives (.scope id) ↔
      h.Lives (.scope id) ∧ BelowCycle h.Owns (.scope id) := by
  have hfades := Heap.fades_drop h #[] ws.roots
  constructor
  · intro hlives
    have hcounted : (h.drop #[] ws.roots).1.count? (.scope id) ≠ none := by
      obtain ⟨s, hs, -⟩ := hlives
      simp [Heap.count?, hs]
    -- nothing comes to be owned when references are given up
    exact ⟨hfades.lives_of_lives hlives,
      ((hroot.balanced hb).belowCycle hlives hcounted).mono fun _ _ => hfades.owns⟩
  · rintro ⟨-, hcycle⟩
    exact (hroot.upholds hb.toAccounts _ hcycle).1

end Rooted

end Workspace

end CountedLisp
