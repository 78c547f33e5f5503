import CountedLisp.Proofs.Adoption
import CountedLisp.Proofs.Closing
import CountedLisp.Proofs.Forcing
import CountedLisp.Proofs.Lists

/-!
# The limit of counting

A count is a word of 32 bits. An object at the maximum gets no further owner, which is a breach.
A scope does get one, and its count starts again from zero: it lives on without a count, and no
reference that is given up will ever destroy it.

Apart from that, the count of a scope goes up and down with its owners. `Client.Turn` are the ways
in which a client gets a reference to a scope, directly or through something new that owns the
scope, together with giving one up. Each of them changes the count by one (`Turn.scope?_after`), and
so the count after many of them is their balance (`Turn.scope?_afterAll`).
-/

namespace CountedLisp

open Run

variable {engine : Engine} {w w' : World} {id : ScopeId} {x : Scope}

theorem Heap.room_scope (hx : w.heap.scope? id = some x) (hd : x.dead = false)
    (hlt : x.refs.toNat + 1 < 2 ^ 32) : w.heap.Room (Share.scope (some id)) := by
  intro y hy
  obtain rfl := Multiset.mem_singleton.1 hy
  refine ⟨⟨x, hx, hd⟩, fun n hn => ?_⟩
  simp only [count?, hx, Option.map_some, Option.some.injEq] at hn
  rw [Share.scope_some, Multiset.count_singleton_self, ← hn]
  exact hlt

/-- One more owner of a scope, in a world where it has the count of one more. -/
theorem Heap.ShiftsAt.scope?_one {h h' : Heap}
    (hs : h.ShiftsAt h' (UInt32.ofNat ((Share.scope (some id)).count (.scope id))) (.scope id))
    (hx : h.scope? id = some x) : h'.scope? id = some { x with refs := x.refs + 1 } := by
  rw [Share.scope_some, Multiset.count_singleton_self] at hs
  rw [show _ = _ from hs, hx]
  rfl

/-- A scope with a count of one is destroyed when a reference to it is given up, whatever else is
given up before that. -/
theorem Heap.dead_of_drop {h : Heap} (died : Array Demise) {work : List Handle}
    (hx : h.scope? id = some x) (hd : x.dead = false) (hrefs : x.refs = 1)
    (hmem : .scope id ∈ work) : (h.drop died work).1.Dead (.scope id) := by
  fun_induction Heap.drop h died work with
  | case1 => cases hmem
  | case2 h died y rest step ih =>
    by_cases hy : y = .scope id
    · refine (fades_drop _ _ _).dead ⟨x.destroyed, ?_, rfl⟩
      rw [scope?_dropOne, if_pos hy, hx]
      simp [Scope.lessened, Scope.isLast, hrefs, hd]
    · have hrest : .scope id ∈ rest := (List.mem_cons.1 hmem).resolve_left fun he => hy he.symm
      exact ih (by rw [scope?_dropOne, if_neg hy, hx]) (List.mem_append_right _ hrest)

namespace Scope

/-- A new object that owns a scope. -/
theorem retain_make_raises (p : ScopeRef → Payload) (hx : w.heap.scope? id = some x)
    (hd : x.dead = false) (hlt : x.refs.toNat + 1 < 2 ^ 32) :
    ∃ r w', (retain (some id) >>= fun s => Object.make (p s)) w = .ok r w' ∧
      w'.reclaim = w.reclaim ∧ w'.heap.scope? id = some { x with refs := x.refs + 1 } := by
  obtain ⟨w₁, h₁, hraises⟩ := retain_raises (Heap.room_scope hx hd hlt)
  rw [bind_ok h₁, Object.make_eq]
  exact ⟨_, _, rfl, hraises.passes.reclaim, (hraises.shifts _).scope?_one hx⟩

/-- The last owner of a scope gives it up, which destroys it. -/
theorem dead_of_release_last (hw : w.reclaim = true) (hx : w.heap.scope? id = some x)
    (hd : x.dead = false) (hrefs : x.refs = 1) :
    (w.releaseScope (some id)).heap.Dead (.scope id) := by
  rw [heap_releaseScope hw]
  exact Heap.dead_of_drop _ hx hd hrefs (by simp)

end Scope

namespace Client

/-- A way to get a reference to a scope, or to give one up. A new scope inside of it, a new function
and a new thunk own it. -/
inductive Turn where
  | retain
  | scope
  | function (params : List Text) (strict : Bool) (body : List Datum)
  | thunk (code : Code)
  | release

namespace Turn

def call (id : ScopeId) : Turn → Call
  | retain => .retainScope (some id)
  | scope => .scope (some id)
  | function params strict body => .function params strict body (some id)
  | thunk code => .thunk code (some id)
  | release => .releaseScope (some id)

/-- By how much the number of owners changes. -/
def gain : Turn → Int
  | release => -1
  | _ => 1

/-- The number of owners of a scope after turns, given how many there are before them. -/
def balance (n : Nat) (turns : List Turn) : Int :=
  n + (turns.map gain).sum

/-- The world after turns. -/
def after (engine : Engine) (id : ScopeId) (w : World) (turns : List Turn) : World :=
  afterDeeds engine w (turns.map fun t => .call (t.call id))

/-- There is always someone who owns the scope, and never more than can be counted. -/
def InRange (n : Nat) (turns : List Turn) : Prop :=
  ∀ first, first <+: turns → 1 ≤ balance n first ∧ balance n first < 2 ^ 32

theorem balance_cons (n : Nat) (t : Turn) (turns : List Turn) {m : Nat}
    (hm : (m : Int) = n + t.gain) : balance n (t :: turns) = balance m turns := by
  rw [balance, balance, List.map_cons, List.sum_cons, hm]
  exact (add_assoc _ _ _).symm

theorem InRange.head {n : Nat} {t : Turn} {turns : List Turn} (hr : InRange n (t :: turns)) :
    1 ≤ (n : Int) + t.gain ∧ (n : Int) + t.gain < 2 ^ 32 := by
  have := hr [t] ⟨turns, rfl⟩
  simpa [balance] using this

theorem InRange.tail {n : Nat} {t : Turn} {turns : List Turn} (hr : InRange n (t :: turns))
    {m : Nat} (hm : (m : Int) = n + t.gain) : InRange m turns := by
  intro first hfirst
  rw [← balance_cons n t first hm]
  exact hr _ (List.cons_prefix_cons.2 ⟨rfl, hfirst⟩)

/-- Getting a reference to a scope that can be counted. -/
theorem perform_raises (engine : Engine) (t : Turn) (ht : t.gain = 1)
    (hx : w.heap.scope? id = some x) (hd : x.dead = false) (hlt : x.refs.toNat + 1 < 2 ^ 32) :
    ∃ gained w', (t.call id).perform engine w = .ok gained w' ∧ w'.reclaim = w.reclaim ∧
      w'.heap.scope? id = some { x with refs := x.refs + 1 } := by
  cases t with
  | retain =>
    obtain ⟨w', h', hraises⟩ := Scope.retain_raises (Heap.room_scope hx hd hlt)
    exact ⟨_, w', map_ok h', hraises.passes.reclaim, (hraises.shifts _).scope?_one hx⟩
  | scope =>
    obtain ⟨w', -, -, -, h', -, hpasses, hshifts⟩ :=
      Scope.make_raises (Heap.room_scope hx hd hlt)
    have hknows : w.heap.Knows (.scope id) := Heap.Lives.knows ⟨x, hx, hd⟩
    exact ⟨_, w', map_ok h', hpasses.reclaim, (hshifts _ hknows).scope?_one hx⟩
  | function params strict body =>
    obtain ⟨r, w', h', hrest⟩ := Scope.retain_make_raises (fun s => .lambda (.user
      { params := params, strict := strict, body := body, scope := s, calls := [] })) hx hd hlt
    exact ⟨_, w', map_ok h', hrest⟩
  | thunk code =>
    obtain ⟨r, w', h', hrest⟩ := Scope.retain_make_raises (fun s => .thunk
      { code := code, progress := .pending s }) hx hd hlt
    exact ⟨_, w', map_ok h', hrest⟩
  | release => cases ht

/-- A turn that leaves the scope with an owner changes its count by one. -/
theorem scope?_after (engine : Engine) (t : Turn) (hw : w.reclaim = true)
    (hx : w.heap.scope? id = some x) (hd : x.dead = false)
    (hpos : 1 ≤ (x.refs.toNat : Int) + t.gain) (hlt : (x.refs.toNat : Int) + t.gain < 2 ^ 32) :
    (after engine id w [t]).reclaim = true ∧ ∃ y,
      (after engine id w [t]).heap.scope? id = some y ∧ y.dead = false ∧
      (y.refs.toNat : Int) = x.refs.toNat + t.gain := by
  by_cases ht : t.gain = 1
  · rw [ht] at hlt ⊢
    have hroom : x.refs.toNat + 1 < 2 ^ 32 := by omega
    obtain ⟨gained, w', h', hreclaim, hscope⟩ := t.perform_raises engine ht hx hd hroom
    have hafter : after engine id w [t] = w' := (final_map _ _ _).trans (final_ok h')
    rw [hafter]
    refine ⟨hreclaim.trans hw, _, hscope, hd, ?_⟩
    exact_mod_cast Heap.toNat_add_one (ne_maxCount hroom)
  · -- only giving up a reference takes away from the count, and another owner is left
    obtain rfl : t = release := by
      cases t with
      | release => rfl
      | _ => exact absurd rfl ht
    have hone : 1 < x.refs.toNat := by
      simp only [gain] at hpos
      omega
    have hreclaim : (w.releaseScope (some id)).reclaim = true := by
      simp [World.releaseScope, World.drop, hw]
    refine ⟨hreclaim, _, (Scope.release_shared hw hx hone).1, hd, ?_⟩
    have := Heap.toNat_sub_one (n := x.refs) (fun h0 => by simp [h0] at hone)
    simp only [gain]
    omega

/-- **The count of a scope is the balance of its owners**, as long as it has one and there are not
more than can be counted. -/
theorem scope?_afterAll (engine : Engine) (turns : List Turn) (hw : w.reclaim = true)
    (hx : w.heap.scope? id = some x) (hd : x.dead = false) (hr : InRange x.refs.toNat turns) :
    (after engine id w turns).reclaim = true ∧ ∃ y,
      (after engine id w turns).heap.scope? id = some y ∧ y.dead = false ∧
      (y.refs.toNat : Int) = balance x.refs.toNat turns := by
  induction turns generalizing w x with
  | nil => exact ⟨hw, x, hx, hd, by simp [balance]⟩
  | cons t turns ih =>
    obtain ⟨hpos, hlt⟩ := hr.head
    obtain ⟨hw₁, y, hy, hyd, hcount⟩ := scope?_after engine t hw hx hd hpos hlt
    rw [balance_cons _ t turns hcount]
    exact ih hw₁ hy hyd (hr.tail hcount)

end Turn

end Client

/-- A call first makes a scope inside of the one that the function was made in. -/
theorem Procedure.call_eq {f : ObjectId} {o : Object} {c : Closure}
    (ho : w.heap.object? f = some o) (hd : o.dead = false) (hc : o.payload = .lambda (.user c))
    (args : List Ref) :
    call engine (some f) args w = (Scope.make c.scope >>= callIn engine f c args) w := by
  obtain ⟨refs, dead, payload⟩ := o
  cases hd
  cases hc
  unfold call
  rw [get_bind]
  have hget : w.heap.get? (some f) = some ⟨refs, false, .lambda (.user c)⟩ := ho
  rw [hget]
  rfl

namespace Client

/-- **Counts of scopes are right up to the maximum.** Whatever has been done so far, a living scope
has a count of at least one, unless some scope has had more owners than can be counted. From there
on its count is the balance of the references to it that are got and given up, in any order and
number, as long as the balance does not pass the maximum; and giving up the last one destroys it.
A call of a function gives the scope that the function was made in one more owner before anything
else happens. An object gets one more owner, too, or is left alone if it has as many as can be
counted. -/
theorem scope_count_eq_balance (he : Lawless engine) {w₀ : World} (hw : w₀.Fresh)
    (deeds : List Deed) (hdeeds : afterDeeds engine w₀ deeds = w)
    (hwrapped : w.conduct.wrapped = false) (hx : w.heap.scope? id = some x) (hd : x.dead = false) :
    1 ≤ x.refs.toNat ∧
    (∀ turns, Turn.InRange x.refs.toNat turns →
      (∃ y, (Turn.after engine id w turns).heap.scope? id = some y ∧ y.dead = false ∧
        (y.refs.toNat : Int) = Turn.balance x.refs.toNat turns) ∧
      (Turn.balance x.refs.toNat turns = 1 →
        (Turn.after engine id w (turns ++ [.release])).heap.Dead (.scope id))) ∧
    (x.refs ≠ maxCount → ∀ f o c args, w.heap.object? f = some o → o.dead = false →
      o.payload = .lambda (.user c) → c.scope = some id →
      ∃ scope w₁, Scope.make (some id) w = .ok scope w₁ ∧
        w₁.heap.scope? id = some { x with refs := x.refs + 1 } ∧
        Procedure.call engine (some f) args w = Procedure.callIn engine f c args scope w₁) ∧
    (∀ f o, w.heap.object? f = some o → o.dead = false → o.payload.isImmortal = false →
      1 ≤ o.refs.toNat ∧
      (o.refs ≠ maxCount → ∃ w₁, Object.retain (some f) w = .ok (some f) w₁ ∧
        w₁.heap.object? f = some { o with refs := o.refs + 1 }) ∧
      (o.refs = maxCount →
        Object.retain (some f) w = .error (.breach Object.overflowBreach.text) w)) := by
  have hreclaim : w.reclaim = true := hdeeds ▸ reclaim_afterDeeds he hw deeds
  have hkept : w.heap.Kept := hdeeds ▸ kept_afterDeeds he hw (hdeeds ▸ hwrapped)
  have hpos : ∀ {n : UInt32}, n ≠ 0 → 1 ≤ n.toNat := fun hn =>
    Nat.one_le_iff_ne_zero.2 fun h0 => hn (UInt32.toNat_inj.1 h0)
  refine ⟨hpos fun h0 => ?_, fun turns hr => ?_, fun hmax f o c args ho hod hc hscope => ?_,
    fun f o ho hod hi => ⟨hpos fun h0 => ?_, fun hmax => ?_, fun hmax => ?_⟩⟩
  · exact absurd (hkept.scope hx h0) (by simp [hd])
  · obtain ⟨hreclaim', y, hy, hyd, hcount⟩ :=
      Turn.scope?_afterAll engine turns hreclaim hx hd hr
    refine ⟨⟨y, hy, hyd, hcount⟩, fun hone => ?_⟩
    have hlast : y.refs.toNat = 1 := by omega
    have hafter : Turn.after engine id w (turns ++ [.release]) =
        (Turn.after engine id w turns).releaseScope (some id) := by
      simp only [Turn.after, afterDeeds, List.map_append, List.foldl_append]
      rfl
    rw [hafter]
    exact Scope.dead_of_release_last hreclaim' hy hyd (UInt32.toNat_inj.1 hlast)
  · have hroom : x.refs.toNat + 1 < 2 ^ 32 := by
      have hne : x.refs.toNat ≠ 4294967295 := fun h => hmax (UInt32.toNat_inj.1 h)
      have hlt := x.refs.toNat_lt
      omega
    obtain ⟨w₁, -, -, -, hmake, -, -, hshifts⟩ := Scope.make_raises (Heap.room_scope hx hd hroom)
    have hknows : w.heap.Knows (.scope id) := Heap.Lives.knows ⟨x, hx, hd⟩
    refine ⟨_, w₁, hmake, (hshifts _ hknows).scope?_one hx, ?_⟩
    rw [Procedure.call_eq ho hod hc, hscope, bind_ok hmake]
  · exact absurd (hkept.object ho h0) (by simp [hod])
  · rw [Object.retain_eq, ho]
    simp only [hi, hreclaim, hod, hmax]
    exact ⟨_, rfl, Heap.object?_setObject_self _ ho⟩
  · rw [Object.retain_eq, ho]
    simp [hi, hreclaim, hod, hmax]

/-- A scope with a function in it. -/
def scopeWithFunction : List Deed :=
  [.call (.scope none), .call (.function [] false [] (some ⟨0⟩))]

/-- Owners that come and go until one is left. -/
def ownerTurns : List Turn :=
  [.retain, .release, .thunk (.sequence []), .scope, .release, .release, .release]

theorem inRange_ownerTurns : Turn.InRange 2 ownerTurns := by
  intro first hfirst
  rw [List.prefix_iff_eq_take.1 hfirst]
  have hall : ∀ k ≤ 7, 1 ≤ Turn.balance 2 (ownerTurns.take k) ∧
      Turn.balance 2 (ownerTurns.take k) < 2 ^ 32 := by decide
  exact hall _ hfirst.length_le

theorem scope_count_eq_balance_ownerTurns : ∃ w x,
    afterDeeds (.ofDepth 0) {} scopeWithFunction = w ∧ w.conduct.wrapped = false ∧
    w.heap.scope? ⟨0⟩ = some x ∧ x.dead = false ∧ Turn.InRange x.refs.toNat ownerTurns ∧
    Turn.balance x.refs.toNat ownerTurns = 1 ∧
    (∃ y, (Turn.after (.ofDepth 0) ⟨0⟩ w ownerTurns).heap.scope? ⟨0⟩ = some y ∧ y.dead = false ∧
      (y.refs.toNat : Int) = 1) ∧
    (Turn.after (.ofDepth 0) ⟨0⟩ w (ownerTurns ++ [.release])).heap.Dead (.scope ⟨0⟩) := by
  have hstart : (((afterDeeds (.ofDepth 0) {} scopeWithFunction).heap.scope? ⟨0⟩).any fun x =>
      !x.dead && x.refs == 2) = true ∧
      (afterDeeds (.ofDepth 0) {} scopeWithFunction).conduct.wrapped = false := by decide +kernel
  obtain ⟨x, hx, hcount⟩ := (Option.any_eq_true _ _).1 hstart.1
  rw [Bool.and_eq_true, Bool.not_eq_true', beq_iff_eq] at hcount
  have hrange : Turn.InRange x.refs.toNat ownerTurns := by
    rw [hcount.2]
    exact inRange_ownerTurns
  have hone : Turn.balance x.refs.toNat ownerTurns = 1 := by
    rw [hcount.2]
    rfl
  have hbalance := (scope_count_eq_balance (.program 0) ⟨rfl, rfl, rfl, rfl⟩ scopeWithFunction rfl
    hstart.2 hx hcount.1).2.1 ownerTurns hrange
  exact ⟨_, x, rfl, hstart.2, hx, hcount.1, hrange, hone, hone ▸ hbalance.1, hbalance.2 hone⟩

/-- The world after giving a scope many owners. -/
theorem scope?_retains (n : Nat) (hx : w.heap.scope? id = some x) (hd : x.dead = false) :
    (afterDeeds engine w (List.replicate n (.call (.retainScope (some id))))).heap.scope? id =
      some { x with refs := x.refs + UInt32.ofNat n } := by
  induction n generalizing w x with
  | zero =>
    rw [show UInt32.ofNat 0 = 0 from rfl, UInt32.add_zero]
    exact hx
  | succ n ih =>
    have hstep : (Deed.perform engine (.call (.retainScope (some id)))).final w = _ :=
      (final_map _ _ _).trans ((final_map _ _ _).trans (final_ok (Scope.retain_of_living hx hd)))
    have hrest := ih (w := (Deed.perform engine (.call (.retainScope (some id)))).final w)
      (x := { x with refs := x.refs + 1 })
      (by rw [hstep]; exact Heap.scope?_setScope_self _ hx) hd
    refine hrest.trans ?_
    rw [UInt32.add_assoc, Nat.add_comm n 1, UInt32.ofNat_add]
    rfl

/-- A scope without a count is not destroyed, however often it is given up. -/
theorem after_releases (n : Nat) (hx : w.heap.scope? id = some x) (h0 : x.refs = 0) :
    Turn.after engine id w (List.replicate n .release) = w := by
  have hidle : w.heap.count? (.scope id) = some 0 := by
    simp [Heap.count?, hx, h0]
  induction n with
  | zero => rfl
  | succ n ih =>
    have hstep : Turn.after engine id w [.release] = w := World.drop_idle hidle
    rw [List.replicate_succ]
    show Turn.after engine id (Turn.after engine id w [.release]) (List.replicate n .release) = w
    rw [hstep, ih]

/-- A new scope and many owners of it. -/
theorem exists_scope_retains (n : Nat) : ∃ w x,
    afterDeeds (.ofDepth 0) {}
      (.call (.scope none) :: List.replicate n (.call (.retainScope (some ⟨0⟩)))) = w ∧
    w.heap.scope? ⟨0⟩ = some x ∧ x.dead = false ∧ x.refs = 1 + UInt32.ofNat n := by
  have hstart : (((afterDeeds (.ofDepth 0) {} [.call (.scope none)]).heap.scope? ⟨0⟩).any fun x =>
      !x.dead && x.refs == 1) = true := by decide +kernel
  obtain ⟨x, hx, hcount⟩ := (Option.any_eq_true _ _).1 hstart
  rw [Bool.and_eq_true, Bool.not_eq_true', beq_iff_eq] at hcount
  exact ⟨_, _, rfl, scope?_retains n hx hcount.1, hcount.1, by rw [hcount.2]⟩

/-- The count of a scope starts again from zero. After as many owners as can be counted, one more
owner leaves the scope alive with a count of zero, and giving up references to it, however many,
does nothing. -/
theorem scope_count_wraps : ∃ w w' x,
    afterDeeds (.ofDepth 0) {}
      (.call (.scope none) :: List.replicate 4294967294 (.call (.retainScope (some ⟨0⟩)))) = w ∧
    w.heap.scope? ⟨0⟩ = some x ∧ x.dead = false ∧ x.refs = maxCount ∧
    Scope.retain (some ⟨0⟩) w = .ok (some ⟨0⟩) w' ∧
    w'.heap.scope? ⟨0⟩ = some { x with refs := 0 } ∧
    ∀ n, Turn.after (.ofDepth 0) ⟨0⟩ w' (List.replicate n .release) = w' := by
  -- the number of owners stays a variable until the count is known, so that none of them is run
  obtain ⟨w, x, hw, hx, hd, hcount⟩ := exists_scope_retains 4294967294
  have hmax : x.refs = maxCount := hcount.trans (by decide)
  have hx' : (w.heap.setScope ⟨0⟩ { x with refs := x.refs + 1 }).scope? ⟨0⟩ =
      some { x with refs := 0 } := by
    rw [Heap.scope?_setScope_self _ hx, hmax]
    rfl
  exact ⟨w, _, x, hw, hx, hd, hmax, Scope.retain_of_living hx hd, hx',
    fun n => after_releases n hx' rfl⟩

end Client

end CountedLisp
