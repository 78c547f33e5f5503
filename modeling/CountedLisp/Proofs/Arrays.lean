import CountedLisp.GrowArray
import CountedLisp.Proofs.Arithmetic
import Mathlib.Data.Rat.Floor

/-!
# Growing arrays as lists

A growing array is used by calls, one after the other (`GrowArray.Op`). Each call answers as the
same call on a plain list does (`Op.onList`), and leaves the elements that the list has then. What a
call can come to is said once, by `Op.Outcome`; all that calls preserve is read off from it.

The capacity is computed in double precision: a full array of capacity `c` gets the double nearest
to `3 / 2 * c`, rounded up to an integer. Below `2 ^ 52` elements this is `3 / 2 * c` rounded up,
with one exception (`GrowArray.Coarse`). From `2 ^ 52` on there are no halves among the doubles, so
that a product that ends in a half goes to the even integer next to it, which can be the one below.
-/

namespace CountedLisp

open Binary64

/-! ### Making room -/

theorem InInt64.of_natAbs_lt {i : ℤ} (hi : i.natAbs < 2 ^ 63) : InInt64 i := by
  have hmin : Int64.minValue.toInt = -2 ^ 63 := by decide
  have hmax : Int64.maxValue.toInt = 2 ^ 63 - 1 := by decide
  rw [InInt64, hmin, hmax]
  omega

theorem denotesOver_threeHalves : (Binary64.round false 3 2).DenotesOver 3 1 := by
  have h := denotesOver_round (n := 3) (k := 1) false (by decide) (by decide)
  have hkeep : keep 3 = 3 := by decide
  rwa [hkeep, if_neg Bool.false_ne_true, Nat.pow_one] at h

/-- A rounded integer is not below zero and at most twice as large. -/
theorem nearest_bounds {i : ℤ} (hi : 0 ≤ i) : 0 ≤ nearest i ∧ nearest i ≤ 2 * i := by
  have h := abs_sub_nearest_le i (.of_le (show (0 : ℤ).natAbs ≤ 2 ^ 53 by decide))
  rw [sub_zero, abs_of_nonneg hi, abs_le] at h
  omega

/-- The capacity is the product with one and a half, rounded to a double and then upwards. -/
theorem grownCapacity_eq_nearest {c : ℕ} (hlow : 4 ≤ c) (hhigh : c < 2 ^ 52) :
    grownCapacity c = -(-nearest (c * 3) / 2) := by
  have hc := denotes_ofInt_of_representable (i := c) (.of_natAbs_lt (by omega)) (.of_le (by omega))
  have hproduct := (denotesOver_zero_iff.2 hc).mul denotesOver_threeHalves
    (InInt64.of_natAbs_lt (by omega)).log2_lt (by decide)
  have hbounds := nearest_bounds (show 0 ≤ (c * 3 : ℤ) by omega)
  have hgrows : ¬(c : ℤ) < basicCapacity := by
    simp only [basicCapacity]
    omega
  rw [grownCapacity, if_neg hgrows, hproduct.ceil?_eq, Nat.zero_add, pow_one]
  exact InInt64.toInt_toWord (.of_natAbs_lt (by omega))

/-- An integer of 54 binary digits loses the last one. -/
theorem keep_of_bounds {n : ℕ} (hlow : 2 ^ 53 ≤ n) (hhigh : n < 2 ^ 54) :
    keep n = roundQuotient n 2 * 2 := by
  have hlog : n.log2 = 53 := (Nat.log2_eq_iff (by omega)).2 ⟨hlow, hhigh⟩
  rw [keep, hlog, show 53 - 52 = 1 from rfl, Nat.pow_one]

/-- A tie goes to the even quotient. -/
theorem roundQuotient_two (n : ℕ) :
    roundQuotient n 2 = if n % 4 = 1 then n / 2 else (n + 1) / 2 := by
  simp only [roundQuotient, Bool.and_eq_true, decide_eq_true_eq]
  split_ifs <;> omega

namespace GrowArray

/-- One and a half times the capacity is too large for a double that ends in a half, but does end in
a half, and the even integer next to it is the one below. -/
def Coarse (c : ℕ) : Prop :=
  2 ^ 53 < 3 * c ∧ c % 4 = 3

instance (c : ℕ) : Decidable (Coarse c) :=
  inferInstanceAs (Decidable (_ ∧ _))

theorem ceil_threeHalves (c : ℕ) : ⌈(3 / 2 : ℚ) * c⌉₊ = (3 * c + 1) / 2 := by
  refine eq_of_forall_ge_iff fun n => ?_
  have hcast : (3 / 2 : ℚ) * c ≤ n ↔ ((3 * c : ℕ) : ℚ) ≤ (2 * n : ℕ) := by
    push_cast
    constructor <;> intro h <;> linarith
  rw [Nat.ceil_le, hcast, Nat.cast_le]
  omega

theorem floor_threeHalves (c : ℕ) : ⌊(3 / 2 : ℚ) * c⌋₊ = 3 * c / 2 := by
  refine eq_of_forall_le_iff fun n => ?_
  have hcast : (n : ℚ) ≤ 3 / 2 * c ↔ ((2 * n : ℕ) : ℚ) ≤ (3 * c : ℕ) := by
    push_cast
    constructor <;> intro h <;> linarith
  rw [Nat.le_floor_iff (by positivity), hcast, Nat.cast_le]
  omega

/-- **How much room a full array gets.** -/
theorem grownCapacity_of_lt {c : ℕ} (hlow : 4 ≤ c) (hhigh : c < 2 ^ 52) :
    (grownCapacity c).toNat = if Coarse c then ⌊(3 / 2 : ℚ) * c⌋₊ else ⌈(3 / 2 : ℚ) * c⌉₊ := by
  have hcoarse : Coarse c ↔ 2 ^ 53 < 3 * c ∧ c % 4 = 3 := Iff.rfl
  rw [grownCapacity_eq_nearest hlow hhigh, ceil_threeHalves, floor_threeHalves]
  simp only [hcoarse]
  -- up to `2 ^ 53` the numerator has all its binary digits, and beyond it loses the last one
  by_cases hexact : 3 * c ≤ 2 ^ 53
  · rw [nearest_of_representable (.of_le (by omega))]
    split_ifs <;> omega
  · have hnearest : nearest (c * 3) = (roundQuotient (3 * c) 2 * 2 : ℕ) := by
      rw [nearest, if_neg (by omega), show (c * 3 : ℤ).natAbs = 3 * c by omega,
        keep_of_bounds (by omega) (by omega)]
    rw [hnearest, roundQuotient_two]
    split_ifs <;> omega

theorem grownCapacity_of_lt_four {c : ℕ} (h : c < 4) : (grownCapacity c).toNat = 4 := by
  have hsmall : (c : ℤ) < basicCapacity := by
    simp only [basicCapacity]
    omega
  rw [grownCapacity, if_pos hsmall]
  rfl

/-- There is room for one more element. -/
theorem lt_grownCapacity {c : ℕ} (h : c < 2 ^ 52) : c < (grownCapacity c).toNat := by
  by_cases hlow : c < 4
  · rw [grownCapacity_of_lt_four hlow]
    exact hlow
  · rw [grownCapacity_of_lt (by omega) h, ceil_threeHalves, floor_threeHalves]
    split_ifs <;> omega

variable {α : Type} {a : GrowArray α} {i : ℤ}

theorem capacity_push_of_full (hfull : a.size = a.capacity) (x : α) :
    (a.push x).capacity = (grownCapacity a.capacity).toNat :=
  if_pos hfull

/-! ### Reading and writing -/

theorem length_toList (a : GrowArray α) : a.toList.length = a.size :=
  Array.length_toList

theorem inRange_iff : a.inRange i = true ↔ 0 ≤ i ∧ i < a.size := by
  simp [inRange]

theorem get?_of_lt (hi : 0 ≤ i ∧ i < a.size) :
    ∃ x, a.toList[i.toNat]? = some x ∧ a.get? i = .ok x := by
  have hlt : i.toNat < a.items.size := by
    have hsize : a.size = a.items.size := rfl
    omega
  refine ⟨a.items[i.toNat], ?_, ?_⟩
  · rw [toList, Array.getElem?_toList, Array.getElem?_eq_getElem hlt]
  · rw [get?, if_pos (inRange_iff.2 hi), Array.getElem?_eq_getElem hlt]

theorem get?_of_not_lt (hi : ¬(0 ≤ i ∧ i < a.size)) :
    a.get? i = .error (outOfRange "dynamic-array" i a.size) := by
  rw [get?, if_neg (inRange_iff.not.2 hi)]

theorem set?_of_lt (hi : 0 ≤ i ∧ i < a.size) (x : α) :
    a.set? i x = .ok { a with items := a.items.setIfInBounds i.toNat x } := by
  rw [set?, if_pos (inRange_iff.2 hi)]

theorem set?_of_not_lt (hi : ¬(0 ≤ i ∧ i < a.size)) (x : α) :
    a.set? i x = .error (outOfRange "dynamic-array" i a.size) := by
  rw [set?, if_neg (inRange_iff.not.2 hi)]

theorem pop?_of_getLast? {x : α} (hx : a.toList.getLast? = some x) :
    a.pop? = .ok (x, { a with items := a.items.pop }) := by
  rw [toList, Array.getLast?_toList] at hx
  rw [pop?, hx]

theorem pop?_of_eq_nil (h : a.toList = []) : a.pop? = .error noElement := by
  rw [pop?, Array.back?_eq_none_iff.2 (Array.toList_eq_nil_iff.1 h)]

theorem exists_get?_iff : (∃ x, a.get? i = .ok x) ↔ 0 ≤ i ∧ i < a.size := by
  constructor
  · rintro ⟨x, hx⟩
    by_contra hi
    rw [get?_of_not_lt hi] at hx
    cases hx
  · intro hi
    obtain ⟨x, -, hx⟩ := get?_of_lt hi
    exact ⟨x, hx⟩

theorem exists_set?_iff {x : α} : (∃ b, a.set? i x = .ok b) ↔ 0 ≤ i ∧ i < a.size := by
  constructor
  · rintro ⟨b, hb⟩
    by_contra hi
    rw [set?_of_not_lt hi] at hb
    cases hb
  · intro hi
    exact ⟨_, set?_of_lt hi x⟩

theorem exists_pop?_iff : (∃ r, a.pop? = .ok r) ↔ 0 < a.size := by
  rw [← length_toList, List.length_pos_iff]
  constructor
  · rintro ⟨r, hr⟩ h
    rw [pop?_of_eq_nil h] at hr
    cases hr
  · intro h
    exact ⟨_, pop?_of_getLast? (List.getLast?_eq_some_getLast h)⟩

theorem getElem?_of_not_lt (h0 : 0 ≤ i) (hi : ¬(0 ≤ i ∧ i < a.size)) :
    a.toList[i.toNat]? = none := by
  rw [List.getElem?_eq_none_iff, length_toList]
  omega

theorem get?_eq_ok_iff {x : α} : a.get? i = .ok x ↔ 0 ≤ i ∧ a.toList[i.toNat]? = some x := by
  by_cases hi : 0 ≤ i ∧ i < a.size
  · obtain ⟨y, hy, hget⟩ := get?_of_lt hi
    simp [hy, hget, hi.1]
  · rw [get?_of_not_lt hi]
    constructor
    · rintro ⟨⟩
    · rintro ⟨h0, hx⟩
      rw [getElem?_of_not_lt h0 hi] at hx
      cases hx

theorem eachFrom_eq {m : Type → Type} [Monad m] (f : ℕ → α → m Unit) (k : ℕ) (l : List α) :
    eachFrom f k l = (l.zipIdx k).forM fun p => f p.2 p.1 := by
  induction l generalizing k with
  | nil => rfl
  | cons x rest ih =>
    rw [eachFrom, ih, List.zipIdx_cons]
    rfl

/-! ### Calls -/

/-- The calls that an array is used by. -/
inductive Op (α : Type) where
  | append (x : α)
  | get (i : ℤ)
  | set (i : ℤ) (x : α)
  | pop
  | each
  | clear

/-- What a call answers if it succeeds. -/
inductive Answer (α : Type) where
  | done
  | element (x : α)
  /-- The places with their elements, in the order in which they are visited. -/
  | visits (seen : List (ℕ × α))

/-- Takes down a visit. -/
def record (i : ℕ) (x : α) : StateM (List (ℕ × α)) Unit :=
  modify (· ++ [(i, x)])

theorem run_eachFrom_record (k : ℕ) (l : List α) (seen : List (ℕ × α)) :
    ((eachFrom record k l).run seen).2 = seen ++ (l.zipIdx k).map Prod.swap := by
  induction l generalizing k seen with
  | nil => exact (List.append_nil seen).symm
  | cons x rest ih =>
    show ((eachFrom record (k + 1) rest).run (seen ++ [(k, x)])).2 = _
    rw [ih, List.zipIdx_cons, List.append_assoc]
    rfl

namespace Op

/-- What a call answers, and the array after it. -/
def perform (a : GrowArray α) : Op α → Except Failure (Answer α × GrowArray α)
  | append x => .ok (.done, a.push x)
  | get i => (a.get? i).map fun x => (.element x, a)
  | set i x => (a.set? i x).map fun b => (.done, b)
  | pop => a.pop?.map fun r => (.element r.1, r.2)
  | each => .ok (.visits ((a.each record).run []).2, a)
  | clear => .ok (.done, a.clear)

/-- The same call on a plain list. -/
def onList (l : List α) : Op α → Option (Answer α × List α)
  | append x => some (.done, l ++ [x])
  | get i => if 0 ≤ i then l[i.toNat]?.map fun x => (.element x, l) else none
  | set i x => if 0 ≤ i ∧ i < l.length then some (.done, l.set i.toNat x) else none
  | pop => l.getLast?.map fun x => (.element x, l.dropLast)
  | each => some (.visits (l.zipIdx.map Prod.swap), l)
  | clear => some (.done, [])

/-- The array after a call, which is the one before it if the call fails. -/
def next (a : GrowArray α) (op : Op α) : GrowArray α :=
  ((op.perform a).toOption.map Prod.snd).getD a

/-- The list after a call. -/
def nextList (l : List α) (op : Op α) : List α :=
  ((op.onList l).map Prod.snd).getD l

/-- All that a call can come to. -/
inductive Outcome (a : GrowArray α) : Op α → Except Failure (Answer α × GrowArray α) → Prop where
  | append (x : α) : Outcome a (append x) (.ok (.done, a.push x))
  | get {i : ℤ} {x : α} (hi : 0 ≤ i ∧ i < a.size) (hx : a.toList[i.toNat]? = some x) :
    Outcome a (get i) (.ok (.element x, a))
  | getOutside {i : ℤ} (hi : ¬(0 ≤ i ∧ i < a.size)) :
    Outcome a (get i) (.error (outOfRange "dynamic-array" i a.size))
  | set {i : ℤ} (x : α) (hi : 0 ≤ i ∧ i < a.size) :
    Outcome a (set i x) (.ok (.done, { a with items := a.items.setIfInBounds i.toNat x }))
  | setOutside {i : ℤ} (x : α) (hi : ¬(0 ≤ i ∧ i < a.size)) :
    Outcome a (set i x) (.error (outOfRange "dynamic-array" i a.size))
  | pop {x : α} (hx : a.toList.getLast? = some x) :
    Outcome a pop (.ok (.element x, { a with items := a.items.pop }))
  | popEmpty (h : a.toList = []) : Outcome a pop (.error noElement)
  | each : Outcome a each (.ok (.visits (a.toList.zipIdx.map Prod.swap), a))
  | clear : Outcome a clear (.ok (.done, a.clear))

theorem outcome_perform (a : GrowArray α) (op : Op α) : Outcome a op (op.perform a) := by
  cases op with
  | append x => exact .append x
  | get i =>
    by_cases hi : 0 ≤ i ∧ i < a.size
    · obtain ⟨x, hx, hget⟩ := get?_of_lt hi
      rw [perform, hget]
      exact .get hi hx
    · rw [perform, get?_of_not_lt hi]
      exact .getOutside hi
  | set i x =>
    by_cases hi : 0 ≤ i ∧ i < a.size
    · rw [perform, set?_of_lt hi]
      exact .set x hi
    · rw [perform, set?_of_not_lt hi]
      exact .setOutside x hi
  | pop =>
    by_cases h : a.toList = []
    · rw [perform, pop?_of_eq_nil h]
      exact .popEmpty h
    · have hlast := List.getLast?_eq_some_getLast h
      rw [perform, pop?_of_getLast? hlast]
      exact .pop hlast
  | each =>
    rw [perform, GrowArray.each, run_eachFrom_record, List.nil_append]
    exact .each
  | clear => exact .clear

/-- **A call does to an array what it does to the list of its elements.** -/
theorem perform_onList (a : GrowArray α) (op : Op α) :
    (op.perform a).toOption.map (Prod.map id toList) = op.onList a.toList := by
  have hout := outcome_perform a op
  generalize op.perform a = r at hout
  cases hout with
  | append x => simp [Except.toOption, onList, push, toList]
  | get hi hx => simp [Except.toOption, onList, hi.1, hx]
  | @getOutside i hi =>
    by_cases h0 : 0 ≤ i
    · simp [Except.toOption, onList, getElem?_of_not_lt h0 hi]
    · simp [Except.toOption, onList, h0]
  | set x hi =>
    rw [onList, length_toList, if_pos hi]
    simp [Except.toOption, toList]
  | setOutside x hi =>
    rw [onList, length_toList, if_neg hi]
    rfl
  | pop hx =>
    rw [onList, hx]
    simp [Except.toOption, toList]
  | popEmpty h =>
    rw [onList, h]
    rfl
  | each => rfl
  | clear => rfl

theorem toList_next (a : GrowArray α) (op : Op α) : (op.next a).toList = op.nextList a.toList := by
  rw [nextList, ← perform_onList, next]
  cases (op.perform a).toOption <;> rfl

/-- The only failure is to ask for a place that there is not, and nothing is changed then. -/
theorem of_error {op : Op α} {f : Failure} (h : op.perform a = .error f) :
    f.kind = .indexOutOfRange ∧ op.next a = a := by
  have hout := outcome_perform a op
  rw [next, h] at *
  refine ⟨?_, rfl⟩
  cases hout <;> rfl

/-! ### Capacity -/

/-- Room is made when an element is added to a full array, and at no other time. -/
theorem capacity_next (a : GrowArray α) (op : Op α) :
    (op.next a).capacity = a.capacity ∨
      (∃ x, op = append x) ∧ a.size = a.capacity ∧
        (op.next a).capacity = (grownCapacity a.capacity).toNat := by
  have hout := outcome_perform a op
  unfold next
  generalize op.perform a = r at hout
  cases hout with
  | append x =>
    by_cases hfull : a.size = a.capacity
    · exact .inr ⟨⟨x, rfl⟩, hfull, capacity_push_of_full hfull x⟩
    · exact .inl (if_neg hfull)
  | get | getOutside | set | setOutside | pop | popEmpty | each | clear => exact .inl rfl

/-- The capacity never shrinks, and it grows if and only if an element is added to a full array. -/
theorem capacity_next_of_lt (op : Op α) (hsmall : a.size < 2 ^ 52) :
    a.capacity ≤ (op.next a).capacity ∧
      ((op.next a).capacity ≠ a.capacity ↔ (∃ x, op = append x) ∧ a.size = a.capacity) := by
  have hgrows : a.size = a.capacity → a.capacity < (grownCapacity a.capacity).toNat := by
    intro hfull
    rw [← hfull]
    exact lt_grownCapacity hsmall
  rcases capacity_next a op with hsame | ⟨happend, hfull, hgrown⟩
  · refine ⟨hsame.ge, fun hne => absurd hsame hne, ?_⟩
    rintro ⟨⟨x, rfl⟩, hfull⟩
    exact capacity_push_of_full hfull x ▸ (hgrows hfull).ne'
  · rw [hgrown]
    exact ⟨(hgrows hfull).le, fun _ => ⟨happend, hfull⟩, fun _ => (hgrows hfull).ne'⟩

/-- No call leaves more elements than there is room for. -/
theorem size_next_le (op : Op α) (hroom : a.size ≤ a.capacity) (hsmall : a.size < 2 ^ 52) :
    (op.next a).size ≤ (op.next a).capacity := by
  have hout := outcome_perform a op
  unfold next
  generalize op.perform a = r at hout
  cases hout with
  | append x =>
    show (a.items.push x).size ≤ if a.size = a.capacity then _ else _
    rw [Array.size_push]
    split_ifs with hfull
    · rw [← hfull]
      exact lt_grownCapacity hsmall
    · exact Nat.lt_of_le_of_ne hroom hfull
  | get | getOutside | setOutside | popEmpty | each => exact hroom
  | @set i x _ =>
    show (a.items.setIfInBounds i.toNat x).size ≤ a.capacity
    rw [Array.size_setIfInBounds]
    exact hroom
  | pop _ =>
    show a.items.pop.size ≤ a.capacity
    rw [Array.size_pop]
    exact (Nat.sub_le _ _).trans hroom
  | clear => exact Nat.zero_le _

end Op

/-! ### Runs -/

/-- The array after some calls. -/
def after (a : GrowArray α) (ops : List (Op α)) : GrowArray α :=
  ops.foldl Op.next a

/-- The list after some calls, starting without elements. -/
def listAfter (ops : List (Op α)) : List α :=
  ops.foldl Op.nextList []

theorem after_concat (a : GrowArray α) (ops : List (Op α)) (op : Op α) :
    after a (ops ++ [op]) = op.next (after a ops) :=
  List.foldl_concat _ _ _ _

theorem toList_after (c : ℤ) (ops : List (Op α)) :
    (after (empty c) ops).toList = listAfter ops := by
  induction ops using List.reverseRecOn with
  | nil => rfl
  | append_singleton ops op ih =>
    rw [after_concat, Op.toList_next, ih]
    exact (List.foldl_concat _ _ _ _).symm

/-- The elements never outgrow the capacity. -/
theorem size_after_le (c : ℤ) {ops : List (Op α)}
    (hsmall : ∀ part, part <+: ops → (listAfter part).length < 2 ^ 52) :
    (after (empty c) ops).size ≤ (after (empty c) ops).capacity := by
  induction ops using List.reverseRecOn with
  | nil => exact Nat.zero_le _
  | append_singleton ops op ih =>
    rw [after_concat]
    refine op.size_next_le (ih fun part hpart => ?_) ?_
    · exact hsmall part (hpart.trans (List.prefix_append ops [op]))
    · rw [← length_toList, toList_after]
      exact hsmall ops (List.prefix_append ops [op])

/-- **A growing array is a list**, for every initial capacity and every sequence of calls, as long
as there are fewer than `2 ^ 52` elements.

What can be read at a place, and what is visited, is what the list has that the same calls leave.
The next call answers as on this list. Places are read and written if and only if they are in the
array, and the last element is taken out if and only if there is one; a call that fails reports that
the place is out of range and changes nothing.

There is always room for the elements, and no call reduces the capacity. It changes if and only if
an element is added to a full array, and there is room for this element then: the capacity becomes
four if it was less, and otherwise one and a half times as large, rounded up, or down if it is
coarse. -/
theorem refines_list (c : ℤ) (ops : List (Op α))
    (hsmall : ∀ part, part <+: ops → (listAfter part).length < 2 ^ 52)
    (hrun : after (empty c) ops = a) :
    (a.size = (listAfter ops).length ∧
      (∀ i x, a.get? i = .ok x ↔ 0 ≤ i ∧ (listAfter ops)[i.toNat]? = some x) ∧
      ∀ (m : Type → Type) [Monad m] (f : ℕ → α → m Unit),
        a.each f = (listAfter ops).zipIdx.forM fun p => f p.2 p.1) ∧
    (∀ op : Op α, (op.perform a).toOption.map (Prod.map id toList) = op.onList (listAfter ops)) ∧
    ((∀ i, (∃ x, a.get? i = .ok x) ↔ 0 ≤ i ∧ i < a.size) ∧
      (∀ i x, (∃ b, a.set? i x = .ok b) ↔ 0 ≤ i ∧ i < a.size) ∧
      ((∃ r, a.pop? = .ok r) ↔ 0 < a.size) ∧
      ∀ (op : Op α) f, op.perform a = .error f → f.kind = .indexOutOfRange ∧ op.next a = a) ∧
    a.size ≤ a.capacity ∧
    (∀ op : Op α, a.capacity ≤ (op.next a).capacity ∧
      ((op.next a).capacity ≠ a.capacity ↔ (∃ x, op = .append x) ∧ a.size = a.capacity)) ∧
    ∀ x, a.size = a.capacity → a.size + 1 ≤ (a.push x).capacity ∧
      (a.capacity < 4 → (a.push x).capacity = 4) ∧
      (4 ≤ a.capacity → ¬Coarse a.capacity →
        (a.push x).capacity = ⌈(3 / 2 : ℚ) * a.capacity⌉₊) ∧
      (4 ≤ a.capacity → Coarse a.capacity →
        (a.push x).capacity = ⌊(3 / 2 : ℚ) * a.capacity⌋₊) := by
  have hlist : a.toList = listAfter ops := hrun ▸ toList_after c ops
  have hsize : a.size < 2 ^ 52 := by
    rw [← length_toList, hlist]
    exact hsmall ops List.prefix_rfl
  have hroom : a.size ≤ a.capacity := hrun ▸ size_after_le c hsmall
  rw [← hlist]
  refine ⟨⟨(length_toList a).symm, fun i x => get?_eq_ok_iff, fun m _ f => eachFrom_eq f 0 _⟩,
    Op.perform_onList a, ⟨fun i => exists_get?_iff, fun i x => exists_set?_iff, exists_pop?_iff,
      fun op f => Op.of_error⟩, hroom, fun op => op.capacity_next_of_lt hsize, fun x hfull => ?_⟩
  rw [capacity_push_of_full hfull x]
  rw [hfull] at hsize ⊢
  refine ⟨lt_grownCapacity hsize, grownCapacity_of_lt_four, fun hlow hfine => ?_,
    fun hlow hcoarse => ?_⟩
  · rw [grownCapacity_of_lt hlow hsize, if_neg hfine]
  · rw [grownCapacity_of_lt hlow hsize, if_pos hcoarse]

/-- Calls that fill an array up, and some that fail. -/
def filling : List (Op ℕ) :=
  [.pop, .append 7, .append 8, .append 9, .get 3, .pop, .append 10, .append 5, .set 0 6,
    .set (-1) 0]

/-- An array with room for two elements grows once to take four. It is full then, and gets half as
much room again for another one. -/
theorem refines_list_filling :
    (∀ part, part <+: filling → (listAfter part).length < 2 ^ 52) ∧
    ∃ a, after (empty 2) filling = a ∧ a.size = 4 ∧ a.get? 2 = .ok 10 ∧ (¬∃ x, a.get? 4 = .ok x) ∧
      (Op.pop.perform a).toOption.map (Prod.map id toList) = some (.element 5, [6, 8, 10]) ∧
      a.size ≤ a.capacity ∧ a.capacity = 4 ∧ (a.push 1).capacity = 6 := by
  have hsmall : ∀ part, part <+: filling → (listAfter part).length < 2 ^ 52 := by
    intro part hpart
    have hinits : ∀ part ∈ filling.inits, (listAfter part).length < 2 ^ 52 := by decide +kernel
    exact hinits part ((List.mem_inits part filling).2 hpart)
  have hlist : listAfter filling = [6, 8, 10, 5] := by decide +kernel
  have hcapacity : (after (empty 2) filling).capacity = 4 := by decide +kernel
  obtain ⟨⟨hsize, hget, -⟩, hcalls, ⟨hexists, -⟩, hroom, -, hpush⟩ :=
    refines_list 2 filling hsmall rfl
  rw [hlist] at hsize hget hcalls
  obtain ⟨-, -, hceil, -⟩ := hpush 1 (hsize.trans hcapacity.symm)
  rw [hcapacity] at hceil
  refine ⟨hsmall, _, rfl, hsize, (hget 2 10).2 (by decide), ?_, hcalls .pop, hroom, hcapacity, ?_⟩
  · rw [hexists, hsize]
    decide
  · rw [hceil (by decide) (by decide), ceil_threeHalves]

/-! ### A capacity that is rounded down -/

theorem after_replicate_append (x : α) {k n : ℕ} (hk : k ≤ n) :
    (after (empty n) (List.replicate k (.append x))).size = k ∧
      (after (empty n) (List.replicate k (.append x))).capacity = n := by
  induction k with
  | zero => exact ⟨rfl, Int.toNat_natCast n⟩
  | succ k ih =>
    obtain ⟨hsize, hcapacity⟩ := ih (Nat.le_of_succ_le hk)
    rw [List.replicate_succ', after_concat]
    generalize after (empty n) (List.replicate k (.append x)) = a at hsize hcapacity
    have hroom : a.size ≠ a.capacity := by omega
    refine ⟨?_, ?_⟩
    · exact (Array.size_push x).trans (congrArg (· + 1) hsize)
    · exact (if_neg hroom).trans hcapacity

theorem length_listAfter_replicate_append (x : α) (k : ℕ) :
    (listAfter (List.replicate k (.append x))).length = k := by
  rw [← toList_after k, length_toList]
  exact (after_replicate_append x (Nat.le_refl k)).1

/-- Below `2 ^ 52` elements there are capacities that do not grow to one and a half times their
value, rounded up: an array that is full with `2 ^ 52 - 5` elements gets room for one less. -/
theorem refines_list_coarse : ∃ (n : ℕ) (ops : List (Op Unit)) (a : GrowArray Unit),
    n = 4503599627370491 ∧ ops = List.replicate n (.append ()) ∧ after (empty n) ops = a ∧
    (∀ part, part <+: ops ++ [.append ()] → (listAfter part).length < 2 ^ 52) ∧
    a.size = n ∧ a.capacity = n ∧
    (after (empty n) (ops ++ [.append ()])).capacity = 6755399441055736 ∧
    ⌈(3 / 2 : ℚ) * n⌉₊ = 6755399441055737 := by
  obtain ⟨n, hn⟩ : ∃ n, n = 4503599627370491 := ⟨_, rfl⟩
  obtain ⟨hsize, hcapacity⟩ := after_replicate_append () (Nat.le_refl n)
  refine ⟨n, _, _, hn, rfl, rfl, ?_, hsize, hcapacity, ?_, ?_⟩
  · intro part hpart
    rw [← List.replicate_succ', List.prefix_replicate_iff] at hpart
    rw [hpart.2, length_listAfter_replicate_append]
    omega
  · have hcoarse : Coarse n := ⟨by omega, by omega⟩
    rw [after_concat]
    generalize after (empty n) (List.replicate n (.append ())) = a at hsize hcapacity
    refine (capacity_push_of_full (hsize.trans hcapacity.symm) ()).trans ?_
    rw [hcapacity, grownCapacity_of_lt (by omega) (by omega), if_pos hcoarse, floor_threeHalves]
    omega
  · rw [ceil_threeHalves]
    omega

end GrowArray

end CountedLisp
