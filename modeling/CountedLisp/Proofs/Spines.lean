import CountedLisp.Eval.Call
import Mathlib.Tactic.SplitIfs

/-!
# What the loops along a chain of pairs find

`Heap.spine` is one view of a chain of pairs: it is a list with its items, or something else, or it
has no end. Each loop of `Heap.Chain` is compared with it. The loop that tells whether there is a
list decides between the three (`isList?_eq`), and along a list the other three see the same items
(`countPairs?_of_follow`, `leftAt?_of_follow`, `lefts?_of_follow`), although they do not tell living
pairs from dead ones.
-/

namespace CountedLisp

/-- What the right sides of pairs lead to. -/
inductive Spine where
  /-- A list with these items. -/
  | proper (items : List Ref)
  /-- Something else than the empty list, or a destroyed pair. -/
  | improper
  /-- No end. -/
  | endless
  deriving DecidableEq

namespace Heap

/-- Follows the right sides of pairs for at most `depth` pairs. -/
def follow (h : Heap) : (depth : Nat) → (r : Ref) → Spine
  | 0, _ => .endless
  | depth + 1, r =>
    match h.get? r with
    | some { payload := .emptyList, .. } => .proper []
    | some { payload := .pair left right, dead := false, .. } =>
      match h.follow depth right with
      | .proper items => .proper (left :: items)
      | s => s
    | _ => .improper

/-- What the right sides of pairs lead to from a reference on. A chain of more pairs than there are
objects comes back to itself. -/
def spine (h : Heap) (r : Ref) : Spine :=
  h.follow (h.objects.size + 1) r

variable {h : Heap} {r : Ref} {steps : Nat} {items : List Ref}

/-- A list is the empty list, or a living pair with a list at its right. -/
theorem of_follow_proper (hf : h.follow (steps + 1) r = .proper items) :
    (h.pair? r = none ∧ items = []) ∨
      ∃ left right rest, h.pair? r = some (left, right) ∧ h.follow steps right = .proper rest ∧
        items = left :: rest := by
  rw [follow] at hf
  unfold pair?
  split at hf
  · next ho =>
    cases hf
    exact .inl ⟨by rw [ho], rfl⟩
  · next left right ho =>
    cases hrest : h.follow steps right with
    | proper rest =>
      rw [hrest] at hf
      cases hf
      exact .inr ⟨left, right, rest, by rw [ho], hrest, rfl⟩
    | improper => rw [hrest] at hf; cases hf
    | endless => rw [hrest] at hf; cases hf
  · cases hf

/-- The loop that tells whether there is a list. -/
theorem isList?_eq (h : Heap) (steps : Nat) (r : Ref) :
    h.isList? steps r =
      match h.follow steps r with
      | .proper _ => some true
      | .improper => some false
      | .endless => none := by
  induction steps generalizing r with
  | zero => rfl
  | succ steps ih =>
    rw [isList?, follow]
    cases h.get? r with
    | none => rfl
    | some o =>
      obtain ⟨refs, dead, payload⟩ := o
      cases payload with
      | pair left right =>
        cases dead with
        | true => rfl
        | false =>
          simp only [Bool.false_eq_true, if_false, ih right]
          cases h.follow steps right <;> rfl
      | constant c => rfl
      | emptyList => rfl
      | vector items => rfl
      | lambda p => rfl
      | thunk t => rfl
      | unspecified => rfl

/-- The loop that counts. -/
theorem countPairs?_of_follow (hf : h.follow steps r = .proper items) (n : Nat) :
    h.countPairs? n steps r = some (n + items.length) := by
  induction steps generalizing r items n with
  | zero => cases hf
  | succ steps ih =>
    rw [countPairs?]
    obtain ⟨hp, rfl⟩ | ⟨left, right, rest, hp, hrest, rfl⟩ := of_follow_proper hf
    · rw [hp]
      rfl
    · rw [hp]
      dsimp only
      rw [ih hrest, List.length_cons, Nat.add_right_comm, Nat.add_assoc]

/-- The loop that looks for a place. -/
theorem leftAt?_of_follow (hf : h.follow steps r = .proper items) (i k : Nat) :
    h.leftAt? (k + i) k steps r = some items[i]? := by
  induction steps generalizing r items i k with
  | zero => cases hf
  | succ steps ih =>
    rw [leftAt?]
    obtain ⟨hp, rfl⟩ | ⟨left, right, rest, hp, hrest, rfl⟩ := of_follow_proper hf
    · rw [hp]
      rfl
    · rw [hp]
      dsimp only
      cases i with
      | zero => rw [Nat.add_zero, if_pos rfl, List.getElem?_cons_zero]
      | succ i =>
        rw [if_neg (by omega), List.getElem?_cons_succ, ← ih hrest i (k + 1), Nat.add_right_comm,
          Nat.add_assoc]

/-- The loop that collects. -/
theorem lefts?_of_follow (hf : h.follow steps r = .proper items) (found : List Ref) :
    h.lefts? found steps r = some (found.reverse ++ items) := by
  induction steps generalizing r items found with
  | zero => cases hf
  | succ steps ih =>
    rw [lefts?]
    obtain ⟨hp, rfl⟩ | ⟨left, right, rest, hp, hrest, rfl⟩ := of_follow_proper hf
    · rw [hp, List.append_nil]
    · rw [hp]
      dsimp only
      rw [ih hrest, List.reverse_cons, List.append_assoc, List.singleton_append]

end Heap

end CountedLisp
