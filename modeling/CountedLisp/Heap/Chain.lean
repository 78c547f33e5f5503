import CountedLisp.Heap.Basic

/-!
# Chains of pairs

A chain of pairs is followed by going to the right side of each pair, until there is something else
than a pair. There is a loop for each question about it: whether it is a list, how many pairs it
has, what is at the left of one of them, and what is at the left of all of them. Only the first one
tells living pairs from dead ones.

A loop is given the number of steps that it may take, and has no result if they are not enough. A
chain of more pairs than there are objects comes back to itself, so that a loop along it does not
end.
-/

namespace CountedLisp

namespace Heap

/-- The sides of a pair, living or dead. -/
def pair? (h : Heap) (r : Ref) : Option (Ref × Ref) :=
  match h.get? r with
  | some { payload := .pair left right, .. } => some (left, right)
  | _ => none

/-- Whether a chain consists of living pairs and ends with the empty list. -/
def isList? (h : Heap) : (steps : Nat) → (r : Ref) → Option Bool
  | 0, _ => none
  | steps + 1, r =>
    match h.get? r with
    | some { payload := .emptyList, .. } => some true
    | some { payload := .pair _ right, dead := dead, .. } =>
      if dead then some false else h.isList? steps right
    | _ => some false

/-- The number of pairs of a chain, counted from `n` on. -/
def countPairs? (h : Heap) (n : Nat) : (steps : Nat) → (r : Ref) → Option Nat
  | 0, _ => none
  | steps + 1, r =>
    match h.pair? r with
    | some (_, right) => h.countPairs? (n + 1) steps right
    | none => some n

/-- The left side of the pair at place `i`, if there is one, of a chain that starts at place `k`. -/
def leftAt? (h : Heap) (i k : Nat) : (steps : Nat) → (r : Ref) → Option (Option Ref)
  | 0, _ => none
  | steps + 1, r =>
    match h.pair? r with
    | some (left, right) => if k = i then some (some left) else h.leftAt? i (k + 1) steps right
    | none => some none

/-- The left sides of the pairs of a chain after those in `found`, which has the last one first. -/
def lefts? (h : Heap) (found : List Ref) : (steps : Nat) → (r : Ref) → Option (List Ref)
  | 0, _ => none
  | steps + 1, r =>
    match h.pair? r with
    | some (left, right) => h.lefts? (left :: found) steps right
    | none => some found.reverse

end Heap

end CountedLisp
