import CountedLisp.Failure

/-!
# Stacks

A last-in, first-out container. Taking from an empty stack is a failure, the stack underflow.
-/

namespace CountedLisp

/-- A stack, its topmost item first. -/
structure Stack (α : Type) where
  /-- The items from the top down. -/
  items : List α

namespace Stack

variable {α : Type}

/-- The stack without items. -/
def empty : Stack α := ⟨[]⟩

/-- The number of items. -/
def size (s : Stack α) : Nat := s.items.length

/-- Whether there is no item. -/
def isEmpty (s : Stack α) : Bool := s.items.isEmpty

/-- The stack with `x` on top. -/
def push (s : Stack α) (x : α) : Stack α := ⟨x :: s.items⟩

/-- The failure of taking from an empty stack. -/
def underflow (op : Text) : Failure :=
  .of .indexOutOfRange op "non-empty stack" "stack underflow"

/-- The topmost item and the stack without it. -/
def pop? (s : Stack α) : Except Failure (α × Stack α) :=
  match s.items with
  | x :: rest => .ok (x, ⟨rest⟩)
  | [] => .error (underflow "stack-pop")

/-- The topmost item. -/
def peek? (s : Stack α) : Except Failure α :=
  match s.items with
  | x :: _ => .ok x
  | [] => .error (underflow "stack-peek")

end Stack

end CountedLisp
