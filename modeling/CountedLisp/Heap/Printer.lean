import CountedLisp.Heap.Basic

/-!
# Printed objects

`Heap.print?` gives the written form of an object, with all objects that it contains. An object
that contains itself has no written form. In a heap of `n` objects a chain of containment that does
not come back to itself has at most `n` links, so a search of bounded depth decides the question.
-/

namespace CountedLisp

/-- The written form of a constant. -/
def Constant.text : Constant → Text
  | .integer v => Text.ofInt v.toInt
  | .double v => v.text
  | .boolean v => if v then "#t" else "#f"
  | .char v => "#\\" ++ String.utf8EncodeChar (Char.ofNat v.toNat)
  | .string v => v.quoted

/-- The ways in which something can be called. -/
inductive ProcedureKind where
  | user
  | library
  | native
  /-- A code that stands for no way of calling. -/
  | unknown
  deriving DecidableEq

namespace ProcedureKind

/-- The kind with a given code. -/
def ofCode (code : Int8) : ProcedureKind :=
  match code.toInt with
  | 0 => .user
  | 1 => .library
  | 2 => .native
  | _ => .unknown

/-- The name of a kind. -/
def name : ProcedureKind → Text
  | .user => "user"
  | .library => "library"
  | .native => "native"
  | .unknown => "unknown"

end ProcedureKind

/-- The way in which a procedure is called. -/
def Procedure.kind : Procedure → ProcedureKind
  | .user _ => .user
  | .library _ => .library
  | .native _ => .native

namespace Heap

mutual
/-- The written form of the object that `r` points to, if it is not nested deeper than `depth`. -/
def print (h : Heap) : (depth : Nat) → (r : Ref) → Option Text
  | 0, _ => none
  | depth + 1, r =>
    match h.get? r with
    | none => some "nil"
    | some o =>
      match o.payload with
      | .constant c => some c.text
      | .pair left right => do
        let first ← print h depth left
        let rest ← printRest h depth right
        return "(" ++ first ++ rest
      | .emptyList => some "()"
      | .vector items => do
        let parts ← items.mapM (print h depth)
        return "#(" ++ Text.join " " parts ++ ")"
      | .lambda p => some ("#<procedure:" ++ p.kind.name ++ ">")
      | .thunk _ => some "#<promise>"
      | .unspecified => some "#<unspecified>"

/-- The written form of what follows the first item of a list, with the closing parenthesis. -/
def printRest (h : Heap) : (depth : Nat) → (r : Ref) → Option Text
  | 0, _ => none
  | depth + 1, r =>
    match h.get? r with
    | some { payload := .pair left right, .. } => do
      let item ← print h depth left
      let rest ← printRest h depth right
      return " " ++ item ++ rest
    | some { payload := .emptyList, .. } => some ")"
    | _ => do
      let last ← print h depth r
      return " . " ++ last ++ ")"
end

/-- The written form of an object, unless it contains itself. On the way down every object is met at
most twice, as the tail of a list and by itself, and so is the nil at the end. -/
def print? (h : Heap) (r : Ref) : Option Text :=
  h.print (2 * h.objects.size + 2) r

/-- An object in messages: its type and its written form, or only its type if it has been
destroyed. -/
def describe? (h : Heap) (r : Ref) : Option Text :=
  match h.get? r with
  | none => some "nil"
  | some o =>
    if o.dead then some ("released " ++ o.tag.name)
    else (h.print? r).map fun t => o.tag.name ++ " " ++ t

end Heap

end CountedLisp
