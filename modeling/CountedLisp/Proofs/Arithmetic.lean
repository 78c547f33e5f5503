import CountedLisp.Proofs.Lists
import CountedLisp.Proofs.Rounding
import CountedLisp.Proofs.Spreading
import Mathlib.Data.List.Infix

/-!
# Calculating with integers

Integers are calculated with in double precision. The result of a sum, a difference or a product is
the exact one as long as all that it goes through has at most 53 binary digits, apart from zeros at
the end: the arguments and the results of calculating with some of them from the left
(`Operation.Exact`). Integers are compared by the double-precision numbers nearest to them, so two
that differ can count as equal.

`Operation.exact` says what the result should be without any rounding, and `denotes_combine` follows
the calculation from the left with the two beside each other.
-/

namespace CountedLisp

open Binary64

/-- The calculations that have an integer as their result for any integers. -/
inductive Operation where
  | sum
  | difference
  | product
  deriving DecidableEq

/-- The comparisons. -/
inductive Comparison where
  | less
  | equal
  deriving DecidableEq

/-- An integer of 64 bits. -/
def InInt64 (i : ℤ) : Prop :=
  Int64.minValue.toInt ≤ i ∧ i ≤ Int64.maxValue.toInt

instance (i : ℤ) : Decidable (InInt64 i) :=
  inferInstanceAs (Decidable (_ ∧ _))

namespace Operation

/-- The function of the library. -/
def builtin : Operation → Builtin
  | sum => .plus
  | difference => .minus
  | product => .times

/-- The exact result. A difference with one argument changes its sign. -/
def exact : Operation → List ℤ → ℤ
  | sum, values => values.sum
  | product, values => values.prod
  | difference, [] => 0
  | difference, [v] => -v
  | difference, v :: rest => v - rest.sum

/-- No step of the calculation needs rounding, neither the arguments nor the results for the first
of them, from two on, nor the result for all. -/
structure Exact (op : Operation) (values : List ℤ) : Prop where
  arguments : ∀ v ∈ values, Representable v
  results : ∀ part, part <+: values → 2 ≤ part.length ∨ part = values →
    InInt64 (op.exact part) ∧ Representable (op.exact part)

instance (op : Operation) (values : List ℤ) : Decidable (op.Exact values) :=
  decidable_of_iff ((∀ v ∈ values, Representable v) ∧ ∀ part ∈ values.inits,
      2 ≤ part.length ∨ part = values → InInt64 (op.exact part) ∧ Representable (op.exact part))
    ⟨fun h => ⟨h.1, fun part hpart => h.2 part ((List.mem_inits part values).2 hpart)⟩,
      fun h => ⟨h.arguments, fun part hpart =>
        h.results part ((List.mem_inits part values).1 hpart)⟩⟩

/-- What a single argument is combined with. -/
def unit : Operation → ℤ
  | sum => 0
  | difference => 0
  | product => 1

/-- One step of the exact calculation. -/
def step : Operation → ℤ → ℤ → ℤ
  | sum => (· + ·)
  | difference => (· - ·)
  | product => (· * ·)

/-- One step in double precision. -/
def calculate : Operation → Binary64 → Binary64 → Binary64
  | sum => Binary64.add
  | difference => Binary64.sub
  | product => Binary64.mul

variable {op : Operation}

theorem callLibrary_builtin (op : Operation) (engine : Engine) (args : List Ref) :
    Procedure.callLibrary engine op.builtin args =
      Arguments.forcing engine args (Library.arithmetic op.unit op.calculate) := by
  cases op <;> rfl

theorem exact_nil (op : Operation) : op.exact [] = op.unit := by
  cases op <;> rfl

theorem exact_singleton (op : Operation) (v : ℤ) : op.exact [v] = op.step op.unit v := by
  cases op <;> simp [exact, step, unit]

/-- What all arguments but the first come to. -/
def gather : Operation → List ℤ → ℤ
  | sum, rest => rest.sum
  | difference, rest => rest.sum
  | product, rest => rest.prod

theorem foldl_step (op : Operation) (rest : List ℤ) (i : ℤ) :
    rest.foldl op.step i = op.step i (op.gather rest) := by
  induction rest generalizing i with
  | nil => cases op <;> simp [step, gather]
  | cons v rest ih =>
    rw [List.foldl_cons, ih]
    cases op <;> simp only [step, gather, List.sum_cons, List.prod_cons] <;> ring

/-- With at least two arguments, the calculation goes from the left. -/
theorem exact_cons (op : Operation) (v : ℤ) {rest : List ℤ} (hrest : rest ≠ []) :
    op.exact (v :: rest) = rest.foldl op.step v := by
  rw [foldl_step]
  cases op with
  | sum => exact List.sum_cons
  | product => exact List.prod_cons
  | difference =>
    obtain ⟨w, rest, rfl⟩ := List.exists_cons_of_ne_nil hrest
    rfl

end Operation

/-! ### In double precision -/

namespace InInt64

variable {i : ℤ}

theorem toInt (v : Int64) : InInt64 v.toInt :=
  ⟨v.minValue_le_toInt, v.toInt_le⟩

theorem log2_lt (hi : InInt64 i) : i.natAbs.log2 < 1023 := by
  have hmin : Int64.minValue.toInt = -2 ^ 63 := by decide
  have hmax : Int64.maxValue.toInt = 2 ^ 63 - 1 := by decide
  obtain ⟨hlow, hhigh⟩ := hi
  rw [hmin] at hlow
  rw [hmax] at hhigh
  have hlt : i.natAbs < 2 ^ 64 := by omega
  by_cases h0 : i.natAbs = 0
  · rw [h0]
    decide
  · exact ((Nat.log2_lt h0).2 hlt).trans (by decide)

theorem toInt_toWord (hi : InInt64 i) : (toWord i).toInt = i := by
  obtain ⟨hlow, hhigh⟩ := hi
  rw [toWord, if_pos (by rw [decide_eq_true hlow, decide_eq_true hhigh]; rfl)]
  exact Int64.toInt_ofInt_of_le hlow (Int.lt_add_one_of_le hhigh)

end InInt64

theorem denotes_ofInt_of_representable {i : ℤ} (hrange : InInt64 i) (hrep : Representable i) :
    (ofInt i).Denotes i := by
  have h := denotes_ofInt hrange.log2_lt
  rwa [nearest_of_representable hrep] at h

namespace Operation

variable {op : Operation} {i : ℤ} {x : Binary64}

/-- A step that needs no rounding. -/
theorem denotes_calculate {j : ℤ} {y : Binary64} (hx : x.Denotes i) (hy : y.Denotes j)
    (hrange : InInt64 (op.step i j)) (hrep : Representable (op.step i j)) :
    (op.calculate x y).Denotes (op.step i j) := by
  have hnearest := nearest_of_representable hrep
  have hlog := hrange.log2_lt
  cases op with
  | sum => exact hnearest ▸ hx.add hy hlog
  | difference => exact hnearest ▸ hx.sub hy hlog
  | product => exact hnearest ▸ hx.mul hy hlog

/-- The calculation from the left, step by step. -/
theorem denotes_foldl (rest : List Int64) (hx : x.Denotes i)
    (harg : ∀ v ∈ rest, Representable v.toInt)
    (hres : ∀ part, part <+: rest.map Int64.toInt → part ≠ [] →
      InInt64 (part.foldl op.step i) ∧ Representable (part.foldl op.step i)) :
    ((rest.map (ofInt ·.toInt)).foldl op.calculate x).Denotes
      ((rest.map Int64.toInt).foldl op.step i) := by
  induction rest generalizing x i with
  | nil => exact hx
  | cons v rest ih =>
    obtain ⟨hv, hrest⟩ := List.forall_mem_cons.1 harg
    have hy := denotes_ofInt_of_representable (.toInt v) hv
    obtain ⟨hrange, hrep⟩ := hres [v.toInt] (by simp) (by simp)
    refine ih (denotes_calculate hx hy hrange hrep) hrest fun part hpart _ => ?_
    exact hres (v.toInt :: part) (by simpa using hpart) (by simp)

/-- **The calculation is exact** if none of its steps needs rounding. -/
theorem denotes_combine {values : List Int64} (h : op.Exact (values.map Int64.toInt)) :
    (Library.combine (ofInt op.unit) op.calculate (values.map (ofInt ·.toInt))).Denotes
      (op.exact (values.map Int64.toInt)) := by
  have hunit : (ofInt op.unit).Denotes op.unit :=
    denotes_ofInt_of_representable (by cases op <;> decide) (.of_le (by cases op <;> decide))
  cases values with
  | nil =>
    simp only [List.map_nil, exact_nil]
    exact hunit
  | cons v rest =>
    have hv := denotes_ofInt_of_representable (.toInt v) (h.arguments v.toInt (by simp))
    cases rest with
    | nil =>
      -- a single argument is combined with the unit
      obtain ⟨hrange, hrep⟩ := h.results [v.toInt] (by simp) (.inr rfl)
      rw [exact_singleton] at hrange hrep
      simp only [List.map_cons, List.map_nil, exact_singleton]
      exact denotes_calculate hunit hv hrange hrep
    | cons u rest =>
      have hfold := exact_cons op v.toInt (List.cons_ne_nil u.toInt (rest.map Int64.toInt))
      simp only [List.map_cons, hfold]
      refine denotes_foldl (u :: rest) hv (fun t ht => ?_) fun part hpart hne => ?_
      · exact h.arguments t.toInt (List.mem_map_of_mem (List.mem_cons_of_mem v ht))
      · rw [← exact_cons op _ hne]
        refine h.results _ (by simpa using hpart) (.inl ?_)
        have := List.length_pos_iff.2 hne
        simp only [List.length_cons]
        omega

end Operation

/-! ### Integers in the heap -/

/-- The references point to living integers with these values. -/
def Heap.Integers (h : Heap) : List Ref → List Int64 → Prop :=
  List.Forall₂ fun r v => ∃ n, h.get? r = some ⟨n, false, .constant (.integer v)⟩

namespace Heap.Integers

variable {w : World} {args : List Ref} {values : List Int64}

theorem hasTag (h : w.heap.Integers args values) :
    ∀ arg ∈ args, Object.hasTag w.heap .integer arg = true := by
  induction h with
  | nil => simp
  | cons hv _ ih =>
    obtain ⟨n, hn⟩ := hv
    refine List.forall_mem_cons.2 ⟨?_, ih⟩
    simp [Object.hasTag, hn, Object.tag, Payload.tag, Constant.tag]

theorem force (engine : Engine) (h : w.heap.Integers args values) :
    Arguments.force engine args w = .ok (args, []) w :=
  Arguments.force_plain fun arg harg => isThunk_of_hasTag (h.hasTag arg harg) (by decide)

/-- A function that asks for the values of its arguments gets integers as they are. -/
theorem forcing (engine : Engine) (h : w.heap.Integers args values) (f : List Ref → Run Ref) :
    Arguments.forcing engine args f w = f args w := by
  rw [Arguments.forcing, Run.bind_ok (h.force engine)]
  exact Run.ensuring_releaseAll_nil _ w

theorem numericValue {r : Ref} {v : Int64} {n : UInt32}
    (h : w.heap.get? r = some ⟨n, false, .constant (.integer v)⟩) :
    Object.numericValue r w = .ok (ofInt v.toInt) w := by
  simp only [Object.numericValue, Run.get_bind, Object.number?, h]
  rfl

theorem numbers (h : w.heap.Integers args values) :
    Library.numbers args w = .ok (values.map (ofInt ·.toInt)) w := by
  induction h with
  | nil => rfl
  | cons hv _ ih =>
    obtain ⟨n, hn⟩ := hv
    rw [Library.numbers, Run.bind_ok (numericValue hn), Run.bind_ok ih]
    rfl

end Heap.Integers

/-- The world with a new constant. -/
def World.withConstant (c : Constant) (w : World) : World :=
  { w with heap := w.heap.extend [Object.new (.constant c)] }

theorem Object.constant_eq (c : Constant) (w : World) :
    Object.constant c w = .ok (some ⟨w.heap.objects.size⟩) (w.withConstant c) :=
  Object.make_eq _ w

namespace Comparison

/-- The function of the library. -/
def builtin : Comparison → Builtin
  | less => .less
  | equal => .equal

/-- Whether it holds. -/
def holds : Comparison → ℤ → ℤ → Bool
  | less, i, j => i < j
  | equal, i, j => i = j

/-- The name by which failures call it. -/
def name : Comparison → Text
  | less => "<"
  | equal => "="

/-- Whether it holds in double precision. -/
def decides : Comparison → Binary64 → Binary64 → Bool
  | less => Binary64.lt
  | equal => Binary64.eq

theorem callLibrary_builtin (c : Comparison) (engine : Engine) (args : List Ref) :
    Procedure.callLibrary engine c.builtin args = (do
      Arguments.exactly c.name args 2
      Arguments.forcing engine args (Library.comparison c.name c.decides)) := by
  cases c <;> rfl

theorem decides_eq (c : Comparison) {x y : Binary64} {i j : ℤ} (hx : x.Denotes i)
    (hy : y.Denotes j) : c.decides x y = c.holds i j := by
  cases c with
  | less => exact hx.lt_eq hy
  | equal => exact hx.eq_eq hy

end Comparison

theorem Arguments.exactly_ok {op : Text} {args : List Ref} {n : Nat} (hn : args.length = n)
    (w : World) : Arguments.exactly op args n w = .ok () w := by
  rw [Arguments.exactly, Arguments.checkCount, if_pos (congrArg _ hn)]
  rfl

namespace Procedure

/-- **Calculating with integers.** A sum, a difference or a product of integers is the integer that
is the exact result, if this and all that the calculation goes through fits into 64 bits and can be
represented in double precision. Two integers are compared by the representable integers nearest to
them, thus by their own values if these are representable. -/
theorem callLibrary_integers (engine : Engine) (w : World) :
    (∀ (op : Operation) args values, w.heap.Integers args values →
      op.Exact (values.map Int64.toInt) → ∃ v : Int64, v.toInt = op.exact (values.map Int64.toInt) ∧
        callLibrary engine op.builtin args w =
          .ok (some ⟨w.heap.objects.size⟩) (w.withConstant (.integer v))) ∧
    (∀ (c : Comparison) a b x y, w.heap.Integers [a, b] [x, y] →
      callLibrary engine c.builtin [a, b] w =
        .ok (some ⟨w.heap.objects.size⟩)
          (w.withConstant (.boolean (c.holds (nearest x.toInt) (nearest y.toInt))))) ∧
    ∀ i, Representable (nearest i) ∧ (∀ j, Representable j → |i - nearest i| ≤ |i - j|) ∧
      (Representable i → nearest i = i) := by
  refine ⟨fun op args values hargs hexact => ?_, fun c a b x y hargs => ?_, fun i =>
    ⟨representable_nearest i, fun j => abs_sub_nearest_le i, nearest_of_representable⟩⟩
  · have hint := (Operation.denotes_combine hexact).toInt?_eq
    have hrange := (hexact.results _ List.prefix_rfl (.inr rfl)).1
    refine ⟨_, hrange.toInt_toWord, ?_⟩
    rw [Operation.callLibrary_builtin, hargs.forcing, Library.arithmetic,
      Run.bind_ok hargs.numbers, Run.get_bind, List.all_eq_true.2 hargs.hasTag]
    simp only [Library.resultOf, hint]
    exact Object.constant_eq _ w
  · have hx := denotes_ofInt (InInt64.toInt x).log2_lt
    have hy := denotes_ofInt (InInt64.toInt y).log2_lt
    have hcount : Arguments.exactly c.name [a, b] 2 w = .ok () w := Arguments.exactly_ok rfl w
    obtain ⟨⟨_, ha⟩, ⟨_, hb⟩⟩ : (∃ n, w.heap.get? a = some ⟨n, false, .constant (.integer x)⟩) ∧
        ∃ n, w.heap.get? b = some ⟨n, false, .constant (.integer y)⟩ := by
      simpa [Heap.Integers] using hargs
    rw [Comparison.callLibrary_builtin, Run.bind_ok hcount, hargs.forcing, Library.comparison,
      Library.two, Run.bind_ok hcount]
    rw [Run.bind_ok (Heap.Integers.numericValue ha), Run.bind_ok (Heap.Integers.numericValue hb),
      Library.boolean, c.decides_eq hx hy]
    exact Object.constant_eq _ w

/-- Powers of two, one of them negative, the successor of the first, and zero. -/
def integerWorld : World :=
  let integer := fun v => Object.new (.constant (.integer v))
  { heap := Heap.initial.extend
      [integer 9007199254740992, integer (-1152921504606846976), integer 4611686018427387904,
        integer 9007199254740993, integer 0] }

/-- A sum and a difference far beyond 53 binary digits, and the comparison of two integers that
differ in a digit that is lost. -/
theorem callLibrary_integers_powers :
    (∃ v : Int64, v.toInt = 3467771713075281920 ∧
      callLibrary (.ofDepth 0) .plus [some ⟨1⟩, some ⟨2⟩, some ⟨3⟩] integerWorld =
        .ok (some ⟨6⟩) (integerWorld.withConstant (.integer v))) ∧
    (∃ v : Int64, v.toInt = -3449757314565799936 ∧
      callLibrary (.ofDepth 0) .minus [some ⟨1⟩, some ⟨2⟩, some ⟨3⟩] integerWorld =
        .ok (some ⟨6⟩) (integerWorld.withConstant (.integer v))) ∧
    callLibrary (.ofDepth 0) .equal [some ⟨4⟩, some ⟨1⟩] integerWorld =
      .ok (some ⟨6⟩) (integerWorld.withConstant (.boolean true)) := by
  obtain ⟨hcalculates, hcompares, -⟩ := callLibrary_integers (.ofDepth 0) integerWorld
  have hargs : integerWorld.heap.Integers [some ⟨1⟩, some ⟨2⟩, some ⟨3⟩]
      [9007199254740992, -1152921504606846976, 4611686018427387904] :=
    .cons ⟨1, rfl⟩ (.cons ⟨1, rfl⟩ (.cons ⟨1, rfl⟩ .nil))
  exact ⟨hcalculates .sum _ _ hargs (by decide +kernel),
    hcalculates .difference _ _ hargs (by decide +kernel),
    hcompares .equal _ _ 9007199254740993 9007199254740992 (.cons ⟨1, rfl⟩ (.cons ⟨1, rfl⟩ .nil))⟩

/-- The successor of `2 ^ 53` is not representable: adding nothing to it changes it, and it counts
as equal to its predecessor. -/
theorem callLibrary_integers_rounded :
    integerWorld.heap.Integers [some ⟨4⟩, some ⟨5⟩, some ⟨1⟩]
      [9007199254740993, 0, 9007199254740992] ∧
    InInt64 (Operation.sum.exact [9007199254740993, 0]) ∧
    given (callLibrary (.ofDepth 0) .plus [some ⟨4⟩, some ⟨5⟩] integerWorld) =
      some (.integer 9007199254740992) ∧
    Operation.sum.exact [9007199254740993, 0] ≠ 9007199254740992 ∧
    given (callLibrary (.ofDepth 0) .equal [some ⟨4⟩, some ⟨1⟩] integerWorld) =
      some (.boolean true) :=
  ⟨.cons ⟨1, rfl⟩ (.cons ⟨1, rfl⟩ (.cons ⟨1, rfl⟩ .nil)), by decide +kernel⟩

end Procedure

end CountedLisp
