import CountedLisp.Token.Pattern
import Mathlib.Computability.Language

/-!
# The languages of patterns

`Pattern.language` is the set of texts that a pattern matches, said with the operations on
languages: union for alternatives, product for concatenation and the Kleene star for repetition. The
constructors that drop parts (`seq`, `alt`) have the languages of the plain ones.

A text `b :: t` is in the language of a pattern if and only if `t` is in that of its derivative by
`b` (`mem_language_derivative`). So taking derivatives byte by byte and asking at the end for the
empty text decides membership (`accepts_iff`).
-/

namespace CountedLisp

namespace Pattern

open Computability

/-- The texts that a pattern matches. -/
def language : Pattern → Language UInt8
  | .void => 0
  | .blank => 1
  | .one inClass => {s | ∃ b, inClass b = true ∧ s = [b]}
  | .concat p q => p.language * q.language
  | .either p q => p.language + q.language
  | .many p => p.language∗

variable {p q : Pattern} {s : Text}

/-! ### Membership -/

@[simp] theorem not_mem_void (s : Text) : s ∉ language .void :=
  Language.notMem_zero s

@[simp] theorem mem_blank : s ∈ language .blank ↔ s = [] :=
  Iff.rfl

@[simp] theorem mem_one {inClass : UInt8 → Bool} :
    s ∈ language (.one inClass) ↔ ∃ b, inClass b = true ∧ s = [b] :=
  Iff.rfl

@[simp] theorem mem_concat :
    s ∈ language (.concat p q) ↔ ∃ u ∈ p.language, ∃ v ∈ q.language, u ++ v = s :=
  Language.mem_mul

@[simp] theorem mem_either :
    s ∈ language (.either p q) ↔ s ∈ p.language ∨ s ∈ q.language :=
  Iff.rfl

/-- A repetition of a pattern that is not empty starts with a match that is not empty. -/
theorem cons_mem_many {b : UInt8} :
    b :: s ∈ language (.many p) ↔
      ∃ u v, s = u ++ v ∧ b :: u ∈ p.language ∧ v ∈ language (.many p) := by
  constructor
  · intro h
    obtain ⟨parts, hflat, hparts⟩ := Language.mem_kstar_iff_exists_nonempty.mp h
    match parts with
    | [] => simp at hflat
    | part :: parts =>
      obtain ⟨hpart, hne⟩ := hparts part (List.mem_cons_self ..)
      match part with
      | [] => exact absurd rfl hne
      | c :: u =>
        rw [List.flatten_cons, List.cons_append, List.cons.injEq] at hflat
        obtain ⟨rfl, hs⟩ := hflat
        refine ⟨u, parts.flatten, hs, hpart, ?_⟩
        exact Language.join_mem_kstar fun w hw => (hparts w (List.mem_cons_of_mem _ hw)).1
  · rintro ⟨u, v, rfl, hu, hv⟩
    obtain ⟨parts, rfl, hparts⟩ := Language.mem_kstar.mp hv
    refine Language.mem_kstar.mpr ⟨(b :: u) :: parts, by simp, ?_⟩
    intro w hw
    rcases List.mem_cons.mp hw with rfl | hw
    · exact hu
    · exact hparts w hw

/-- A repetition of single bytes is a text of such bytes. -/
@[simp] theorem mem_many_one {inClass : UInt8 → Bool} :
    s ∈ language (.many (.one inClass)) ↔ ∀ b ∈ s, inClass b = true := by
  induction s with
  | nil =>
    have h : [] ∈ language (.many (.one inClass)) := Language.nil_mem_kstar _
    simp [h]
  | cons b s ih =>
    rw [cons_mem_many, List.forall_mem_cons, ← ih]
    constructor
    · rintro ⟨u, v, rfl, ⟨c, hc, hbu⟩, hv⟩
      simp only [List.cons.injEq] at hbu
      obtain ⟨rfl, rfl⟩ := hbu
      exact ⟨hc, hv⟩
    · rintro ⟨hb, hs⟩
      exact ⟨[], s, rfl, ⟨b, hb, rfl⟩, hs⟩

/-! ### Constructors that drop parts -/

@[simp] theorem mem_seq :
    s ∈ (seq p q).language ↔ ∃ u ∈ p.language, ∃ v ∈ q.language, u ++ v = s := by
  have h : (seq p q).language = p.language * q.language := by
    unfold seq
    split
    · exact (zero_mul _).symm
    · exact (one_mul _).symm
    · exact (mul_zero _).symm
    · rfl
  rw [h]
  exact Language.mem_mul

@[simp] theorem mem_alt : s ∈ (alt p q).language ↔ s ∈ p.language ∨ s ∈ q.language := by
  have h : (alt p q).language = p.language + q.language := by
    unfold alt
    split
    · exact (zero_add _).symm
    · exact (add_zero _).symm
    · rfl
  rw [h]
  exact Language.mem_add ..

@[simp] theorem mem_literal {t : Text} : s ∈ (literal t).language ↔ s = t := by
  induction t generalizing s with
  | nil => exact mem_blank
  | cons b t ih =>
    have hstep : literal (b :: t) = seq (.one (· == b)) (literal t) := rfl
    rw [hstep, mem_seq]
    constructor
    · rintro ⟨u, ⟨c, hc, rfl⟩, v, hv, rfl⟩
      rw [beq_iff_eq] at hc
      rw [hc, ih.mp hv, List.singleton_append]
    · rintro rfl
      exact ⟨[b], ⟨b, by simp, rfl⟩, t, ih.mpr rfl, rfl⟩

@[simp] theorem mem_char {c : Char} : s ∈ (char c).language ↔ s = [Text.byte c] := by
  simp [char]

/-- One or more bytes of a class. -/
@[simp] theorem mem_some_one {inClass : UInt8 → Bool} :
    s ∈ (Pattern.some (.one inClass)).language ↔ s ≠ [] ∧ ∀ b ∈ s, inClass b = true := by
  rw [Pattern.some, mem_seq]
  constructor
  · rintro ⟨u, ⟨b, hb, rfl⟩, v, hv, rfl⟩
    refine ⟨List.cons_ne_nil b v, ?_⟩
    exact List.forall_mem_cons.mpr ⟨hb, mem_many_one.mp hv⟩
  · rintro ⟨hne, hs⟩
    match s, hne with
    | b :: v, _ =>
      obtain ⟨hb, hv⟩ := List.forall_mem_cons.mp hs
      exact ⟨[b], ⟨b, hb, rfl⟩, v, mem_many_one.mpr hv, rfl⟩

@[simp] theorem mem_optional : s ∈ (optional p).language ↔ s ∈ p.language ∨ s = [] :=
  mem_alt

/-! ### Derivatives -/

/-- A pattern is nullable if and only if it matches the empty text. -/
theorem nullable_iff (p : Pattern) : p.nullable = true ↔ [] ∈ p.language := by
  induction p with
  | void => simp [nullable]
  | blank => simp [nullable]
  | one inClass => simp [nullable]
  | concat p q ihp ihq => simp [nullable, ihp, ihq]
  | either p q ihp ihq => simp [nullable, ihp, ihq]
  | many p ih => simp [nullable, language, Language.nil_mem_kstar]

theorem cons_mem_concat {b : UInt8} :
    b :: s ∈ language (.concat p q) ↔
      (∃ u v, s = u ++ v ∧ b :: u ∈ p.language ∧ v ∈ q.language) ∨
        [] ∈ p.language ∧ b :: s ∈ q.language := by
  rw [mem_concat]
  constructor
  · rintro ⟨u, hu, v, hv, huv⟩
    cases u with
    | nil => exact Or.inr ⟨hu, huv ▸ hv⟩
    | cons c u =>
      rw [List.cons_append, List.cons.injEq] at huv
      obtain ⟨rfl, rfl⟩ := huv
      exact Or.inl ⟨u, v, rfl, hu, hv⟩
  · rintro (⟨u, v, rfl, hu, hv⟩ | ⟨hp, hq⟩)
    · exact ⟨b :: u, hu, v, hv, rfl⟩
    · exact ⟨[], hp, b :: s, hq, rfl⟩

/-- The derivative by a byte matches what may follow this byte. -/
theorem mem_language_derivative (b : UInt8) (p : Pattern) (s : Text) :
    s ∈ (p.derivative b).language ↔ b :: s ∈ p.language := by
  induction p generalizing s with
  | void => simp [derivative]
  | blank => simp [derivative]
  | one inClass =>
    by_cases hb : inClass b = true
    · simp [derivative, hb]
    · simp [derivative, hb]
  | concat p q ihp ihq =>
    have hseq : s ∈ (seq (p.derivative b) q).language ↔
        ∃ u v, s = u ++ v ∧ b :: u ∈ p.language ∧ v ∈ q.language := by
      rw [mem_seq]
      constructor
      · rintro ⟨u, hu, v, hv, rfl⟩
        exact ⟨u, v, rfl, (ihp u).mp hu, hv⟩
      · rintro ⟨u, v, rfl, hu, hv⟩
        exact ⟨u, (ihp u).mpr hu, v, hv, rfl⟩
    -- the byte belongs to the first part, or this is empty and it belongs to the second
    rw [cons_mem_concat, ← hseq, ← nullable_iff, ← ihq, derivative]
    by_cases hp : p.nullable = true
    · rw [if_pos hp, mem_alt]
      simp [hp]
    · rw [if_neg hp]
      simp [hp]
  | either p q ihp ihq => rw [derivative, mem_alt, mem_either, ihp, ihq]
  | many p ih =>
    rw [cons_mem_many, derivative, mem_seq]
    constructor
    · rintro ⟨u, hu, v, hv, rfl⟩
      exact ⟨u, v, rfl, (ih u).mp hu, hv⟩
    · rintro ⟨u, v, rfl, hu, hv⟩
      exact ⟨u, (ih u).mpr hu, v, hv, rfl⟩

/-- **Matching by derivatives decides membership** in the language of a pattern. -/
theorem accepts_iff (p : Pattern) (s : Text) : p.accepts s = true ↔ s ∈ p.language := by
  induction s generalizing p with
  | nil => exact nullable_iff p
  | cons b s ih => rw [accepts, ih, mem_language_derivative]

/-- A void pattern accepts nothing. -/
theorem accepts_of_isVoid (h : p.isVoid = true) (s : Text) : p.accepts s = false := by
  cases p with
  | void =>
    rw [Bool.eq_false_iff, Ne, accepts_iff]
    exact not_mem_void s
  | _ => cases h

end Pattern

end CountedLisp
