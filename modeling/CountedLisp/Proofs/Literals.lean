import CountedLisp.Proofs.Spelling
import CountedLisp.Token.Literal
import Mathlib.Data.Nat.Digits.Defs
import Mathlib.Tactic.SplitIfs

/-!
# What tokens denote

The bytes of a token have the shape of its category (`Token.Spelled`), and this is all that reading
a literal relies on: a numeral consists of digits, a string has its two quotation marks, and a
character has three bytes.

The value of a numeral is said by places: a digit counts for ten to the power of its place
(`Text.placeValue`). The reader goes through the digits from the left and stops when the number has
no place in 64 bits. It finds the value by places if there is room for it, whatever the number of
digits is (`accumulate?_eq`), and no numeral is malformed. So a token is a word if its value is
within the range of words, and out of range otherwise (`integer?_of_isNumeralOf`).
-/

namespace CountedLisp

/-! ### Digits -/

namespace Text

theorem toNat_append (s : Text) (b : UInt8) : toNat (s ++ [b]) = 10 * toNat s + (b.toNat - 48) := by
  simp [toNat]

/-- The value of digits by their places. -/
def placeValue (digits : Text) : Nat :=
  Nat.ofDigits 10 (digits.reverse.map fun b => b.toNat - 48)

theorem toNat_eq_placeValue (digits : Text) : toNat digits = placeValue digits := by
  induction digits using List.reverseRecOn with
  | nil => rfl
  | append_singleton s b ih =>
    rw [toNat_append, ih, placeValue, placeValue, List.reverse_append, List.reverse_singleton,
      List.singleton_append, List.map_cons, Nat.ofDigits_cons]
    exact Nat.add_comm _ _

/-- A number does not get smaller by further digits. -/
theorem le_foldl_digits (s : Text) (n : Nat) :
    n ≤ s.foldl (fun n d => 10 * n + (d.toNat - 48)) n := by
  induction s generalizing n with
  | nil => exact Nat.le_refl n
  | cons b s ih => exact Nat.le_trans (by omega) (ih (10 * n + (b.toNat - 48)))

end Text

namespace Token

/-! ### Integers -/

/-- A numeral and its value. -/
inductive IsNumeralOf : Text → Int → Prop where
  | plain {s : Text} (hs : IsDigits s) : IsNumeralOf s (Text.placeValue s)
  | negative {s : Text} (hs : IsDigits s) : IsNumeralOf (Text.byte '-' :: s) (-(Text.placeValue s))

theorem IsNumeral.exists_value {s : Text} (h : IsNumeral s) : ∃ v, IsNumeralOf s v := by
  cases h with
  | plain hs => exact ⟨_, .plain hs⟩
  | negative hs => exact ⟨_, .negative hs⟩

/-- A numeral that starts with a digit has no sign. -/
theorem signed_cons {b : UInt8} (hb : isDigit b = true) (t : Text) :
    signed (b :: t) = (false, b :: t) := by
  have hminus : b ≠ Text.byte '-' := by
    rintro rfl
    cases hb
  have hplus : b ≠ Text.byte '+' := by
    rintro rfl
    cases hb
  rw [signed, if_neg hminus, if_neg hplus]

theorem signed_of_isDigits {s : Text} (hs : IsDigits s) (t : Text) :
    signed (s ++ t) = (false, s ++ t) := by
  obtain ⟨b, u, rfl, hb⟩ := hs.starts
  exact signed_cons hb (u ++ t)

theorem signed_digits {s : Text} (hs : IsDigits s) : signed s = (false, s) := by
  simpa using signed_of_isDigits hs []

theorem IsNumeralOf.integerValue_eq {s : Text} {v : Int} (h : IsNumeralOf s v) :
    integerValue s = v := by
  cases h with
  | plain hs =>
    rw [integerValue, signed_digits hs, ← Text.toNat_eq_placeValue]
    rfl
  | negative hs =>
    rw [← Text.toNat_eq_placeValue]
    rfl

/-- The reader finds the number that digits write after others, if it has a place in 64 bits. -/
theorem accumulate?_eq {s : Text} (hs : ∀ b ∈ s, isDigit b = true) {n : Nat}
    (hn : n < UInt64.size) : accumulate? n s =
      if s.foldl (fun n d => 10 * n + (d.toNat - 48)) n < UInt64.size then
        .ok (s.foldl (fun n d => 10 * n + (d.toNat - 48)) n)
      else .error .tooLarge := by
  induction s generalizing n with
  | nil => rw [List.foldl_nil, if_pos hn, accumulate?]
  | cons b s ih =>
    obtain ⟨hb, hs⟩ := List.forall_mem_cons.1 hs
    rw [accumulate?, hb, List.foldl_cons]
    by_cases hnext : UInt64.size ≤ 10 * n + (b.toNat - 48)
    · -- the digits that follow cannot make the number smaller
      have hlarge := Nat.le_trans hnext (Text.le_foldl_digits s _)
      simp only [Bool.not_true, Bool.false_eq_true, if_false, if_pos hnext]
      rw [if_neg (Nat.not_lt_of_le hlarge)]
    · simp only [Bool.not_true, Bool.false_eq_true, if_false, if_neg hnext]
      exact ih hs (Nat.lt_of_not_le hnext)

/-- Whatever the bytes are, a number that is found is what they write as digits. -/
theorem accumulate?_eq_ok {s : Text} {n m : Nat} (h : accumulate? n s = .ok m) :
    m = s.foldl (fun n d => 10 * n + (d.toNat - 48)) n := by
  induction s generalizing n with
  | nil =>
    cases h
    rfl
  | cons b s ih =>
    rw [accumulate?] at h
    split_ifs at h
    exact ih h

theorem magnitude?_eq {s : Text} (hs : IsDigits s) :
    magnitude? s =
      if Text.toNat s < UInt64.size then .ok (Text.toNat s) else .error .tooLarge := by
  have hne : s.isEmpty = false := by simpa using hs.ne_nil
  rw [magnitude?, hne]
  exact accumulate?_eq hs.all (by decide)

theorem magnitude?_eq_ok {s : Text} {n : Nat} (h : magnitude? s = .ok n) : n = Text.toNat s := by
  rw [magnitude?] at h
  split_ifs at h
  exact accumulate?_eq_ok h

/-- The range of words. -/
theorem isWord_iff (v : Int) :
    (Int64.minValue.toInt ≤ v && v ≤ Int64.maxValue.toInt) = true ↔ -2 ^ 63 ≤ v ∧ v < 2 ^ 63 := by
  rw [Bool.and_eq_true, decide_eq_true_eq, decide_eq_true_eq,
    show Int64.minValue.toInt = -2 ^ 63 from rfl, show Int64.maxValue.toInt = 2 ^ 63 - 1 from rfl]
  omega

/-- A word that is found is within the range of words. -/
theorem isWord_of_integer? {lexeme : Text} {w : Int64} (h : integer? lexeme = .ok w) :
    -2 ^ 63 ≤ integerValue lexeme ∧ integerValue lexeme < 2 ^ 63 := by
  unfold integer? at h
  dsimp only at h
  split at h
  · cases h
  · cases h
  · next n hm =>
    have hv : integerValue lexeme = if (signed lexeme).1 then -(n : Int) else n := by
      rw [integerValue, magnitude?_eq_ok hm]
    rw [← hv] at h
    by_contra hrange
    rw [if_neg ((isWord_iff _).not.2 hrange)] at h
    cases h

/-- The word of digits with or without a minus sign. -/
theorem integer?_of_signed {lexeme s : Text} {negative : Bool} {v : Int} (hs : IsDigits s)
    (hsigned : signed lexeme = (negative, s))
    (hv : v = if negative then -(Text.toNat s : Int) else Text.toNat s) :
    integer? lexeme =
      if -2 ^ 63 ≤ v ∧ v < 2 ^ 63 then .ok (Int64.ofInt v)
      else .error (outOfRange "ParseInt" lexeme) := by
  rw [integer?, hsigned]
  dsimp only
  rw [magnitude?_eq hs]
  by_cases hlarge : Text.toNat s < UInt64.size
  · rw [if_pos hlarge]
    dsimp only
    rw [← hv]
    simp only [isWord_iff]
  · -- what has no place in 64 bits is no word, with or without a sign
    have hrange : ¬(-2 ^ 63 ≤ v ∧ v < 2 ^ 63) := by
      have hsize : UInt64.size = 2 ^ 64 := rfl
      rw [hv]
      split_ifs <;> omega
    rw [if_neg hlarge, if_neg hrange]

/-- **A numeral is the word with its value**, or it is out of range. -/
theorem integer?_of_isNumeralOf {lexeme : Text} {v : Int} (h : IsNumeralOf lexeme v) :
    integer? lexeme =
      if -2 ^ 63 ≤ v ∧ v < 2 ^ 63 then .ok (Int64.ofInt v)
      else .error (outOfRange "ParseInt" lexeme) := by
  cases h with
  | plain hs =>
    exact integer?_of_signed hs (signed_digits hs) (by rw [Text.toNat_eq_placeValue]; rfl)
  | negative hs => exact integer?_of_signed hs rfl (by rw [Text.toNat_eq_placeValue]; rfl)

/-! ### Numbers with a point -/

/-- The number of digits with a point, which is rounded once. -/
theorem double?_of_signed {lexeme whole fraction : Text} {negative : Bool} (hw : IsDigits whole)
    (hf : IsDigits fraction)
    (hsigned : signed lexeme = (negative, whole ++ Text.byte '.' :: fraction)) :
    double? lexeme =
      (Binary64.ofDecimal? negative (Text.placeValue (whole ++ fraction)) fraction.length).elim
        (.error (outOfRange "ParseFloat" lexeme)) .ok := by
  -- there is no point among the digits, so that the first one is where they are cut
  have hpoint : ∀ b ∈ whole, (b != Text.byte '.') = true := by
    intro b hb
    refine bne_iff_ne.2 ?_
    rintro rfl
    exact (IsNumeral.plain hw).point_not_mem hb
  have htake : (whole ++ Text.byte '.' :: fraction).takeWhile (· != Text.byte '.') = whole := by
    rw [List.takeWhile_append_of_pos hpoint]
    simp
  have hdrop : (whole ++ Text.byte '.' :: fraction).dropWhile (· != Text.byte '.') =
      Text.byte '.' :: fraction := by
    rw [List.dropWhile_append_of_pos hpoint]
    simp
  have hdigits : ((whole ++ fraction).isEmpty || !(whole ++ fraction).all isDigit) = false := by
    have hne : (whole ++ fraction).isEmpty = false := by simp [hw.ne_nil]
    have hall : (whole ++ fraction).all isDigit = true :=
      List.all_eq_true.2 (List.forall_mem_append.2 ⟨hw.all, hf.all⟩)
    rw [hne, hall]
    rfl
  rw [double?, hsigned]
  simp only [htake, hdrop, List.drop_succ_cons, List.drop_zero, hdigits, Bool.false_eq_true,
    if_false, Text.toNat_eq_placeValue]
  cases Binary64.ofDecimal? negative (Text.placeValue (whole ++ fraction)) fraction.length <;> rfl

/-- **A numeral with a point is the number nearest to its value**, or it is out of range. -/
theorem double?_of_isNumeral {s fraction : Text} (hs : IsNumeral s) (hf : IsDigits fraction) :
    ∃ (negative : Bool) (whole : Text), IsDigits whole ∧
      s = (if negative then [Text.byte '-'] else []) ++ whole ∧
      double? (s ++ Text.byte '.' :: fraction) =
        (Binary64.ofDecimal? negative (Text.placeValue (whole ++ fraction)) fraction.length).elim
          (.error (outOfRange "ParseFloat" (s ++ Text.byte '.' :: fraction))) .ok := by
  cases hs with
  | plain hw =>
    exact ⟨false, s, hw, rfl, double?_of_signed hw hf (signed_of_isDigits hw _)⟩
  | @negative whole hw => exact ⟨true, whole, hw, rfl, double?_of_signed hw hf rfl⟩

/-! ### Tokens of a text -/

/-- The bytes of a token are spelled like its category. -/
theorem spelled_of_mem {text : Text} {ts : List Token} {t : Token} (h : tokenize text = .ok ts)
    (ht : t ∈ ts) : Spelled (some t.kind) t.lexeme := by
  obtain ⟨segments, hseg, rfl⟩ := tokenize_eq_ok_iff.1 h
  exact spelled_of_winner (winner_of_mem_tokensOf hseg 0 t ht)

/-- A numeral that is out of range is no malformed one. -/
theorem outOfRange_ne_invalidSyntax (reader reader' lexeme : Text) :
    outOfRange reader lexeme ≠ invalidSyntax reader' lexeme := by
  intro h
  have hlast := congrArg (fun f => f.text.getLast?) h
  have hrange : (Text.ofString ": value out of range").getLast? = some (Text.byte 'e') := by decide
  have hsyntax : (Text.ofString ": invalid syntax").getLast? = some (Text.byte 'x') := by decide
  simp only [outOfRange, invalidSyntax, Failure.text, List.getLast?_append, hrange, hsyntax,
    Option.some_or] at hlast
  revert hlast
  decide

/-- An integer token is the word with its value, or it is out of range. -/
theorem literal_integer {t : Token} {v : Int} (hk : t.kind = .integer)
    (hv : IsNumeralOf t.lexeme v) :
    (-2 ^ 63 ≤ v ∧ v ≤ 2 ^ 63 - 1 → ∃ n : Int64, n.toInt = v ∧ t.literal = .ok (.integer n)) ∧
    (¬(-2 ^ 63 ≤ v ∧ v ≤ 2 ^ 63 - 1) →
      t.literal = .error (.failure (outOfRange "ParseInt" t.lexeme))) := by
  rw [literal, hk]
  dsimp only
  rw [integer?_of_isNumeralOf hv]
  refine ⟨fun hin => ?_, fun hout => ?_⟩
  · rw [if_pos ⟨hin.1, by omega⟩]
    exact ⟨Int64.ofInt v, Int64.toInt_ofInt_of_le hin.1 (by omega), rfl⟩
  · rw [if_neg fun hin => hout ⟨hin.1, by omega⟩]
    rfl

/-- A token with a point is the number nearest to its value, or it is out of range. -/
theorem literal_double {t : Token} {s fraction : Text} (hk : t.kind = .double) (hs : IsNumeral s)
    (hf : IsDigits fraction) (hl : t.lexeme = s ++ Text.byte '.' :: fraction) :
    ∃ (negative : Bool) (whole : Text), IsDigits whole ∧
      t.lexeme = (if negative then [Text.byte '-'] else []) ++ whole ++ Text.byte '.' :: fraction ∧
      t.literal =
        (Binary64.ofDecimal? negative (Text.placeValue (whole ++ fraction)) fraction.length).elim
          (.error (.failure (outOfRange "ParseFloat" t.lexeme))) fun x => .ok (.double x) := by
  obtain ⟨negative, whole, hw, hsign, hread⟩ := double?_of_isNumeral hs hf
  refine ⟨negative, whole, hw, by rw [hl, hsign], ?_⟩
  rw [literal, hk]
  dsimp only
  rw [hl, hread]
  cases Binary64.ofDecimal? negative (Text.placeValue (whole ++ fraction)) fraction.length <;> rfl

/-- A string token is what stands between its first and its last byte. -/
theorem literal_string {t : Token} {first last : UInt8} {s : Text} (hk : t.kind = .string)
    (hl : t.lexeme = first :: (s ++ [last])) : t.literal = .ok (.string s) := by
  rw [literal, hk]
  dsimp only
  rw [hl, between, if_neg (by simp)]
  simp [orFault]

/-- **Literals are read safely and exactly.** Every token of a text is read within its bytes.

An integer token is the word with the value that its digits have by their places, leading zeros and
the minus sign included, or it is out of range. A token with a point is the number nearest to the
value of its digits, or out of range. Neither is malformed. A string token stands for the bytes
between its quotation marks, none of which is a quotation mark, a character token for its third and
last byte, and a truth value is true if it is `#t`. The other tokens are no literals. -/
theorem literal_exact {text : Text} {ts : List Token} {t : Token} (h : tokenize text = .ok ts)
    (ht : t ∈ ts) :
    (t.kind = .integer → ∃ v, IsNumeralOf t.lexeme v ∧
      (-2 ^ 63 ≤ v ∧ v ≤ 2 ^ 63 - 1 →
        ∃ n : Int64, n.toInt = v ∧ t.literal = .ok (.integer n)) ∧
      (¬(-2 ^ 63 ≤ v ∧ v ≤ 2 ^ 63 - 1) →
        t.literal = .error (.failure (outOfRange "ParseInt" t.lexeme)))) ∧
    (t.kind = .double → ∃ (negative : Bool) (whole fraction : Text),
      IsDigits whole ∧ IsDigits fraction ∧
      t.lexeme = (if negative then [Text.byte '-'] else []) ++ whole ++ Text.byte '.' :: fraction ∧
      t.literal =
        (Binary64.ofDecimal? negative (Text.placeValue (whole ++ fraction)) fraction.length).elim
          (.error (.failure (outOfRange "ParseFloat" t.lexeme))) fun x => .ok (.double x)) ∧
    (∀ reader, t.kind = .integer ∨ t.kind = .double →
      t.literal ≠ .error (.failure (invalidSyntax reader t.lexeme))) ∧
    (t.kind = .string → 2 ≤ t.lexeme.length ∧
      ∃ s, t.lexeme = Text.byte '"' :: (s ++ [Text.byte '"']) ∧ Text.byte '"' ∉ s ∧
        t.literal = .ok (.string s)) ∧
    (t.kind = .char → t.lexeme.length = 3 ∧
      ∃ b, t.lexeme[2]? = some b ∧ t.literal = .ok (.char b)) ∧
    (t.kind = .boolean → ∃ v, t.literal = .ok (.boolean v) ∧
      (v = true ↔ t.lexeme = Text.ofString "#t")) ∧
    (t.kind ∈ [.leftParen, .rightParen, .quoteMark, .identifier] →
      t.literal = .error (.failure (.plain ("not a literal: " ++ t.text)))) := by
  have hspelled := spelled_of_mem h ht
  have hnotSyntax : ∀ {name reader : Text},
      t.literal = .error (.failure (outOfRange name t.lexeme)) →
        t.literal ≠ .error (.failure (invalidSyntax reader t.lexeme)) := by
    intro name reader hout hmal
    exact outOfRange_ne_invalidSyntax _ _ _
      (Halt.failure.inj (Except.error.inj (hout.symm.trans hmal)))
  obtain ⟨kind, lexeme, span⟩ := t
  cases hspelled with
  | leftParen | rightParen | quoteMark | identifier => simp [literal, notALiteral]
  | integer hs =>
    obtain ⟨v, hv⟩ := hs.exists_value
    obtain ⟨hin, hout⟩ := literal_integer (t := ⟨.integer, lexeme, span⟩) rfl hv
    refine ⟨fun _ => ⟨v, hv, hin, hout⟩, by simp, fun reader _ => ?_, by simp, by simp, by simp,
      by simp⟩
    by_cases hrange : -2 ^ 63 ≤ v ∧ v ≤ 2 ^ 63 - 1
    · obtain ⟨n, -, hn⟩ := hin hrange
      simp [hn]
    · exact hnotSyntax (hout hrange)
  | @double s fraction hs hf =>
    obtain ⟨negative, whole, hw, hl, hread⟩ :=
      literal_double (t := ⟨.double, _, span⟩) rfl hs hf rfl
    refine ⟨by simp, fun _ => ⟨negative, whole, fraction, hw, hf, hl, hread⟩, fun reader _ => ?_,
      by simp, by simp, by simp, by simp⟩
    cases hx :
      Binary64.ofDecimal? negative (Text.placeValue (whole ++ fraction)) fraction.length with
    | some x => simp [hread, hx]
    | none =>
      rw [hx, Option.elim_none] at hread
      exact hnotSyntax hread
  | @string s hs =>
    have hmark : Text.byte '"' ∉ s := fun hmem => hs _ hmem rfl
    exact ⟨by simp, by simp, by simp, fun _ => ⟨by simp, s, rfl, hmark, literal_string rfl rfl⟩,
      by simp, by simp, by simp⟩
  | char b => simp [literal, orFault]
  | @boolean b hb =>
    refine ⟨by simp, by simp, by simp, by simp, by simp, fun _ => ⟨_, rfl, ?_⟩, by simp⟩
    exact beq_iff_eq

/-- Integers on both sides of the range, with leading zeros, and tokens that hold other tokens. -/
def limits : Text := "(-007 9223372036854775808 \"(;\" #\\\""

/-- The tokens of `limits`. -/
def limitTokens : List Token :=
  [⟨.leftParen, "(", ⟨1, 1⟩⟩, ⟨.integer, "-007", ⟨2, 5⟩⟩,
    ⟨.integer, "9223372036854775808", ⟨7, 25⟩⟩, ⟨.string, "\"(;\"", ⟨27, 30⟩⟩,
    ⟨.char, "#\\\"", ⟨32, 34⟩⟩]

theorem literal_exact_limits : tokenize limits = .ok limitTokens ∧
    (∃ t ∈ limitTokens, ∃ n : Int64, t.lexeme = Text.ofString "-007" ∧ n.toInt = -7 ∧
      t.literal = .ok (.integer n)) ∧
    (∃ t ∈ limitTokens, t.lexeme = Text.ofString "9223372036854775808" ∧
      t.literal = .error (.failure (outOfRange "ParseInt" t.lexeme))) ∧
    (∃ t ∈ limitTokens, t.kind = .string ∧ t.literal = .ok (.string "(;")) ∧
    ∃ t ∈ limitTokens, t.kind = .char ∧ t.literal = .ok (.char (Text.byte '"')) := by
  have h : tokenize limits = .ok limitTokens := by decide +kernel
  refine ⟨h, ?_, ?_, ?_, ?_⟩
  · have ht : (⟨.integer, "-007", ⟨2, 5⟩⟩ : Token) ∈ limitTokens := by simp [limitTokens]
    obtain ⟨v, hv, hin, -⟩ := (literal_exact h ht).1 rfl
    obtain rfl : -7 = v := hv.integerValue_eq
    obtain ⟨n, hn, hread⟩ := hin (by decide)
    exact ⟨_, ht, n, rfl, hn, hread⟩
  · have ht : (⟨.integer, "9223372036854775808", ⟨7, 25⟩⟩ : Token) ∈ limitTokens := by
      simp [limitTokens]
    obtain ⟨v, hv, -, hout⟩ := (literal_exact h ht).1 rfl
    obtain rfl : 9223372036854775808 = v := hv.integerValue_eq
    exact ⟨_, ht, rfl, hout (by decide)⟩
  · have ht : (⟨.string, "\"(;\"", ⟨27, 30⟩⟩ : Token) ∈ limitTokens := by simp [limitTokens]
    obtain ⟨-, s, hl, -, hread⟩ := (literal_exact h ht).2.2.2.1 rfl
    have hinner : Text.ofString "(;" ++ [Text.byte '"'] = s ++ [Text.byte '"'] :=
      (List.cons.inj hl).2
    obtain rfl := List.append_cancel_right hinner
    exact ⟨_, ht, rfl, hread⟩
  · have ht : (⟨.char, "#\\\"", ⟨32, 34⟩⟩ : Token) ∈ limitTokens := by simp [limitTokens]
    obtain ⟨-, b, hb, hread⟩ := (literal_exact h ht).2.2.2.2.1 rfl
    obtain rfl : Text.byte '"' = b := Option.some.inj hb
    exact ⟨_, ht, rfl, hread⟩

end Token

end CountedLisp
