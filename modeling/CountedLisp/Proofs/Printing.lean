import CountedLisp.Proofs.Literals
import CountedLisp.Proofs.Quoting
import CountedLisp.Proofs.Rereading

/-!
# Printed data can be read again

The printed form of a constant is a token that denotes the constant, if the constant is plain
(`Constant.IsPlain`). Integers and truth values are plain, and so are the characters and strings
that are printed as they are, without escapes.

A value whose constants are all plain is thus printed like a legible datum with this value, so that
it can be read and quoted again: `quote_print` goes once around from an object over its printed form
to an object with the same value.
-/

namespace CountedLisp

/-! ### Numbers -/

namespace Text

theorem toNat_digit {d : Nat} (hd : d < 10) : (digit d).toNat = 48 + d := by
  revert d
  decide

/-- A number written in decimal is read as the same number. -/
theorem toNat_ofNat (n : Nat) : toNat (ofNat n) = n := by
  fun_induction ofNat n with
  | case1 n hn => simp [toNat, toNat_digit hn]
  | case2 n hn ih =>
    rw [toNat_append, ih, toNat_digit (Nat.mod_lt _ (by decide))]
    omega

theorem isDigits_ofNat (n : Nat) : Token.IsDigits (ofNat n) := by
  have hdigit : ∀ d < 10, Token.isDigit (digit d) = true := by decide
  fun_induction ofNat n with
  | case1 n hn => exact ⟨by simp, by simpa using hdigit n hn⟩
  | case2 n hn ih =>
    refine ⟨by simp, fun b hb => ?_⟩
    rcases List.mem_append.mp hb with hb | hb
    · exact ih.all b hb
    · rw [List.mem_singleton.mp hb]
      exact hdigit _ (Nat.mod_lt _ (by decide))

theorem isNumeral_ofInt (i : Int) : Token.IsNumeral (ofInt i) := by
  cases i with
  | ofNat n => exact .plain (isDigits_ofNat n)
  | negSucc n => exact .negative (isDigits_ofNat (n + 1))

end Text

namespace Token

theorem integerValue_ofInt (i : Int) : integerValue (Text.ofInt i) = i := by
  cases i with
  | ofNat n =>
    show integerValue (Text.ofNat n) = n
    simp [integerValue, signed_digits (Text.isDigits_ofNat n), Text.toNat_ofNat]
  | negSucc n =>
    show integerValue (Text.byte '-' :: Text.ofNat (n + 1)) = _
    simp [integerValue, signed, Text.toNat_ofNat]
    omega

theorem integer?_ofInt (v : Int64) : integer? (Text.ofInt v.toInt) = .ok v := by
  obtain ⟨i, hi⟩ := (Text.isNumeral_ofInt v.toInt).exists_value
  obtain rfl : v.toInt = i := (integerValue_ofInt v.toInt).symm.trans hi.integerValue_eq
  rw [integer?_of_isNumeralOf hi, if_pos ⟨v.le_toInt, v.toInt_lt⟩, Int64.ofInt_toInt]

end Token

/-! ### Characters and strings -/

namespace Text

/-- Whether a byte is a printable character that has no escape in a string. -/
def isPlain (b : UInt8) : Bool :=
  0x20 ≤ b && b ≤ 0x7E && b != byte '"' && b != byte '\\'

theorem toNat_char {b : UInt8} (hb : b < 0x80) : (Char.ofNat b.toNat).toNat = b.toNat := by
  have hlt : b.toNat < 128 := hb
  have hvalid : b.toNat.isValidChar := Or.inl (by omega)
  rw [Char.ofNat, dif_pos hvalid]
  rfl

theorem utf8EncodeChar_ofNat {b : UInt8} (hb : b < 0x80) :
    String.utf8EncodeChar (Char.ofNat b.toNat) = [b] := by
  have hlt : b.toNat < 128 := hb
  have hval : (Char.ofNat b.toNat).val.toNat = b.toNat := toNat_char hb
  have hsize : (Char.ofNat b.toNat).utf8Size = 1 := by
    rw [Char.utf8Size_eq_one_iff, UInt32.le_iff_toNat_le, hval]
    exact Nat.le_of_lt_succ hlt
  have hbyte : (Char.ofNat b.toNat).val.toUInt8 = b := by
    apply UInt8.toNat_inj.mp
    rw [UInt32.toNat_toUInt8, hval]
    omega
  rw [String.utf8EncodeChar_eq_singleton hsize, hbyte]

theorem pieces_of_ascii {s : Text} (hs : ∀ b ∈ s, b < 0x80) :
    s.pieces = s.map fun b => .char (Char.ofNat b.toNat) := by
  induction s with
  | nil => rw [pieces, List.map_nil]
  | cons b s ih =>
    rw [List.forall_mem_cons] at hs
    have hfirst : firstPiece b s = (.char (Char.ofNat b.toNat), 0) := by
      unfold firstPiece
      exact if_pos hs.1
    rw [pieces, hfirst, List.drop_zero, ih hs.2, List.map_cons]

theorem isPlain_iff {b : UInt8} :
    isPlain b = true ↔ 0x20 ≤ b.toNat ∧ b.toNat ≤ 0x7E ∧ b.toNat ≠ 0x22 ∧ b.toNat ≠ 0x5C := by
  simp only [isPlain, Bool.and_eq_true, decide_eq_true_eq, bne_iff_ne, UInt8.le_iff_toNat_le,
    ne_eq, ← UInt8.toNat_inj, and_assoc]
  rfl

theorem lt_of_isPlain {b : UInt8} (hb : isPlain b = true) : b < 0x80 := by
  obtain ⟨-, hhigh, -⟩ := isPlain_iff.mp hb
  exact Nat.lt_of_le_of_lt hhigh (by decide)

theorem escaped_of_isPlain {b : UInt8} (hb : isPlain b = true) :
    Piece.escaped (.char (Char.ofNat b.toNat)) = [b] := by
  obtain ⟨hlow, hhigh, hmark, hslash⟩ := isPlain_iff.mp hb
  have hchar := toNat_char (lt_of_isPlain hb)
  have hne : ∀ c : Char, b.toNat ≠ c.toNat → Char.ofNat b.toNat ≠ c := by
    rintro c hc rfl
    exact hc hchar.symm
  have hprintable : isPrintable (Char.ofNat b.toNat) = true := by
    rw [isPrintable, hchar, if_pos (by omega)]
    exact decide_eq_true hlow
  simp only [Piece.escaped, hne '"' hmark, hne '\\' hslash, hprintable, decide_false, Bool.or_self,
    Bool.false_eq_true, if_false, if_true, utf8EncodeChar_ofNat (lt_of_isPlain hb)]

/-- A string of plain bytes is quoted as it is. -/
theorem quoted_of_isPlain {s : Text} (hs : ∀ b ∈ s, isPlain b = true) :
    s.quoted = byte '"' :: (s ++ [byte '"']) := by
  have hescaped : ∀ s : Text, (∀ b ∈ s, isPlain b = true) →
      (s.map fun b => Piece.char (Char.ofNat b.toNat)).flatMap Piece.escaped = s := by
    intro s hs
    induction s with
    | nil => rfl
    | cons b s ih =>
      rw [List.forall_mem_cons] at hs
      rw [List.map_cons, List.flatMap_cons, escaped_of_isPlain hs.1, ih hs.2, List.singleton_append]
  rw [quoted, pieces_of_ascii fun b hb => lt_of_isPlain (hs b hb), hescaped s hs]

end Text

/-! ### Plain constants -/

namespace Constant

/-- The constants whose printed form denotes them. -/
def IsPlain : Constant → Prop
  | .integer _ | .boolean _ => True
  | .double _ => False
  | .char b => b < 0x80
  | .string s => ∀ b ∈ s, Text.isPlain b = true

instance : DecidablePred IsPlain
  | .integer _ | .boolean _ => isTrue trivial
  | .double _ => isFalse id
  | .char b => inferInstanceAs (Decidable (b < 0x80))
  | .string s => inferInstanceAs (Decidable (∀ b ∈ s, Text.isPlain b = true))

/-- A plain constant is printed as a token of its category. -/
theorem spelled_text {c : Constant} (hc : c.IsPlain) : Token.Spelled (some c.kind) c.text := by
  cases c with
  | integer v => exact .integer (Text.isNumeral_ofInt v.toInt)
  | double v => exact hc.elim
  | boolean v =>
    cases v with
    | true => exact .boolean (.inl rfl)
    | false => exact .boolean (.inr rfl)
  | char b =>
    rw [text, Text.utf8EncodeChar_ofNat hc]
    exact .char b
  | string s =>
    rw [text, Text.quoted_of_isPlain hc]
    refine .string fun b hb => ?_
    rintro rfl
    exact absurd (hc _ hb) (by decide)

/-- A token like the printed form of a plain constant denotes this constant. -/
theorem literal_of_text {c : Constant} (hc : c.IsPlain) {t : Token} (hk : t.kind = c.kind)
    (hl : t.lexeme = c.text) : t.literal = .ok c := by
  cases c with
  | integer v =>
    rw [Token.literal, hk, hl]
    show ((Token.integer? (Text.ofInt v.toInt)).map Constant.integer).mapError Halt.failure = _
    rw [Token.integer?_ofInt]
    rfl
  | double v => exact hc.elim
  | boolean v =>
    rw [Token.literal, hk, hl]
    cases v <;> rfl
  | char b =>
    rw [Token.literal, hk, hl]
    simp only [text, Text.utf8EncodeChar_ofNat hc]
    rfl
  | string s =>
    have hquoted : t.lexeme = Text.byte '"' :: (s ++ [Text.byte '"']) := by
      rw [hl, text, Text.quoted_of_isPlain hc]
    exact Token.literal_string hk hquoted

theorem isLegible_token {c : Constant} (hc : c.IsPlain) (span : Span) :
    Token.IsLegible { kind := c.kind, lexeme := c.text, span := span } where
  isAtom := by cases c <;> rfl
  winner := Token.winner_of_spelled (spelled_text hc) (by cases c <;> simp [kind])

theorem kind_ne_identifier (c : Constant) : c.kind ≠ .identifier := by
  cases c <;> simp [kind]

end Constant

/-! ### Plain values -/

namespace Value

open Datum

mutual
theorem isLegible_datum_of_isPlain (v : Value) (hv : ∀ c ∈ v.constants, c.IsPlain) :
    ∀ t ∈ v.datum.atoms, t.IsLegible := by
  match v with
  | .constant c =>
    exact List.forall_mem_singleton.mpr (Constant.isLegible_token (hv c (by simp [constants])) _)
  | .list items => exact isLegible_data_of_isPlain items hv
termination_by structural v

theorem isLegible_data_of_isPlain (vs : List Value) (hvs : ∀ c ∈ constantsAll vs, c.IsPlain) :
    ∀ t ∈ atomsAll (data vs), t.IsLegible := by
  match vs with
  | [] => exact List.forall_mem_nil _
  | v :: vs =>
    rw [constantsAll, List.forall_mem_append] at hvs
    rw [data, atomsAll, List.forall_mem_append]
    exact ⟨isLegible_datum_of_isPlain v hvs.1, isLegible_data_of_isPlain vs hvs.2⟩
termination_by structural vs
end

mutual
/-- A datum that is written like a plain value has this value, wherever its tokens are. -/
theorem value?_of_unplaced (v : Value) (hv : ∀ c ∈ v.constants, c.IsPlain) {d : Datum}
    (hd : d.unplaced = v.datum.unplaced) : d.value? = .ok v := by
  match v, d with
  | .constant c, .atom t =>
    simp only [datum, unplaced, Datum.atom.injEq, Token.mk.injEq, and_true] at hd
    have hliteral := Constant.literal_of_text (hv c (by simp [constants])) hd.1 hd.2
    rw [Datum.value?, hd.1, if_neg c.kind_ne_identifier, hliteral]
    rfl
  | .constant c, .list items => cases hd
  | .list vs, .atom t => cases hd
  | .list vs, .list items =>
    simp only [datum, unplaced, Datum.list.injEq] at hd
    rw [Datum.value?, values?_of_unplaced vs hv hd]
    rfl
termination_by structural v

theorem values?_of_unplaced (vs : List Value) (hvs : ∀ c ∈ constantsAll vs, c.IsPlain)
    {ds : List Datum} (hds : unplacedAll ds = unplacedAll (data vs)) :
    Datum.values? ds = .ok vs := by
  match vs, ds with
  | [], [] => rfl
  | [], d :: ds => cases hds
  | v :: vs, [] => cases hds
  | v :: vs, d :: ds =>
    simp only [data, unplacedAll, List.cons.injEq] at hds
    rw [constantsAll, List.forall_mem_append] at hvs
    rw [Datum.values?, value?_of_unplaced v hvs.1 hds.1, values?_of_unplaced vs hvs.2 hds.2]
    rfl
termination_by structural vs
end

end Value

/-- **Printed data can be read again.** An object whose value has plain constants only is printed,
its printed form is read as one datum, and quoting this datum gives an object with the same value,
in any world that counts references and has its empty list. -/
theorem quote_print (h : Heap) (r : Ref) (v : Value) (hr : h.Depicts r v)
    (hv : ∀ c ∈ v.constants, c.IsPlain) :
    ∃ printed ts d, h.print? r = some printed ∧ Token.tokenize printed = .ok ts ∧
      Datum.read ts = .ok [d] ∧ ∀ w : World, w.reclaim = true → w.heap.HasNil →
        ∃ r' w', Quotation.build d w = .ok r' w' ∧ w'.heap.Depicts r' v := by
  have hlegible : ∀ t ∈ Datum.atomsAll [v.datum], t.IsLegible := by
    rw [Datum.atomsAll, Datum.atomsAll, List.append_nil]
    exact Value.isLegible_datum_of_isPlain v hv
  obtain ⟨ts, ds, htokens, hread, hds⟩ := Datum.read_text hlegible
  obtain ⟨d, rfl, hd⟩ := List.map_eq_singleton_iff.mp hds
  refine ⟨v.datum.text, ts, d, Heap.print?_of_depicts hr, ?_, hread, ?_⟩
  · simpa [Text.join] using htokens
  · intro w hw hn
    have hbuild := Quotation.build_eq d (v.value?_of_unplaced hv hd) hw hn
    exact ⟨_, _, hbuild, Heap.depicts_place hn v⟩

/-- A list with the least integer, an opening parenthesis and a line break as characters, a string
with a semicolon and parentheses, and an empty list in it. -/
theorem quote_print_nested :
    let v : Value := .list [.constant (.integer Int64.minValue), .constant (.char (Text.byte '(')),
      .constant (.string "a;(b)"), .list [],
      .list [.constant (.boolean true), .constant (.char 10)]]
    let h := Heap.initial.extend (v.place 1).2
    let printed : Text := "(-9223372036854775808 #\\( \"a;(b)\" () (#t #\\\n))"
    h.Depicts (v.place 1).1 v ∧ (∀ c ∈ v.constants, c.IsPlain) ∧
      h.print? (v.place 1).1 = some printed ∧
      ∃ ts d, Token.tokenize printed = .ok ts ∧ Datum.read ts = .ok [d] ∧
        ∃ r' w', Quotation.build d {} = .ok r' w' ∧ w'.heap.Depicts r' v := by
  intro v h printed
  have hnil : Heap.initial.HasNil := ⟨_, rfl, rfl⟩
  have hr : h.Depicts (v.place 1).1 v := Heap.depicts_place hnil v
  have hv : ∀ c ∈ v.constants, c.IsPlain := by decide +kernel
  have htext : v.datum.text = printed := by decide +kernel
  obtain ⟨printed', ts, d, hprint, htokens, hread, hbuild⟩ := quote_print h _ v hr hv
  obtain rfl : printed' = printed := by
    rw [Heap.print?_of_depicts hr, htext] at hprint
    exact (Option.some.inj hprint).symm
  exact ⟨hr, hv, hprint, ts, d, htokens, hread, hbuild {} rfl hnil⟩

end CountedLisp
