import CountedLisp.Foreign.Library
import CountedLisp.Proofs.Printing
import CountedLisp.Proofs.Rereading

/-!
# Texts that break the line

A text breaks the line if it holds a line feed. This module tells from where a text that is put
together can have one. Numbers, type names and quoted strings never have one (`not_breaks_quoted`);
a constant has one only if it is the line feed as a character (`Constant.breaks_text_iff`), since
characters are written as they are. So a written object breaks the line only if there is such a
character in the heap (`Heap.hasNewline_of_print`), and a written datum only if one of its tokens
does.

Of the tokens it is strings and characters that can break the line (`Token.Spelled.kind_of_breaks`).
-/

namespace CountedLisp

namespace Text

variable {s t u : Text}

/-- A text has a line feed. -/
def Breaks (t : Text) : Prop :=
  byte '\n' ∈ t

instance (t : Text) : Decidable t.Breaks :=
  inferInstanceAs (Decidable (byte '\n' ∈ t))

@[simp] theorem not_breaks_nil : ¬Breaks [] :=
  List.not_mem_nil

@[simp] theorem breaks_append : Breaks (s ++ t) ↔ s.Breaks ∨ t.Breaks :=
  List.mem_append

@[simp] theorem breaks_cons {b : UInt8} : Breaks (b :: t) ↔ byte '\n' = b ∨ t.Breaks :=
  List.mem_cons

theorem not_breaks_append (hs : ¬s.Breaks) (ht : ¬t.Breaks) : ¬Breaks (s ++ t) := by
  rw [breaks_append]
  exact not_or.2 ⟨hs, ht⟩

theorem not_breaks_cons {b : UInt8} (hb : byte '\n' ≠ b) (ht : ¬t.Breaks) : ¬Breaks (b :: t) := by
  rw [breaks_cons]
  exact not_or.2 ⟨hb, ht⟩

/-- A beginning without line feeds is left away. -/
theorem Breaks.of_led (h : Breaks (s ++ t ++ u)) (hs : ¬s.Breaks) : t.Breaks ∨ u.Breaks := by
  rw [List.append_assoc, breaks_append, breaks_append] at h
  exact h.resolve_left hs

/-- A beginning and an end without line feeds are left away. -/
theorem Breaks.of_enclosed (h : Breaks (s ++ t ++ u)) (hs : ¬s.Breaks) (hu : ¬u.Breaks) :
    t.Breaks :=
  (h.of_led hs).resolve_right hu

/-- No byte of the text is a line feed. -/
theorem not_breaks_of_forall {p : UInt8 → Bool} (hp : p (byte '\n') = false)
    (ht : ∀ b ∈ t, p b = true) : ¬t.Breaks := fun h => by
  rw [ht _ h] at hp
  cases hp

theorem Breaks.of_join {parts : List Text} (h : (join s parts).Breaks) :
    s.Breaks ∨ ∃ part ∈ parts, part.Breaks := by
  unfold join at h
  induction parts with
  | nil => exact absurd h not_breaks_nil
  | cons part rest ih =>
    cases rest with
    | nil =>
      rw [List.intercalate_singleton] at h
      exact .inr ⟨part, List.mem_cons_self, h⟩
    | cons next rest =>
      rw [List.intercalate_cons_cons, breaks_append, breaks_append] at h
      rcases h with (h | h) | h
      · exact .inr ⟨part, List.mem_cons_self, h⟩
      · exact .inl h
      · rcases ih h with h | ⟨other, hmem, h⟩
        · exact .inl h
        · exact .inr ⟨other, List.mem_cons_of_mem _ hmem, h⟩

/-! ### Numbers -/

theorem not_breaks_of_isDigits (ht : Token.IsDigits t) : ¬t.Breaks :=
  not_breaks_of_forall (by decide) ht.all

theorem not_breaks_of_isNumeral (ht : Token.IsNumeral t) : ¬t.Breaks := by
  cases ht with
  | plain hs => exact not_breaks_of_isDigits hs
  | negative hs => exact not_breaks_cons (by decide) (not_breaks_of_isDigits hs)

@[simp] theorem not_breaks_ofNat (n : Nat) : ¬(ofNat n).Breaks :=
  not_breaks_of_isDigits (isDigits_ofNat n)

@[simp] theorem not_breaks_ofInt (i : Int) : ¬(ofInt i).Breaks :=
  not_breaks_of_isNumeral (isNumeral_ofInt i)

@[simp] theorem not_breaks_hex (width n : Nat) : ¬(hex width n).Breaks := by
  have hdigit : ∀ d < 16, byte '\n' ≠ digit d := by decide
  induction width generalizing n with
  | zero => exact not_breaks_nil
  | succ width ih =>
    rw [hex, breaks_append, breaks_cons]
    rintro (h | h | h)
    · exact ih _ h
    · exact hdigit _ (Nat.mod_lt _ (by decide)) h
    · exact not_breaks_nil h

theorem not_breaks_replicate_zero (n : Nat) : ¬Breaks (List.replicate n (byte '0')) := fun h =>
  absurd (List.eq_of_mem_replicate h) (by decide)

/-! ### Characters -/

theorem eq_ten_of_newline {n : Nat} (hn : n < 256) (h : byte '\n' = UInt8.ofNat n) : n = 10 := by
  have htoNat : 10 = n % 256 := by
    rw [← UInt8.toNat_ofNat', ← h]
    rfl
  omega

/-- The only character with a line feed among its bytes is the line feed. -/
theorem eq_newline_of_breaks {c : Char} (h : Breaks (String.utf8EncodeChar c)) : c = '\n' := by
  have hlong : ∀ n : Nat, 128 ≤ n → n < 256 → byte '\n' ≠ UInt8.ofNat n := by
    intro n hlow hhigh h
    have := eq_ten_of_newline hhigh h
    omega
  unfold Breaks String.utf8EncodeChar at h
  dsimp only at h
  -- the bytes of a character that has more than one are above those of all that have one
  split_ifs at h
  · have hval : c.val.toNat = 10 := eq_ten_of_newline (by omega) (List.mem_singleton.1 h)
    exact Char.ext (UInt32.toNat_inj.mp hval)
  all_goals
    simp only [List.mem_cons, List.not_mem_nil, or_false] at h
    exfalso
  · rcases h with h | h
    · exact hlong _ (by omega) (by omega) h
    · exact hlong _ (by omega) (by omega) h
  · rcases h with h | h | h
    · exact hlong _ (by omega) (by omega) h
    · exact hlong _ (by omega) (by omega) h
    · exact hlong _ (by omega) (by omega) h
  · rcases h with h | h | h | h
    · exact hlong _ (by omega) (by omega) h
    · exact hlong _ (by omega) (by omega) h
    · exact hlong _ (by omega) (by omega) h
    · exact hlong _ (by omega) (by omega) h

/-- A backslash and another byte that is no line feed. -/
theorem not_breaks_escape {b : UInt8} (hb : byte '\n' ≠ b) : ¬Breaks [byte '\\', b] :=
  not_breaks_cons (by decide) (not_breaks_cons hb not_breaks_nil)

theorem not_breaks_escaped (p : Piece) : ¬p.escaped.Breaks := by
  cases p with
  | stray b => exact not_breaks_append (by decide) (not_breaks_hex _ _)
  | char c =>
    rw [Piece.escaped]
    split
    · next hmark =>
      rw [Bool.or_eq_true, decide_eq_true_eq, decide_eq_true_eq] at hmark
      rcases hmark with rfl | rfl
      · decide
      · decide
    · split
      · next hprint =>
        intro h
        obtain rfl := eq_newline_of_breaks h
        exact absurd hprint (by decide)
      · split
        · next l hl =>
          -- the letter for the line feed is not a line feed
          refine not_breaks_escape ?_
          unfold shortEscape at hl
          split at hl <;> cases hl <;> decide
        · split_ifs <;> exact not_breaks_append (by decide) (not_breaks_hex _ _)

/-- A quoted text fits on one line. -/
@[simp] theorem not_breaks_quoted (t : Text) : ¬t.quoted.Breaks := by
  unfold quoted
  rw [breaks_cons, breaks_append]
  rintro (h | h | h)
  · exact absurd h (by decide)
  · obtain ⟨p, -, hp⟩ := List.mem_flatMap.1 h
    exact not_breaks_escaped p hp
  · exact absurd h (by decide)

/-! ### Pieces of a text -/

/-- A character of three bytes stands for a number of more than seven bits. -/
theorem three_le {b c : UInt8} {n : Nat} (hlow : 224 ≤ b.toNat) (hhigh : b.toNat ≤ 239)
    (hc : (secondRange b).1.toNat ≤ c.toNat ∧ c.toNat ≤ (secondRange b).2.toNat) :
    128 ≤ (b.toNat % 16 * 64 + tailBits c) * 64 + n := by
  unfold tailBits
  by_cases hb : b = 0xE0
  · subst hb
    have hmin : 160 ≤ c.toNat := hc.1
    have hmax : c.toNat ≤ 191 := hc.2
    omega
  · have hne : b.toNat ≠ 224 := fun h => hb (UInt8.toNat_inj.mp h)
    omega

/-- A character of four bytes stands for a number of more than seven bits. -/
theorem four_le {b c : UInt8} {m n : Nat} (hlow : 240 ≤ b.toNat) (hhigh : b.toNat ≤ 244)
    (hc : (secondRange b).1.toNat ≤ c.toNat ∧ c.toNat ≤ (secondRange b).2.toNat) :
    128 ≤ ((b.toNat % 8 * 64 + tailBits c) * 64 + m) * 64 + n := by
  unfold tailBits
  by_cases hb : b = 0xF0
  · subst hb
    have hmin : 144 ≤ c.toNat := hc.1
    have hmax : c.toNat ≤ 191 := hc.2
    omega
  · have hne : b.toNat ≠ 240 := fun h => hb (UInt8.toNat_inj.mp h)
    omega

theorem eq_ten_of_ofNat {n : Nat} (h : Char.ofNat n = '\n') : n = 10 := by
  by_cases hn : n.isValidChar
  · have hof : Char.ofNat n = Char.ofNatAux n hn := dif_pos hn
    exact congrArg Char.toNat (hof.symm.trans h)
  · have hof : Char.ofNat n = '\x00' := dif_neg hn
    exact absurd (hof.symm.trans h) (by decide)

/-- A piece with a line feed is the line feed itself, since no longer form stands for it. -/
theorem eq_newline_of_firstPiece {b : UInt8} (h : (firstPiece b t).1.bytes.Breaks) :
    byte '\n' = b := by
  have hstray : (Piece.stray b).bytes.Breaks → byte '\n' = b := List.mem_singleton.1
  have hlong : ∀ {n : Nat}, 128 ≤ n → ¬(Piece.char (Char.ofNat n)).bytes.Breaks := by
    intro n hn h
    have := eq_ten_of_ofNat (eq_newline_of_breaks h)
    omega
  unfold firstPiece at h
  simp only [Bool.and_eq_true, decide_eq_true_eq, UInt8.le_iff_toNat_le, isTail] at h
  split at h
  · next hb =>
    rw [Piece.bytes, utf8EncodeChar_ofNat hb] at h
    exact List.mem_singleton.1 h
  · split at h
    · -- two bytes, or a stray one if the second does not go with it
      next hb =>
      have hlow : 194 ≤ b.toNat := hb.1
      have hhigh : b.toNat ≤ 223 := hb.2
      split at h
      · split at h
        · exact absurd h (hlong (by omega))
        · exact hstray h
      · exact hstray h
    · split at h
      · -- three bytes
        next hb =>
        have hlow : 224 ≤ b.toNat := hb.1
        have hhigh : b.toNat ≤ 239 := hb.2
        split at h
        · next c d _ =>
          split at h
          · next hc => exact absurd h (hlong (three_le hlow hhigh hc.1))
          · exact hstray h
        · exact hstray h
      · split at h
        · -- four bytes
          next hb =>
          have hlow : 240 ≤ b.toNat := hb.1
          have hhigh : b.toNat ≤ 244 := hb.2
          split at h
          · next c d e _ =>
            split at h
            · next hc => exact absurd h (hlong (four_le hlow hhigh hc.1.1))
            · exact hstray h
          · exact hstray h
        · exact hstray h

/-- A text has the line feeds of its pieces. -/
theorem Breaks.of_piece {p : Piece} (hp : p ∈ t.pieces) (h : p.bytes.Breaks) : t.Breaks := by
  fun_induction pieces t with
  | case1 => cases hp
  | case2 b t ih =>
    rw [breaks_cons]
    rcases List.mem_cons.1 hp with rfl | hp
    · exact .inl (eq_newline_of_firstPiece h)
    · exact .inr (List.mem_of_mem_drop (ih hp))

theorem Breaks.of_trim (h : t.trim.Breaks) : t.Breaks := by
  unfold trim ofPieces at h
  obtain ⟨p, hp, hbytes⟩ := List.mem_flatMap.1 h
  have hfront := (List.dropWhile_sublist _).subset (List.mem_reverse.1 hp)
  exact .of_piece ((List.dropWhile_sublist _).subset (List.mem_reverse.1 hfront)) hbytes

theorem Breaks.of_cutAt {sep : UInt8} {part : Text} (hpart : part ∈ cutAt sep t)
    (h : part.Breaks) : t.Breaks := by
  induction t generalizing part with
  | nil =>
    rw [cutAt, List.mem_singleton] at hpart
    exact hpart ▸ h
  | cons b t ih =>
    rw [breaks_cons]
    rw [cutAt] at hpart
    split at hpart
    · rcases List.mem_cons.1 hpart with rfl | hpart
      · exact absurd h not_breaks_nil
      · exact .inr (ih hpart h)
    · split at hpart
      · rw [List.mem_singleton.1 hpart, breaks_cons] at h
        exact h.imp_right fun h => absurd h not_breaks_nil
      · next first rest hcut =>
        rw [hcut] at ih
        rcases List.mem_cons.1 hpart with rfl | hpart
        · rw [breaks_cons] at h
          exact h.imp_right (ih List.mem_cons_self)
        · exact .inr (ih (List.mem_cons_of_mem _ hpart) h)

end Text

/-! ### Objects -/

namespace Binary64

open Text

theorem not_breaks_positional {digits : Text} (hd : ¬digits.Breaks) (place : Int) :
    ¬(positional digits place).Breaks := by
  unfold positional
  split
  · exact not_breaks_append (not_breaks_append (by decide) (not_breaks_replicate_zero _)) hd
  · have hpadded : ∀ n, ¬Breaks (digits ++ List.replicate n (byte '0')) := fun n =>
      not_breaks_append hd (not_breaks_replicate_zero n)
    dsimp only
    rw [breaks_append]
    rintro (h | h)
    · exact hpadded _ (List.mem_of_mem_take h)
    · split at h
      · exact not_breaks_nil h
      · rw [breaks_cons] at h
        exact hpadded _ (List.mem_of_mem_drop (h.resolve_left (by decide)))

theorem not_breaks_scientific {digits : Text} (hd : ¬digits.Breaks) (place : Int) :
    ¬(scientific digits place).Breaks := by
  unfold scientific
  dsimp only
  rw [breaks_append, breaks_append, breaks_append]
  rintro (((h | h) | h) | h)
  · exact hd (List.mem_of_mem_take h)
  · split at h
    · exact not_breaks_nil h
    · rw [breaks_cons] at h
      exact hd (List.mem_of_mem_drop (h.resolve_left (by decide)))
  · split at h <;> exact absurd h (by decide)
  · split at h
    · rw [breaks_cons] at h
      exact not_breaks_ofNat _ (h.resolve_left (by decide))
    · exact not_breaks_ofNat _ h

theorem not_breaks_text (x : Binary64) : ¬x.text.Breaks := by
  unfold text
  split
  · decide
  · split <;> decide
  · next negative m q _ =>
    have hbody : ∀ {body : Text}, ¬body.Breaks →
        ¬(if negative then byte '-' :: body else body : Text).Breaks := by
      intro body hbody
      split
      · exact not_breaks_cons (by decide) hbody
      · exact hbody
    refine hbody ?_
    split
    · decide
    · dsimp only
      split
      · exact not_breaks_scientific (not_breaks_ofNat _) _
      · exact not_breaks_positional (not_breaks_ofNat _) _

end Binary64

open Text

/-- Characters are written as they are, everything else so that it fits on one line. -/
theorem Constant.breaks_text_iff {c : Constant} : c.text.Breaks ↔ c = .char (byte '\n') := by
  constructor
  · intro h
    cases c with
    | integer v => exact absurd h (not_breaks_ofInt _)
    | double v => exact absurd h v.not_breaks_text
    | boolean v => cases v <;> exact absurd h (by decide)
    | char v =>
      rw [Constant.text, breaks_append] at h
      have hv := eq_ten_of_ofNat (eq_newline_of_breaks (h.resolve_left (by decide)))
      exact congrArg Constant.char (UInt8.toNat_inj.mp hv)
    | string v => exact absurd h (not_breaks_quoted v)
  · rintro rfl
    decide

@[simp] theorem Tag.not_breaks_name (tag : Tag) : ¬tag.name.Breaks := by
  cases tag <;> decide

theorem ProcedureKind.not_breaks_name (kind : ProcedureKind) : ¬kind.name.Breaks := by
  cases kind <;> decide

namespace Heap

variable {h : Heap}

/-- There is an object that is the line feed as a character. -/
def HasNewline (h : Heap) : Prop :=
  ∃ id o, h.object? id = some o ∧ o.payload = .constant (.char (byte '\n'))

theorem hasNewline_of_parts {depth : Nat} {items : List Ref} {texts : List Text}
    (hitems : items.mapM (h.print depth) = some texts)
    (hprint : ∀ {r t}, h.print depth r = some t → t.Breaks → h.HasNewline)
    (hbreaks : ∃ t ∈ texts, t.Breaks) : h.HasNewline := by
  induction items generalizing texts with
  | nil =>
    cases hitems
    obtain ⟨t, ht, -⟩ := hbreaks
    cases ht
  | cons r items ih =>
    rw [List.mapM_cons] at hitems
    obtain ⟨first, hfirst, hitems⟩ := Option.bind_eq_some_iff.1 hitems
    obtain ⟨rest, hrest, hitems⟩ := Option.bind_eq_some_iff.1 hitems
    cases hitems
    obtain ⟨t, ht, hbreaks⟩ := hbreaks
    rcases List.mem_cons.1 ht with rfl | ht
    · exact hprint hfirst hbreaks
    · exact ih hrest ⟨t, ht, hbreaks⟩

section Written

variable {depth : Nat} {r : Ref} {t : Text}

/-- The written form of an object is that of its parts, and what stands around them. -/
theorem hasNewline_of_print_succ
    (hparts : ∀ {r : Ref} {t : Text}, t.Breaks →
      h.print depth r = some t ∨ h.printRest depth r = some t → h.HasNewline)
    (hbreaks : t.Breaks) (hprint : h.print (depth + 1) r = some t) : h.HasNewline := by
  rw [print] at hprint
  cases hget : h.get? r with
  | none =>
    rw [hget] at hprint
    cases hprint
    exact absurd hbreaks (by decide)
  | some o =>
    rw [hget] at hprint
    dsimp only at hprint
    split at hprint
    · -- a constant is written with a line feed only if it is one
      next c hc =>
      obtain ⟨id, rfl, ho⟩ := Option.bind_eq_some_iff.1 hget
      cases hprint
      rw [Constant.breaks_text_iff] at hbreaks
      exact ⟨id, o, ho, hbreaks ▸ hc⟩
    · -- a pair
      obtain ⟨first, hfirst, hprint⟩ := Option.bind_eq_some_iff.1 hprint
      obtain ⟨rest, hrest, hprint⟩ := Option.bind_eq_some_iff.1 hprint
      cases hprint
      rcases hbreaks.of_led (by decide) with hbreaks | hbreaks
      · exact hparts hbreaks (.inl hfirst)
      · exact hparts hbreaks (.inr hrest)
    · cases hprint
      exact absurd hbreaks (by decide)
    · -- a vector
      obtain ⟨texts, htexts, hprint⟩ := Option.bind_eq_some_iff.1 hprint
      cases hprint
      have hjoin := hbreaks.of_enclosed (by decide) (by decide)
      exact hasNewline_of_parts htexts (fun hr ht => hparts ht (.inl hr))
        (hjoin.of_join.resolve_left (by decide))
    · -- a function is written by its kind only
      next p _ =>
      cases hprint
      exact absurd (hbreaks.of_enclosed (by decide) (by decide)) p.kind.not_breaks_name
    · cases hprint
      exact absurd hbreaks (by decide)
    · cases hprint
      exact absurd hbreaks (by decide)

/-- So is that of the tail of a list, be it a list itself or not. -/
theorem hasNewline_of_printRest_succ
    (hparts : ∀ {r : Ref} {t : Text}, t.Breaks →
      h.print depth r = some t ∨ h.printRest depth r = some t → h.HasNewline)
    (hbreaks : t.Breaks) (hprint : h.printRest (depth + 1) r = some t) : h.HasNewline := by
  rw [printRest] at hprint
  split at hprint
  · obtain ⟨item, hitem, hprint⟩ := Option.bind_eq_some_iff.1 hprint
    obtain ⟨rest, hrest, hprint⟩ := Option.bind_eq_some_iff.1 hprint
    cases hprint
    rcases hbreaks.of_led (by decide) with hbreaks | hbreaks
    · exact hparts hbreaks (.inl hitem)
    · exact hparts hbreaks (.inr hrest)
  · cases hprint
    exact absurd hbreaks (by decide)
  · obtain ⟨last, hlast, hprint⟩ := Option.bind_eq_some_iff.1 hprint
    cases hprint
    exact hparts (hbreaks.of_enclosed (by decide) (by decide)) (.inl hlast)

/-- The written form of an object, and that of the tail of a list, breaks the line only if there is
a line feed as a character. -/
theorem hasNewline_of_print (depth : Nat) : ∀ {r : Ref} {t : Text}, t.Breaks →
    h.print depth r = some t ∨ h.printRest depth r = some t → h.HasNewline := by
  induction depth with
  | zero =>
    intro r t _ hprint
    rw [print, printRest] at hprint
    rcases hprint with hprint | hprint <;> cases hprint
  | succ d ih =>
    rintro r t hbreaks (hprint | hprint)
    · exact hasNewline_of_print_succ ih hbreaks hprint
    · exact hasNewline_of_printRest_succ ih hbreaks hprint

end Written

theorem hasNewline_of_describe {r : Ref} {t : Text} (hdescribe : h.describe? r = some t)
    (hbreaks : t.Breaks) : h.HasNewline := by
  unfold describe? at hdescribe
  split at hdescribe
  · cases hdescribe
    exact absurd hbreaks (by decide)
  · next o _ =>
    split at hdescribe
    · cases hdescribe
      rw [breaks_append] at hbreaks
      rcases hbreaks with hbreaks | hbreaks
      · exact absurd hbreaks (by decide)
      · exact absurd hbreaks o.tag.not_breaks_name
    · obtain ⟨text, htext, rfl⟩ := Option.map_eq_some_iff.1 hdescribe
      have hwritten := (hbreaks.of_led o.tag.not_breaks_name).resolve_left (by decide)
      exact hasNewline_of_print _ hwritten (.inl htext)

end Heap

/-! ### Tokens and data -/

/-- Only strings and characters can hold a line feed, and what stands between tokens. -/
theorem Token.Spelled.kind_of_breaks {kind : Option TokenKind} {s : Text}
    (hs : Token.Spelled kind s) (hbreaks : s.Breaks) :
    kind = none ∨ kind = some .string ∨ kind = some .char := by
  cases hs with
  | comment => exact .inl rfl
  | gap => exact .inl rfl
  | string => exact .inr (.inl rfl)
  | char => exact .inr (.inr rfl)
  | leftParen => exact absurd hbreaks (by decide)
  | rightParen => exact absurd hbreaks (by decide)
  | quoteMark => exact absurd hbreaks (by decide)
  | double hs ht =>
    rw [breaks_append, breaks_cons] at hbreaks
    rcases hbreaks with hbreaks | hbreaks | hbreaks
    · exact absurd hbreaks (not_breaks_of_isNumeral hs)
    · exact absurd hbreaks (by decide)
    · exact absurd hbreaks (not_breaks_of_isDigits ht)
  | integer hs => exact absurd hbreaks (not_breaks_of_isNumeral hs)
  | boolean hb => rcases hb with rfl | rfl <;> exact absurd hbreaks (by decide)
  | identifier hb hs =>
    rw [breaks_cons] at hbreaks
    rcases hbreaks with rfl | hbreaks
    · exact absurd hb (by decide)
    · exact absurd hbreaks (not_breaks_of_forall (by decide) hs)

/-- The only character token with a line feed. -/
theorem Token.Spelled.eq_of_char {s : Text} (hs : Token.Spelled (some .char) s)
    (hbreaks : s.Breaks) : s = Text.ofString "#\\\n" := by
  cases hs with
  | char b =>
    rw [breaks_cons, breaks_cons, breaks_cons] at hbreaks
    rcases hbreaks with h | h | rfl | h
    · exact absurd h (by decide)
    · exact absurd h (by decide)
    · rfl
    · exact absurd h not_breaks_nil

namespace Datum

mutual
/-- A written datum has the line feeds of its tokens. -/
theorem exists_of_breaks_text (d : Datum) (h : d.text.Breaks) : ∃ t ∈ d.atoms, t.lexeme.Breaks := by
  match d with
  | .atom t => exact ⟨t, by simp [atoms], h⟩
  | .list items =>
    rw [text, breaks_cons, breaks_append] at h
    rcases h with h | h | h
    · exact absurd h (by decide)
    · match items with
      | [] => exact absurd h not_breaks_nil
      | d :: ds =>
        rw [textItems, breaks_append] at h
        rw [atoms, atomsAll]
        rcases h with h | h
        · obtain ⟨t, ht, hbreaks⟩ := exists_of_breaks_text d h
          exact ⟨t, List.mem_append_left _ ht, hbreaks⟩
        · obtain ⟨t, ht, hbreaks⟩ := exists_of_breaks_textRest ds h
          exact ⟨t, List.mem_append_right _ ht, hbreaks⟩
    · exact absurd h (by decide)
termination_by structural d

theorem exists_of_breaks_textRest (ds : List Datum) (h : (textRest ds).Breaks) :
    ∃ t ∈ atomsAll ds, t.lexeme.Breaks := by
  match ds with
  | [] => exact absurd h not_breaks_nil
  | d :: ds =>
    rw [textRest, breaks_cons, breaks_append] at h
    rw [atomsAll]
    rcases h with h | h | h
    · exact absurd h (by decide)
    · obtain ⟨t, ht, hbreaks⟩ := exists_of_breaks_text d h
      exact ⟨t, List.mem_append_left _ ht, hbreaks⟩
    · obtain ⟨t, ht, hbreaks⟩ := exists_of_breaks_textRest ds h
      exact ⟨t, List.mem_append_right _ ht, hbreaks⟩
termination_by structural ds
end

end Datum

/-! ### Libraries -/

theorem mem_of_lookup {α : Type} {entries : List (Text × α)} {key : Text} {value : α}
    (h : entries.lookup key = some value) : (key, value) ∈ entries := by
  obtain ⟨before, after, rfl, -⟩ := List.lookup_eq_some_iff.1 h
  exact List.mem_append_right _ List.mem_cons_self

namespace Foreign

theorem breaks_of_splitNames {t name : Text} (hname : name ∈ splitNames t)
    (hbreaks : name.Breaks) : t.Breaks := by
  unfold splitNames at hname
  obtain ⟨part, hpart, rfl⟩ := List.mem_map.1 (List.mem_filter.1 hname).1
  exact .of_cutAt hpart hbreaks.of_trim

/-- The file names of a library have the line feeds of its alias and of its configuration. -/
theorem breaks_of_candidates {configured lib name : Text} (hname : name ∈ candidates configured lib)
    (hbreaks : name.Breaks) : configured.Breaks ∨ lib.Breaks := by
  have hknown : ∀ entry ∈ aliases, ∀ name ∈ entry.2, ¬name.Breaks := by decide
  unfold candidates at hname
  split at hname
  · cases hname
  · split at hname
    · exact .inl (breaks_of_splitNames hname hbreaks)
    · split at hname
      · next names hlookup =>
        exact absurd hbreaks (hknown _ (mem_of_lookup hlookup) name hname)
      · right
        split at hname
        · exact List.mem_singleton.1 hname ▸ hbreaks
        · simp only [List.mem_cons, List.not_mem_nil, or_false] at hname
          rcases hname with rfl | rfl | rfl
          · exact hbreaks.of_enclosed (by decide) (by decide)
          · exact hbreaks.of_enclosed (by decide) (by decide)
          · exact hbreaks

end Foreign

/-! ### Messages -/

theorem ErrorKind.not_breaks_name (kind : ErrorKind) : ¬kind.name.Breaks := by
  cases kind with
  | unlisted code => exact not_breaks_append (by decide) (not_breaks_ofInt _)
  | _ => decide

/-- A message has the line feeds of its parts. -/
theorem Report.breaks_of_text {r : Report} (h : r.text.Breaks) :
    r.op.Breaks ∨ r.expected.Breaks ∨ r.actual.Breaks := by
  unfold Report.text at h
  dsimp only at h
  rw [breaks_append, breaks_append, breaks_append] at h
  rcases h with ((h | h) | h) | h
  · split at h
    · exact absurd h not_breaks_nil
    · rw [breaks_append] at h
      exact .inl (h.resolve_right (by decide))
  · exact absurd h r.kind.not_breaks_name
  · split at h
    · exact absurd h not_breaks_nil
    · rw [breaks_append] at h
      exact .inr (.inl (h.resolve_left (by decide)))
  · split at h
    · exact absurd h not_breaks_nil
    · rw [breaks_append] at h
      refine .inr (.inr (h.resolve_left ?_))
      split <;> decide

end CountedLisp
