import CountedLisp.Proofs.Segments

/-!
# How segments are spelled

`Token.Spelled` lists what the rules match in plain words, and `spelled_iff` says that the rules
match nothing else.

Most categories can be told from the first byte (`starts`). The exceptions are numbers, which may
have a point, characters and truth values, and names that start like a number; the last are names
only if they are no numbers, because the rule for names is the last one (`winner_of_spelled`).

A token is cut off a text as it stands (`longest_append`), whatever comes after it, with one
exception: numbers and names have to be followed by a byte that cannot be part of a name.
-/

namespace CountedLisp

namespace Token

/-! ### What the rules match -/

/-- One or more digits. -/
structure IsDigits (s : Text) : Prop where
  ne_nil : s ≠ []
  all : ∀ b ∈ s, isDigit b = true

/-- One or more digits, with or without a minus sign. -/
inductive IsNumeral : Text → Prop where
  | plain {s : Text} (hs : IsDigits s) : IsNumeral s
  | negative {s : Text} (hs : IsDigits s) : IsNumeral (Text.byte '-' :: s)

/-- The texts of each category, comments and blanks being those of none. -/
inductive Spelled : Option TokenKind → Text → Prop where
  | comment {s : Text} (hs : ∀ b ∈ s, b ≠ 10) : Spelled none (Text.byte ';' :: s)
  | gap {s : Text} (hne : s ≠ []) (hs : ∀ b ∈ s, isGap b = true) : Spelled none s
  | leftParen : Spelled (some .leftParen) [Text.byte '(']
  | rightParen : Spelled (some .rightParen) [Text.byte ')']
  | quoteMark : Spelled (some .quoteMark) [Text.byte '\'']
  | double {s t : Text} (hs : IsNumeral s) (ht : IsDigits t) :
    Spelled (some .double) (s ++ Text.byte '.' :: t)
  | integer {s : Text} (hs : IsNumeral s) : Spelled (some .integer) s
  | string {s : Text} (hs : ∀ b ∈ s, b ≠ Text.byte '"') :
    Spelled (some .string) (Text.byte '"' :: (s ++ [Text.byte '"']))
  | char (b : UInt8) : Spelled (some .char) [Text.byte '#', Text.byte '\\', b]
  | boolean {b : UInt8} (hb : b = Text.byte 't' ∨ b = Text.byte 'f') :
    Spelled (some .boolean) [Text.byte '#', b]
  | identifier {b : UInt8} {s : Text} (hb : isNameStart b = true)
    (hs : ∀ c ∈ s, isNamePart c = true) : Spelled (some .identifier) (b :: s)

theorem mem_digits {s : Text} : s ∈ (Pattern.some (.one isDigit)).language ↔ IsDigits s := by
  rw [Pattern.mem_some_one]
  exact ⟨fun h => ⟨h.1, h.2⟩, fun h => ⟨h.1, h.2⟩⟩

theorem mem_numeral {s : Text} : s ∈ numeral.language ↔ IsNumeral s := by
  rw [numeral, Pattern.mem_seq]
  constructor
  · rintro ⟨u, hu, v, hv, rfl⟩
    rcases Pattern.mem_optional.mp hu with hu | rfl
    · rw [Pattern.mem_char.mp hu]
      exact .negative (mem_digits.mp hv)
    · exact .plain (mem_digits.mp hv)
  · intro h
    cases h with
    | plain hs => exact ⟨[], Pattern.mem_optional.mpr (Or.inr rfl), s, mem_digits.mpr hs, rfl⟩
    | @negative t ht =>
      exact ⟨[Text.byte '-'], Pattern.mem_optional.mpr (Or.inl (Pattern.mem_char.mpr rfl)), t,
        mem_digits.mpr ht, rfl⟩

theorem Spelled.exists_rule {k : Option TokenKind} {s : Text} (h : Spelled k s) :
    ∃ p, (p, k) ∈ rules ∧ s ∈ p.language := by
  cases h with
  | comment hs => exact ⟨_, List.mem_of_getElem? (i := 0) rfl, by simpa using hs⟩
  | gap hne hs => exact ⟨_, List.mem_of_getElem? (i := 1) rfl, by simpa using ⟨hne, hs⟩⟩
  | leftParen => exact ⟨_, List.mem_of_getElem? (i := 2) rfl, by simp⟩
  | rightParen => exact ⟨_, List.mem_of_getElem? (i := 3) rfl, by simp⟩
  | quoteMark => exact ⟨_, List.mem_of_getElem? (i := 4) rfl, by simp⟩
  | double hs ht =>
    refine ⟨_, List.mem_of_getElem? (i := 5) rfl, ?_⟩
    exact Pattern.mem_seq.mpr ⟨_, mem_numeral.mpr hs, _, Pattern.mem_seq.mpr
      ⟨_, Pattern.mem_char.mpr rfl, _, mem_digits.mpr ht, rfl⟩, rfl⟩
  | integer hs => exact ⟨_, List.mem_of_getElem? (i := 6) rfl, mem_numeral.mpr hs⟩
  | string hs => exact ⟨_, List.mem_of_getElem? (i := 7) rfl, by simpa using hs⟩
  | char b =>
    refine ⟨_, List.mem_of_getElem? (i := 8) rfl, Pattern.mem_seq.mpr ?_⟩
    exact ⟨_, Pattern.mem_literal.mpr rfl, [b], by simp, rfl⟩
  | boolean hb =>
    refine ⟨_, List.mem_of_getElem? (i := 9) rfl, Pattern.mem_alt.mpr ?_⟩
    rcases hb with rfl | rfl
    · exact Or.inl (Pattern.mem_literal.mpr rfl)
    · exact Or.inr (Pattern.mem_literal.mpr rfl)
  | identifier hb hs => exact ⟨_, List.mem_of_getElem? (i := 10) rfl, by simpa using ⟨hb, hs⟩⟩

theorem spelled_of_mem_rules {k : Option TokenKind} {s : Text} {p : Pattern} (hp : (p, k) ∈ rules)
    (hs : s ∈ p.language) : Spelled k s := by
  simp only [rules, List.mem_cons, List.not_mem_nil, or_false, Prod.mk.injEq] at hp
  rcases hp with ⟨rfl, rfl⟩ | ⟨rfl, rfl⟩ | ⟨rfl, rfl⟩ | ⟨rfl, rfl⟩ | ⟨rfl, rfl⟩ | ⟨rfl, rfl⟩ |
    ⟨rfl, rfl⟩ | ⟨rfl, rfl⟩ | ⟨rfl, rfl⟩ | ⟨rfl, rfl⟩ | ⟨rfl, rfl⟩
  · obtain ⟨v, hv, rfl⟩ : ∃ v, (∀ b ∈ v, b ≠ 10) ∧ Text.byte ';' :: v = s := by simpa using hs
    exact .comment hv
  · obtain ⟨hne, hs⟩ := Pattern.mem_some_one.mp hs
    exact .gap hne hs
  · rw [Pattern.mem_char.mp hs]
    exact .leftParen
  · rw [Pattern.mem_char.mp hs]
    exact .rightParen
  · rw [Pattern.mem_char.mp hs]
    exact .quoteMark
  · obtain ⟨u, hu, v, hv, rfl⟩ := Pattern.mem_seq.mp hs
    obtain ⟨w, hw, t, ht, rfl⟩ := Pattern.mem_seq.mp hv
    rw [Pattern.mem_char.mp hw]
    exact .double (mem_numeral.mp hu) (mem_digits.mp ht)
  · exact .integer (mem_numeral.mp hs)
  · obtain ⟨v, hv, rfl⟩ : ∃ v, (∀ b ∈ v, b ≠ Text.byte '"') ∧
        Text.byte '"' :: (v ++ [Text.byte '"']) = s := by simpa using hs
    exact .string hv
  · obtain ⟨b, rfl⟩ : ∃ b, Text.ofString "#\\" ++ [b] = s := by simpa using hs
    exact .char b
  · rcases Pattern.mem_alt.mp hs with hs | hs
    · rw [Pattern.mem_literal.mp hs]
      exact .boolean (Or.inl rfl)
    · rw [Pattern.mem_literal.mp hs]
      exact .boolean (Or.inr rfl)
  · obtain ⟨b, hb, v, hv, rfl⟩ : ∃ b, isNameStart b = true ∧
        ∃ v, (∀ c ∈ v, isNamePart c = true) ∧ b :: v = s := by simpa using hs
    exact .identifier hb hv

/-- The rules match what is spelled as one of their categories, and nothing else. -/
theorem spelled_iff {k : Option TokenKind} {s : Text} :
    Spelled k s ↔ ∃ p, (p, k) ∈ rules ∧ s ∈ p.language := by
  constructor
  · exact Spelled.exists_rule
  · rintro ⟨p, hp, hs⟩
    exact spelled_of_mem_rules hp hs

/-! ### First bytes -/

/-- Whether a segment of a category may start with a byte. -/
def starts (k : Option TokenKind) (b : UInt8) : Bool :=
  match k with
  | none => b == Text.byte ';' || isGap b
  | some .leftParen => b == Text.byte '('
  | some .rightParen => b == Text.byte ')'
  | some .quoteMark => b == Text.byte '\''
  | some .integer | some .double => b == Text.byte '-' || isDigit b
  | some .string => b == Text.byte '"'
  | some .char | some .boolean => b == Text.byte '#'
  | some .identifier => isNameStart b

theorem IsDigits.starts {s : Text} (h : IsDigits s) :
    ∃ b t, s = b :: t ∧ isDigit b = true := by
  match s, h with
  | b :: t, h => exact ⟨b, t, rfl, h.all b (List.mem_cons_self ..)⟩
  | [], h => exact absurd rfl h.ne_nil

theorem IsNumeral.starts {s : Text} (h : IsNumeral s) :
    ∃ b t, s = b :: t ∧ (b == Text.byte '-' || isDigit b) = true := by
  cases h with
  | plain hs =>
    obtain ⟨b, t, rfl, hb⟩ := hs.starts
    exact ⟨b, t, rfl, by simp [hb]⟩
  | @negative t hs => exact ⟨_, t, rfl, by simp⟩

theorem Spelled.starts {k : Option TokenKind} {s : Text} (h : Spelled k s) :
    ∃ b t, s = b :: t ∧ starts k b = true := by
  cases h with
  | comment hs => exact ⟨_, _, rfl, by simp [Token.starts]⟩
  | gap hne hs =>
    match s, hne with
    | b :: t, _ => exact ⟨b, t, rfl, by simp [Token.starts, hs b (List.mem_cons_self ..)]⟩
  | double hs ht =>
    obtain ⟨b, t, rfl, hb⟩ := hs.starts
    exact ⟨b, _, rfl, hb⟩
  | integer hs => exact hs.starts
  | identifier hb hs => exact ⟨_, _, rfl, hb⟩
  | _ => exact ⟨_, _, rfl, by simp [Token.starts]⟩

/-- The first byte tells the categories apart, except for numbers with and without a point, and for
characters and truth values. Names are left out. -/
theorem starts_cases {k k' : Option TokenKind} {b : UInt8} (h : starts k b = true)
    (h' : starts k' b = true) (hk : k ≠ some .identifier) (hk' : k' ≠ some .identifier) :
    k = k' ∨ (k = some .integer ∧ k' = some .double) ∨ (k = some .double ∧ k' = some .integer) ∨
      (k = some .char ∧ k' = some .boolean) ∨ (k = some .boolean ∧ k' = some .char) := by
  cases k with
  | none =>
    cases k' with
    | none => exact Or.inl rfl
    | some k' => cases k' <;> simp_all [starts, isGap, isDigit, Text.byte] <;> grind
  | some k =>
    cases k' with
    | none => cases k <;> simp_all [starts, isGap, isDigit, Text.byte] <;> grind
    | some k' => cases k <;> cases k' <;> simp_all [starts, isDigit, Text.byte]

/-! ### One category for each text -/

theorem IsNumeral.namePart {s : Text} (h : IsNumeral s) : ∀ b ∈ s, isNamePart b = true := by
  have hdigits : ∀ {t : Text}, IsDigits t → ∀ b ∈ t, isNamePart b = true := by
    intro t ht b hb
    simp [isNamePart, ht.all b hb]
  cases h with
  | plain hs => exact hdigits hs
  | negative hs => exact List.forall_mem_cons.mpr ⟨by decide, hdigits hs⟩

/-- There is no point in a number without one. -/
theorem IsNumeral.point_not_mem {s : Text} (h : IsNumeral s) : Text.byte '.' ∉ s := by
  have hdigits : ∀ {t : Text}, IsDigits t → Text.byte '.' ∉ t := by
    intro t ht hmem
    exact absurd (ht.all _ hmem) (by decide)
  cases h with
  | plain hs => exact hdigits hs
  | negative hs => exact List.not_mem_cons_of_ne_of_not_mem (by decide) (hdigits hs)

/-- A text is of one category only, names left out. -/
theorem Spelled.unique {k k' : Option TokenKind} {s : Text} (h : Spelled k s) (h' : Spelled k' s)
    (hk : k ≠ some .identifier) (hk' : k' ≠ some .identifier) : k = k' := by
  obtain ⟨b, t, hs, hb⟩ := h.starts
  obtain ⟨b', t', hs', hb'⟩ := h'.starts
  obtain ⟨rfl, -⟩ : b = b' ∧ t = t' := by simpa [hs] using hs'
  have hnumber : Spelled (some .integer) s → ¬ Spelled (some .double) s := by
    intro hi hd
    cases hi with
    | integer hn =>
      cases hd with
      | double _ _ => exact hn.point_not_mem (by simp)
  have hhash : Spelled (some .char) s → ¬ Spelled (some .boolean) s := by
    intro hc hb
    cases hc with
    | char b => cases hb
  rcases starts_cases hb hb' hk hk' with heq | ⟨rfl, rfl⟩ | ⟨rfl, rfl⟩ | ⟨rfl, rfl⟩ | ⟨rfl, rfl⟩
  · exact heq
  · exact absurd h' (hnumber h)
  · exact absurd h (hnumber h')
  · exact absurd h' (hhash h)
  · exact absurd h (hhash h')

theorem winner_append {α : Type} (live live' : List (Pattern × α)) (s : Text) :
    winner (live ++ live') s = (winner live s).or (winner live' s) := by
  rw [winner, List.find?_append, Option.map_or]
  rfl

theorem spelled_of_winner {k : Option TokenKind} {s : Text} (h : winner rules s = some k) :
    Spelled k s := by
  obtain ⟨before, p, after, hrules, hp, -⟩ := winner_eq_some_iff.mp h
  exact spelled_iff.mpr ⟨p, by rw [hrules]; simp, hp⟩

/-- What is spelled as a category has this category, unless this is that of names. -/
theorem winner_of_spelled {k : Option TokenKind} {s : Text} (h : Spelled k s)
    (hk : k ≠ some .identifier) : winner rules s = some k := by
  obtain ⟨p, hp, hs⟩ := spelled_iff.mp h
  -- the rule for names is the last one, so it is not asked
  have hsplit : rules = rules.dropLast ++ [rules.getLast (by simp [rules])] :=
    (List.dropLast_append_getLast _).symm
  have hmem : (p, k) ∈ rules.dropLast := by
    rw [hsplit, List.mem_append] at hp
    rcases hp with hp | hp
    · exact hp
    · exact absurd (congrArg Prod.snd (List.mem_singleton.mp hp)) hk
  obtain ⟨k', hk'⟩ : ∃ k', winner rules.dropLast s = some k' := by
    rw [← Option.ne_none_iff_exists']
    intro hnone
    exact winner_eq_none_iff.mp hnone _ hmem hs
  have hwin : winner rules s = some k' := by
    rw [hsplit, winner_append, hk']
    rfl
  have hne : k' ≠ some .identifier := by
    obtain ⟨before, q, after, hinit, -, -⟩ := winner_eq_some_iff.mp hk'
    have hq : k' ∈ rules.dropLast.map (·.2) := by
      rw [hinit]
      simp
    rintro rfl
    revert hq
    decide
  rw [hwin, h.unique (spelled_of_winner hwin) hk hne]

/-! ### Where a token ends -/

/-- Whether a token of a category goes on as long as there are bytes of names. -/
def isOpen : TokenKind → Bool
  | .integer | .double | .identifier => true
  | .leftParen | .rightParen | .quoteMark | .string | .char | .boolean => false

theorem Spelled.namePart {k : TokenKind} {s : Text} (h : Spelled (some k) s)
    (hk : isOpen k = true) : ∀ b ∈ s, isNamePart b = true := by
  cases h with
  | integer hs => exact hs.namePart
  | double hs ht =>
    intro b hb
    rcases List.mem_append.mp hb with hb | hb
    · exact hs.namePart b hb
    · rcases List.mem_cons.mp hb with rfl | hb
      · decide
      · exact (IsNumeral.plain ht).namePart b hb
  | identifier hb hs => exact List.forall_mem_cons.mpr ⟨by simp [isNamePart, hb], hs⟩
  | _ => cases hk

/-- A byte that starts a token is neither a blank nor the start of a comment, and it is part of
names only if the token goes on as long as there are such bytes. -/
theorem starts_token {k : TokenKind} {b : UInt8} (h : starts (some k) b = true) :
    b ≠ Text.byte ';' ∧ isGap b = false ∧ (isNamePart b = true → isOpen k = true) := by
  refine ⟨?_, ?_, ?_⟩
  · rintro rfl
    cases k <;> revert h <;> decide
  · rw [← Bool.not_eq_true]
    intro hgap
    have hbyte : b = 32 ∨ b = 9 ∨ b = 10 ∨ b = 13 := by simpa [isGap, or_assoc] using hgap
    rcases hbyte with rfl | rfl | rfl | rfl <;> cases k <;> revert h <;> decide
  · intro hname
    cases k with
    | integer | double | identifier => rfl
    | _ =>
      rw [eq_of_beq h] at hname
      revert hname
      decide

/-- A token that starts with a quotation mark is a string. -/
theorem Spelled.string_of_mark {k : TokenKind} {t : Text}
    (h : Spelled (some k) (Text.byte '"' :: t)) :
    ∃ v, t = v ++ [Text.byte '"'] ∧ ∀ b ∈ v, b ≠ Text.byte '"' := by
  obtain ⟨b, t', hs, hb⟩ := h.starts
  obtain ⟨rfl, rfl⟩ := List.cons.inj hs
  have hk : k = .string := by
    cases k with
    | string => rfl
    | _ => exact absurd hb (by decide)
  subst hk
  generalize hw : Text.byte '"' :: t = w at h
  cases h with
  | @string v hv =>
    obtain ⟨-, rfl⟩ := List.cons.inj hw
    exact ⟨v, rfl, hv⟩

/-- A token that starts with a hash is a character or a truth value. -/
theorem Spelled.char_or_boolean_of_hash {k : TokenKind} {t : Text}
    (h : Spelled (some k) (Text.byte '#' :: t)) :
    (∃ b, t = [Text.byte '\\', b]) ∨ ∃ b, t = [b] ∧ b ≠ Text.byte '\\' := by
  obtain ⟨b, t', hs, hb⟩ := h.starts
  obtain ⟨rfl, rfl⟩ := List.cons.inj hs
  have hk : k = .char ∨ k = .boolean := by
    cases k with
    | char => exact Or.inl rfl
    | boolean => exact Or.inr rfl
    | _ => exact absurd hb (by decide)
  generalize hw : Text.byte '#' :: t = w at h
  rcases hk with rfl | rfl
  · cases h with
    | char b =>
      obtain ⟨-, rfl⟩ := List.cons.inj hw
      exact Or.inl ⟨b, rfl⟩
  · cases h with
    | @boolean b hb =>
      obtain ⟨-, rfl⟩ := List.cons.inj hw
      refine Or.inr ⟨b, rfl, ?_⟩
      rcases hb with rfl | rfl <;> decide

/-- No longer text with a token in front is a segment, if what follows a number or name has a byte
that is not part of names. -/
theorem Spelled.not_longer {k : TokenKind} {k' : Option TokenKind} {s u : Text}
    (h : Spelled (some k) s) (hne : u ≠ []) (hd : isOpen k = true → ∃ d ∈ u, isNamePart d = false) :
    ¬ Spelled k' (s ++ u) := by
  obtain ⟨b, t, hs, hb⟩ := h.starts
  obtain ⟨hcomment, hgap, hname⟩ := starts_token hb
  intro h'
  have hopen : ∀ {k'}, isOpen k' = true → ¬ Spelled (some k') (s ++ u) := by
    intro k' hk' h'
    have hall := h'.namePart hk'
    obtain ⟨d, hmem, hpart⟩ := hd (hname (hall b (by simp [hs])))
    rw [hall d (by simp [hmem])] at hpart
    cases hpart
  generalize hw : s ++ u = w at h' hopen
  have hcons : b :: (t ++ u) = w := by rw [← hw, hs, List.cons_append]
  have hfirst : ∀ c v, w = c :: v → b = c ∧ t ++ u = v := by
    rintro c v rfl
    exact List.cons.inj hcons
  cases h' with
  | comment _ => exact hcomment (hfirst _ _ rfl).1
  | gap _ hall =>
    rw [hall b (by rw [← hcons]; simp)] at hgap
    cases hgap
  | integer hs => exact hopen rfl (.integer hs)
  | double hs ht => exact hopen rfl (.double hs ht)
  | identifier hb hs => exact hopen rfl (.identifier hb hs)
  | leftParen | rightParen | quoteMark =>
    exact hne (List.append_eq_nil_iff.mp (hfirst _ _ rfl).2).2
  | @string v hv =>
    -- the token is a string, too, and its last byte would be within the longer one
    obtain ⟨rfl, hrest⟩ := hfirst _ _ rfl
    obtain ⟨v', rfl, -⟩ := (hs ▸ h).string_of_mark
    have hmem : Text.byte '"' ∈ v := by
      have hlast := congrArg List.dropLast hrest
      rw [List.dropLast_concat, List.dropLast_append_of_ne_nil hne] at hlast
      rw [← hlast]
      simp
    exact hv _ hmem rfl
  | char c =>
    obtain ⟨rfl, hrest⟩ := hfirst _ _ rfl
    rcases (hs ▸ h).char_or_boolean_of_hash with ⟨c', rfl⟩ | ⟨c', rfl, hc'⟩
    · exact hne (by simpa using (List.cons.inj (List.cons.inj hrest).2).2)
    · exact hc' (List.cons.inj hrest).1
  | boolean _ =>
    obtain ⟨rfl, hrest⟩ := hfirst _ _ rfl
    rcases (hs ▸ h).char_or_boolean_of_hash with ⟨c', rfl⟩ | ⟨c', rfl, -⟩
    · simp at hrest
    · exact hne (List.cons.inj hrest).2

/-- No byte of names comes next. -/
def Separates (rest : Text) : Prop :=
  ∀ b ∈ rest.head?, isNamePart b = false

theorem separates_cons {b : UInt8} (hb : isNamePart b = false) (rest : Text) :
    Separates (b :: rest) := by
  rintro c ⟨⟩
  exact hb

/-- A longer prefix goes on with the first byte of what comes next. -/
theorem longer_eq {s rest u : Text} (hu : u <+: s ++ rest) (hlt : s.length < u.length) :
    ∃ d v, u = s ++ d :: v ∧ d ∈ rest.head? := by
  obtain ⟨w, hw⟩ := hu
  obtain ⟨v, rfl⟩ : s <+: u :=
    List.prefix_of_prefix_length_le ⟨rest, rfl⟩ ⟨w, hw⟩ (Nat.le_of_lt hlt)
  rw [List.append_assoc, List.append_cancel_left_eq] at hw
  cases v with
  | nil => simp at hlt
  | cons d v => exact ⟨d, v, rfl, by simp [← hw]⟩

/-- **A token stays what it is**: its bytes are the next segment of a text that starts with them,
whatever comes after them, if no byte of names follows a number or name. -/
theorem longest_append {k : TokenKind} {s rest : Text} (hw : winner rules s = some (some k))
    (hsep : isOpen k = true → Separates rest) : Longest rules (s ++ rest) s (some k) := by
  have hs := spelled_of_winner hw
  refine longest_iff.mpr ⟨?_, List.prefix_append s rest, hw, ?_⟩
  · obtain ⟨b, t, rfl, -⟩ := hs.starts
    exact List.cons_ne_nil b t
  · intro u hu hlt
    obtain ⟨d, v, rfl, hd⟩ := longer_eq hu hlt
    cases hwin : winner rules (s ++ d :: v) with
    | none => rfl
    | some k' =>
      exact absurd (spelled_of_winner hwin) (hs.not_longer (List.cons_ne_nil d v) fun hk =>
        ⟨d, List.mem_cons_self .., hsep hk d hd⟩)

/-- What starts with a blank and is a segment consists of blanks. -/
theorem Spelled.gap_of_head {k : Option TokenKind} {b : UInt8} {s : Text} (h : Spelled k (b :: s))
    (hb : isGap b = true) : k = none ∧ ∀ c ∈ b :: s, isGap c = true := by
  obtain ⟨b', s', hs, hstart⟩ := h.starts
  obtain ⟨rfl, -⟩ := List.cons.inj hs
  cases k with
  | some k =>
    rw [(starts_token hstart).2.1] at hb
    cases hb
  | none =>
    refine ⟨rfl, ?_⟩
    generalize hu : b :: s = u at h
    cases h with
    | comment _ =>
      obtain ⟨rfl, -⟩ := List.cons.inj hu
      exact absurd hb (by decide)
    | gap _ hall => exact hall

/-- Blanks before something else are a segment. -/
theorem longest_gap {g rest : Text} (hne : g ≠ []) (hg : ∀ b ∈ g, isGap b = true)
    (h : ∀ b ∈ rest.head?, isGap b = false) : Longest rules (g ++ rest) g none := by
  have hwin : winner rules g = some none := winner_of_spelled (.gap hne hg) (by decide)
  refine longest_iff.mpr ⟨hne, List.prefix_append g rest, hwin, ?_⟩
  intro u hu hlt
  obtain ⟨d, v, rfl, hd⟩ := longer_eq hu hlt
  cases hlonger : winner rules (g ++ d :: v) with
  | none => rfl
  | some k =>
    obtain ⟨b, g, rfl⟩ := List.exists_cons_of_ne_nil hne
    have hspelled : Spelled k (b :: (g ++ d :: v)) := spelled_of_winner hlonger
    obtain ⟨-, hall⟩ := hspelled.gap_of_head (hg b (List.mem_cons_self ..))
    have hgap := hall d (by simp)
    rw [h d hd] at hgap
    cases hgap

/-- The category of a token is that of its bytes. -/
theorem winner_of_mem_tokensOf {text rest : Text} {segments : List (Text × Option TokenKind)}
    (h : Segments text segments rest) (column : Nat) :
    ∀ t ∈ tokensOf column segments, winner rules t.lexeme = some (some t.kind) := by
  induction h generalizing column with
  | nil rest => simp [tokensOf]
  | @cons s text rest k segments h hs ih =>
    cases k with
    | none => exact ih _
    | some k => exact List.forall_mem_cons.mpr ⟨(longest_iff.mp h).2.2.1, ih _⟩

end Token

end CountedLisp
