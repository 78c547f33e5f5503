import CountedLisp.Proofs.Spelling

/-!
# Written data can be read again

A datum is legible if each of its atoms has bytes that are a token of its category by themselves.
All data that are read from a text are legible (`isLegible_of_read`), the name that a quote mark
stands for included.

Writing a legible datum keeps its atoms apart: a blank or a closing parenthesis follows each of
them, and neither can be part of a name. So the segments of the written text are the signs of the
datum with blanks between them (`spells_text`), and reading such signs gives the datum again, in
other places (`derivation_of_signs`).
-/

namespace CountedLisp

namespace Datum

open Token CountedLisp.Derivation

/-! ### Data without places -/

mutual
/-- A datum with the places of its tokens left out. -/
def unplaced : Datum → Datum
  | .atom t => .atom { t with span := ⟨0, 0⟩ }
  | .list items => .list (unplacedAll items)
termination_by structural d => d

/-- Data with the places of their tokens left out. -/
def unplacedAll : List Datum → List Datum
  | [] => []
  | d :: ds => unplaced d :: unplacedAll ds
termination_by structural ds => ds
end

mutual
/-- The tokens in a datum, in order. -/
def atoms : Datum → List Token
  | .atom t => [t]
  | .list items => atomsAll items
termination_by structural d => d

/-- The tokens in data, in order. -/
def atomsAll : List Datum → List Token
  | [] => []
  | d :: ds => atoms d ++ atomsAll ds
termination_by structural ds => ds
end

theorem unplacedAll_eq_map (ds : List Datum) : unplacedAll ds = ds.map unplaced := by
  induction ds with
  | nil => rfl
  | cons d ds ih => rw [unplacedAll, ih, List.map_cons]

end Datum

/-! ### Legible data -/

/-- A token that is an expression by itself and has the category of its bytes. -/
structure Token.IsLegible (t : Token) : Prop where
  isAtom : t.kind.isAtom = true
  winner : Token.winner Token.rules t.lexeme = some (some t.kind)

namespace Datum

open Token CountedLisp.Derivation

/-- The name that a quote mark stands for is legible. -/
theorem isLegible_quote (span : Span) :
    IsLegible { kind := .identifier, lexeme := Text.ofString "quote", span := span } where
  isAtom := rfl
  winner := show Token.winner rules (Text.ofString "quote") = some (some .identifier) by decide

section Atoms

variable {p : Token → Prop}

mutual
/-- What is true of the name that a quote mark stands for and of all tokens of a derivation is true
of the tokens in its datum. -/
theorem forall_atoms_datum
    (hquote : ∀ span, p { kind := .identifier, lexeme := Text.ofString "quote", span := span })
    (e : Derivation) (h : ∀ t ∈ e.tokens, t.kind.isAtom = true → p t) :
    ∀ t ∈ e.datum.atoms, p t := by
  match e with
  | .atom t ht => exact List.forall_mem_singleton.mpr (h t (by simp [tokens]) ht)
  | .quoted mark hm operand =>
    have ih := forall_atoms_datum hquote operand fun t ht => h t (by simp [tokens, ht])
    simp only [datum, quotation, atoms, atomsAll, List.append_nil, List.singleton_append]
    exact List.forall_mem_cons.mpr ⟨hquote mark.span, ih⟩
  | .parens left hl items right hr =>
    exact forall_atoms_dataAll hquote items fun t ht => h t (by simp [tokens, ht])

theorem forall_atoms_dataAll
    (hquote : ∀ span, p { kind := .identifier, lexeme := Text.ofString "quote", span := span })
    (es : List Derivation) (h : ∀ t ∈ tokensAll es, t.kind.isAtom = true → p t) :
    ∀ t ∈ atomsAll (dataAll es), p t := by
  match es with
  | [] => simp [dataAll, atomsAll]
  | e :: es =>
    have he := forall_atoms_datum hquote e fun t ht => h t (by simp [tokensAll, ht])
    have hes := forall_atoms_dataAll hquote es fun t ht => h t (by simp [tokensAll, ht])
    rw [dataAll, atomsAll]
    exact List.forall_mem_append.mpr ⟨he, hes⟩
end

/-- What is true of all tokens is true of the tokens in the data that are read from them. -/
theorem forall_atoms_of_read
    (hquote : ∀ span, p { kind := .identifier, lexeme := Text.ofString "quote", span := span })
    {ts : List Token} {ds : List Datum} (hr : read ts = .ok ds)
    (h : ∀ t ∈ ts, t.kind.isAtom = true → p t) : ∀ t ∈ atomsAll ds, p t := by
  obtain ⟨es, rfl, rfl⟩ := exists_derivation _ hr
  exact forall_atoms_dataAll hquote es h

end Atoms

/-- What is read from a text is legible. -/
theorem isLegible_of_read {s : Text} {ts : List Token} {ds : List Datum} (ht : tokenize s = .ok ts)
    (hr : read ts = .ok ds) : ∀ t ∈ atomsAll ds, t.IsLegible := by
  obtain ⟨segments, hseg, rfl⟩ := tokenize_eq_ok_iff.mp ht
  apply forall_atoms_of_read isLegible_quote hr
  intro t hmem hatom
  exact ⟨hatom, winner_of_mem_tokensOf hseg 0 t hmem⟩

/-! ### The segments of a written datum -/

/-- A written datum starts with a token. -/
theorem text_eq_cons {d : Datum} (h : ∀ t ∈ d.atoms, t.IsLegible) :
    ∃ b t, d.text = b :: t ∧ isGap b = false := by
  cases d with
  | atom t =>
    have ht := h t (by simp [atoms])
    obtain ⟨b, u, hu, hb⟩ := (spelled_of_winner ht.winner).starts
    exact ⟨b, u, hu, (starts_token hb).2.1⟩
  | list items => exact ⟨_, _, rfl, by decide⟩

/-- A text can be used up by segments that are tokens with the given signs, blanks aside. -/
def Spells (text : Text) (signs : List (TokenKind × Text)) : Prop :=
  ∃ segments, Segments text segments [] ∧
    signs = segments.filterMap fun s => s.2.map (·, s.1)

section Spells

variable {rest : Text} {signs : List (TokenKind × Text)}

theorem Spells.token {s : Text} {k : TokenKind} (h : Spells rest signs)
    (hw : winner rules s = some (some k)) (hsep : isOpen k = true → Separates rest) :
    Spells (s ++ rest) ((k, s) :: signs) := by
  obtain ⟨segments, hseg, rfl⟩ := h
  exact ⟨(s, some k) :: segments, .cons (longest_append hw hsep) hseg, rfl⟩

theorem Spells.blank (h : Spells rest signs) (hgap : ∀ b ∈ rest.head?, isGap b = false) :
    Spells (Text.byte ' ' :: rest) signs := by
  obtain ⟨segments, hseg, rfl⟩ := h
  have hblank : ∀ b ∈ [Text.byte ' '], isGap b = true := List.forall_mem_singleton.mpr (by decide)
  have hcons := Segments.cons (longest_gap (List.cons_ne_nil _ _) hblank hgap) hseg
  exact ⟨_, hcons, rfl⟩

theorem Spells.left (h : Spells rest signs) :
    Spells (Text.byte '(' :: rest) (leftSign :: signs) := by
  refine h.token (winner_of_spelled .leftParen (by decide)) ?_
  rintro ⟨⟩

theorem Spells.right (h : Spells rest signs) :
    Spells (Text.byte ')' :: rest) (rightSign :: signs) := by
  refine h.token (winner_of_spelled .rightParen (by decide)) ?_
  rintro ⟨⟩

theorem separates_textRest (ds : List Datum) (h : Separates rest) :
    Separates (textRest ds ++ rest) := by
  cases ds with
  | nil => exact h
  | cons d ds => exact separates_cons (by decide) _

mutual
/-- A written datum is cut into its signs and the blanks between them, if no byte of names comes
after it. -/
theorem spells_text (d : Datum) (hd : ∀ t ∈ d.atoms, t.IsLegible) {rest : Text}
    {signs : List (TokenKind × Text)} (h : Spells rest signs) (hsep : Separates rest) :
    Spells (d.text ++ rest) (d.signs ++ signs) := by
  match d with
  | .atom t => exact h.token (hd t (by simp [atoms])).winner fun _ => hsep
  | .list items =>
    -- the last item is followed by the closing parenthesis
    have hitems := spells_textItems items hd h.right (separates_cons (by decide) rest)
    simpa [Datum.text, Datum.signs] using hitems.left

theorem spells_textItems (ds : List Datum) (hds : ∀ t ∈ atomsAll ds, t.IsLegible) {rest : Text}
    {signs : List (TokenKind × Text)} (h : Spells rest signs) (hsep : Separates rest) :
    Spells (textItems ds ++ rest) (signsAll ds ++ signs) := by
  match ds with
  | [] => exact h
  | d :: ds =>
    rw [textItems, signsAll, List.append_assoc, List.append_assoc]
    rw [atomsAll, List.forall_mem_append] at hds
    exact spells_text d hds.1 (spells_textRest ds hds.2 h hsep) (separates_textRest ds hsep)

theorem spells_textRest (ds : List Datum) (hds : ∀ t ∈ atomsAll ds, t.IsLegible) {rest : Text}
    {signs : List (TokenKind × Text)} (h : Spells rest signs) (hsep : Separates rest) :
    Spells (textRest ds ++ rest) (signsAll ds ++ signs) := by
  match ds with
  | [] => exact h
  | d :: ds =>
    rw [textRest, List.cons_append, signsAll, List.append_assoc, List.append_assoc]
    rw [atomsAll, List.forall_mem_append] at hds
    -- the blank ends where the item starts, as no item starts with one
    obtain ⟨b, t, hb, hgap⟩ := text_eq_cons hds.1
    refine Spells.blank ?_ (by simpa [hb] using hgap)
    exact spells_text d hds.1 (spells_textRest ds hds.2 h hsep) (separates_textRest ds hsep)
end

end Spells

/-! ### Reading signs -/

mutual
/-- Tokens with the signs of a datum derive this datum, in other places. -/
theorem derivation_of_signs (d : Datum) (hd : ∀ t ∈ d.atoms, t.IsLegible) {us : List Token}
    {signs : List (TokenKind × Text)} (h : us.map sign = d.signs ++ signs) :
    ∃ (e : Derivation) (vs : List Token), us = e.tokens ++ vs ∧ vs.map sign = signs ∧
      e.datum.unplaced = d.unplaced := by
  match d with
  | .atom t =>
    rw [Datum.signs, List.singleton_append, List.map_eq_cons_iff] at h
    obtain ⟨u, vs, rfl, hu, hvs⟩ := h
    have hkind : u.kind = t.kind := congrArg Prod.fst hu
    have hlexeme : u.lexeme = t.lexeme := congrArg Prod.snd hu
    refine ⟨.atom u (hkind ▸ (hd t (by simp [atoms])).isAtom), vs, rfl, hvs, ?_⟩
    simp [datum, unplaced, hkind, hlexeme]
  | .list items =>
    rw [Datum.signs, List.cons_append, List.append_assoc, List.map_eq_cons_iff] at h
    obtain ⟨l, us', rfl, hl, hus'⟩ := h
    obtain ⟨es, vs, rfl, hvs, hes⟩ := derivations_of_signs items hd hus'
    rw [List.singleton_append, List.map_eq_cons_iff] at hvs
    obtain ⟨r, ws, rfl, hr, hws⟩ := hvs
    refine ⟨.parens l (congrArg Prod.fst hl) es r (congrArg Prod.fst hr), ws, ?_, hws, ?_⟩
    · simp [tokens]
    · simp [datum, unplaced, hes]

theorem derivations_of_signs (ds : List Datum) (hds : ∀ t ∈ atomsAll ds, t.IsLegible)
    {us : List Token} {signs : List (TokenKind × Text)} (h : us.map sign = signsAll ds ++ signs) :
    ∃ (es : List Derivation) (vs : List Token), us = tokensAll es ++ vs ∧ vs.map sign = signs ∧
      unplacedAll (dataAll es) = unplacedAll ds := by
  match ds with
  | [] => exact ⟨[], us, rfl, h, rfl⟩
  | d :: ds =>
    rw [atomsAll, List.forall_mem_append] at hds
    rw [signsAll, List.append_assoc] at h
    obtain ⟨e, vs, rfl, hvs, he⟩ := derivation_of_signs d hds.1 h
    obtain ⟨es, ws, rfl, hws, hes⟩ := derivations_of_signs ds hds.2 hvs
    refine ⟨e :: es, ws, ?_, hws, ?_⟩
    · rw [tokensAll, List.append_assoc]
    · rw [dataAll, unplacedAll, unplacedAll, he, hes]
end

/-! ### Writing and reading again -/

/-- The items of a list are written with one blank between two of them. -/
theorem textItems_eq_join (ds : List Datum) :
    textItems ds = Text.join (Text.ofString " ") (ds.map text) := by
  cases ds with
  | nil => rfl
  | cons d ds =>
    rw [textItems]
    induction ds generalizing d with
    | nil => simp [textRest, Text.join]
    | cons d' ds ih =>
      rw [textRest, ih d']
      simp [Text.join]
      rfl

/-- Legible data that are written with blanks between them are read again. -/
theorem read_text {ds : List Datum} (hds : ∀ t ∈ atomsAll ds, t.IsLegible) :
    ∃ ts ds', tokenize (Text.join (Text.ofString " ") (ds.map text)) = .ok ts ∧
      read ts = .ok ds' ∧ ds'.map unplaced = ds.map unplaced := by
  have hnil : Spells [] [] := ⟨[], .nil [], rfl⟩
  obtain ⟨segments, hseg, hsigns⟩ := spells_textItems ds hds hnil (by simp [Separates])
  rw [List.append_nil, textItems_eq_join] at hseg
  have htokens := tokenize_eq_ok_iff.mpr ⟨segments, hseg, rfl⟩
  rw [← map_sign_tokensOf 0 segments] at hsigns
  obtain ⟨es, vs, hes, hvs, hdata⟩ := derivations_of_signs ds hds hsigns.symm
  rw [List.map_eq_nil_iff.mp hvs, List.append_nil] at hes
  refine ⟨_, dataAll es, htokens, ?_, ?_⟩
  · rw [hes]
    exact read_tokensAll es
  · rw [← unplacedAll_eq_map, ← unplacedAll_eq_map, hdata]

/-- **Writing what was read and reading it again is the identity**, the places of tokens aside. -/
theorem read_text_of_read (s : Text) (ts : List Token) (ds : List Datum)
    (ht : tokenize s = .ok ts) (hr : read ts = .ok ds) :
    ∃ ts' ds', tokenize (Text.join (Text.ofString " ") (ds.map text)) = .ok ts' ∧
      read ts' = .ok ds' ∧ ds'.map unplaced = ds.map unplaced :=
  read_text (isLegible_of_read ht hr)

/-- Tokens that touch are written apart, and characters and strings keep the parentheses, the
semicolons and the line breaks in them. -/
theorem read_text_of_read_touching :
    let s : Text := "'(1a#\\(\"(;\n\"; end\n)#\\;-2.5"
    let written : Text := "(quote (1 a #\\( \"(;\n\")) #\\; -2.5"
    ∃ ts ds, tokenize s = .ok ts ∧ read ts = .ok ds ∧
      Text.join (Text.ofString " ") (ds.map text) = written ∧
      ∃ ts' ds', tokenize written = .ok ts' ∧ read ts' = .ok ds' ∧
        ds'.map unplaced = ds.map unplaced := by
  intro s written
  have hread : ((tokenize s).toOption.bind fun ts => (read ts).toOption.map fun ds =>
      Text.join (Text.ofString " ") (ds.map text)) = some written := by decide +kernel
  cases ht : tokenize s with
  | error f =>
    rw [ht] at hread
    cases hread
  | ok ts =>
    cases hr : read ts with
    | error f =>
      rw [ht, Except.toOption, Option.bind_some, hr] at hread
      cases hread
    | ok ds =>
      rw [ht, Except.toOption, Option.bind_some, hr, Except.toOption, Option.map_some,
        Option.some.injEq] at hread
      have hagain := read_text_of_read s ts ds ht hr
      exact ⟨ts, ds, rfl, hr, hread, hread ▸ hagain⟩

end Datum

end CountedLisp
