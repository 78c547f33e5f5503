import CountedLisp.Datum.Reader
import Mathlib.Data.List.Basic

/-!
# The grammar of data

A text consists of expressions, and an expression is an atom, a quote mark before an expression, or
expressions in parentheses:

    exprs ::= expr*
    expr  ::= atom | quote-mark expr | ( expr* )

A `Derivation` is a derivation of one expression together with the tokens it is made of, so that
derivations for other token sequences than those of the grammar cannot be built. It has its tokens
in order (`tokens`), the datum that it denotes (`datum`), and its signs (`signs`), which are the
categories and bytes of its tokens with every quote mark spelled out as a list.

The reader goes through the tokens once with a stack of what is open. `readRest_tokens` says that it
takes the tokens of a derivation off the input and delivers its datum, whatever is open. In the
other direction, `Datum.readOne` reads one expression by recursive descent and finds a derivation of
what it takes (`readOne_ok`); where it fails, so does the reader, for the same reason
(`readRest_error`). So the reader is the loop around `readOne` (`read_cons`), and it accepts exactly
the token sequences that can be derived, each of which has one derivation
(`tokensAll_append_inj`).
-/

namespace CountedLisp

/-- The categories of the tokens that are expressions by themselves. -/
def TokenKind.isAtom : TokenKind → Bool
  | .integer | .double | .string | .char | .boolean | .identifier => true
  | .leftParen | .rightParen | .quoteMark => false

theorem TokenKind.cases_isAtom (k : TokenKind) :
    k = .leftParen ∨ k = .rightParen ∨ k = .quoteMark ∨ k.isAtom = true := by
  cases k <;> simp [isAtom]

namespace Token

/-- The category and the bytes of a token, without its place. -/
def sign (t : Token) : TokenKind × Text :=
  (t.kind, t.lexeme)

/-- The sign of an opening parenthesis. -/
def leftSign : TokenKind × Text :=
  (.leftParen, Text.ofString "(")

/-- The sign of a closing parenthesis. -/
def rightSign : TokenKind × Text :=
  (.rightParen, Text.ofString ")")

/-- The sign of the name that a quote mark stands for. -/
def quoteSign : TokenKind × Text :=
  (.identifier, Text.ofString "quote")

/-- A parenthesis has the bytes of a parenthesis. -/
structure IsSpelled (t : Token) : Prop where
  left : t.kind = .leftParen → t.sign = leftSign
  right : t.kind = .rightParen → t.sign = rightSign

end Token

namespace Datum

mutual
/-- The signs that a datum is written with: an atom as its token, a list in parentheses. -/
def signs : Datum → List (TokenKind × Text)
  | .atom t => [t.sign]
  | .list items => Token.leftSign :: (signsAll items ++ [Token.rightSign])
termination_by structural d => d

/-- The signs that data are written with, one after the other. -/
def signsAll : List Datum → List (TokenKind × Text)
  | [] => []
  | d :: ds => signs d ++ signsAll ds
termination_by structural ds => ds
end

end Datum

/-! ### Derivations -/

/-- A derivation of an expression. -/
inductive Derivation where
  /-- A token that is an expression by itself. -/
  | atom (t : Token) (ht : t.kind.isAtom = true)
  /-- A quote mark and its operand. -/
  | quoted (mark : Token) (hm : mark.kind = .quoteMark) (operand : Derivation)
  /-- Expressions in parentheses. -/
  | parens (left : Token) (hl : left.kind = .leftParen) (items : List Derivation)
      (right : Token) (hr : right.kind = .rightParen)

namespace Derivation

mutual
/-- The tokens of a derivation, in order. -/
def tokens : Derivation → List Token
  | .atom t _ => [t]
  | .quoted mark _ operand => mark :: tokens operand
  | .parens left _ items right _ => left :: (tokensAll items ++ [right])
termination_by structural e => e

/-- The tokens of derivations, one after the other. -/
def tokensAll : List Derivation → List Token
  | [] => []
  | e :: es => tokens e ++ tokensAll es
termination_by structural es => es
end

mutual
/-- The datum that a derivation denotes. -/
def datum : Derivation → Datum
  | .atom t _ => .atom t
  | .quoted mark _ operand => Datum.quotation mark.span (datum operand)
  | .parens _ _ items _ _ => .list (dataAll items)
termination_by structural e => e

/-- The data that derivations denote. -/
def dataAll : List Derivation → List Datum
  | [] => []
  | e :: es => datum e :: dataAll es
termination_by structural es => es
end

mutual
/-- The signs of the tokens of a derivation, where every quote mark with its operand `x` is replaced
by `(quote x)`. -/
def signs : Derivation → List (TokenKind × Text)
  | .atom t _ => [t.sign]
  | .quoted _ _ operand => Token.leftSign :: Token.quoteSign :: (signs operand ++ [Token.rightSign])
  | .parens left _ items right _ => left.sign :: (signsAll items ++ [right.sign])
termination_by structural e => e

/-- The signs of derivations, one after the other. -/
def signsAll : List Derivation → List (TokenKind × Text)
  | [] => []
  | e :: es => signs e ++ signsAll es
termination_by structural es => es
end

/-- A derivation starts with a token, and not with a closing parenthesis. -/
theorem tokens_eq_cons (e : Derivation) :
    ∃ t ts, e.tokens = t :: ts ∧ t.kind ≠ .rightParen := by
  cases e with
  | atom t ht =>
    refine ⟨t, [], rfl, ?_⟩
    intro hk
    rw [hk] at ht
    cases ht
  | quoted mark hm operand => exact ⟨mark, operand.tokens, rfl, by simp [hm]⟩
  | parens left hl items right hr => exact ⟨left, _, rfl, by simp [hl]⟩

mutual
/-- Writing the datum of a derivation back gives the signs of the derivation. -/
theorem signs_datum (e : Derivation) (h : ∀ t ∈ e.tokens, t.IsSpelled) :
    e.datum.signs = e.signs := by
  match e with
  | .atom t ht => rfl
  | .quoted mark hm operand =>
    have ih : operand.datum.signs = operand.signs :=
      signs_datum operand fun t ht => h t (List.mem_cons_of_mem mark ht)
    simp [datum, signs, Datum.quotation, Datum.signs, Datum.signsAll, ih, Token.sign,
      Token.quoteSign]
  | .parens left hl items right hr =>
    have hleft : left.sign = Token.leftSign := (h left (by simp [tokens])).left hl
    have hright : right.sign = Token.rightSign := (h right (by simp [tokens])).right hr
    have ih : Datum.signsAll (dataAll items) = signsAll items :=
      signsAll_dataAll items fun t ht => h t (by simp [tokens, ht])
    simp [datum, signs, Datum.signs, ih, hleft, hright]

theorem signsAll_dataAll (es : List Derivation) (h : ∀ t ∈ tokensAll es, t.IsSpelled) :
    Datum.signsAll (dataAll es) = signsAll es := by
  match es with
  | [] => rfl
  | e :: es =>
    simp only [dataAll, Datum.signsAll, signsAll]
    rw [signs_datum e fun t ht => h t (by simp [tokensAll, ht]),
      signsAll_dataAll es fun t ht => h t (by simp [tokensAll, ht])]
end

/-! ### One derivation for each token sequence -/

/-- No expression starts here: the input is at its end or at a closing parenthesis. -/
def IsStop (ts : List Token) : Prop :=
  ∀ t ∈ ts.head?, t.kind = .rightParen

theorem not_isStop_tokens (e : Derivation) (rest : List Token) : ¬ IsStop (e.tokens ++ rest) := by
  obtain ⟨t, ts, he, ht⟩ := e.tokens_eq_cons
  intro hs
  exact ht (hs t (by simp [he]))

mutual
/-- The tokens of a derivation determine it, and where it ends. -/
theorem tokens_append_inj (e e' : Derivation) {rest rest' : List Token}
    (h : e.tokens ++ rest = e'.tokens ++ rest') : e = e' ∧ rest = rest' := by
  -- the category of the first token tells which rule of the grammar was used
  match e, e' with
  | .atom t ht, .atom t' ht' => simpa [tokens] using h
  | .quoted mark hm operand, .quoted mark' hm' operand' =>
    simp only [tokens, List.cons_append, List.cons.injEq] at h
    obtain ⟨rfl, hrest⟩ := h
    obtain ⟨rfl, rfl⟩ := tokens_append_inj operand operand' hrest
    exact ⟨rfl, rfl⟩
  | .parens left hl items right hr, .parens left' hl' items' right' hr' =>
    simp only [tokens, List.cons_append, List.cons.injEq, List.append_assoc] at h
    obtain ⟨rfl, hrest⟩ := h
    obtain ⟨rfl, hright⟩ := tokensAll_append_inj items items' (by simp [IsStop, hr])
      (by simp [IsStop, hr']) hrest
    simp only [List.nil_append, List.cons.injEq] at hright
    obtain ⟨rfl, rfl⟩ := hright
    exact ⟨rfl, rfl⟩
  | .atom t ht, .quoted mark hm operand =>
    simp only [tokens, List.cons_append, List.cons.injEq] at h
    simp [h.1, hm, TokenKind.isAtom] at ht
  | .atom t ht, .parens left hl items right hr =>
    simp only [tokens, List.cons_append, List.cons.injEq] at h
    simp [h.1, hl, TokenKind.isAtom] at ht
  | .quoted mark hm operand, .atom t ht =>
    simp only [tokens, List.cons_append, List.cons.injEq] at h
    simp [← h.1, hm, TokenKind.isAtom] at ht
  | .quoted mark hm operand, .parens left hl items right hr =>
    simp only [tokens, List.cons_append, List.cons.injEq] at h
    simp [h.1, hl] at hm
  | .parens left hl items right hr, .atom t ht =>
    simp only [tokens, List.cons_append, List.cons.injEq] at h
    simp [← h.1, hl, TokenKind.isAtom] at ht
  | .parens left hl items right hr, .quoted mark hm operand =>
    simp only [tokens, List.cons_append, List.cons.injEq] at h
    simp [h.1, hm] at hl

/-- **The grammar is unambiguous**: derivations with the same tokens, up to a place where no
expression starts, are the same. -/
theorem tokensAll_append_inj (es es' : List Derivation) {rest rest' : List Token}
    (hs : IsStop rest) (hs' : IsStop rest')
    (h : tokensAll es ++ rest = tokensAll es' ++ rest') : es = es' ∧ rest = rest' := by
  match es, es' with
  | [], [] => exact ⟨rfl, h⟩
  | [], e' :: es' =>
    simp only [tokensAll, List.nil_append, List.append_assoc] at h
    rw [h] at hs
    exact absurd hs (not_isStop_tokens e' _)
  | e :: es, [] =>
    simp only [tokensAll, List.nil_append, List.append_assoc] at h
    rw [← h] at hs'
    exact absurd hs' (not_isStop_tokens e _)
  | e :: es, e' :: es' =>
    simp only [tokensAll, List.append_assoc] at h
    obtain ⟨rfl, hrest⟩ := tokens_append_inj e e' h
    obtain ⟨rfl, rfl⟩ := tokensAll_append_inj es es' hs hs' hrest
    exact ⟨rfl, rfl⟩
end

theorem tokensAll_injective {es es' : List Derivation} (h : tokensAll es = tokensAll es') :
    es = es' := by
  have hs : IsStop [] := by simp [IsStop]
  have happ : tokensAll es ++ [] = tokensAll es' ++ [] := by rw [h]
  exact (tokensAll_append_inj es es' hs hs happ).1

end Derivation

namespace Datum

open CountedLisp.Derivation

/-! ### What can be derived is read -/

section Steps

variable {t : Token} (done : List Datum) (frames : List Frame) (ts : List Token)

theorem readRest_atom (ht : t.kind.isAtom = true) :
    readRest done frames (t :: ts) =
      readRest (deliver done frames (.atom t)).1 (deliver done frames (.atom t)).2 ts := by
  rw [readRest.eq_def]
  cases hk : t.kind <;> simp_all [TokenKind.isAtom]

theorem readRest_leftParen (ht : t.kind = .leftParen) :
    readRest done frames (t :: ts) = readRest done (.openList t.span [] :: frames) ts := by
  rw [readRest.eq_def]
  simp [ht]

theorem readRest_quoteMark (ht : t.kind = .quoteMark) :
    readRest done frames (t :: ts) = readRest done (.quoteMark t.span :: frames) ts := by
  rw [readRest.eq_def]
  simp [ht]

theorem readRest_rightParen (ht : t.kind = .rightParen) (span : Span) (items : List Datum) :
    readRest done (.openList span items :: frames) (t :: ts) =
      readRest (deliver done frames (.list items.reverse)).1
        (deliver done frames (.list items.reverse)).2 ts := by
  rw [readRest.eq_def]
  simp [ht]

end Steps

mutual
/-- The reader takes the tokens of a derivation off the input and delivers its datum. -/
theorem readRest_tokens (e : Derivation) (done : List Datum) (frames : List Frame)
    (rest : List Token) :
    readRest done frames (e.tokens ++ rest) =
      readRest (deliver done frames e.datum).1 (deliver done frames e.datum).2 rest := by
  match e with
  | .atom t ht => exact readRest_atom done frames rest ht
  | .quoted mark hm operand =>
    rw [tokens, List.cons_append, readRest_quoteMark _ _ _ hm]
    exact readRest_tokens operand done (.quoteMark mark.span :: frames) rest
  | .parens left hl items right hr =>
    rw [tokens, List.cons_append, readRest_leftParen _ _ _ hl, List.append_assoc,
      readRest_tokensAll items done left.span [] frames, List.singleton_append,
      readRest_rightParen _ _ _ hr, List.append_nil, List.reverse_reverse, datum]

/-- The reader puts the data of derivations into the list that is open. -/
theorem readRest_tokensAll (es : List Derivation) (done : List Datum) (span : Span)
    (items : List Datum) (frames : List Frame) (rest : List Token) :
    readRest done (.openList span items :: frames) (tokensAll es ++ rest) =
      readRest done (.openList span ((dataAll es).reverse ++ items) :: frames) rest := by
  match es with
  | [] => rfl
  | e :: es =>
    rw [tokensAll, List.append_assoc, readRest_tokens e, deliver,
      readRest_tokensAll es done span (e.datum :: items) frames rest, dataAll, List.reverse_cons,
      List.append_assoc, List.singleton_append]
end

/-- Outside of all lists the reader puts data to those that are done. -/
theorem readRest_tokensAll_nil (es : List Derivation) (done : List Datum) :
    readRest done [] (tokensAll es) = .ok (done.reverse ++ dataAll es) := by
  induction es generalizing done with
  | nil => simp [tokensAll, dataAll, readRest]
  | cons e es ih => rw [tokensAll, readRest_tokens e, deliver, ih, dataAll]; simp

/-! ### One expression by recursive descent -/

/-- Something read at the front of a token sequence, and the tokens after it. -/
structure Front (α : Type) (ts : List Token) where
  /-- What was read. -/
  value : α
  /-- The tokens after it. -/
  rest : List Token
  /-- At least one token was taken. -/
  shorter : rest.length < ts.length

mutual
/-- The datum at the front of a token sequence. -/
def readOne (ts : List Token) : Except Failure (Front Datum ts) :=
  match ts with
  | [] => .error (.plain "unexpected end of input")
  | t :: ts =>
    match t.kind with
    | .rightParen => .error (unbalanced t.span)
    | .quoteMark => do
      let x ← readOne ts
      return ⟨quotation t.span x.value, x.rest, Nat.lt_succ_of_lt x.shorter⟩
    | .leftParen => do
      let x ← readItems t.span ts
      return ⟨.list x.value, x.rest, Nat.lt_succ_of_lt x.shorter⟩
    | _ => return ⟨.atom t, ts, Nat.lt_succ_self _⟩
termination_by (ts.length, 0)

/-- The items of a list that was opened at `span`, up to its closing parenthesis. -/
def readItems (span : Span) (ts : List Token) : Except Failure (Front (List Datum) ts) :=
  match ts with
  | [] => .error (unfinished (.openList span []))
  | t :: ts =>
    if t.kind = .rightParen then return ⟨[], ts, Nat.lt_succ_self _⟩
    else do
      let x ← readOne (t :: ts)
      let y ← readItems span x.rest
      return ⟨x.value :: y.value, y.rest, Nat.lt_trans y.shorter x.shorter⟩
termination_by (ts.length, 1)
decreasing_by
  · exact Prod.Lex.right _ Nat.zero_lt_one
  · exact Prod.Lex.left _ _ x.shorter
end

section Descent

variable {t : Token} {ts : List Token}

theorem readOne_atom (ht : t.kind.isAtom = true) :
    readOne (t :: ts) = .ok ⟨.atom t, ts, Nat.lt_succ_self _⟩ := by
  rw [readOne.eq_def]
  cases hk : t.kind <;> simp_all [TokenKind.isAtom] <;> rfl

theorem readOne_rightParen (ht : t.kind = .rightParen) :
    readOne (t :: ts) = .error (unbalanced t.span) := by
  rw [readOne.eq_def]
  simp [ht]

theorem readOne_quoteMark (ht : t.kind = .quoteMark) :
    readOne (t :: ts) = (readOne ts).map fun x =>
      ⟨quotation t.span x.value, x.rest, Nat.lt_succ_of_lt x.shorter⟩ := by
  rw [readOne.eq_def]
  simp only [ht]
  cases readOne ts <;> rfl

theorem readOne_leftParen (ht : t.kind = .leftParen) :
    readOne (t :: ts) = (readItems t.span ts).map fun x =>
      ⟨.list x.value, x.rest, Nat.lt_succ_of_lt x.shorter⟩ := by
  rw [readOne.eq_def]
  simp only [ht]
  cases readItems t.span ts <;> rfl

theorem readItems_rightParen (span : Span) (ht : t.kind = .rightParen) :
    readItems span (t :: ts) = .ok ⟨[], ts, Nat.lt_succ_self _⟩ := by
  rw [readItems.eq_def]
  simp only [ht, if_true]
  rfl

theorem readItems_cons (span : Span) (ht : t.kind ≠ .rightParen) :
    readItems span (t :: ts) = (readOne (t :: ts)).bind fun x =>
      (readItems span x.rest).map fun y =>
        ⟨x.value :: y.value, y.rest, Nat.lt_trans y.shorter x.shorter⟩ := by
  rw [readItems.eq_def]
  simp only [ht, if_false]
  cases readOne (t :: ts) with
  | error f => rfl
  | ok x => cases h : readItems span x.rest <;> simp [bind, Except.bind, h] <;> rfl

end Descent

mutual
/-- What recursive descent reads is the datum of a derivation of the tokens that it takes. -/
theorem readOne_ok (ts : List Token) {x : Front Datum ts} (h : readOne ts = .ok x) :
    ∃ e : Derivation, ts = e.tokens ++ x.rest ∧ e.datum = x.value := by
  match ts with
  | [] => simp [readOne] at h
  | t :: ts =>
    rcases TokenKind.cases_isAtom t.kind with hk | hk | hk | hk
    · rw [readOne_leftParen hk] at h
      cases hy : readItems t.span ts with
      | error f => simp [hy, Except.map] at h
      | ok y =>
        simp only [hy, Except.map, Except.ok.injEq] at h
        subst h
        obtain ⟨es, r, hr, hts, hes⟩ := readItems_ok t.span ts hy
        refine ⟨.parens t hk es r hr, ?_, ?_⟩
        · rw [tokens, List.cons_append, List.append_assoc, List.singleton_append, ← hts]
        · rw [datum, hes]
    · rw [readOne_rightParen hk] at h
      cases h
    · rw [readOne_quoteMark hk] at h
      cases hy : readOne ts with
      | error f => simp [hy, Except.map] at h
      | ok y =>
        simp only [hy, Except.map, Except.ok.injEq] at h
        subst h
        obtain ⟨e, hts, he⟩ := readOne_ok ts hy
        refine ⟨.quoted t hk e, ?_, ?_⟩
        · rw [tokens, List.cons_append, ← hts]
        · rw [datum, he]
    · rw [readOne_atom hk, Except.ok.injEq] at h
      subst h
      exact ⟨.atom t hk, rfl, rfl⟩
termination_by (ts.length, 0)

theorem readItems_ok (span : Span) (ts : List Token) {x : Front (List Datum) ts}
    (h : readItems span ts = .ok x) :
    ∃ (es : List Derivation) (r : Token), r.kind = .rightParen ∧
      ts = tokensAll es ++ r :: x.rest ∧ dataAll es = x.value := by
  match ts with
  | [] => simp [readItems] at h
  | t :: ts =>
    by_cases hk : t.kind = .rightParen
    · rw [readItems_rightParen span hk, Except.ok.injEq] at h
      subst h
      exact ⟨[], t, hk, rfl, rfl⟩
    · rw [readItems_cons span hk] at h
      cases hy : readOne (t :: ts) with
      | error f => simp [hy, Except.bind] at h
      | ok y =>
        cases hz : readItems span y.rest with
        | error f => simp [hy, hz, Except.bind, Except.map] at h
        | ok z =>
          simp only [hy, hz, Except.bind, Except.map, Except.ok.injEq] at h
          subst h
          obtain ⟨e, hts, he⟩ := readOne_ok (t :: ts) hy
          obtain ⟨es, r, hr, hrest, hes⟩ := readItems_ok span y.rest hz
          refine ⟨e :: es, r, hr, ?_, ?_⟩
          · rw [tokensAll, List.append_assoc, ← hrest, ← hts]
          · rw [dataAll, he, hes]
termination_by (ts.length, 1)
decreasing_by
  · exact Prod.Lex.right _ Nat.zero_lt_one
  · exact Prod.Lex.left _ _ y.shorter
end

/-! ### Where recursive descent fails, the reader fails -/

/-- An expression has to start here: a quote mark waits for one, or there are tokens that do not
close the innermost list. -/
def Expects : List Frame → List Token → Prop
  | .quoteMark _ :: _, _ => True
  | .openList _ _ :: _, ts => ¬ IsStop ts
  | [], ts => ts ≠ []

mutual
/-- Where an expression has to start and recursive descent finds none, the reader fails for the same
reason. -/
theorem readRest_error (ts : List Token) {f : Failure} (h : readOne ts = .error f)
    (done : List Datum) {frames : List Frame} (hx : Expects frames ts) :
    readRest done frames ts = .error f := by
  match ts with
  | [] =>
    rw [readOne, Except.error.injEq] at h
    subst h
    match frames, hx with
    | .quoteMark _ :: _, _ => rfl
    | .openList _ _ :: _, hx => exact absurd (by simp [IsStop]) hx
    | [], hx => exact absurd rfl hx
  | t :: ts =>
    rcases TokenKind.cases_isAtom t.kind with hk | hk | hk | hk
    · rw [readOne_leftParen hk] at h
      cases hy : readItems t.span ts with
      | ok y => simp [hy, Except.map] at h
      | error g =>
        simp only [hy, Except.map, Except.error.injEq] at h
        rw [readRest_leftParen _ _ _ hk, ← h]
        exact readRest_error_items t.span ts hy done [] frames
    · rw [readOne_rightParen hk, Except.error.injEq] at h
      subst h
      rw [readRest.eq_def]
      -- it would have closed the innermost list, and there is none to be closed
      match frames, hx with
      | .quoteMark _ :: _, _ => simp [hk]
      | .openList _ _ :: _, hx => exact absurd (by simp [IsStop, hk]) hx
      | [], _ => simp [hk]
    · rw [readOne_quoteMark hk] at h
      cases hy : readOne ts with
      | ok y => simp [hy, Except.map] at h
      | error g =>
        simp only [hy, Except.map, Except.error.injEq] at h
        rw [readRest_quoteMark _ _ _ hk, ← h]
        exact readRest_error ts hy done trivial
    · rw [readOne_atom hk] at h
      cases h
termination_by (ts.length, 0)

theorem readRest_error_items (span : Span) (ts : List Token) {f : Failure}
    (h : readItems span ts = .error f) (done items : List Datum) (frames : List Frame) :
    readRest done (.openList span items :: frames) ts = .error f := by
  match ts with
  | [] =>
    rw [readItems, Except.error.injEq] at h
    subst h
    rfl
  | t :: ts =>
    by_cases hk : t.kind = .rightParen
    · rw [readItems_rightParen span hk] at h
      cases h
    · rw [readItems_cons span hk] at h
      cases hy : readOne (t :: ts) with
      | error g =>
        simp only [hy, Except.bind, Except.error.injEq] at h
        rw [← h]
        exact readRest_error (t :: ts) hy done (by simp [Expects, IsStop, hk])
      | ok y =>
        -- the first item is taken off and put into the list; what is wrong comes after it
        cases hz : readItems span y.rest with
        | ok z => simp [hy, hz, Except.bind, Except.map] at h
        | error g =>
          simp only [hy, hz, Except.bind, Except.map, Except.error.injEq] at h
          obtain ⟨e, hts, he⟩ := readOne_ok (t :: ts) hy
          rw [hts, readRest_tokens e, deliver, ← h]
          exact readRest_error_items span y.rest hz done _ frames
termination_by (ts.length, 1)
decreasing_by
  · exact Prod.Lex.right _ Nat.zero_lt_one
  · exact Prod.Lex.left _ _ y.shorter
end

/-! ### The reader as a loop -/

theorem deliver_append (a b : List Datum) (frames : List Frame) (d : Datum) :
    deliver (a ++ b) frames d = ((deliver a frames d).1 ++ b, (deliver a frames d).2) := by
  induction frames generalizing d with
  | nil => rfl
  | cons frame frames ih =>
    cases frame with
    | quoteMark span => exact ih (quotation span d)
    | openList span items => rfl

/-- Data that are done stay in front of what comes. -/
theorem readRest_append (a b : List Datum) (frames : List Frame) (ts : List Token) :
    readRest (a ++ b) frames ts = (readRest a frames ts).map (b.reverse ++ ·) := by
  induction ts generalizing a frames with
  | nil => cases frames <;> simp [readRest, Except.map]
  | cons t ts ih =>
    rcases TokenKind.cases_isAtom t.kind with hk | hk | hk | hk
    · rw [readRest_leftParen _ _ _ hk, readRest_leftParen _ _ _ hk, ih]
    · rw [readRest.eq_def, readRest.eq_def a]
      simp only [hk]
      split
      · rw [deliver_append, ih]
      · rfl
    · rw [readRest_quoteMark _ _ _ hk, readRest_quoteMark _ _ _ hk, ih]
    · rw [readRest_atom _ _ _ hk, readRest_atom _ _ _ hk, deliver_append, ih]

/-- The reader reads one expression and goes on after it. -/
theorem read_cons (t : Token) (ts : List Token) :
    read (t :: ts) =
      (readOne (t :: ts)).bind fun x => (read x.rest).map (x.value :: ·) := by
  cases h : readOne (t :: ts) with
  | error f => exact readRest_error (t :: ts) h [] (List.cons_ne_nil t ts)
  | ok x =>
    obtain ⟨e, hts, he⟩ := readOne_ok (t :: ts) h
    calc readRest [] [] (t :: ts)
        = readRest [] [] (e.tokens ++ x.rest) := congrArg (readRest [] []) hts
      _ = readRest [e.datum] [] x.rest := readRest_tokens e [] [] x.rest
      _ = readRest [x.value] [] x.rest := by rw [he]
      _ = (readRest [] [] x.rest).map (x.value :: ·) := readRest_append [] [x.value] [] x.rest

/-- What the reader reads is derived. -/
theorem exists_derivation (ts : List Token) {ds : List Datum} (h : read ts = .ok ds) :
    ∃ es, tokensAll es = ts ∧ dataAll es = ds := by
  match ts with
  | [] =>
    cases h
    exact ⟨[], rfl, rfl⟩
  | t :: ts =>
    rw [read_cons] at h
    cases hx : readOne (t :: ts) with
    | error f => simp [hx, Except.bind] at h
    | ok x =>
      cases hy : read x.rest with
      | error f => simp [hx, hy, Except.bind, Except.map] at h
      | ok ds' =>
        simp only [hx, hy, Except.bind, Except.map, Except.ok.injEq] at h
        obtain ⟨e, hts, he⟩ := readOne_ok (t :: ts) hx
        obtain ⟨es, hrest, hes⟩ := exists_derivation x.rest hy
        refine ⟨e :: es, ?_, ?_⟩
        · rw [tokensAll, hrest, ← hts]
        · rw [dataAll, he, hes, h]
termination_by ts.length
decreasing_by exact x.shorter

/-- What can be derived is read. -/
theorem read_tokensAll (es : List Derivation) : read (tokensAll es) = .ok (dataAll es) :=
  readRest_tokensAll_nil es []

/-- **The reader accepts exactly its grammar.** It succeeds if and only if there is a derivation of
the tokens. Then there is only one, the data are those that it denotes, and writing them back gives
the signs of the tokens with every quote mark spelled out. Recursive descent takes the tokens of one
expression off the input, which is at least one token, and the reader is the loop around it. -/
theorem read_ok_iff_derivation (ts : List Token) :
    ((∃ ds, read ts = .ok ds) ↔ ∃ es, tokensAll es = ts) ∧
    (∀ ds, read ts = .ok ds → ∃ es, tokensAll es = ts ∧ (∀ es', tokensAll es' = ts → es' = es) ∧
      dataAll es = ds ∧ ((∀ t ∈ ts, t.IsSpelled) → signsAll ds = Derivation.signsAll es)) ∧
    (∀ x, readOne ts = .ok x → x.rest.length < ts.length ∧
      ∃ e : Derivation, ts = e.tokens ++ x.rest ∧ e.datum = x.value) ∧
    read ts = if ts = [] then .ok []
      else (readOne ts).bind fun x => (read x.rest).map (x.value :: ·) := by
  refine ⟨⟨?_, ?_⟩, ?_, ?_, ?_⟩
  · rintro ⟨ds, h⟩
    obtain ⟨es, hes, -⟩ := exists_derivation ts h
    exact ⟨es, hes⟩
  · rintro ⟨es, rfl⟩
    exact ⟨dataAll es, read_tokensAll es⟩
  · intro ds h
    obtain ⟨es, rfl, rfl⟩ := exists_derivation ts h
    refine ⟨es, rfl, ?_, rfl, ?_⟩
    · intro es' hes'
      exact tokensAll_injective hes'
    · intro hspelled
      exact signsAll_dataAll es hspelled
  · intro x h
    exact ⟨x.shorter, readOne_ok ts h⟩
  · cases ts with
    | nil => rfl
    | cons t ts => exact read_cons t ts

/-- The tokens of `(a '()) 'b` are read as `(a (quote ())) (quote b)`. -/
theorem read_ok_iff_derivation_quotes :
    let ts : List Token :=
      [⟨.leftParen, "(", ⟨1, 1⟩⟩, ⟨.identifier, "a", ⟨2, 2⟩⟩, ⟨.quoteMark, "'", ⟨4, 4⟩⟩,
        ⟨.leftParen, "(", ⟨5, 5⟩⟩, ⟨.rightParen, ")", ⟨6, 6⟩⟩, ⟨.rightParen, ")", ⟨7, 7⟩⟩,
        ⟨.quoteMark, "'", ⟨9, 9⟩⟩, ⟨.identifier, "b", ⟨10, 10⟩⟩]
    ∃ ds, read ts = .ok ds ∧ ds.map text = ["(a (quote ()))", "(quote b)"] ∧
      (∀ t ∈ ts, t.IsSpelled) ∧ (∃ x, readOne ts = .ok x ∧ x.rest.length < ts.length) ∧
      ∃ es, tokensAll es = ts ∧ dataAll es = ds ∧ signsAll ds = Derivation.signsAll es := by
  intro ts
  have hread : ∃ ds, read ts = .ok ds ∧ ds.map text = ["(a (quote ()))", "(quote b)"] :=
    ⟨_, rfl, by decide⟩
  have hspelled : ∀ t ∈ ts, t.IsSpelled := by
    intro t ht
    constructor
    · revert t
      decide
    · revert t
      decide
  obtain ⟨ds, hds, htext⟩ := hread
  obtain ⟨-, hderive, htake, hloop⟩ := read_ok_iff_derivation ts
  cases hx : readOne ts with
  | error f =>
    rw [hds, if_neg (List.cons_ne_nil _ _), hx] at hloop
    cases hloop
  | ok x =>
    obtain ⟨es, hes, -, hdata, hsigns⟩ := hderive ds hds
    exact ⟨ds, hds, htext, hspelled, ⟨x, rfl, (htake x hx).1⟩, es, hes, hdata, hsigns hspelled⟩

end Datum

end CountedLisp
