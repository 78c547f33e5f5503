import CountedLisp.Token.Lexer
import CountedLisp.Proofs.Grammar
import CountedLisp.Proofs.Patterns

/-!
# Texts cut into segments

`Token.Longest` says what the longest match of some rules is: the longest prefix of a text that any
of them matches, with the payload of the first rule that matches it. A text is stuck if no rule
matches a prefix that is not empty. `Token.Segments` cuts the longest match off a text, again and
again, until a rest is left.

`Token.munch` runs all rules side by side. The rules that it has left after a byte match what may
follow this byte (`winner_advance`), so it finds the longest match, or that there is none
(`munch_spec`). Every text can be cut until it is used up or stuck (`exists_segments`), and
`Token.scan` follows the segments (`scan_ok`, `scan_error`), so that tokenizing a text succeeds in
the first case and fails in the second.

Columns are counted along with the bytes. In a text without line breaks they are the places of the
bytes in the text, counted from one (`span_of_mem_tokensOf`).
-/

namespace CountedLisp

namespace Token

/-! ### The longest match of some rules -/

section Rules

variable {α : Type} {live : List (Pattern × α)} {b : UInt8} {text s : Text} {k : α}

/-- The longest prefix of a text that some rule matches, with the payload of the first rule that
matches it. -/
structure Longest (live : List (Pattern × α)) (text s : Text) (k : α) : Prop where
  ne_nil : s ≠ []
  front : s <+: text
  first : ∃ before p after, live = before ++ (p, k) :: after ∧
    s ∈ p.language ∧ ∀ r ∈ before, s ∉ r.1.language
  longest : ∀ u, u <+: text → (∃ r ∈ live, u ∈ r.1.language) → u.length ≤ s.length

/-- No rule matches a prefix of a text, the empty one aside. -/
def Stuck (live : List (Pattern × α)) (text : Text) : Prop :=
  ∀ u, u <+: text → u ≠ [] → ∀ r ∈ live, u ∉ r.1.language

/-- The payload of the first rule that matches a text. -/
def winner (live : List (Pattern × α)) (s : Text) : Option α :=
  (live.find? (·.1.accepts s)).map (·.2)

theorem winner_eq_none_iff : winner live s = none ↔ ∀ r ∈ live, s ∉ r.1.language := by
  simp [winner, ← Pattern.accepts_iff]

theorem winner_eq_some_iff :
    winner live s = some k ↔ ∃ before p after, live = before ++ (p, k) :: after ∧
      s ∈ p.language ∧ ∀ r ∈ before, s ∉ r.1.language := by
  simp only [← Pattern.accepts_iff]
  unfold winner
  rw [Option.map_eq_some_iff]
  constructor
  · rintro ⟨⟨p, k'⟩, hfind, rfl⟩
    obtain ⟨hp, before, after, hlive, hbefore⟩ := List.find?_eq_some_iff_append.mp hfind
    refine ⟨before, p, after, hlive, hp, ?_⟩
    intro r hr
    simpa using hbefore r hr
  · rintro ⟨before, p, after, hlive, hp, hbefore⟩
    refine ⟨(p, k), List.find?_eq_some_iff_append.mpr ⟨hp, before, after, hlive, ?_⟩, rfl⟩
    intro r hr
    simpa using hbefore r hr

theorem longest_iff : Longest live text s k ↔ s ≠ [] ∧ s <+: text ∧ winner live s = some k ∧
    ∀ u, u <+: text → s.length < u.length → winner live u = none := by
  constructor
  · intro h
    refine ⟨h.ne_nil, h.front, winner_eq_some_iff.mpr h.first, ?_⟩
    intro u hu hlt
    rw [winner_eq_none_iff]
    intro r hr hmem
    exact absurd (h.longest u hu ⟨r, hr, hmem⟩) (Nat.not_le_of_lt hlt)
  · rintro ⟨hne, hfront, hwin, hlong⟩
    refine ⟨hne, hfront, winner_eq_some_iff.mp hwin, ?_⟩
    rintro u hu ⟨r, hr, hmem⟩
    by_contra hlt
    exact winner_eq_none_iff.mp (hlong u hu (Nat.lt_of_not_le hlt)) r hr hmem

theorem stuck_iff : Stuck live text ↔ ∀ u, u <+: text → u ≠ [] → winner live u = none := by
  simp only [Stuck, winner_eq_none_iff]

/-- The rules that are left after a byte match what may follow it. -/
theorem winner_advance (b : UInt8) (live : List (Pattern × α)) (s : Text) :
    winner (advance b live) s = winner live (b :: s) := by
  unfold winner advance
  rw [List.find?_filter, List.find?_map]
  simp only [Option.map_map]
  -- a rule that has become void would not match anyway
  have hvoid : (fun r : Pattern × α =>
      decide ((!(r.1.derivative b).isVoid) = true ∧ (r.1.derivative b).accepts s = true)) =
        fun r => r.1.accepts (b :: s) := by
    funext r
    rw [Pattern.accepts]
    by_cases hv : (r.1.derivative b).isVoid = true
    · simp [hv, Pattern.accepts_of_isVoid hv]
    · simp [hv]
  simp only [Function.comp_def, hvoid]

theorem Longest.cons (h : Longest (advance b live) text s k) :
    Longest live (b :: text) (b :: s) k := by
  obtain ⟨-, hfront, hwin, hlong⟩ := longest_iff.mp h
  refine longest_iff.mpr ⟨List.cons_ne_nil b s, List.cons_prefix_cons.mpr ⟨rfl, hfront⟩,
    (winner_advance b live s).symm.trans hwin, ?_⟩
  intro u hu hlt
  rcases List.prefix_cons_iff.mp hu with rfl | ⟨v, rfl, hv⟩
  · simp at hlt
  · rw [← winner_advance]
    exact hlong v hv (Nat.lt_of_succ_lt_succ hlt)

/-- A single byte is the longest match if the rules are stuck after it. -/
theorem Stuck.longest (h : Stuck (advance b live) text) (hwin : winner live [b] = some k) :
    Longest live (b :: text) [b] k := by
  refine longest_iff.mpr ⟨List.cons_ne_nil b [], List.cons_prefix_cons.mpr ⟨rfl, List.nil_prefix⟩,
    hwin, ?_⟩
  intro u hu hlt
  rcases List.prefix_cons_iff.mp hu with rfl | ⟨v, rfl, hv⟩
  · simp at hlt
  · rw [← winner_advance]
    apply stuck_iff.mp h v hv
    rintro rfl
    simp at hlt

theorem Stuck.cons (h : Stuck (advance b live) text) (hwin : winner live [b] = none) :
    Stuck live (b :: text) := by
  refine stuck_iff.mpr ?_
  intro u hu hne
  rcases List.prefix_cons_iff.mp hu with rfl | ⟨v, rfl, hv⟩
  · exact absurd rfl hne
  · by_cases hv0 : v = []
    · rw [hv0, hwin]
    · rw [← winner_advance]
      exact stuck_iff.mp h v hv hv0

/-- A byte after which some rule can go on. If it completes a match, this is the best one so far. -/
theorem munch_cons (best : Option (α × Nat)) (n : Nat) (text : Text)
    (h : (advance b live).isEmpty = false) :
    munch live best n (b :: text) =
      munch (advance b live) (((winner live [b]).map (·, n)).or best) (n + 1) text := by
  have hwin : winner live [b] = ((advance b live).find? (·.1.nullable)).map (·.2) :=
    (winner_advance b live []).symm
  rw [hwin]
  cases hfind : (advance b live).find? (·.1.nullable) with
  | some r => simp [munch, h, hfind]
  | none => simp [munch, h, hfind]

/-- No rule matches anything that starts with a byte after which none can go on. -/
theorem stuck_of_isEmpty (text : Text) (h : (advance b live).isEmpty = true) :
    Stuck live (b :: text) := by
  rw [List.isEmpty_iff] at h
  have hnone : ∀ s, winner live (b :: s) = none := by
    intro s
    rw [← winner_advance, h]
    rfl
  refine stuck_iff.mpr ?_
  intro u hu hne
  rcases List.prefix_cons_iff.mp hu with rfl | ⟨v, rfl, -⟩
  · exact absurd rfl hne
  · exact hnone v

/-- **The longest match is found.** If there is one, it is the answer. If there is none, the answer
is the match from before, and a failure if there was none. -/
theorem munch_spec (live : List (Pattern × α)) (best : Option (α × Nat)) (n : Nat) (text : Text) :
    (∃ s k, Longest live text s k ∧ munch live best n text = .ok (k, n + (s.length - 1))) ∨
    (Stuck live text ∧ (∀ m, best = some m → munch live best n text = .ok m) ∧
      (best = none → ∃ i, munch live best n text = .error i)) := by
  induction text generalizing live best n with
  | nil =>
    refine Or.inr ⟨?_, ?_, ?_⟩
    · intro u hu hne
      exact absurd (List.prefix_nil.mp hu) hne
    · rintro m rfl
      rfl
    · rintro rfl
      exact ⟨n, rfl⟩
  | cons b text ih =>
    by_cases hnext : (advance b live).isEmpty = true
    · refine Or.inr ⟨stuck_of_isEmpty text hnext, ?_, ?_⟩
      · rintro m rfl
        simp [munch, hnext]
      · rintro rfl
        exact ⟨n + 1, by simp [munch, hnext]⟩
    · rw [Bool.not_eq_true] at hnext
      rw [munch_cons best n text hnext]
      -- a match that starts here is a match of the rest, or ends here
      rcases ih (advance b live) (((winner live [b]).map (·, n)).or best) (n + 1) with
        ⟨s, k, hs, hres⟩ | ⟨hs, hbest, hfail⟩
      · refine Or.inl ⟨b :: s, k, hs.cons, ?_⟩
        have hpos := List.length_pos_iff.mpr hs.ne_nil
        rw [hres, List.length_cons, show n + 1 + (s.length - 1) = n + (s.length + 1 - 1) by omega]
      · cases hwin : winner live [b] with
        | some k =>
          rw [hwin] at hbest
          exact Or.inl ⟨[b], k, hs.longest hwin, hbest _ rfl⟩
        | none =>
          rw [hwin] at hbest hfail
          exact Or.inr ⟨hs.cons hwin, hbest, hfail⟩

/-- There is only one longest match. -/
theorem Longest.unique {s' : Text} {k' : α} (h : Longest live text s k)
    (h' : Longest live text s' k') : s = s' ∧ k = k' := by
  obtain ⟨-, hfront, hwin, hlong⟩ := longest_iff.mp h
  obtain ⟨-, hfront', hwin', hlong'⟩ := longest_iff.mp h'
  have hle : s'.length ≤ s.length := by
    by_contra hlt
    rw [hlong s' hfront' (Nat.lt_of_not_le hlt)] at hwin'
    cases hwin'
  have hle' : s.length ≤ s'.length := by
    by_contra hlt
    rw [hlong' s hfront (Nat.lt_of_not_le hlt)] at hwin
    cases hwin
  have hs : s = s' := (List.prefix_of_prefix_length_le hfront hfront' hle').eq_of_length_le hle
  rw [hs, hwin'] at hwin
  exact ⟨hs, (Option.some.inj hwin).symm⟩

theorem Longest.not_stuck (h : Longest live text s k) : ¬ Stuck live text := by
  intro hs
  obtain ⟨hne, hfront, hwin, -⟩ := longest_iff.mp h
  rw [stuck_iff.mp hs s hfront hne] at hwin
  cases hwin

end Rules

/-! ### Segments -/

/-- A text cut into the longest matches of the rules, one after the other, up to a rest. -/
inductive Segments : Text → List (Text × Option TokenKind) → Text → Prop where
  | nil (rest : Text) : Segments rest [] rest
  | cons {s text rest : Text} {k : Option TokenKind} {segments : List (Text × Option TokenKind)}
      (h : Longest rules (s ++ text) s k) (hs : Segments text segments rest) :
      Segments (s ++ text) ((s, k) :: segments) rest

/-- The tokens of segments of which the first follows a byte in column `column`. Comments and blanks
give no token. -/
def tokensOf (column : Nat) : List (Text × Option TokenKind) → List Token
  | [] => []
  | (s, none) :: segments => tokensOf (spanAfter column s).last segments
  | (s, some k) :: segments =>
    { kind := k, lexeme := s, span := spanAfter column s } ::
      tokensOf (spanAfter column s).last segments

variable {text rest : Text} {segments : List (Text × Option TokenKind)}

/-- The segments and the rest make up the text. -/
theorem Segments.flatten (h : Segments text segments rest) :
    (segments.map (·.1)).flatten ++ rest = text := by
  induction h with
  | nil rest => rfl
  | cons h hs ih => rw [List.map_cons, List.flatten_cons, List.append_assoc, ih]

theorem scan_cons {s : Text} {k : Option TokenKind} (h : Longest rules (s ++ text) s k)
    (found : List Token) (offset column : Nat) :
    scan found offset column (s ++ text) =
      scan ((tokensOf column [(s, k)]).reverse ++ found) (offset + s.length)
        (spanAfter column s).last text := by
  have hmunch : munch rules none 0 (s ++ text) = .ok (k, s.length - 1) := by
    rcases munch_spec rules none 0 (s ++ text) with ⟨s', k', hs', hres⟩ | ⟨hstuck, -, -⟩
    · obtain ⟨rfl, rfl⟩ := h.unique hs'
      rw [hres, Nat.zero_add]
    · exact absurd hstuck h.not_stuck
  match s, h.ne_nil with
  | b :: s, _ =>
    rw [List.cons_append] at hmunch ⊢
    rw [scan, hmunch]
    have htake : (b :: (s ++ text)).take (s.length + 1) = b :: s := by simp
    have hdrop : (s ++ text).drop s.length = text := by simp
    simp only [List.length_cons, Nat.add_sub_cancel, htake, hdrop, Nat.add_assoc]
    cases k <;> rfl

/-- Scanning a text that is used up by segments gives their tokens. -/
theorem scan_ok (h : Segments text segments []) (found : List Token) (offset column : Nat) :
    scan found offset column text = .ok (found.reverse ++ tokensOf column segments) := by
  generalize hr : ([] : Text) = rest at h
  induction h generalizing found offset column with
  | nil rest =>
    subst hr
    simp [scan, tokensOf]
  | @cons s text rest k segments h hs ih =>
    rw [scan_cons h, ih _ _ _ hr]
    cases k <;> simp [tokensOf]

/-- Scanning a text of which segments leave a rest that is stuck fails. -/
theorem scan_error (h : Segments text segments rest) (hne : rest ≠ []) (hstuck : Stuck rules rest)
    (found : List Token) (offset column : Nat) :
    ∃ f, scan found offset column text = .error f := by
  induction h generalizing found offset column with
  | nil rest =>
    match rest, hne with
    | b :: t, _ =>
      rcases munch_spec rules none 0 (b :: t) with ⟨s, k, hs, -⟩ | ⟨-, -, hfail⟩
      · exact absurd hstuck hs.not_stuck
      · obtain ⟨i, hi⟩ := hfail rfl
        exact ⟨unexpectedInput (offset + i), by rw [scan, hi]⟩
  | cons h hs ih =>
    rw [scan_cons h]
    exact ih hne hstuck _ _ _

/-- Every text can be cut into segments until it is used up or stuck. -/
theorem exists_segments (text : Text) :
    ∃ segments rest, Segments text segments rest ∧ (rest = [] ∨ rest ≠ [] ∧ Stuck rules rest) := by
  rcases munch_spec rules none 0 text with ⟨s, k, h, -⟩ | ⟨hstuck, -, -⟩
  · obtain ⟨t, rfl⟩ := h.front
    have hlt : t.length < (s ++ t).length := by
      have := List.length_pos_iff.mpr h.ne_nil
      rw [List.length_append]
      omega
    obtain ⟨segments, rest, hseg, hrest⟩ := exists_segments t
    exact ⟨(s, k) :: segments, rest, .cons h hseg, hrest⟩
  · refine ⟨[], text, .nil text, ?_⟩
    by_cases ht : text = []
    · exact Or.inl ht
    · exact Or.inr ⟨ht, hstuck⟩
termination_by text.length

theorem tokenize_eq_ok_iff {ts : List Token} :
    tokenize text = .ok ts ↔ ∃ segments, Segments text segments [] ∧ ts = tokensOf 0 segments := by
  constructor
  · intro h
    obtain ⟨segments, rest, hseg, rfl | ⟨hne, hstuck⟩⟩ := exists_segments text
    · rw [tokenize, scan_ok hseg, Except.ok.injEq] at h
      exact ⟨segments, hseg, h.symm⟩
    · obtain ⟨f, hf⟩ := scan_error hseg hne hstuck [] 0 0
      rw [tokenize, hf] at h
      cases h
  · rintro ⟨segments, hseg, rfl⟩
    exact scan_ok hseg [] 0 0

theorem tokenize_eq_error_iff :
    (∃ f, tokenize text = .error f) ↔
      ∃ segments rest, Segments text segments rest ∧ rest ≠ [] ∧ Stuck rules rest := by
  constructor
  · rintro ⟨f, hf⟩
    obtain ⟨segments, rest, hseg, rfl | ⟨hne, hstuck⟩⟩ := exists_segments text
    · rw [tokenize, scan_ok hseg] at hf
      cases hf
    · exact ⟨segments, rest, hseg, hne, hstuck⟩
  · rintro ⟨segments, rest, hseg, hne, hstuck⟩
    exact scan_error hseg hne hstuck [] 0 0

/-! ### Columns -/

theorem foldl_nextColumn {s : Text} (hs : 10 ∉ s) (column : Nat) :
    s.foldl nextColumn column = column + s.length := by
  induction s generalizing column with
  | nil => rfl
  | cons b s ih =>
    rw [List.mem_cons, not_or] at hs
    have hb : nextColumn column b = column + 1 := if_neg (Ne.symm hs.1)
    rw [List.foldl_cons, hb, ih hs.2, List.length_cons]
    omega

theorem spanAfter_eq {s : Text} (hs : 10 ∉ s) (hne : s ≠ []) (column : Nat) :
    spanAfter column s = ⟨column + 1, column + s.length⟩ := by
  match s, hne with
  | b :: s, _ =>
    have htake : 10 ∉ (b :: s).take 1 := fun h => hs (List.mem_of_mem_take h)
    rw [spanAfter, foldl_nextColumn hs, foldl_nextColumn htake]
    simp

/-- Without line breaks, the columns of a token are its place in the text. -/
theorem span_of_mem_tokensOf (h : Segments text segments rest) (hbreak : 10 ∉ text) (column : Nat) :
    ∀ t ∈ tokensOf column segments, ∃ u v, text = u ++ (t.lexeme ++ v) ∧ t.lexeme ≠ [] ∧
      t.span = ⟨column + u.length + 1, column + u.length + t.lexeme.length⟩ := by
  induction h generalizing column with
  | nil rest => simp [tokensOf]
  | @cons s text rest k segments h hs ih =>
    rw [List.mem_append, not_or] at hbreak
    have hspan := spanAfter_eq hbreak.1 h.ne_nil column
    have hlater : ∀ t ∈ tokensOf (column + s.length) segments, ∃ u v,
        s ++ text = u ++ (t.lexeme ++ v) ∧ t.lexeme ≠ [] ∧
        t.span = ⟨column + u.length + 1, column + u.length + t.lexeme.length⟩ := by
      intro t ht
      obtain ⟨u, v, htext, hne, ht⟩ := ih hbreak.2 (column + s.length) t ht
      refine ⟨s ++ u, v, by rw [htext, List.append_assoc], hne, ?_⟩
      rw [ht, List.length_append, Nat.add_assoc column]
    cases k with
    | none =>
      rw [tokensOf, hspan]
      exact hlater
    | some k =>
      rw [tokensOf, hspan, List.forall_mem_cons]
      exact ⟨⟨[], text, rfl, h.ne_nil, rfl⟩, hlater⟩

/-! ### Tokens -/

theorem map_sign_tokensOf (column : Nat) (segments : List (Text × Option TokenKind)) :
    (tokensOf column segments).map sign = segments.filterMap fun s => s.2.map (·, s.1) := by
  induction segments generalizing column with
  | nil => rfl
  | cons segment segments ih =>
    obtain ⟨s, k⟩ := segment
    cases k with
    | none => exact ih _
    | some k => simp [tokensOf, sign, ih]

/-- **Tokenizing is exact maximal munch.** If it succeeds, the text is the concatenation of segments
of which each is the longest match of the rules in the rest of the text, with the category of the
first rule that matches it; every segment with a category gives one token, in order, and the others
give none. It fails if and only if the segments come to a place where the rest is stuck. In a text
without line breaks, the bytes of a token are those from its first to its last column, counted from
one. -/
theorem tokenize_segments (text : Text) :
    (∀ ts, tokenize text = .ok ts → ∃ segments, Segments text segments [] ∧
      (segments.map (·.1)).flatten = text ∧
      ts.map sign = segments.filterMap fun s => s.2.map (·, s.1)) ∧
    ((∃ f, tokenize text = .error f) ↔
      ∃ segments rest, Segments text segments rest ∧ rest ≠ [] ∧ Stuck rules rest) ∧
    (10 ∉ text → ∀ ts, tokenize text = .ok ts → ∀ t ∈ ts,
      1 ≤ t.span.first ∧ t.span.first ≤ t.span.last ∧ t.span.last ≤ text.length ∧
      (text.drop (t.span.first - 1)).take (t.span.last + 1 - t.span.first) = t.lexeme) := by
  refine ⟨?_, tokenize_eq_error_iff, ?_⟩
  · intro ts h
    obtain ⟨segments, hseg, rfl⟩ := tokenize_eq_ok_iff.mp h
    refine ⟨segments, hseg, ?_, map_sign_tokensOf 0 segments⟩
    simpa using hseg.flatten
  · intro hbreak ts h t ht
    obtain ⟨segments, hseg, rfl⟩ := tokenize_eq_ok_iff.mp h
    obtain ⟨u, v, htext, hne, hspan⟩ := span_of_mem_tokensOf hseg hbreak 0 t ht
    have hpos := List.length_pos_iff.mpr hne
    rw [hspan, htext]
    simp only [Nat.zero_add, List.length_append, Nat.add_sub_cancel]
    refine ⟨by omega, by omega, by omega, ?_⟩
    have hlen : u.length + t.lexeme.length + 1 - (u.length + 1) = t.lexeme.length := by omega
    rw [hlen, List.drop_left, List.take_left]

/-- A name with digits, a number before a name, a semicolon as a character and in a string, and a
truth value before a name. -/
theorem tokenize_segments_overlaps :
    let text : Text := "'(-5a -1.5 1a #\\; \"a;b\" #true) ; end"
    let signs : List (TokenKind × Text) :=
      [(.quoteMark, "'"), (.leftParen, "("), (.identifier, "-5a"), (.double, "-1.5"),
        (.integer, "1"), (.identifier, "a"), (.char, "#\\;"), (.string, "\"a;b\""),
        (.boolean, "#t"), (.identifier, "rue"), (.rightParen, ")")]
    ∃ ts, tokenize text = .ok ts ∧ 10 ∉ text ∧ ts.map sign = signs ∧
      (∃ segments, Segments text segments [] ∧
        signs = segments.filterMap fun s => s.2.map (·, s.1)) ∧
      ∀ t ∈ ts,
        (text.drop (t.span.first - 1)).take (t.span.last + 1 - t.span.first) = t.lexeme := by
  intro text signs
  have hmap : (tokenize text).map (·.map sign) = .ok signs := by decide +kernel
  have hbreak : 10 ∉ text := by decide +kernel
  cases hts : tokenize text with
  | error f =>
    rw [hts] at hmap
    cases hmap
  | ok ts =>
    rw [hts, Except.map, Except.ok.injEq] at hmap
    obtain ⟨hok, -, hspan⟩ := tokenize_segments text
    obtain ⟨segments, hseg, -, hsign⟩ := hok ts hts
    refine ⟨ts, rfl, hbreak, hmap, ⟨segments, hseg, hmap ▸ hsign⟩, ?_⟩
    intro t ht
    exact (hspan hbreak ts hts t ht).2.2.2

end Token

end CountedLisp
