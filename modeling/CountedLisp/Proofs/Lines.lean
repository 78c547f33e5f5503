import CountedLisp.Proofs.Rereading
import CountedLisp.Proofs.Sessions
import CountedLisp.Proofs.Veils

/-!
# Lines that are joined

Whether expressions come on one line or on several makes no difference. After a text that can be cut
into tokens, a line break ends the last of them or a comment, and columns start anew. So the tokens
of two texts with a line break in between are those of the first text followed by those of the
second (`Token.tokenize_join`), and the data are read one after the other (`Datum.read_append`).
Only blanks at the end of the first text run together with the line break and with blanks that
follow it (`Token.exists_segments_gap`).

What is left of a difference between the two ways to enter expressions is in the logs, which tell
how many tokens there were, and nothing depends on them.
-/

namespace CountedLisp

/-! ### Tokens -/

namespace Token

variable {g r s t u text : Text} {k : Option TokenKind}

/-- No prefix that is spelled like a segment is longer than the longest one. -/
theorem Longest.length_le {k' : Option TokenKind} (h : Longest rules text s k) (hu : u <+: text)
    (hs : Spelled k' u) : u.length ≤ s.length := by
  obtain ⟨p, hp, hmem⟩ := spelled_iff.mp hs
  exact h.longest u hu ⟨(p, k'), hp, hmem⟩

theorem Longest.spelled (h : Longest rules text s k) : Spelled k s :=
  spelled_of_winner (longest_iff.mp h).2.2.1

/-- Something else follows blanks that are a segment. -/
theorem Longest.head?_of_gap (h : Longest rules (g ++ text) g k) (hg : ∀ b ∈ g, isGap b = true) :
    ∀ b ∈ text.head?, isGap b = false := by
  cases text with
  | nil => exact nofun
  | cons b text =>
    rintro c ⟨⟩
    refine Bool.eq_false_iff.mpr fun hb => ?_
    have hspelled : Spelled none (g ++ [b]) := by
      refine .gap (by simp) fun c hc => ?_
      rcases List.mem_append.mp hc with hc | hc
      · exact hg c hc
      · rw [List.mem_singleton.mp hc]
        exact hb
    have hfront : g ++ [b] <+: g ++ b :: text := ⟨text, by simp⟩
    have hle := h.length_le hfront hspelled
    rw [List.length_append, List.length_singleton] at hle
    omega

/-- A comment has no line break. -/
theorem Spelled.comment_of_head (h : Spelled k (Text.byte ';' :: s)) : 10 ∉ s := by
  obtain ⟨b, s', hs, hstart⟩ := h.starts
  obtain ⟨rfl, -⟩ := List.cons.inj hs
  generalize hu : Text.byte ';' :: s = u at h
  cases h with
  | comment hall =>
    obtain ⟨-, rfl⟩ := List.cons.inj hu
    exact fun hmem => hall 10 hmem rfl
  | gap _ hall => exact absurd (hall (Text.byte ';') (by simp [← hu])) (by decide)
  | _ => exact absurd rfl (starts_token hstart).1

/-- A segment is not continued across a line break, unless it consists of blanks and there is
nothing between it and the line break. -/
theorem Longest.not_spelled {k' : Option TokenKind} (h : Longest rules (u ++ r) u k)
    (hgap : r = [] → ∃ b ∈ u, isGap b = false) (t : Text) : ¬ Spelled k' (u ++ (r ++ 10 :: t)) := by
  have hu := h.spelled
  cases k with
  | some k => exact hu.not_longer (by simp) fun _ => ⟨10, by simp, by decide⟩
  | none =>
    intro hv
    cases hu with
    | comment _ => exact hv.comment_of_head (by simp)
    | gap hne hall =>
      -- what follows the blanks is not blank, and would have to be
      obtain ⟨b, u, rfl⟩ := List.exists_cons_of_ne_nil hne
      obtain ⟨-, hblank⟩ := hv.gap_of_head (hall b (List.mem_cons_self ..))
      cases r with
      | nil =>
        obtain ⟨c, hc, hc'⟩ := hgap rfl
        rw [hall c hc] at hc'
        cases hc'
      | cons c r =>
        have hc := hblank c (by simp)
        rw [h.head?_of_gap hall c rfl] at hc
        cases hc

/-- **A segment stays what it is** when a line break and something else come after the text. -/
theorem Longest.join (h : Longest rules (u ++ r) u k)
    (hgap : r = [] → ∃ b ∈ u, isGap b = false) (t : Text) :
    Longest rules (u ++ (r ++ 10 :: t)) u k := by
  obtain ⟨hne, -, hwin, -⟩ := longest_iff.mp h
  refine longest_iff.mpr ⟨hne, List.prefix_append u _, hwin, fun v hv hlt => ?_⟩
  refine Option.eq_none_iff_forall_ne_some.mpr fun k' hk' => ?_
  have hspelled := spelled_of_winner hk'
  rw [← List.append_assoc] at hv
  by_cases hle : v.length ≤ (u ++ r).length
  · have hfront : v <+: u ++ r := List.prefix_of_prefix_length_le hv (List.prefix_append _ _) hle
    exact absurd (h.length_le hfront hspelled) (Nat.not_le_of_lt hlt)
  · obtain ⟨d, v', rfl, hd⟩ := longer_eq hv (Nat.lt_of_not_le hle)
    obtain rfl := Option.some.inj hd
    rw [List.append_assoc] at hspelled
    exact h.not_spelled hgap v' hspelled

variable {segments later : List (Text × Option TokenKind)}

/-- Blanks in front of a text run together with those that it starts with. -/
theorem exists_segments_gap (hne : g ≠ []) (hg : ∀ b ∈ g, isGap b = true)
    (h : Segments t segments []) :
    ∃ all, Segments (g ++ t) all [] ∧
      ∀ column, tokensOf column all = tokensOf (g.foldl nextColumn column) segments := by
  generalize hr : ([] : Text) = rest at h
  cases h with
  | nil rest =>
    subst hr
    exact ⟨[(g, none)], .cons (longest_gap hne hg nofun) (.nil []), fun _ => rfl⟩
  | @cons u text rest k segments hu hs =>
    subst hr
    obtain ⟨b, u, rfl⟩ := List.exists_cons_of_ne_nil hu.ne_nil
    by_cases hb : isGap b = true
    · -- the first segment is a gap, and there is one longer gap
      obtain ⟨rfl, hblank⟩ := hu.spelled.gap_of_head hb
      refine ⟨(g ++ b :: u, none) :: segments, ?_, fun column => ?_⟩
      · rw [← List.append_assoc]
        refine .cons (longest_gap (by simp) (fun c hc => ?_) (hu.head?_of_gap hblank)) hs
        rcases List.mem_append.mp hc with hc | hc
        · exact hg c hc
        · exact hblank c hc
      · simp only [tokensOf, spanAfter, List.foldl_append]
    · refine ⟨(g, none) :: (b :: u, k) :: segments, .cons (longest_gap hne hg ?_) (.cons hu hs),
        fun _ => rfl⟩
      rintro c ⟨⟩
      exact Bool.eq_false_iff.mpr hb

/-- There is nothing to cut off the empty text. -/
theorem Segments.eq_nil (h : Segments [] segments text) : segments = [] := by
  generalize hempty : ([] : Text) = empty at h
  cases h with
  | nil rest => rfl
  | cons h _ => exact absurd (List.append_eq_nil_iff.mp hempty.symm).1 h.ne_nil

/-- The segments of two texts with a line break in between. After it, columns start anew. -/
theorem Segments.join (h : Segments s segments []) (hlater : Segments t later []) :
    ∃ all, Segments (s ++ 10 :: t) all [] ∧
      ∀ column, tokensOf column all = tokensOf column segments ++ tokensOf 0 later := by
  generalize hr : ([] : Text) = rest at h
  induction h with
  | nil rest =>
    subst hr
    have hbreak : ∀ b ∈ ([10] : Text), isGap b = true := List.forall_mem_singleton.mpr (by decide)
    exact exists_segments_gap (List.cons_ne_nil 10 []) hbreak hlater
  | @cons u text rest k segments hu hs ih =>
    by_cases hgap : text = [] → ∃ b ∈ u, isGap b = false
    · obtain ⟨all, hall, htokens⟩ := ih hr
      refine ⟨(u, k) :: all, ?_, fun column => ?_⟩
      · rw [List.append_assoc]
        exact .cons (hu.join hgap t) hall
      · cases k with
        | none => exact htokens _
        | some k => simp only [tokensOf, htokens, List.cons_append]
    · -- blanks at the end of the first text
      obtain ⟨rfl, hblank⟩ : text = [] ∧ ∀ b ∈ u, isGap b = true := by simpa using hgap
      subst hr
      obtain rfl := hs.eq_nil
      obtain ⟨all, hall, htokens⟩ := exists_segments_gap (g := u ++ [10]) (by simp)
        (List.forall_mem_append.mpr ⟨hblank, List.forall_mem_singleton.mpr (by decide)⟩) hlater
      have hnone : k = none := by
        obtain ⟨b, u, rfl⟩ := List.exists_cons_of_ne_nil hu.ne_nil
        exact (hu.spelled.gap_of_head (hblank b (List.mem_cons_self ..))).1
      subst hnone
      refine ⟨all, by simpa using hall, fun column => ?_⟩
      rw [htokens, List.foldl_append]
      rfl

/-- **The tokens of joined lines** are those of the lines, with the same columns. -/
theorem tokenize_join {ts us : List Token} (hs : tokenize s = .ok ts) (ht : tokenize t = .ok us) :
    tokenize (s ++ 10 :: t) = .ok (ts ++ us) := by
  obtain ⟨segments, hsegments, rfl⟩ := tokenize_eq_ok_iff.mp hs
  obtain ⟨later, hlater, rfl⟩ := tokenize_eq_ok_iff.mp ht
  obtain ⟨all, hall, htokens⟩ := hsegments.join hlater
  exact tokenize_eq_ok_iff.mpr ⟨all, hall, (htokens 0).symm⟩

end Token

/-! ### Data -/

namespace Derivation

theorem tokensAll_append (es es' : List Derivation) :
    tokensAll (es ++ es') = tokensAll es ++ tokensAll es' := by
  induction es with
  | nil => rfl
  | cons e es ih => rw [List.cons_append, tokensAll, tokensAll, ih, List.append_assoc]

theorem dataAll_append (es es' : List Derivation) :
    dataAll (es ++ es') = dataAll es ++ dataAll es' := by
  induction es with
  | nil => rfl
  | cons e es ih => rw [List.cons_append, dataAll, dataAll, ih, List.cons_append]

end Derivation

/-- The data of tokens that are read one after the other. -/
theorem Datum.read_append {ts us : List Token} {ds es : List Datum} (hds : read ts = .ok ds)
    (hes : read us = .ok es) : read (ts ++ us) = .ok (ds ++ es) := by
  obtain ⟨ps, rfl, rfl⟩ := exists_derivation ts hds
  obtain ⟨qs, rfl, rfl⟩ := exists_derivation us hes
  rw [← Derivation.tokensAll_append, ← Derivation.dataAll_append, read_tokensAll]

/-- The data of joined lines. -/
theorem Datum.read_join {s t : Text} {ds es : List Datum}
    (hds : (Token.tokenize s).bind read = .ok ds) (hes : (Token.tokenize t).bind read = .ok es) :
    (Token.tokenize (s ++ 10 :: t)).bind read = .ok (ds ++ es) := by
  cases hs : Token.tokenize s with
  | error f =>
    rw [hs] at hds
    cases hds
  | ok ts =>
    cases ht : Token.tokenize t with
    | error f =>
      rw [ht] at hes
      cases hes
    | ok us =>
      rw [hs] at hds
      rw [ht] at hes
      rw [Token.tokenize_join hs ht]
      exact read_append hds hes

/-! ### Sessions -/

namespace Session

open Run

variable {engine : Engine} {ws : Workspace} {w : World} {s t text : Text} {ds es : List Datum}

/-- Reading a text in a session gives its data or fails, and leaves a trace in the logs only. -/
theorem unlogged_read (text : Text) (w : World) :
    unlogged (read text w) =
      unlogged (Run.ofExcept ((Token.tokenize text).bind Datum.read) w) := by
  have hread : read text = (do
      let ts ← Run.ofExcept (Token.tokenize text)
      trace .debug (Text.ofNat ts.length ++ " tokens")
      Run.ofExcept (Datum.read ts)) := by
    simp only [read, tokenize, bind_assoc, pure_bind]
  rw [hread]
  cases Token.tokenize text with
  | error f => rfl
  | ok ts =>
    show unlogged (Run.ofExcept (Datum.read ts) (w.record _)) =
      unlogged (Run.ofExcept (Datum.read ts) w)
    cases Datum.read ts <;> rfl

theorem evalAll_append (ds es : List Datum) :
    evalAll engine ws (ds ++ es) = evalAll engine ws ds >>= fun _ => evalAll engine ws es := by
  induction ds with
  | nil => rfl
  | cons d ds ih => simp only [List.cons_append, evalAll_cons, ih, bind_assoc]

/-- Failures can be reported where they come about. -/
theorem reporting_bind {α β : Type} (act : Run α) (k : α → Run β) :
    reporting (act >>= k) = reporting act >>= fun a => reporting (k a) := by
  funext w
  simp only [reporting, bind, EStateM.bind]
  cases act w with
  | ok a w' => rfl
  | error e w' => cases e <;> rfl

theorem unlogged_reporting {α : Type} {act act' : Run α} {w u : World}
    (h : unlogged (act w) = unlogged (act' u)) :
    unlogged (reporting act w) = unlogged (reporting act' u) := by
  obtain ⟨a, w', u', hw, hu, hlog⟩ | ⟨e, w', u', hw, hu, hlog⟩ := unlogged_cases h
  · simp only [reporting, hw, hu, unlogged, hlog]
  · simp only [reporting, hw, hu]
    cases e with
    | failure f =>
      exact congrArg (fun v : World => EStateM.Result.error (Halt.failure f) (v.print _)) hlog
    | breach m => simp only [unlogged, hlog]
    | fault => simp only [unlogged, hlog]
    | exhausted => simp only [unlogged, hlog]

/-- A line whose data are known does the same as evaluating them. -/
theorem unlogged_line (he : engine.Ignores .logs) (ht : text.head? ≠ some (Text.byte ':'))
    (hread : (Token.tokenize text).bind Datum.read = .ok ds) {w u : World}
    (hlog : w.unlogged = u.unlogged) :
    unlogged (line engine ws text w) =
      unlogged (reporting (evalAll engine ws ds >>= fun _ => pure (false, ws)) u) := by
  have hrest (ds : List Datum) :
      (evalAll engine ws ds >>= fun _ => pure (false, ws) : Run (Bool × Workspace)).Ignores .logs :=
    ((built_evalAll ws ds).ignores he).bind fun _ => .pure _
  have hstart : unlogged (read text w) = unlogged ((pure ds : Run (List Datum)) u) := by
    rw [unlogged_read, hread]
    exact congrArg (EStateM.Result.ok ds) hlog
  rw [line_eq ht, ← pure_bind ds fun ds => evalAll engine ws ds >>= fun _ => pure (false, ws)]
  exact unlogged_reporting (unlogged_bind hstart fun ds _ _ hlog => (hrest ds).unlogged hlog)

/-- A line that cannot be read fails, and that is all. -/
theorem unlogged_line_error {f : Failure} (ht : text.head? ≠ some (Text.byte ':'))
    (hread : (Token.tokenize text).bind Datum.read = .error f) :
    unlogged (line engine ws text w) =
      .error (.failure f) (w.unlogged.print (Notice.render .error f.text)) := by
  have hstart : unlogged (read text w) = unlogged ((Run.fail f : Run (List Datum)) w) := by
    rw [unlogged_read, hread]
    rfl
  rw [line_eq ht, reporting_bind]
  obtain ⟨ds, w', u', -, hu, -⟩ | ⟨e, w', u', hw, hu, hlog⟩ := unlogged_cases hstart
  · cases hu
  · cases hu
    have herror : reporting (read text) w =
        .error (.failure f) (w'.print (Notice.render .error f.text)) := by
      simp only [reporting, hw]
    rw [bind_error herror]
    exact congrArg (fun v : World => EStateM.Result.error (Halt.failure f) (v.print _)) hlog

/-- **Where a line ends makes no difference.** Let two texts be no commands. If both can be read,
then so can they with a line break in between, the data of the one followed by those of the other;
and, logs aside, this line does what the two lines do one after the other, the second one only if
the first does not fail. If a text cannot be read, nothing of it is evaluated: the failure is
printed, and nothing else in the world is changed. -/
theorem line_join (hs : s.head? ≠ some (Text.byte ':')) :
    (∀ t ds es, t.head? ≠ some (Text.byte ':') →
      (Token.tokenize s).bind Datum.read = .ok ds → (Token.tokenize t).bind Datum.read = .ok es →
      (Token.tokenize (s ++ 10 :: t)).bind Datum.read = .ok (ds ++ es) ∧
      ∀ n ws w, unlogged (line (.ofDepth n) ws (s ++ 10 :: t) w) =
        unlogged ((line (.ofDepth n) ws s >>= fun p => line (.ofDepth n) p.2 t) w)) ∧
    ∀ f, (Token.tokenize s).bind Datum.read = .error f → ∀ engine ws w,
      unlogged (line engine ws s w) =
        .error (.failure f) (w.unlogged.print (Notice.render .error f.text)) := by
  refine ⟨fun t ds es ht hds hes => ?_, fun f hf engine ws w => unlogged_line_error hs hf⟩
  have hall := Datum.read_join hds hes
  refine ⟨hall, fun n ws w => ?_⟩
  have he := Engine.ignoresLogs_ofDepth n
  have hjoin : (s ++ 10 :: t).head? ≠ some (Text.byte ':') := by
    cases s with
    | nil => simp [Text.byte]
    | cons b s => exact hs
  calc unlogged (line (.ofDepth n) ws (s ++ 10 :: t) w)
      = unlogged (reporting (evalAll (.ofDepth n) ws (ds ++ es) >>= fun _ => pure (false, ws)) w) :=
        unlogged_line he hjoin hall rfl
    _ = unlogged ((reporting (evalAll (.ofDepth n) ws ds >>= fun _ => pure (false, ws)) >>= fun p =>
          reporting (evalAll (.ofDepth n) p.2 es >>= fun _ => pure (false, p.2))) w) := by
        rw [← reporting_bind, evalAll_append]
        simp only [bind_assoc, pure_bind]
    _ = unlogged ((line (.ofDepth n) ws s >>= fun p => line (.ofDepth n) p.2 t) w) := by
        symm
        refine unlogged_bind (unlogged_line he hs hds rfl) fun p w' u' hlog => ?_
        exact unlogged_line he ht hes hlog

/-- A comment at the end of a line, and a failure in the middle of the next. -/
theorem line_join_comment :
    let s : Text := "(define a '(1 2)) ; a list"
    let t : Text := "\t(display a) (car 3) (display \"never\")"
    let bad : Text := "(display 1) (display"
    (∃ ds es, (Token.tokenize s).bind Datum.read = .ok ds ∧
      (Token.tokenize t).bind Datum.read = .ok es ∧ ds.length = 1 ∧ es.length = 3 ∧
      (Token.tokenize (s ++ 10 :: t)).bind Datum.read = .ok (ds ++ es) ∧
      ∀ ws w, unlogged (line (.ofDepth Engine.depth) ws (s ++ 10 :: t) w) =
        unlogged ((line (.ofDepth Engine.depth) ws s >>= fun p =>
          line (.ofDepth Engine.depth) p.2 t) w)) ∧
    ∃ f, (Token.tokenize bad).bind Datum.read = .error f ∧
      ∀ ws w, unlogged (line (.ofDepth Engine.depth) ws bad w) =
        .error (.failure f) (w.unlogged.print (Notice.render .error f.text)) := by
  intro s t bad
  have hlength {x : Except Failure (List Datum)} {n : Nat} (h : x.map List.length = .ok n) :
      ∃ ds, x = .ok ds ∧ ds.length = n := by
    cases x with
    | error f => cases h
    | ok ds => exact ⟨ds, rfl, Except.ok.inj h⟩
  have hfails {x : Except Failure (List Datum)} (h : x.isOk = false) : ∃ f, x = .error f := by
    cases x with
    | error f => exact ⟨f, rfl⟩
    | ok ds => cases h
  obtain ⟨ds, hds, hone⟩ : ∃ ds, (Token.tokenize s).bind Datum.read = .ok ds ∧ ds.length = 1 :=
    hlength (by decide +kernel)
  obtain ⟨es, hes, hthree⟩ : ∃ es, (Token.tokenize t).bind Datum.read = .ok es ∧ es.length = 3 :=
    hlength (by decide +kernel)
  obtain ⟨f, hf⟩ : ∃ f, (Token.tokenize bad).bind Datum.read = .error f :=
    hfails (by decide +kernel)
  obtain ⟨hread, heffect⟩ := (line_join (s := s) (by decide)).1 t ds es (by decide) hds hes
  exact ⟨⟨ds, es, hds, hes, hone, hthree, hread, heffect _⟩,
    f, hf, (line_join (s := bad) (by decide)).2 f hf _⟩

end Session

end CountedLisp
