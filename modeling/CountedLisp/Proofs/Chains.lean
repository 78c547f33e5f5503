import CountedLisp.Failure
import Mathlib.Logic.Function.Iterate

/-!
# Kinds of failures along their chains

There are two ways to ask for the kind of a failure. `Failure.kind` stops at the first report on its
way inwards, and `Failure.is` goes on until a report has the kind that it is asked for. Both are
compared with the list of reports of a chain (`Failure.reports`): the first one is the kind of the
head of this list (`kind_eq`), the second one tells whether some report of it has the kind
(`is_ofKind_iff`).

So what the first way answers is also an answer of the second one. They differ where a report wraps
one of another kind that can be asked for, and not elsewhere (`agrees_iff`).
-/

namespace CountedLisp

namespace Failure

/-- The reports of a chain, from the outside inwards. -/
def reports (f : Failure) : List Report :=
  f.chain.filterMap report?

/-- What is taken for the target itself is made like it. -/
def Identifies (same : Failure → Bool) (target : Failure) : Prop :=
  ∀ e, same e = true → e = target

theorem mem_reports {f : Failure} {r : Report} :
    r ∈ f.reports ↔ ∃ e ∈ f.chain, e.report? = some r :=
  List.mem_filterMap

/-! ### The two ways inwards -/

/-- The first report on the way inwards is the head of the list. -/
theorem kind_eq (f : Failure) : f.kind = (f.reports.head?.map (·.kind)).getD .noError := by
  induction f with
  | plain t => rfl
  | report r => rfl
  | wrap label cause ih =>
    show cause.kind = _
    rw [ih]
    rfl
  | caused r cause _ => rfl

/-- Going inwards finds an error that is the target or answers to it, if there is one. -/
theorem is_iff (same : Failure → Bool) (f target : Failure) :
    f.is same target = true ↔ ∃ e ∈ f.chain, same e = true ∨ e.answersTo target = true := by
  induction f with
  | plain t => simp [Failure.is, chain]
  | report r => simp [Failure.is, chain]
  | wrap label cause ih | caused r cause ih =>
    rw [Failure.is, Bool.or_eq_true, Bool.or_eq_true, ih]
    simp [chain]

/-- A report answers to all that name nothing but its kind, whatever they wrap. -/
theorem answersTo_iff {e target : Failure} :
    e.answersTo target = true ↔ ∃ r t, e.report? = some r ∧ target.report? = some t ∧
      t.isBare = true ∧ r.kind = t.kind := by
  unfold answersTo
  cases e.report? with
  | none => simp
  | some r =>
    cases target.report? with
    | none => simp
    | some t => simp

theorem isBare_iff {t : Report} :
    t.isBare = true ↔ t.op = [] ∧ t.expected = [] ∧ t.actual = [] := by
  simp [Report.isBare, and_assoc]

/-- A failure counts as a target that is in its chain, or that names nothing but the kind of one of
its reports. -/
theorem is_iff_mem_or_kind (same : Failure → Bool) (f target : Failure) :
    f.is same target = true ↔ (∃ e ∈ f.chain, same e = true) ∨
      ∃ t, target.report? = some t ∧ (t.op = [] ∧ t.expected = [] ∧ t.actual = []) ∧
        ∃ r ∈ f.reports, r.kind = t.kind := by
  simp only [is_iff, answersTo_iff, isBare_iff, mem_reports]
  constructor
  · rintro ⟨e, he, hsame | ⟨r, t, hr, ht, hbare, hk⟩⟩
    · exact .inl ⟨e, he, hsame⟩
    · exact .inr ⟨t, ht, hbare, r, ⟨e, he, hr⟩, hk⟩
  · rintro (⟨e, he, hsame⟩ | ⟨t, ht, hbare, r, ⟨e, he, hr⟩, hk⟩)
    · exact ⟨e, he, .inl hsame⟩
    · exact ⟨e, he, .inr ⟨r, t, hr, ht, hbare, hk⟩⟩

/-- A failure counts as one of a kind if and only if some report of its chain has this kind. -/
theorem is_ofKind_iff {same : Failure → Bool} {k : ErrorKind} (hsame : Identifies same (ofKind k))
    (f : Failure) : f.is same (ofKind k) = true ↔ ∃ r ∈ f.reports, r.kind = k := by
  rw [is_iff_mem_or_kind]
  constructor
  · rintro (⟨e, he, hs⟩ | ⟨t, ht, -, hr⟩)
    · obtain rfl := hsame e hs
      exact ⟨_, mem_reports.2 ⟨_, he, rfl⟩, rfl⟩
    · obtain rfl := Option.some.inj ht
      exact hr
  · intro hr
    exact .inr ⟨_, rfl, ⟨rfl, rfl, rfl⟩, hr⟩

/-! ### Where they agree -/

/-- For every kind that a failure can be asked for, both ways give the same answer. -/
def Agrees (f : Failure) : Prop :=
  ∀ same, ∀ k ∈ ErrorKind.listed, Identifies same (ofKind k) →
    (f.is same (ofKind k) = true ↔ f.kind = k)

theorem noError_not_mem_listed : ErrorKind.noError ∉ ErrorKind.listed := by
  decide

/-- The outermost report of a failure that has a kind. -/
theorem exists_report_of_kind {f : Failure} (hk : f.kind ∈ ErrorKind.listed) :
    ∃ r ∈ f.reports, r.kind = f.kind := by
  rw [kind_eq] at hk ⊢
  cases h : f.reports with
  | nil =>
    rw [h] at hk
    exact absurd hk noError_not_mem_listed
  | cons r rest => exact ⟨r, List.mem_cons_self, rfl⟩

/-- The two ways agree unless there is a report of another kind that can be asked for. -/
theorem agrees_iff {f : Failure} :
    f.Agrees ↔ ∀ r ∈ f.reports, r.kind ∈ ErrorKind.listed → r.kind = f.kind := by
  constructor
  · intro h r hr hk
    have hno : Identifies (fun _ => false) (ofKind r.kind) := fun _ hs => by cases hs
    exact ((h _ r.kind hk hno).1 ((is_ofKind_iff hno f).2 ⟨r, hr, rfl⟩)).symm
  · intro h same k hk hsame
    rw [is_ofKind_iff hsame]
    constructor
    · rintro ⟨r, hr, rfl⟩
      exact (h r hr hk).symm
    · rintro rfl
      exact exists_report_of_kind hk

theorem agrees_of_length_le_one {f : Failure} (h : f.reports.length ≤ 1) : f.Agrees := by
  rw [agrees_iff, kind_eq]
  intro r hr _
  obtain ⟨r', hr'⟩ := List.length_eq_one_iff.1 (Nat.le_antisymm h (List.length_pos_of_mem hr))
  rw [hr'] at hr ⊢
  rw [List.mem_singleton.1 hr]
  rfl

theorem reports_iterate_caused (r : Report) (n : Nat) (f : Failure) :
    ((caused r)^[n] f).reports = List.replicate n r ++ f.reports := by
  induction n with
  | zero => rfl
  | succ n ih =>
    rw [Function.iterate_succ_apply', List.replicate_succ, List.cons_append, ← ih]
    rfl

/-- Reports of one kind, as many as there may be, do not make a difference. -/
theorem exists_agrees (n : Nat) : ∃ f : Failure, f.reports.length = n + 2 ∧ f.Agrees := by
  let wrapped := (caused { kind := .typeMismatch })^[n + 1] (ofKind .typeMismatch)
  have hwrapped : wrapped.reports =
      List.replicate (n + 1) { kind := .typeMismatch } ++ [{ kind := .typeMismatch }] :=
    reports_iterate_caused _ (n + 1) (ofKind .typeMismatch)
  refine ⟨wrapped, ?_, ?_⟩
  · rw [hwrapped]
    simp
  · rw [agrees_iff, kind_eq, hwrapped]
    intro r hr _
    have hr' : r = { kind := .typeMismatch } := by simpa using hr
    rw [hr', List.replicate_succ]
    rfl

/-- From two reports on, there is a chain on which the two ways differ: the outermost report is of
another kind than those that it wraps. -/
theorem exists_not_agrees (n : Nat) : ∃ f : Failure, f.reports.length = n + 2 ∧ ¬f.Agrees := by
  let wrapped := (caused { kind := .typeMismatch })^[n] (ofKind .typeMismatch)
  have hwrapped : wrapped.reports = List.replicate n { kind := .typeMismatch } ++ [_] :=
    reports_iterate_caused _ n (ofKind .typeMismatch)
  have hreports : (caused { kind := .unboundVariable } wrapped).reports = _ :: wrapped.reports :=
    rfl
  refine ⟨.caused { kind := .unboundVariable } wrapped, ?_, ?_⟩
  · rw [hreports, hwrapped]
    simp
  · intro hagrees
    have hinner : ({ kind := .typeMismatch } : Report) ∈
        (caused { kind := .unboundVariable } wrapped).reports := by
      rw [hreports, hwrapped]
      simp
    have hkind := agrees_iff.1 hagrees _ hinner (by decide)
    cases hkind

/-- **Asking for the kind of a failure is coherent**, on every chain of errors.

A failure counts as one of a kind that can be asked for if and only if some report of its chain has
this kind. Its own kind is that of the outermost report, and it counts as one of this kind. The two
agree unless the chain has a report of another kind that can be asked for. So they agree on all
chains with at most one report; for any greater number of reports, they agree on some chains and
differ on others.

For any target, a failure counts as the target if and only if the target itself is in the chain, or
the target is a report that names nothing but a kind, whatever it wraps, and some report of the
chain has this kind. -/
theorem kinds_coherent :
    (∀ (f : Failure) (same : Failure → Bool), ∀ k ∈ ErrorKind.listed, Identifies same (ofKind k) →
      (f.is same (ofKind k) = true ↔ ∃ r ∈ f.reports, r.kind = k)) ∧
    (∀ f : Failure, (f.reports = [] → f.kind = .noError) ∧
      ∀ r inner, f.reports = r :: inner → f.kind = r.kind) ∧
    (∀ (f : Failure) (same : Failure → Bool), ∀ k ∈ ErrorKind.listed, Identifies same (ofKind k) →
      f.kind = k → f.is same (ofKind k) = true) ∧
    (∀ f : Failure, f.Agrees ↔ ∀ r ∈ f.reports, r.kind ∈ ErrorKind.listed → r.kind = f.kind) ∧
    (∀ f : Failure, f.reports.length ≤ 1 → f.Agrees) ∧
    (∀ n, (∃ f : Failure, f.reports.length = n + 2 ∧ f.Agrees) ∧
      ∃ f : Failure, f.reports.length = n + 2 ∧ ¬f.Agrees) ∧
    ∀ (f target : Failure) (same : Failure → Bool),
      f.is same target = true ↔ (∃ e ∈ f.chain, same e = true) ∨
        ∃ t, target.report? = some t ∧ (t.op = [] ∧ t.expected = [] ∧ t.actual = []) ∧
          ∃ r ∈ f.reports, r.kind = t.kind := by
  refine ⟨?_, ?_, ?_, ?_, ?_, ?_, ?_⟩
  · intro f same k _ hsame
    exact is_ofKind_iff hsame f
  · intro f
    rw [kind_eq]
    constructor
    · intro h
      rw [h]
      rfl
    · intro r inner h
      rw [h]
      rfl
  · rintro f same k hk hsame rfl
    rw [is_ofKind_iff hsame]
    exact exists_report_of_kind hk
  · intro f
    exact agrees_iff
  · intro f
    exact agrees_of_length_le_one
  · intro n
    exact ⟨exists_agrees n, exists_not_agrees n⟩
  · intro f target same
    exact is_iff_mem_or_kind same f target

/-- A label before a report that wraps another one. -/
def nested : Failure :=
  .wrap "load" (.caused { kind := .unboundVariable, op := "lookup" } (ofKind .typeMismatch))

theorem kinds_coherent_nested : nested.kind = .unboundVariable ∧
    nested.is (fun _ => false) (ofKind .unboundVariable) = true ∧
    nested.is (fun e => decide (e = ofKind .typeMismatch)) (ofKind .typeMismatch) = true ∧
    nested.is (fun _ => false) (ofKind .arityMismatch) = false ∧ ¬nested.Agrees := by
  obtain ⟨hkinds, houtermost, hown, hagrees, -, -, -⟩ := kinds_coherent
  have hnone : ∀ k, Identifies (fun _ => false) (ofKind k) := fun _ _ h => by cases h
  have hself : Identifies (fun e => decide (e = ofKind .typeMismatch)) (ofKind .typeMismatch) :=
    fun _ => of_decide_eq_true
  have hkind : nested.kind = .unboundVariable := (houtermost nested).2 _ _ rfl
  refine ⟨hkind, hown nested _ _ (by decide) (hnone _) hkind, ?_, ?_, ?_⟩
  · exact (hkinds nested _ _ (by decide) hself).2
      ⟨_, List.mem_cons_of_mem _ List.mem_cons_self, rfl⟩
  · rw [← Bool.not_eq_true, hkinds nested _ _ (by decide) (hnone _)]
    decide
  · rw [hagrees]
    decide

/-- A report that wraps another one of the same kind. -/
def repeated : Failure :=
  .caused { kind := .typeMismatch, op := "a" } (.report { kind := .typeMismatch, op := "b" })

/-- The two ways agree on a chain with more than one report. -/
theorem agrees_repeated : repeated.reports.length = 2 ∧ repeated.Agrees := by
  rw [agrees_iff]
  decide

end Failure

end CountedLisp
