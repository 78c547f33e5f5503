import CountedLisp.Proofs.Neatness

/-!
# Diagnostics on one line

The message of a report is meant to fit on one line. This module tells when it does.

Code whose tokens are neat runs neatly, whatever the depth of its calls (`Engine.neat_ofDepth`), and
so does a session as long as its lines have neat tokens (`Session.neat_after`). This leaves two ways
for a line feed to get into a message (`Session.line_breaks`): it is a character of the program, or
it is in a string or a configured value and the report is one about an operand that is no name or
about a foreign function. Both ways are taken (`Session.line_breaks_shown`).
-/

namespace CountedLisp

open Run Text

variable {raw : Prop} {engine : Engine}

/-! ### Tokens -/

namespace Token

variable {t : Token}

theorem Neat.not_breaks (ht : t.Neat raw) (hkind : t.kind ≠ .string) : ¬t.lexeme.Breaks :=
  fun h => hkind (ht h).1

theorem Neat.raw_of_breaks (ht : t.Neat raw) (h : t.lexeme.Breaks) : raw :=
  (ht h).2

/-- What a neat token denotes is neat. -/
theorem neat_of_literal (ht : t.Neat raw) {c : Constant} (h : t.literal = .ok c) : c.Neat raw := by
  unfold literal at h
  split at h
  · cases hv : integer? t.lexeme with
    | ok v => rw [hv] at h; cases h; trivial
    | error f => rw [hv] at h; cases h
  · cases hv : double? t.lexeme with
    | ok v => rw [hv] at h; cases h; trivial
    | error f => rw [hv] at h; cases h
  · -- what stands between the quotes
    obtain ⟨s, hs, rfl⟩ := Option.map_eq_some_iff.1 (orFault_ok h)
    unfold between at hs
    split_ifs at hs
    cases hs
    intro hbreaks
    exact ht.raw_of_breaks (List.mem_of_mem_drop (List.mem_of_mem_dropLast hbreaks))
  · next hkind =>
    obtain ⟨b, hb, rfl⟩ := Option.map_eq_some_iff.1 (orFault_ok h)
    rintro rfl
    have hbreaks : t.lexeme.Breaks := List.mem_of_getElem? hb
    exact ht.not_breaks (by rw [hkind]; decide) hbreaks
  · cases h
    trivial
  all_goals cases h

/-- The constant of a neat token is neat, and the failures of numerals are no reports. -/
theorem neat_evaluate (ht : t.Neat raw) : t.evaluate.Neat raw := by
  refine Gives.bind (.ofResult (fun c => neat_of_literal ht) fun e he f hf => ?_) fun c hc =>
    Object.neat_constant hc
  obtain rfl | ⟨x, rfl⟩ := literal_error he
  · cases hf
  · cases hf
    exact Failure.neat_plain x

end Token

/-! ### Quoted data -/

namespace Quotation

mutual
/-- A quoted datum is neat if its tokens are. Names become strings. -/
theorem neat_build (d : Datum) (hd : ∀ t ∈ d.atoms, t.Neat raw) : (build d).Neat raw := by
  match d with
  | .atom t =>
    have ht : t.Neat raw := hd t List.mem_cons_self
    unfold build
    split_ifs
    · exact Object.neat_constant ht.raw_of_breaks
    · exact Token.neat_evaluate ht
  | .list items =>
    unfold build
    exact (neat_buildAll [] items hd).andThen fun _ =>
      (Pair.neat_makeList _).ensuring fun _ hw => hw.drop _
termination_by structural d

theorem neat_buildAll (made : List Ref) (ds : List Datum)
    (hds : ∀ t ∈ Datum.atomsAll ds, t.Neat raw) : (buildAll made ds).Neat raw := by
  match ds with
  | [] =>
    unfold buildAll
    exact .pure trivial
  | d :: ds =>
    obtain ⟨hd, hds⟩ := List.forall_mem_append.1 hds
    unfold buildAll
    exact ((neat_build d hd).onHalt fun _ hw => hw.drop _).andThen fun _ => neat_buildAll _ ds hds
termination_by structural ds
end

end Quotation

/-! ### Forms -/

theorem Datum.mem_atomsAll {d : Datum} {ds : List Datum} (hd : d ∈ ds) {t : Token}
    (ht : t ∈ d.atoms) : t ∈ atomsAll ds := by
  induction ds with
  | nil => cases hd
  | cons d' ds ih =>
    rw [atomsAll, List.mem_append]
    rcases List.mem_cons.1 hd with rfl | hd
    · exact .inl ht
    · exact .inr (ih hd)

namespace Form

theorem not_breaks_name (f : Form) : ¬f.name.Breaks := by
  cases f <;> decide

theorem not_breaks_operands (n : Nat) : ¬(operands n).Breaks :=
  not_breaks_append (not_breaks_ofNat n) (by decide)

theorem neat_wrongCount (f : Form) {expected : Text} (hexpected : ¬expected.Breaks)
    (given : List Datum) : (f.wrongCount expected given).Neat raw :=
  Failure.neat_of f.not_breaks_name hexpected (not_breaks_operands _)

/-- The failure of an operand that is no name quotes the operand. -/
theorem neat_notIdentifier (f : Form) {d : Datum} (hd : ∀ t ∈ d.atoms, t.Neat raw) :
    (Failure.of .typeMismatch f.name "identifier" d.text).Neat raw := by
  refine Failure.neat_of_quotes (.inl rfl) (fun h => absurd h f.not_breaks_name) (fun h => ?_)
    fun h => ?_
  · exact absurd (show Breaks (Text.ofString "identifier") from h) (by decide)
  · obtain ⟨t, ht, hbreaks⟩ := Datum.exists_of_breaks_text d h
    exact (hd t ht).raw_of_breaks hbreaks

theorem not_breaks_of_identifier? {d : Datum} (hd : ∀ t ∈ d.atoms, t.Neat raw) {name : Text}
    (h : d.identifier? = some name) : ¬name.Breaks := by
  cases d with
  | list items => cases h
  | atom t =>
    rw [Datum.identifier?, Option.ite_none_right_eq_some, Option.some.injEq] at h
    obtain ⟨hkind, rfl⟩ := h
    exact (hd t List.mem_cons_self).not_breaks (by rw [hkind]; decide)

/-- A name is on one line, and an operand that is no name is quoted in the report. -/
theorem gives_identifier (f : Form) {d : Datum} (hd : ∀ t ∈ d.atoms, t.Neat raw) :
    (Run.ofExcept (f.identifier d)).Gives raw fun name => ¬name.Breaks := by
  refine .ofExcept (fun name hname => ?_) fun e he => ?_
  · unfold identifier at hname
    split at hname
    · next hid =>
      cases hname
      exact not_breaks_of_identifier? hd hid
    · cases hname
  · rw [identifier_error he]
    exact neat_notIdentifier f hd

theorem neat_identifiers (f : Form) {ds : List Datum}
    (hds : ∀ t ∈ Datum.atomsAll ds, t.Neat raw) : (Run.ofExcept (f.identifiers ds)).Neat raw := by
  refine .ofExcept (fun _ _ => trivial) fun e he => ?_
  obtain ⟨d, hd, rfl⟩ := identifiers_error he
  exact neat_notIdentifier f fun t ht => hds t (Datum.mem_atomsAll hd ht)

end Form

/-! ### Programs -/

namespace Eval

theorem neat_atom (s : ScopeRef) {t : Token} (ht : t.Neat raw) : (atom s t).Neat raw := by
  unfold atom
  split_ifs with hkind
  · have hname : ¬t.lexeme.Breaks := ht.not_breaks (by rw [hkind]; decide)
    exact (Scope.neat_lookup s hname).andThen fun _ => Object.neat_retain _
  · exact Token.neat_evaluate ht

theorem neat_branch (he : engine.Neat raw) (condition : Ref) {next : Bool → Run Ref}
    (hnext : ∀ b, (next b).Neat raw) : (branch engine condition next).Neat raw := by
  refine ((Thunk.neat_force he _).onFailure fun _ hw => hw.drop _).andThen fun forced => ?_
  refine Gives.andThen (.modify fun _ hw => hw.of_eq rfl rfl) fun _ => ?_
  exact Gives.ensuring ((Object.neat_truthy _).andThen hnext) fun _ hw => hw.drop _

theorem neat_replace (result : Ref) {next : Run Ref} (hnext : next.Neat raw) :
    (replace result next).Neat raw :=
  (hnext.onFailure fun _ hw => hw.drop _).andThen fun _ =>
    (Object.neat_release result).andThen fun _ => .pure trivial

mutual
/-- **Programs are neat** if all their tokens are, by recursion on the expression. -/
theorem neat_eval (he : engine.Neat raw) (s : ScopeRef) (d : Datum)
    (hd : ∀ t ∈ d.atoms, t.Neat raw) : (eval engine s d).Neat raw := by
  match d with
  | .atom t => exact neat_atom s (hd t List.mem_cons_self)
  | .list [] => exact .pure trivial
  | .list (head :: operands) =>
    obtain ⟨hhead, hoperands⟩ := List.forall_mem_append.1 hd
    unfold eval
    split
    · exact neat_form he s _ operands hoperands
    · refine (neat_eval he s head hhead).andThen fun _ => ?_
      refine Gives.ensuring ?_ fun _ hw => hw.drop _
      exact (neat_evalAll he s [] operands hoperands).andThen fun _ =>
        (Procedure.neat_call he _ _).ensuring fun _ hw => hw.drop _
termination_by structural d

theorem neat_evalAll (he : engine.Neat raw) (s : ScopeRef) (args : List Ref) (ds : List Datum)
    (hds : ∀ t ∈ Datum.atomsAll ds, t.Neat raw) : (evalAll engine s args ds).Neat raw := by
  match ds with
  | [] => exact .pure trivial
  | d :: ds =>
    obtain ⟨hd, hds⟩ := List.forall_mem_append.1 hds
    unfold evalAll
    exact ((neat_eval he s d hd).onHalt fun _ hw => hw.drop _).andThen fun _ =>
      neat_evalAll he s _ ds hds
termination_by structural ds

theorem neat_evalLast (he : engine.Neat raw) (s : ScopeRef) (result : Ref) (ds : List Datum)
    (hds : ∀ t ∈ Datum.atomsAll ds, t.Neat raw) : (evalLast engine s result ds).Neat raw := by
  match ds with
  | [] => exact .pure trivial
  | d :: ds =>
    obtain ⟨hd, hds⟩ := List.forall_mem_append.1 hds
    unfold evalLast
    exact (neat_replace _ (neat_eval he s d hd)).andThen fun _ => neat_evalLast he s _ ds hds
termination_by structural ds

/-- Of the forms, `define`, `set!` and `lambda` can fail with a report that quotes an operand. -/
theorem neat_form (he : engine.Neat raw) (s : ScopeRef) (f : Form) (operands : List Datum)
    (hoperands : ∀ t ∈ Datum.atomsAll operands, t.Neat raw) :
    (form engine s f operands).Neat raw := by
  match f, operands with
  | .quote, [d] =>
    exact Quotation.neat_build d (List.forall_mem_append.1 hoperands).1
  | .define, [target, d] =>
    obtain ⟨htarget, hd⟩ := List.forall_mem_append.1 hoperands
    refine (Form.gives_identifier _ htarget).andThen fun _ => ?_
    refine (neat_eval he s d (List.forall_mem_append.1 hd).1).andThen fun _ => ?_
    refine Gives.ensuring ?_ fun _ hw => hw.drop _
    exact (Scope.neat_bind _ _ _).andThen fun _ => Library.neat_nothing
  | .assign, [target, d] =>
    obtain ⟨htarget, hd⟩ := List.forall_mem_append.1 hoperands
    refine (Form.gives_identifier _ htarget).bind fun name hname => ?_
    refine (neat_eval he s d (List.forall_mem_append.1 hd).1).andThen fun _ => ?_
    exact (Scope.neat_assign s hname _).ensuring fun _ hw => hw.drop _
  | .lambda, .list params :: d :: body =>
    obtain ⟨hparams, hbody⟩ := List.forall_mem_append.1 hoperands
    exact (Form.neat_identifiers _ hparams).andThen fun _ => Procedure.neat_close hbody _ _ _
  | .delay, [d] =>
    have hcode : Code.Neat raw (.expression d) := (List.forall_mem_append.1 hoperands).1
    exact Thunk.neat_make hcode s
  | .conditional, [c, a] =>
    obtain ⟨hc, ha⟩ := List.forall_mem_append.1 hoperands
    refine (neat_eval he s c hc).andThen fun _ => neat_branch he _ fun b => ?_
    cases b with
    | true => exact neat_eval he s a (List.forall_mem_append.1 ha).1
    | false => exact Library.neat_nothing
  | .conditional, [c, a, b] =>
    obtain ⟨hc, hab⟩ := List.forall_mem_append.1 hoperands
    obtain ⟨ha, hb⟩ := List.forall_mem_append.1 hab
    refine (neat_eval he s c hc).andThen fun _ => neat_branch he _ fun t => ?_
    cases t with
    | true => exact neat_eval he s a ha
    | false => exact neat_eval he s b (List.forall_mem_append.1 hb).1
  | .sequence, [] => exact Library.neat_nothing
  | .sequence, d :: ds =>
    obtain ⟨hd, hds⟩ := List.forall_mem_append.1 hoperands
    exact Library.neat_nothing.andThen fun _ => (neat_replace _ (neat_eval he s d hd)).andThen
      fun _ => neat_evalLast he s _ ds hds
  -- any other number of operands is reported without showing them
  | .quote, [] | .quote, _ :: _ :: _ =>
    exact .fail (Form.neat_wrongCount _ (Form.not_breaks_operands 1) _)
  | .define, [] | .define, [_] | .define, _ :: _ :: _ :: _ =>
    exact .fail (Form.neat_wrongCount _ (Form.not_breaks_operands 2) _)
  | .assign, [] | .assign, [_] | .assign, _ :: _ :: _ :: _ =>
    exact .fail (Form.neat_wrongCount _ (Form.not_breaks_operands 2) _)
  | .lambda, [] | .lambda, [.atom _] | .lambda, [.list _] | .lambda, .atom _ :: _ :: _ =>
    exact .fail (Form.neat_wrongCount _ (by decide) _)
  | .delay, [] | .delay, _ :: _ :: _ =>
    exact .fail (Form.neat_wrongCount _ (Form.not_breaks_operands 1) _)
  | .conditional, [] | .conditional, [_] | .conditional, _ :: _ :: _ :: _ :: _ =>
    exact .fail (Form.neat_wrongCount _ (by decide) _)
termination_by structural operands
end

theorem neat_code (he : engine.Neat raw) {c : Code} (hc : c.Neat raw) (s : ScopeRef) :
    (code engine c s).Neat raw := by
  cases c with
  | expression d => exact neat_eval he s d hc
  | sequence body =>
    exact Library.neat_nothing.andThen fun _ => neat_evalLast he s _ body hc

end Eval

/-- All programs run neatly: the induction is on how deep their calls and thunks are nested. -/
theorem Engine.neat_ofDepth (n : Nat) : (Engine.ofDepth n).Neat raw := by
  induction n with
  | zero => exact ⟨fun _ _ => .exhausted, fun _ _ => .exhausted⟩
  | succ n ih => exact ⟨fun hcode s => Eval.neat_code ih hcode s, Procedure.neat_call ih⟩

/-! ### Workspaces -/

namespace Workspace

theorem neat_install (scope : ScopeId) (table : Builtin.Table) :
    (install scope table).Neat raw := by
  induction table with
  | nil => exact .pure trivial
  | cons entry rest ih =>
    have hp : Payload.Neat raw (.lambda (.library entry.2)) := trivial
    refine (Object.neat_make hp).andThen fun p => ?_
    refine (Scope.neat_bind _ _ p).attempt.andThen fun _ => ?_
    exact (Object.neat_release p).andThen fun _ => ih

theorem neat_addGlobals {h : Heap} (hh : h.Neat raw) : (addGlobals h).2.Neat raw := by
  have hname : ¬Breaks (Text.ofString "globals") := by decide
  have hglobals := hh.addScope (s := globalScope (h.serial + 1) ⟨h.registries.size⟩) hname
  exact ⟨hglobals.object, hglobals.scope⟩

theorem neat_make (tables : List Builtin.Table) : (make tables).Neat raw := by
  refine Gives.andThen (.modify fun w hw => hw.of_eq rfl rfl) fun _ => ?_
  refine (Gives.updateHeap fun _ => neat_addGlobals).andThen fun _ => ?_
  refine (neat_install _ _).andThen fun _ => .reading fun _ _ => ?_
  exact (Gives.record _).andThen fun _ => .pure trivial

theorem neat_current (ws : Workspace) : ws.current.Neat raw := by
  unfold current
  split
  · exact .pure trivial
  · exact .breach _

theorem neat_pushScope (ws : Workspace) : ws.pushScope.Neat raw := by
  refine ws.neat_current.andThen fun _ => (Scope.neat_make _).andThen fun _ => ?_
  refine .reading fun _ _ => (Gives.record _).andThen fun _ => .pure trivial

theorem neat_popScope (ws : Workspace) : ws.popScope.Neat raw := by
  unfold popScope
  split
  · next s _ _ _ =>
    have hleave : (leave s).Neat raw :=
      .reading fun _ _ => (Gives.record _).andThen fun _ => .drop _
    exact hleave.andThen fun _ => .pure trivial
  · exact .fail (Failure.neat_of (by decide) (by decide) (by decide))

end Workspace

/-! ### Sessions -/

namespace ScopeTree

theorem neat_bindingLines (bindings : List (Text × Ref)) : (bindingLines bindings).Neat raw := by
  induction bindings with
  | nil => exact .pure trivial
  | cons entry rest ih =>
    obtain ⟨name, value⟩ := entry
    have hline : (bindingLine name value).Neat raw :=
      .reading fun _ _ => (Object.gives_print value).andThen fun _ => .pure trivial
    exact hline.andThen fun _ => ih.andThen fun _ => .pure trivial

theorem neat_build (hidden : Option ScopeId) (ids : List ScopeId) :
    (build hidden ids).Neat raw := by
  induction ids with
  | nil => exact .pure trivial
  | cons id inner ih =>
    refine .reading fun w _ => ?_
    split
    · exact ih
    · dsimp only
      split
      · exact ih.andThen fun _ => .pure trivial
      · exact (neat_bindingLines _).andThen fun _ => ih.andThen fun _ => .pure trivial

theorem neat_print (ws : Workspace) (all : Bool) : (print ws all).Neat raw := by
  refine ws.neat_current.andThen fun _ => .reading fun _ _ => ?_
  refine (neat_build _ _).andThen fun _ => .reading fun _ _ => ?_
  exact (Gives.print _).andThen fun _ => .print _

end ScopeTree

namespace Session

/-- The tokens of a text; none if it cannot be split into tokens. -/
def tokens (text : Text) : List Token :=
  (Token.tokenize text).toOption.getD []

/-- The tokens of a text are those of its data. -/
theorem gives_read {text : Text} (htext : ∀ t ∈ tokens text, t.Neat raw) :
    (read text).Gives raw fun ds => ∀ t ∈ Datum.atomsAll ds, t.Neat raw := by
  have htokenize : (tokenize text).Gives raw fun ts => ∀ t ∈ ts, t.Neat raw := by
    refine Gives.bind (.ofExcept (fun ts hts => ?_) fun f hf => ?_) fun ts hts =>
      (Gives.record _).andThen fun _ => .pure hts
    · rw [tokens, hts] at htext
      exact htext
    · obtain ⟨x, rfl⟩ := Token.scan_error_plain hf
      exact Failure.neat_plain x
  refine htokenize.bind fun ts hts => .ofExcept (fun ds hds => ?_) fun f hf => ?_
  · apply Datum.forall_atoms_of_read _ hds fun t ht _ => hts t ht
    intro span hbreaks
    exact absurd (show Breaks (Text.ofString "quote") from hbreaks) (by decide)
  · obtain ⟨x, rfl⟩ := Datum.readRest_error_plain hf
    exact Failure.neat_plain x

theorem neat_printResult (r : Ref) : (printResult r).Neat raw := by
  refine .reading fun w _ => ?_
  split
  · exact .fault
  · next o _ =>
    split_ifs
    · exact .pure trivial
    · have htrace : (traceResult o.tag r).Neat raw := .reading fun _ _ => .record _
      exact htrace.andThen fun _ => (Object.gives_print r).andThen fun _ => .print _

theorem neat_evalAll (he : engine.Neat raw) (ws : Workspace) (ds : List Datum)
    (hds : ∀ t ∈ Datum.atomsAll ds, t.Neat raw) : (evalAll engine ws ds).Neat raw := by
  induction ds with
  | nil => exact .pure trivial
  | cons d ds ih =>
    obtain ⟨hd, hds⟩ := List.forall_mem_append.1 hds
    refine (Gives.record _).andThen fun _ => ws.neat_current.andThen fun s => ?_
    refine (Eval.neat_eval he s d hd).andThen fun v => ?_
    exact (neat_printResult v).andThen fun _ => (Object.neat_release v).andThen fun _ => ih hds

theorem gives_reporting {α : Type} {Q : α → Prop} {act : Run α} (h : act.Gives raw Q) :
    (reporting act).Gives raw Q where
  ok hw hok := h.ok hw (reporting_ok hok)
  error hw herror := by
    obtain ⟨w₁, out, hact, rfl⟩ := reporting_error herror
    exact (h.error hw hact).imp_left fun hw₁ => hw₁.of_eq rfl rfl

theorem neat_printLibraries (libs : List Text) : (printLibraries libs).Neat raw := by
  induction libs with
  | nil => exact .pure trivial
  | cons lib rest ih => exact .reading fun _ _ => (Gives.print _).andThen fun _ => ih

theorem neat_command (ws : Workspace) (c : Command) : (command ws c).Neat raw := by
  cases c with
  | nothing => exact .pure trivial
  | quit => exact .pure trivial
  | scopes all => exact (ScopeTree.neat_print ws all).andThen fun _ => .pure trivial
  | push =>
    refine ws.neat_pushScope.andThen fun _ => .reading fun _ _ => ?_
    exact (Gives.print _).andThen fun _ => .pure trivial
  | pop => exact ws.neat_popScope.andThen fun _ => .pure trivial
  | trace level =>
    cases level with
    | none => exact .pure trivial
    | some name =>
      have hlevel : (setLevel (Level.ofName name)).Neat raw :=
        (Gives.record _).andThen fun _ => (Gives.record _).andThen fun _ => .record _
      exact hlevel.andThen fun _ => .pure trivial
  | libraries => exact (neat_printLibraries _).andThen fun _ => .pure trivial
  | unknown name => exact .fail (Failure.neat_plain _)

/-- A line of neat tokens leaves a neat world, and fails neatly if it does. -/
theorem neat_line (he : engine.Neat raw) (ws : Workspace) {text : Text}
    (htext : ∀ t ∈ tokens text, t.Neat raw) : (line engine ws text).Neat raw := by
  by_cases hcolon : text.head? = some (byte ':')
  · rw [line_colon hcolon]
    exact gives_reporting (neat_command ws _)
  · rw [line_eq hcolon]
    exact gives_reporting ((gives_read htext).bind fun ds hds =>
      (neat_evalAll he ws ds hds).andThen fun _ => .pure trivial)

/-- So do any number of such lines. -/
theorem neat_after {n : Nat} {ws : Workspace} {w : World} (hw : w.Neat raw) {lines : List Text}
    (hlines : ∀ t ∈ lines.flatMap tokens, t.Neat raw) : (after n ws w lines).2.Neat raw := by
  induction lines generalizing ws w with
  | nil => exact hw
  | cons text rest ih =>
    rw [List.flatMap_cons, List.forall_mem_append] at hlines
    obtain ⟨htext, hrest⟩ := hlines
    have hline := neat_line (Engine.neat_ofDepth n) ws htext
    unfold after
    split
    · next hok => exact ih (hline.ok hw hok).1 hrest
    · next herror => exact ih (hline.error hw herror).1 hrest

theorem spelled_of_mem_tokens {text : Text} {t : Token} (ht : t ∈ tokens text) :
    Token.Spelled (some t.kind) t.lexeme := by
  unfold tokens at ht
  cases htext : Token.tokenize text with
  | ok ts =>
    rw [htext] at ht
    exact Token.spelled_of_mem htext ht
  | error f =>
    rw [htext] at ht
    cases ht

/-- A token of a text is neat, unless it is the line feed as a character. -/
theorem neat_of_mem_tokens {text : Text} {t : Token} (ht : t ∈ tokens text)
    (hchar : ¬(t.kind = .char ∧ t.lexeme = Text.ofString "#\\\n"))
    (hstring : t.kind = .string → t.lexeme.Breaks → raw) : t.Neat raw := by
  intro hbreaks
  have hspelled := spelled_of_mem_tokens ht
  rcases hspelled.kind_of_breaks hbreaks with hkind | hkind | hkind
  · cases hkind
  · have hkind : t.kind = .string := Option.some.inj hkind
    exact ⟨hkind, hstring hkind hbreaks⟩
  · rw [hkind] at hspelled
    exact absurd ⟨Option.some.inj hkind, hspelled.eq_of_char hbreaks⟩ hchar

/-- **Where line feeds in messages come from.** If the message of a report that a session fails with
has a line feed, then there is a line feed as a character in the program; or else the report is one
about an operand that is no name or about a foreign function, and there is a line feed in a string
of the program or in the configuration. -/
theorem line_breaks {n : Nat} {tables : List Builtin.Table} {w₀ w w' w'' : World}
    {ws ws' : Workspace} {lines : List Text} {text : Text} {f : Failure} {r : Report}
    (hw : w₀.Fresh) (hmake : Workspace.make tables w₀ = .ok ws w)
    (hrun : after n ws w lines = (ws', w'))
    (hline : line (.ofDepth n) ws' text w' = .error (.failure f) w'')
    (hreport : f.report? = some r) (hbreaks : f.text.Breaks) :
    (∃ t ∈ (text :: lines).flatMap tokens, t.kind = .char ∧ t.lexeme = Text.ofString "#\\\n") ∨
    r.Quotes ∧
      ((∃ t ∈ (text :: lines).flatMap tokens, t.kind = .string ∧ t.lexeme.Breaks) ∨
        ∃ entry ∈ w₀.conf, entry.2.Breaks) := by
  refine or_iff_not_imp_left.2 fun hchar => ?_
  -- everything is neat now, with the last part of the statement as the condition
  generalize hraw : ((∃ t ∈ (text :: lines).flatMap tokens, t.kind = .string ∧ t.lexeme.Breaks) ∨
    ∃ entry ∈ w₀.conf, entry.2.Breaks) = raw
  have htokens : ∀ t ∈ (text :: lines).flatMap tokens, t.Neat raw := by
    intro t ht
    obtain ⟨_, -, hmem⟩ := List.mem_flatMap.1 ht
    refine neat_of_mem_tokens hmem (fun h => hchar ⟨t, ht, h⟩) fun hkind h => ?_
    exact hraw ▸ .inl ⟨t, ht, hkind, h⟩
  rw [List.flatMap_cons, List.forall_mem_append] at htokens
  obtain ⟨htext, hlines⟩ := htokens
  have hw₀ : w₀.Neat raw :=
    ⟨hw.heap ▸ Heap.Neat.initial, fun entry hmem h => hraw ▸ .inr ⟨entry, hmem, h⟩⟩
  have hw' : w'.Neat raw := by
    have h : (after n ws w lines).2.Neat raw :=
      neat_after ((Workspace.neat_make tables).ok hw₀ hmake).1 hlines
    rwa [hrun] at h
  exact ((neat_line (Engine.neat_ofDepth n) ws' htext).error hw' hline).2 f rfl r hreport hbreaks

/-- Whether a line fails with a report that has the given message. -/
def reports (n : Nat) (ws : Workspace) (w : World) (text message : Text) : Bool :=
  match line (.ofDepth n) ws text w with
  | .error (.failure f) _ => f.report?.isSome && decide (f.text = message)
  | .error (.breach _) _ => false
  | .error .fault _ => false
  | .error .exhausted _ => false
  | .ok _ _ => false

theorem line_of_reports {n : Nat} {ws : Workspace} {w : World} {text message : Text}
    (h : reports n ws w text message = true) :
    ∃ f r w', line (.ofDepth n) ws text w = .error (.failure f) w' ∧ f.report? = some r ∧
      f.text = message := by
  unfold reports at h
  split at h
  · next f w' hline =>
    obtain ⟨hreport, hmessage⟩ := Bool.and_eq_true_iff.1 h
    obtain ⟨r, hr⟩ := Option.isSome_iff_exists.1 hreport
    exact ⟨f, r, w', hline, hr, of_decide_eq_true hmessage⟩
  · cases h
  · cases h
  · cases h
  · cases h

/-- The definition of a name with a line feed in its value. -/
def naming : Text := "(define name \"a\nb\")"

/-- The description of a foreign function of that name. -/
def describing : Text := "(native name \"\" \"void\")"

set_option maxRecDepth 100000 in
theorem line_breaks_naming : ∃ (ws ws' : Workspace) (w w' w'' : World) (f : Failure) (r : Report),
    Workspace.make sandbox {} = .ok ws w ∧ after Engine.depth ws w [naming] = (ws', w') ∧
    line (.ofDepth Engine.depth) ws' describing w' = .error (.failure f) w'' ∧
    f.report? = some r ∧ f.text.Breaks ∧ r.Quotes ∧
    ((∃ t ∈ [describing, naming].flatMap tokens, t.kind = .string ∧ t.lexeme.Breaks) ∨
      ∃ entry ∈ ({} : World).conf, entry.2.Breaks) := by
  obtain ⟨ws, w, hmake, hreports⟩ := exists_of_run (p := fun ws w =>
    reports Engine.depth (after Engine.depth ws w [naming]).1
      (after Engine.depth ws w [naming]).2 describing
      "native a\nb: symbol not found: expected exported symbol, got not found in process")
    (by decide +kernel)
  obtain ⟨f, r, w'', hline, hreport, htext⟩ := line_of_reports hreports
  have hbreaks : f.text.Breaks := by
    rw [htext]
    decide
  refine ⟨ws, _, w, _, w'', f, r, hmake, rfl, hline, hreport, hbreaks, ?_⟩
  have h := line_breaks ⟨rfl, rfl, rfl, rfl⟩ hmake rfl hline hreport hbreaks
  exact h.resolve_left (by decide +kernel)

/-- Lines that fail, and the messages of the reports. -/
def broken : List (Text × Text) :=
  [("(car #\\\n)", "car: type mismatch: expected PAIR, got CHAR #\\\n"),
    ("(define \"a\nb\" 1)", "define: type mismatch: expected identifier, got \"a\nb\""),
    ("(native \"a\nb\" \"\" \"void\")",
      "native a\nb: symbol not found: expected exported symbol, got not found in process")]

set_option maxRecDepth 100000 in
/-- All kinds of line feeds get into messages: a character, an operand and a foreign name. -/
theorem line_breaks_shown : ∃ (ws : Workspace) (w : World), Workspace.make sandbox {} = .ok ws w ∧
    ∀ p ∈ broken, p.2.Breaks ∧ ∃ f r w', line (.ofDepth Engine.depth) ws p.1 w =
      .error (.failure f) w' ∧ f.report? = some r ∧ f.text = p.2 := by
  obtain ⟨ws, w, hmake, hreports⟩ := exists_of_run (p := fun ws w =>
    broken.all fun p => reports Engine.depth ws w p.1 p.2) (by decide +kernel)
  refine ⟨ws, w, hmake, fun p hp => ⟨?_, line_of_reports (List.all_eq_true.1 hreports p hp)⟩⟩
  have hbreaks : ∀ p ∈ broken, p.2.Breaks := by decide
  exact hbreaks p hp

end Session

end CountedLisp
