import CountedLisp.Datum.Reader
import CountedLisp.Eval.Form
import CountedLisp.Foreign.Call
import CountedLisp.Token.Lexer
import CountedLisp.Token.Literal

/-!
# How reading and checking fail

Reading a text, the checks of the operands of a form and those of the arguments of a function need
no world: they give a result or a failure. What the failure looks like is said here, for each of
them.
-/

namespace CountedLisp

/-! ### Reading -/

namespace Token

/-- A numeral can be no number or out of range. -/
theorem integer?_error_plain {lexeme : Text} {f : Failure} (h : integer? lexeme = .error f) :
    ∃ x, f = .plain x := by
  unfold integer? at h
  dsimp only at h
  split at h
  · cases h; exact ⟨_, rfl⟩
  · cases h; exact ⟨_, rfl⟩
  · next n _ =>
    generalize (if (signed lexeme).1 = true then -(n : Int) else n) = v at h
    split at h <;> cases h
    exact ⟨_, rfl⟩

/-- The same of a number with a fraction. -/
theorem double?_error_plain {lexeme : Text} {f : Failure} (h : double? lexeme = .error f) :
    ∃ x, f = .plain x := by
  unfold double? at h
  dsimp only at h
  split at h
  · cases h; exact ⟨_, rfl⟩
  · split at h <;> cases h
    exact ⟨_, rfl⟩

/-- A lexeme that is too short makes the evaluator stop, it is no failure. -/
theorem orFault_error {c : Option Constant} {e : Halt} (h : orFault c = .error e) :
    e = .fault := by
  cases c with
  | none => exact (Except.error.inj h).symm
  | some c => cases h

theorem orFault_ok {c : Option Constant} {v : Constant} (h : orFault c = .ok v) : c = some v := by
  cases c with
  | none => cases h
  | some c => exact congrArg some (Except.ok.inj h)

/-- A token that denotes no constant has a lexeme that is too short, or a failure that wraps
nothing. -/
theorem literal_error {t : Token} {e : Halt} (h : t.literal = .error e) :
    e = .fault ∨ ∃ x, e = .failure (.plain x) := by
  unfold literal at h
  split at h
  · cases hv : integer? t.lexeme with
    | ok v => rw [hv] at h; cases h
    | error g =>
      rw [hv] at h
      cases h
      obtain ⟨x, rfl⟩ := integer?_error_plain hv
      exact .inr ⟨x, rfl⟩
  · cases hv : double? t.lexeme with
    | ok v => rw [hv] at h; cases h
    | error g =>
      rw [hv] at h
      cases h
      obtain ⟨x, rfl⟩ := double?_error_plain hv
      exact .inr ⟨x, rfl⟩
  · exact .inl (orFault_error h)
  · exact .inl (orFault_error h)
  · cases h
  all_goals cases h; exact .inr ⟨_, rfl⟩

/-- A text without tokens is reported by a text of its own, which names no kind of error. -/
theorem scan_error_plain {found : List Token} {offset column : Nat} {text : Text} {f : Failure}
    (h : scan found offset column text = .error f) : ∃ x, f = .plain x := by
  fun_induction scan found offset column text with
  | case1 => cases h
  | case2 => cases h; exact ⟨_, rfl⟩
  | case3 _ _ _ _ _ _ _ _ _ _ _ ih => exact ih h

end Token

/-- So is a text that is no datum, in which something is left open, closed too often or missing
after a quote. -/
theorem Datum.readRest_error_plain {done : List Datum} {frames : List Frame} {tokens : List Token}
    {f : Failure} (h : readRest done frames tokens = .error f) : ∃ x, f = .plain x := by
  fun_induction readRest done frames tokens with
  | case1 => cases h
  | case2 _ frame => cases h; cases frame <;> exact ⟨_, rfl⟩
  | case3 _ _ _ _ _ ih => exact ih h
  | case4 _ _ _ _ _ ih => exact ih h
  | case5 _ _ _ _ _ _ _ _ _ _ ih => exact ih h
  | case6 => cases h; exact ⟨_, rfl⟩
  | case7 _ _ _ _ _ _ _ _ _ _ ih => exact ih h

/-! ### Operands -/

namespace Form

/-- An operand that has to be a name is shown as it stands in the program. -/
theorem identifier_error {f : Form} {d : Datum} {e : Failure} (h : f.identifier d = .error e) :
    e = .of .typeMismatch f.name "identifier" d.text := by
  unfold identifier at h
  split at h <;> cases h
  rfl

/-- The first parameter that is no name decides. -/
theorem identifiers_error {f : Form} {ds : List Datum} {e : Failure}
    (h : f.identifiers ds = .error e) :
    ∃ d ∈ ds, e = .of .typeMismatch f.name "identifier" d.text := by
  induction ds generalizing e with
  | nil => cases h
  | cons d ds ih =>
    unfold identifiers at h
    cases hd : f.identifier d with
    | error e' =>
      rw [hd] at h
      cases h
      exact ⟨d, List.mem_cons_self, identifier_error hd⟩
    | ok name =>
      rw [hd] at h
      cases hds : f.identifiers ds with
      | error e' =>
        rw [hds] at h
        cases h
        obtain ⟨d', hmem, he⟩ := ih hds
        exact ⟨d', List.mem_cons_of_mem _ hmem, he⟩
      | ok names => rw [hds] at h; cases h

end Form

/-! ### Arguments -/

/-- Whatever the mode, a wrong number of arguments is a mismatch of arity. -/
theorem Arguments.checkCount_error {op : Text} {count : Nat} {n : Int} {mode : CountMode}
    {f : Failure} (h : checkCount op count n mode = .error f) :
    ∃ expected actual, f = .of .arityMismatch op expected actual := by
  cases mode with
  | exactly =>
    simp only [checkCount] at h
    split at h <;> cases h
    exact ⟨_, _, rfl⟩
  | atLeast =>
    simp only [checkCount] at h
    split at h <;> cases h
    exact ⟨_, _, rfl⟩
  | any => cases h

/-- A name that is no type is shown as it is. -/
theorem ForeignType.parse?_error {name : Text} {f : Failure} (h : parse? name = .error f) :
    f = .of .typeMismatch "native" "integer|double|char|string|void" name := by
  unfold parse? at h
  split at h <;> cases h
  rfl

namespace Foreign

/-- The first name that is no type decides. -/
theorem types_error {names : List Text} {f : Failure} (h : types names = .error f) :
    ∃ name ∈ names, f = .of .typeMismatch "native" "integer|double|char|string|void" name := by
  induction names generalizing f with
  | nil => cases h
  | cons name rest ih =>
    unfold types at h
    cases h1 : ForeignType.parse? name with
    | error g =>
      rw [h1] at h
      cases h
      exact ⟨name, List.mem_cons_self, ForeignType.parse?_error h1⟩
    | ok t =>
      rw [h1] at h
      cases h2 : types rest with
      | error g =>
        rw [h2] at h
        cases h
        obtain ⟨name', hmem, hf⟩ := ih h2
        exact ⟨name', List.mem_cons_of_mem _ hmem, hf⟩
      | ok ts =>
        rw [h2] at h
        cases h

/-- The first argument that no foreign function can take decides; it is named with its place. -/
theorem badArgument?_eq_some {symbol : Text} {place : Nat} {types : List ForeignType} {f : Failure}
    (h : badArgument? symbol place types = some f) : ∃ (t : ForeignType) (n : Nat),
      f = .of .typeMismatch (Signature.operation symbol) "integer|double|char|string"
        (t.name ++ " for argument " ++ Text.ofNat n) := by
  induction types generalizing place with
  | nil => cases h
  | cons t rest ih =>
    unfold badArgument? at h
    split at h
    · exact ih h
    · cases h
      exact ⟨t, place, rfl⟩

end Foreign

end CountedLisp
