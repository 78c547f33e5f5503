import CountedLisp.Proofs.Wrapping

/-!
# Counting cannot be noticed

What can be seen of an expression is an `Outcome`: the type and the printed form of its value, or
its failure, together with all that has been printed by then. `Session.observe` runs a session and
gives the outcomes of its expressions; it is the session itself with a record added
(`Session.line_eq_observeLine`).

A world can be told not to reclaim anything, so that everything lives forever. The main result
compares the two: a session that calls no function with arguments out of a list, and in which no
thunk is evaluated while it is being evaluated, has the same outcomes in both. It holds as long as
every owner can be counted: a session that gives the global scope too many of them loses it.
-/

namespace CountedLisp

open Run

variable {P : Prop} {B C S : Share} {w w' : World} {engine : Engine} {ws : Workspace}

/-! ### Runs that do not fail -/

/-- A run that does not end with a failure. -/
def Run.Unfailing {α : Type} (act : Run α) : Prop :=
  ∀ w f w', act w ≠ .error (.failure f) w'

namespace Run.Unfailing

variable {α β : Type}

protected theorem pure (a : α) : (pure a : Run α).Unfailing := fun _ _ _ h => by cases h

protected theorem get : (get : Run World).Unfailing := fun _ _ _ h => by cases h

protected theorem modify (f : World → World) : (modify f : Run PUnit).Unfailing :=
  fun _ _ _ h => by cases h

protected theorem bind {act : Run α} {k : α → Run β} (h : act.Unfailing)
    (hk : ∀ a, (k a).Unfailing) : (act >>= k).Unfailing := by
  intro w f w' hw
  cases ha : act w with
  | ok a w1 =>
    rw [bind_ok ha] at hw
    exact hk a w1 f w' hw
  | error e w1 =>
    rw [bind_error ha] at hw
    cases hw
    exact h w f w' ha

protected theorem attempt (act : Run α) : act.attempt.Unfailing := by
  intro w f w' h
  unfold Run.attempt at h
  split at h
  · cases h
  · cases h
  · next e w1 he hw =>
    cases h
    exact he f rfl

end Run.Unfailing

/-! ### Outcomes -/

/-- What can be seen of an expression. -/
structure Outcome where
  /-- The type and the printed form of the value, or the failure. A list that runs in a circle has
  no printed form. -/
  result : Except Failure (Option Tag × Option Text)
  /-- All that has been printed by then. -/
  output : Array UInt8

/-- The failure that ends some expressions, if there is one. -/
def Outcome.failure? : List Outcome → Option Failure
  | [] => none
  | o :: rest =>
    match o.result with
    | .ok _ => failure? rest
    | .error f => some f

namespace Session

/-- The outcomes of expressions, up to the first failure. -/
def observeAll (engine : Engine) (ws : Workspace) : List Datum → Run (List Outcome)
  | [] => return []
  | d :: ds => do
    let result ← (observeValue engine ws d).attempt
    let outcome : Outcome := ⟨result, (← get).output⟩
    match result with
    | .ok _ => return outcome :: (← observeAll engine ws ds)
    | .error _ => return [outcome]

/-- The outcomes of a text, which is a failure if it cannot be read. -/
def observeText (engine : Engine) (ws : Workspace) (text : Text) : Run (List Outcome) := do
  match ← (read text).attempt with
  | .ok ds => observeAll engine ws ds
  | .error f => return [⟨.error f, (← get).output⟩]

/-- Prints the failure among outcomes. -/
def reportFailure (outcomes : List Outcome) : Run Unit :=
  match Outcome.failure? outcomes with
  | some f => notify .error f.text
  | none => return ()

/-- The outcomes of a line. -/
def observeLine (engine : Engine) (ws : Workspace) (text : Text) : Run (List Outcome) := do
  let outcomes ← observeText engine ws text
  reportFailure outcomes
  return outcomes

/-- The outcomes of lines, line by line. -/
def observeLines (engine : Engine) (ws : Workspace) : List Text → Run (List (List Outcome))
  | [] => return []
  | text :: rest => return (← observeLine engine ws text) :: (← observeLines engine ws rest)

/-- The outcomes of a session that starts with a new workspace. Calls and thunks are nested at most
`n` levels deep. -/
def observe (n : Nat) (tables : List Builtin.Table) (lines : List Text) :
    Run (List (List Outcome)) := do
  let ws ← Workspace.make tables
  observeLines (.ofDepth n) ws lines

/-! ### Observed sessions are sessions -/

/-- Ends with the failure among outcomes, or with a result if there is none. -/
def conclude {α : Type} (a : α) (outcomes : List Outcome) : Run α :=
  match Outcome.failure? outcomes with
  | some f => Run.fail f
  | none => return a

/-- A run after another one goes on with its result, if there is one. -/
theorem bind_eq_attempt {α β : Type} (act : Run α) (k : α → Run β) : act >>= k = (do
    match ← act.attempt with
    | .ok a => k a
    | .error f => Run.fail f) := by
  funext w
  simp only [attempt, bind, EStateM.bind]
  cases act w with
  | ok a w' => rfl
  | error e w' => cases e <;> rfl

theorem evalAll_eq_observeAll (ds : List Datum) :
    evalAll engine ws ds = observeAll engine ws ds >>= conclude () := by
  induction ds with
  | nil => rfl
  | cons d ds ih =>
    -- both sides go on after the same attempt, and they differ only in what they record
    rw [evalAll_cons, ih, bind_eq_attempt, observeAll, bind_assoc]
    congr 1
    funext result
    cases result with
    | ok seen =>
      simp only [bind_assoc, pure_bind]
      rfl
    | error f =>
      simp only [bind_assoc, pure_bind]
      rfl

theorem read_evalAll_eq_observeText (text : Text) : (do
    evalAll engine ws (← read text)
    return (false, ws)) = observeText engine ws text >>= conclude (false, ws) := by
  rw [bind_eq_attempt, observeText, bind_assoc]
  congr 1
  funext result
  cases result with
  | ok ds =>
    simp only [evalAll_eq_observeAll, bind_assoc]
    congr 1
    funext outcomes
    simp only [conclude]
    cases Outcome.failure? outcomes <;> rfl
  | error f =>
    simp only [bind_assoc, pure_bind]
    rfl

theorem unfailing_observeAll (ds : List Datum) : (observeAll engine ws ds).Unfailing := by
  induction ds with
  | nil => exact .pure _
  | cons d ds ih =>
    refine (Unfailing.attempt _).bind fun result => Unfailing.get.bind fun u => ?_
    cases result with
    | ok seen => exact ih.bind fun _ => .pure _
    | error f => exact .pure _

theorem unfailing_observeText (text : Text) : (observeText engine ws text).Unfailing := by
  refine (Unfailing.attempt _).bind fun result => ?_
  cases result with
  | ok ds => exact unfailing_observeAll ds
  | error f => exact Unfailing.get.bind fun _ => .pure _

theorem reporting_conclude {α : Type} {act : Run (List Outcome)} (h : act.Unfailing) (a : α) :
    reporting (act >>= conclude a) = (do
      let outcomes ← act
      reportFailure outcomes
      conclude a outcomes) := by
  funext w
  cases hw : act w with
  | ok outcomes w' =>
    have hleft : (act >>= conclude a) w = conclude a outcomes w' := bind_ok hw
    rw [bind_ok hw, reporting, hleft]
    simp only [conclude, reportFailure]
    cases Outcome.failure? outcomes <;> rfl
  | error e w' =>
    have hleft : (act >>= conclude a) w = .error e w' := bind_error hw
    rw [bind_error hw, reporting, hleft]
    cases e with
    -- the failures are among the outcomes
    | failure f => exact absurd hw (h w f w')
    | _ => rfl

/-- **An observed line is the line**: it evaluates the same expressions, prints the same, and ends
with the failure among the outcomes. -/
theorem line_eq_observeLine {text : Text} (ht : text.head? ≠ some (Text.byte ':')) :
    line engine ws text = observeLine engine ws text >>= conclude (false, ws) := by
  rw [line_eq ht, read_evalAll_eq_observeText, reporting_conclude (unfailing_observeText text),
    observeLine]
  simp only [bind_assoc, pure_bind]

/-! ### Sessions that count too far -/

theorem read_of_tokenize {text : Text} (ts : List Token) {ds : List Datum}
    (hts : Token.tokenize text = .ok ts) (hds : Datum.read ts = .ok ds) (w : World) :
    ∃ e, read text w = .ok ds (w.record e) := by
  refine ⟨.message .sandbox .debug none (Text.ofNat ts.length ++ " tokens"), ?_⟩
  unfold read tokenize
  rw [hts]
  show Run.ofExcept (Datum.read ts) _ = _
  rw [hds]
  rfl

/-- The outcome of a text with one expression. -/
theorem observeText_of_read {text : Text} {d : Datum} {w₁ : World}
    {result : Except Failure (Option Tag × Option Text)} (hread : read text w = .ok [d] w₁)
    (hvalue : (observeValue engine ws d).attempt w₁ = .ok result w') :
    observeText engine ws text w = .ok [⟨result, w'.output⟩] w' := by
  have hattempt : (read text).attempt w = .ok (.ok [d]) w₁ := by rw [attempt, hread]
  unfold observeText
  rw [bind_ok hattempt]
  dsimp only
  rw [observeAll, bind_ok hvalue]
  cases result <;> rfl

theorem observeLine_of_ok {text : Text} {d : Datum} {w₁ : World} {seen : Option Tag × Option Text}
    (hread : read text w = .ok [d] w₁) (hvalue : observeValue engine ws d w₁ = .ok seen w') :
    observeLine engine ws text w = .ok [⟨.ok seen, w'.output⟩] w' :=
  bind_ok (observeText_of_read hread (by rw [attempt, hvalue]))

theorem observeLine_of_error {text : Text} {d : Datum} {w₁ : World} {f : Failure}
    (hread : read text w = .ok [d] w₁)
    (hvalue : observeValue engine ws d w₁ = .error (.failure f) w') :
    observeLine engine ws text w =
      .ok [⟨.error f, w'.output⟩] (w'.print (Notice.render .error f.text)) :=
  bind_ok (observeText_of_read hread (by rw [attempt, hvalue]))

theorem observeLines_append (lines lines' : List Text) :
    observeLines engine ws (lines ++ lines') = (do
      let outcomes ← observeLines engine ws lines
      let outcomes' ← observeLines engine ws lines'
      return outcomes ++ outcomes') := by
  induction lines with
  | nil => simp [observeLines]
  | cons text rest ih => simp [observeLines, ih]

section

variable {c : BoundFunction} {n : Nat}

theorem read_application (w : World) :
    ∃ e, read "(f)" w = .ok [BoundFunction.application] (w.record e) :=
  read_of_tokenize [⟨.leftParen, "(", ⟨1, 1⟩⟩, ⟨.identifier, "f", ⟨2, 2⟩⟩,
    ⟨.rightParen, ")", ⟨3, 3⟩⟩] (by decide +kernel) rfl w

theorem read_rebinding (w : World) :
    ∃ e, read "(define f ())" w = .ok [rebinding] (w.record e) :=
  read_of_tokenize [⟨.leftParen, "(", ⟨1, 1⟩⟩, ⟨.identifier, "define", ⟨2, 7⟩⟩,
    ⟨.identifier, "f", ⟨9, 9⟩⟩, ⟨.leftParen, "(", ⟨11, 11⟩⟩, ⟨.rightParen, ")", ⟨12, 12⟩⟩,
    ⟨.rightParen, ")", ⟨13, 13⟩⟩] (by decide +kernel) rfl w

theorem read_name (w : World) : ∃ e, read "f" w = .ok [name] (w.record e) :=
  read_of_tokenize [⟨.identifier, "f", ⟨1, 1⟩⟩] (by decide +kernel) rfl w

/-- **The run.** So many calls add as much to the count of the scope. -/
theorem observeLines_calls (hs : ws.scopes.items = [c.scope]) (hc : w.heap.Binds c)
    (howners : c.owners = 1) (m : Nat) : ∃ outcomes calls w',
      observeLines (.ofDepth (n + 1)) ws (List.replicate m "(f)") w = .ok outcomes w' ∧
      w'.heap.Binds { c with count := c.count + UInt32.ofNat m, calls := calls } ∧
      w.ActsAlike w' := by
  induction m generalizing c w with
  | zero => exact ⟨[], c.calls, w, rfl, by simpa using hc, .refl w⟩
  | succ m ih =>
    obtain ⟨e, hread⟩ := read_application w
    obtain ⟨t, seen, w₁, hvalue, hc₁, hl₁⟩ :=
      observeValue_application (n := n) (w := w.record e) hs hc howners
    obtain ⟨outcomes, calls, w', hlines, hc', hl'⟩ := ih (c := c.called t) hs hc₁ howners
    have hline := observeLine_of_ok hread hvalue
    refine ⟨[⟨.ok seen, w₁.output⟩] :: outcomes, calls, w', ?_, ?_, ?_⟩
    · rw [List.replicate_succ, observeLines, bind_ok hline, bind_ok hlines]
      rfl
    · have hcount : c.count + 1 + UInt32.ofNat m = c.count + UInt32.ofNat (m + 1) := by
        rw [UInt32.ofNat_add, UInt32.add_assoc, UInt32.add_comm 1]
        rfl
      rw [← hcount]
      exact hc'
    · exact World.ActsAlike.trans ⟨hl₁.reclaim, hl₁.conduct⟩ hl'

/-- The function is called so many times, and then its name gets another value. -/
def overcounting (m : Nat) : List Text :=
  List.replicate m (Text.ofString "(f)") ++ [Text.ofString "(define f ())"]

theorem observeLines_overcounting (hs : ws.scopes.items = [c.scope]) (hc : w.heap.Binds c)
    (howners : c.owners = 1) {m : Nat} (hm : c.count + UInt32.ofNat m = 1) : ∃ outcomes w',
      observeLines (.ofDepth (n + 1)) ws (overcounting m) w = .ok outcomes w' ∧
      w.ActsAlike w' ∧ (w.reclaim = true → w'.heap.Dead (.scope c.scope)) ∧
      (w.reclaim = false → Rebound c.scope w'.heap) := by
  obtain ⟨outcomes, calls, w₁, hlines, hc₁, hl₁⟩ := observeLines_calls (n := n) hs hc howners m
  obtain ⟨e, hread⟩ := read_rebinding w₁
  obtain ⟨seen, w', hvalue, hl, hdead, hkept⟩ :=
    observeValue_rebinding (.ofDepth (n + 1)) (w := w₁.record e)
      (c := { c with count := c.count + UInt32.ofNat m, calls := calls }) hs hc₁
  have hline : observeLines (.ofDepth (n + 1)) ws ["(define f ())"] w₁ =
      .ok [[⟨.ok seen, w'.output⟩]] w' := by
    rw [observeLines, bind_ok (observeLine_of_ok hread hvalue)]
    rfl
  refine ⟨outcomes ++ [[⟨.ok seen, w'.output⟩]], w', ?_, ?_, fun hr => ?_, fun hr => ?_⟩
  · rw [overcounting, observeLines_append, bind_ok hlines, bind_ok hline]
    rfl
  · exact hl₁.trans ⟨hl.reclaim, hl.conduct⟩
  · exact hdead (hl₁.reclaim.trans hr) hm howners
  · exact hkept (hl₁.reclaim.trans hr)

/-- Whether the first line of a session binds the function. -/
def bindsFunction (reclaim : Bool) : Bool :=
  match Workspace.make sandbox { reclaim := reclaim } with
  | .ok ws w =>
    match observeLines (.ofDepth Engine.depth) ws ["(define f (lambda () ()))"] w with
    | .ok _ w' =>
      match BoundFunction.find? w'.heap ws.globals with
      | some c => decide (ws.scopes.items = [ws.globals] ∧ c.count = 2 ∧ c.owners = 1 ∧
        w'.reclaim = reclaim ∧ w'.conduct = {})
      | none => false
    | .error _ _ => false
  | .error _ _ => false

set_option maxRecDepth 100000 in
theorem bindsFunction_eq_true (reclaim : Bool) : bindsFunction reclaim = true := by
  cases reclaim <;> decide +kernel

theorem exists_binds (reclaim : Bool) : ∃ ws w outcomes w' c,
    Workspace.make sandbox { reclaim := reclaim } = .ok ws w ∧
    observeLines (.ofDepth Engine.depth) ws ["(define f (lambda () ()))"] w = .ok outcomes w' ∧
    w'.heap.Binds c ∧ c.scope = ws.globals ∧ ws.scopes.items = [ws.globals] ∧ c.count = 2 ∧
    c.owners = 1 ∧ w'.reclaim = reclaim ∧ w'.conduct = {} := by
  have h := bindsFunction_eq_true reclaim
  unfold bindsFunction at h
  split at h
  · next ws w hmake =>
    split at h
    · next outcomes w' hlines =>
      split at h
      · next c hfind =>
        obtain ⟨hitems, hcount, howners, hreclaim, hconduct⟩ := of_decide_eq_true h
        obtain ⟨hc, hscope⟩ := BoundFunction.of_find? hfind
        exact ⟨ws, w, outcomes, w', c, hmake, hlines, hc, hscope, hitems, hcount, howners, hreclaim,
          hconduct⟩
      · cases h
    · cases h
  · cases h

/-- A function is made, called so many times and given up. -/
def overcounted (m : Nat) : List Text :=
  Text.ofString "(define f (lambda () ()))" :: overcounting m

/-- **A session that counts too far** loses the global scope when the function is given up, unless
nothing is ever reclaimed. -/
theorem exists_overcounted (reclaim : Bool) {m : Nat} (hm : 2 + UInt32.ofNat m = 1) :
    ∃ ws w outcomes w', Workspace.make sandbox { reclaim := reclaim } = .ok ws w ∧
      observeLines (.ofDepth Engine.depth) ws (overcounted m) w = .ok outcomes w' ∧
      ws.scopes.items = [ws.globals] ∧ (∃ b, w'.conduct = { wrapped := b }) ∧
      (reclaim = true → w'.heap.Dead (.scope ws.globals)) ∧
      (reclaim = false → Rebound ws.globals w'.heap) := by
  obtain ⟨ws, w, outcomes, w₁, c, hmake, hfirst, hc, hscope, hitems, hcount, howners, rfl,
    hconduct⟩ := exists_binds reclaim
  have hdepth : Engine.depth = 999999 + 1 := rfl
  obtain ⟨outcomes', w', hlines, hl, hdead, hkept⟩ := observeLines_overcounting (n := 999999)
    (hscope ▸ hitems) hc howners (hcount ▸ hm)
  rw [← hdepth] at hlines
  rw [hscope] at hdead hkept
  obtain ⟨b, hb⟩ := hl.conduct
  refine ⟨ws, w, outcomes ++ outcomes', w', hmake, ?_, hitems, ⟨b, ?_⟩, hdead, hkept⟩
  · rw [overcounted, ← List.singleton_append, observeLines_append, bind_ok hfirst, bind_ok hlines]
    rfl
  · rw [hb, hconduct]

/-- The name of the function is looked up at the end. -/
theorem exists_observe_overcounted (reclaim : Bool) {m : Nat} (hm : 2 + UInt32.ofNat m = 1) :
    ∃ outcomes last w',
      observe Engine.depth sandbox (overcounted m ++ [Text.ofString "f"]) { reclaim := reclaim } =
        .ok (outcomes ++ [[last]]) w' ∧
      (reclaim = true → (∃ f, last.result = .error f) ∧ ∃ b, w'.conduct = { wrapped := b }) ∧
      (reclaim = false → ∃ seen, last.result = .ok seen) := by
  obtain ⟨ws, w, outcomes, w₁, hmake, hlines, hitems, ⟨b, hconduct⟩, hdead, hkept⟩ :=
    exists_overcounted reclaim hm
  obtain ⟨e, hread⟩ := read_name w₁
  -- what is left is to see the outcome of the last line
  suffices h : ∃ last w', observeLine (.ofDepth Engine.depth) ws "f" w₁ = .ok [last] w' ∧
      (reclaim = true → (∃ f, last.result = .error f) ∧ ∃ b, w'.conduct = { wrapped := b }) ∧
      (reclaim = false → ∃ seen, last.result = .ok seen) by
    obtain ⟨last, w', hline, hlast⟩ := h
    refine ⟨outcomes, last, w', ?_, hlast⟩
    rw [observe, bind_ok hmake, observeLines_append, bind_ok hlines]
    rw [observeLines, bind_assoc, bind_ok hline]
    rfl
  cases reclaim with
  | true =>
    obtain ⟨f, w', hvalue, hl⟩ :=
      observeValue_name_of_dead (.ofDepth Engine.depth) (w := w₁.record e) hitems (hdead rfl)
    refine ⟨_, _, observeLine_of_error hread hvalue, fun _ => ⟨⟨f, rfl⟩, ?_⟩, fun h => by cases h⟩
    obtain ⟨b', hb'⟩ := hl.conduct
    refine ⟨b', ?_⟩
    show w'.conduct = _
    rw [hb']
    show { w₁.conduct with wrapped := b' } = _
    rw [hconduct]
  | false =>
    obtain ⟨seen, w', hvalue⟩ := observeValue_name_of_rebound (.ofDepth Engine.depth)
      (w := w₁.record e) hitems (hkept rfl)
    exact ⟨_, _, observeLine_of_ok hread hvalue, (fun h => by cases h), fun _ => ⟨seen, rfl⟩⟩

end

/-! ### Observing is sound -/

theorem sound_observeAll (he : engine.Sound True) (ds : List Datum) (hb : w.Books (0 + C))
    (hne : ws.scopes.items ≠ []) (hs : ws.share ⊆ C) :
    (observeAll engine ws ds).Sound True C S w (fun _ => 0) 0 := by
  induction ds generalizing w with
  | nil => exact .pure hb
  | cons d ds ih =>
    have hvalue : (observeValue engine ws d).Sound True (0 + C) S w (fun _ => 0) 0 := by
      rw [zero_add]
      exact sound_observeValue he d hb hne hs
    refine hvalue.attempt.bind fun {result w1} _ hb1 _ => ?_
    have hb2 : w1.Books (0 + C) := hb1.cast (by cases result <;> simp)
    -- the record reads the output, which the mirror shares
    refine .get_bind ?_ fun _ u hm _ _ => by rw [hm.output]
    cases result with
    | ok seen => exact (ih hb2).bind fun _ hb3 _ => .pure hb3
    | error f => exact .pure hb2

theorem sound_observeLine (he : engine.Sound True) (text : Text) (hb : w.Books (0 + C))
    (hne : ws.scopes.items ≠ []) (hs : ws.share ⊆ C) :
    (observeLine engine ws text).Sound True C S w (fun _ => 0) 0 := by
  have hread : (read text).Sound True (0 + C) S w (fun _ => 0) 0 :=
    sound_read text (hb.cast (zero_add _))
  have htext : (observeText engine ws text).Sound True C S w (fun _ => 0) 0 := by
    refine hread.attempt.bind fun {result w1} _ hb1 _ => ?_
    have hb2 : w1.Books (0 + C) := hb1.cast (by cases result <;> simp)
    cases result with
    | ok ds => exact sound_observeAll he ds hb2 hne hs
    | error f => exact .get_bind (.pure hb2) fun _ u hm _ _ => by rw [hm.output]
  refine htext.bind fun {outcomes w1} _ hb1 _ => ?_
  have hreport : (reportFailure outcomes).Sound True C S w1 (fun _ => 0) 0 := by
    unfold reportFailure
    split
    · exact Sound.print _ hb1
    · exact .pure hb1
  exact hreport.bind fun _ hb2 _ => .pure hb2

theorem sound_observeLines (he : engine.Sound True) (lines : List Text) (hb : w.Books (0 + C))
    (hne : ws.scopes.items ≠ []) (hs : ws.share ⊆ C) :
    (observeLines engine ws lines).Sound True C S w (fun _ => 0) 0 := by
  induction lines generalizing w with
  | nil => exact .pure hb
  | cons text rest ih =>
    exact (sound_observeLine he text hb hne hs).bind fun _ hb1 _ =>
      (ih hb1).bind fun _ hb2 _ => .pure hb2

section

variable {n : Nat} {tables : List Builtin.Table} {lines : List Text}

theorem final_observe {w1 : World} (h : Workspace.make tables w = .ok ws w1) :
    (observe n tables lines).final w = (observeLines (.ofDepth n) ws lines).final w1 := by
  simp only [final, observe, bind_ok h]

/-- The lines of a session after its workspace has been made. -/
theorem sound_observeLines_of_make {w1 : World} (hw : w.Fresh)
    (h : Workspace.make tables w = .ok ws w1) :
    (observeLines (.ofDepth n) ws lines).Sound True ws.share 0 w1 (fun _ => 0) 0 := by
  have hmake : (Workspace.make tables).Sound True 0 0 w Workspace.share 0 :=
    Workspace.sound_make tables hw.books
  exact sound_observeLines (Engine.sound_ofDepth n) lines ((hmake.ok h).cast (add_comm _ _))
    (by simp [Workspace.make_scopes h]) fun _ hx => hx

/-- The world after a session comes after the one in which its workspace was made. -/
theorem leads_observe (hw : w.Fresh) :
    ((Workspace.make tables).final w).Leads True ((observe n tables lines).final w) := by
  cases hm : Workspace.make tables w with
  | ok ws w1 =>
    rw [final_ok hm, final_observe hm]
    exact (sound_observeLines_of_make hw hm).leads
  | error e w1 =>
    have hrun : observe n tables lines w = .error e w1 := bind_error hm
    rw [final_error hm, final_error hrun]
    exact .refl True w1

/-- A session agrees with the one in which nothing is reclaimed. -/
theorem agree_observe (hw : w.Fresh) (ht : ((observe n tables lines).final w).conduct.Tame) :
    Agree (observe n tables lines w) (observe n tables lines { w with reclaim := false }) := by
  have hmake : (Workspace.make tables).Sound True 0 0 w Workspace.share 0 :=
    Workspace.sound_make tables hw.books
  have hnone : ∀ k : Heap, k.Keeps 0 := fun _ => by simp
  -- nothing is lent from outside: the workspace owns the scope that everything runs in
  refine (hmake.same trivial _ w.mirrors_self ((leads_observe hw).conduct.tame ht) (hnone _)
    (hnone _)).bind fun hm hmirror => ?_
  exact (sound_observeLines_of_make hw hm).same trivial _ hmirror (final_observe hm ▸ ht) (hnone _)
    (hnone _)

theorem unfailing_observe : (observe n tables lines).Unfailing := by
  have hinstall : ∀ s t, (Workspace.install s t).Unfailing := fun s t => by
    induction t with
    | nil => exact .pure _
    | cons e rest ih =>
      have hmake : (Object.make (.lambda (.library e.2))).Unfailing := fun _ _ _ h => by cases h
      exact hmake.bind fun _ => (Unfailing.attempt _).bind fun _ => (Unfailing.modify _).bind
        fun _ => ih
  have hmake : (Workspace.make tables).Unfailing := by
    refine (Unfailing.modify _).bind fun _ => Unfailing.bind (fun _ _ _ h => by cases h) fun p => ?_
    exact (hinstall _ _).bind fun _ => Unfailing.get.bind fun _ => (Unfailing.modify _).bind
      fun _ => .pure _
  have hreport : ∀ outcomes, (reportFailure outcomes).Unfailing := fun outcomes => by
    unfold reportFailure
    split
    · exact .modify _
    · exact .pure _
  have hline : ∀ ws text, (observeLine (.ofDepth n) ws text).Unfailing := fun ws text =>
    (unfailing_observeText text).bind fun outcomes => (hreport outcomes).bind fun _ => .pure _
  refine hmake.bind fun ws => ?_
  induction lines with
  | nil => exact .pure _
  | cons text rest ih => exact (hline ws text).bind fun _ => ih.bind fun _ => .pure _

/-- **Counting cannot be noticed.** If a session of expressions comes to an end, in which `apply` is
not called and no thunk is evaluated while it is being evaluated, then every expression has the same
outcome in the session in which nothing is reclaimed: a value of the same type with the same printed
form, or the same failure, and the same has been printed. If the one session stops because a value
is missing, so does the other. No count of an object may be at its maximum, and none of a scope may
have started again from zero. -/
theorem observe_reclaim (hw : w.Fresh)
    (hends : ∀ w', observe n tables lines w ≠ .error .exhausted w')
    (hcount : ∀ w', observe n tables lines w ≠ .error (.breach Object.overflowBreach.text) w')
    (happlied : ((observe n tables lines).final w).conduct.applied = false)
    (hreentered : ((observe n tables lines).final w).conduct.reentered = false)
    (hwrapped : ((observe n tables lines).final w).conduct.wrapped = false) :
    (∃ outcomes w' u', observe n tables lines w = .ok outcomes w' ∧
      observe n tables lines { w with reclaim := false } = .ok outcomes u' ∧
      u'.output = w'.output) ∨
    ∃ w' u', observe n tables lines w = .error .fault w' ∧
      observe n tables lines { w with reclaim := false } = .error .fault u' ∧
      u'.output = w'.output := by
  have hmake : (Workspace.make tables).Sound True 0 0 w Workspace.share 0 :=
    Workspace.sound_make tables hw.books
  have hleads : w.Leads True ((observe n tables lines).final w) :=
    hmake.leads.trans (leads_observe hw)
  -- nothing is left without owner as long as no arguments come out of a list
  have horphaned : ((observe n tables lines).final w).conduct.orphaned = false := by
    by_contra h
    rcases hleads.conduct.spread (by simpa using h) with h | h
    · rw [hw.conduct] at h
      cases h
    · rw [happlied] at h
      cases h
  have hagree := agree_observe hw ⟨hreentered, horphaned, hwrapped⟩
  generalize hrun : observe n tables lines w = r at hagree
  generalize hbare : observe n tables lines { w with reclaim := false } = r' at hagree
  cases hagree with
  | @ok outcomes w' u' hm => exact .inl ⟨outcomes, w', u', rfl, rfl, hm.output⟩
  | @error e w' u' he hm =>
    cases e with
    | failure f => exact absurd hrun (unfailing_observe w f w')
    | breach m => exact he.elim
    | fault => exact .inr ⟨w', u', rfl, rfl, hm.output⟩
    | exhausted => exact absurd hrun (hends w')
  | @overflow w' _ => exact absurd hrun (hcount w')

end

/-- A session with functions that share state, lists that are changed, thunks, output and
failures. -/
def mixedSession : List Text :=
  ["(define make (lambda (n) (lambda () (begin (set! n (+ n 1)) n))))", "(define c (make 5))",
    "(c)", "(list (c) (delay (c)))", "(define l (list 1 '(2 \"x\") (c)))",
    "(set-car! (cdr l) (cdr (cdr l))) (car l)",
    "(define p (delay (begin (display l) (set! l 0) 'done)))", "(force p) (force p)",
    "(begin (set-cdr! c 1) 2)", "((lambda (x) x) 1 2)", "(if p l 7) (car"]

set_option maxRecDepth 100000 in
theorem observe_reclaim_mixedSession : ∃ outcomes w' u',
    observe Engine.depth sandbox mixedSession {} = .ok outcomes w' ∧ w'.conduct = {} ∧
    observe Engine.depth sandbox mixedSession { reclaim := false } = .ok outcomes u' ∧
    u'.output = w'.output := by
  have hrun : (match observe Engine.depth sandbox mixedSession {} with
      | .ok _ w' => decide (w'.conduct = {})
      | .error _ _ => false) = true := by decide +kernel
  split at hrun
  · next outcomes w' hok =>
    have hmarks := of_decide_eq_true hrun
    have hfinal := final_ok hok
    have hends : ∀ e w'', observe Engine.depth sandbox mixedSession {} ≠ .error e w'' := by
      intro e w'' h
      rw [hok] at h
      cases h
    obtain ⟨outcomes', w'', u', h1, h2, h3⟩ | ⟨w'', u', h1, -⟩ :=
      observe_reclaim (w := {}) ⟨rfl, rfl, rfl, rfl⟩ (hends _) (hends _) (by rw [hfinal, hmarks])
        (by rw [hfinal, hmarks]) (by rw [hfinal, hmarks])
    · rw [hok] at h1
      cases h1
      exact ⟨outcomes, w', u', hok, hmarks, h2, h3⟩
    · rw [hok] at h1
      cases h1
  · cases hrun

/-- With more owners than can be counted it can be noticed: a function is called as often as can be
counted, and then its name gets another value. This destroys the global scope, and the name is not
found any more. -/
theorem observe_reclaim_overcounted : ∃ outcomes outcomes' w' u',
    observe Engine.depth sandbox (overcounted 4294967295 ++ [Text.ofString "f"]) {} =
      .ok outcomes w' ∧
    observe Engine.depth sandbox (overcounted 4294967295 ++ [Text.ofString "f"])
      { reclaim := false } = .ok outcomes' u' ∧
    w'.conduct.applied = false ∧ w'.conduct.reentered = false ∧ outcomes ≠ outcomes' := by
  have key : ∀ m, 2 + UInt32.ofNat m = 1 → ∃ outcomes outcomes' w' u',
      observe Engine.depth sandbox (overcounted m ++ [Text.ofString "f"]) {} = .ok outcomes w' ∧
      observe Engine.depth sandbox (overcounted m ++ [Text.ofString "f"]) { reclaim := false } =
        .ok outcomes' u' ∧
      w'.conduct.applied = false ∧ w'.conduct.reentered = false ∧ outcomes ≠ outcomes' := by
    intro m hm
    obtain ⟨outcomes, last, w', hrun, hdead, -⟩ := exists_observe_overcounted true hm
    obtain ⟨outcomes', last', u', hrun', -, hkept⟩ := exists_observe_overcounted false hm
    obtain ⟨⟨f, hf⟩, b, hb⟩ := hdead rfl
    obtain ⟨seen, hseen⟩ := hkept rfl
    refine ⟨_, _, w', u', hrun, hrun', by rw [hb], by rw [hb], fun h => ?_⟩
    have hlast : [last] = [last'] := List.singleton_inj.1 (List.append_inj_right' h rfl)
    cases hlast
    rw [hf] at hseen
    cases hseen
  exact key _ (by decide)

end Session

end CountedLisp
