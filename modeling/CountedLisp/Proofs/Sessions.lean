import CountedLisp.Sandbox.Session
import CountedLisp.Proofs.Workspaces

/-!
# Counts and safety in sessions

A line of expressions is sound like everything that it evaluates. Commands do nothing but print,
start a scope or end one. So every line, however it ends, leaves behind a workspace that is in use
(`Workspace.InUse`): the stack owns its scopes, and nothing that is owned has been forgotten.

Two results follow for every session, whatever lines it takes. Counts are never too low, so nothing
is destroyed as long as it has an owner that lives. And nothing destroyed is reached, unless a thunk
is evaluated while it is being evaluated or a call gets its arguments out of a list that loses them
meanwhile.
-/

namespace CountedLisp

open Run

variable {P : Prop} {B C S : Share} {w w' : World} {engine : Engine} {ws : Workspace}

/-! ### Reading -/

theorem Token.reportsLoss_scan {found : List Token} {offset column : Nat} {text : Text}
    {f : Failure} (h : scan found offset column text = .error f) : f.reportsLoss = false := by
  obtain ⟨_, rfl⟩ := scan_error_plain h
  rfl

theorem Datum.reportsLoss_readRest {done : List Datum} {frames : List Frame} {tokens : List Token}
    {f : Failure} (h : readRest done frames tokens = .error f) : f.reportsLoss = false := by
  obtain ⟨_, rfl⟩ := readRest_error_plain h
  rfl

namespace Session

theorem sound_tokenize (text : Text) (hb : w.Books (0 + C)) :
    (tokenize text).Sound P C S w (fun _ => 0) 0 :=
  (Reads.ofExcept fun _ => Token.reportsLoss_scan).bind hb fun _ =>
    (Sound.trace _ _ _ _ hb).bind fun _ hb1 _ => .pure hb1

theorem sound_read (text : Text) (hb : w.Books (0 + C)) :
    (read text).Sound P C S w (fun _ => 0) 0 :=
  (sound_tokenize text hb).bind fun _ hb1 _ =>
    (Reads.ofExcept fun _ => Datum.reportsLoss_readRest).sound hb1 fun _ => hb1

/-! ### Expressions -/

/-- A run after printing to a text, which does not fail. -/
theorem sound_print {α : Type} {k : Text → Run α} {G : α → Share} {r : Ref} {D : Share}
    (hb : w.Books (D + C)) (hr : w.Sees S (Share.ref r))
    (hk : ∀ t, (k t).Sound P C S w G B) : (Object.print r >>= k).Sound P C S w G B := by
  have h : (Run.orExhausted (w.heap.print? r) >>= k).Sound P C S w G B := by
    cases w.heap.print? r with
    | none => exact (Sound.halt (e := .exhausted) (G := fun _ => 0) trivial rfl hb).bind nofun
    | some t => exact hk t
  refine h.congr rfl fun _ u hm ht hS => ?_
  change (Run.orExhausted (u.heap.print? r) >>= k) u = _
  rw [hm.heap.print? (hb.closed ht.wrapped) (hr ht hS)]

/-- A value that is owned is printed. -/
theorem sound_printResult {r : Ref} (hb : w.Books (Share.ref r + C)) :
    (printResult r).Sound P C S w (fun _ => Share.ref r) B := by
  have hr : w.Sees S (Share.ref r) := hb.sees_of_subset fun x hx => by simp [hx]
  refine .get_bind ?_ fun _ u hm ht hS => ?_
  · split
    · exact .halt trivial rfl hb
    · split
      · exact .pure hb
      · refine (Sound.logs (fun w => ⟨_, rfl⟩) (G := fun _ => Share.ref r) hb).bind
          fun {_ w1} h1 hb1 _ => ?_
        exact sound_print hb1 (hb1.sees_of_subset fun x hx => by simp [hx]) fun t =>
          Sound.print _ hb1
  · obtain ⟨h1, h2⟩ | ⟨o, n, h1, -, h2⟩ := hm.heap.get? (hr ht hS) <;> simp only [h1, h2]
    rfl

/-- A run in the innermost active scope, which is owned. -/
theorem sound_current {α : Type} {k : ScopeId → Run α} {G : α → Share} (hne : ws.scopes.items ≠ [])
    (hs : ws.share ⊆ C)
    (hk : ∀ {s}, Share.scope (some s) ⊆ S + C → (k s).Sound P C S w G B) :
    (ws.current >>= k).Sound P C S w G B := by
  cases hitems : ws.scopes.items with
  | nil => exact absurd hitems hne
  | cons s rest =>
    rw [Workspace.current_eq hitems]
    refine hk fun x hx => ?_
    obtain rfl := Multiset.mem_singleton.mp hx
    exact Multiset.mem_add.mpr (.inr (hs (Workspace.mem_share.mpr (by simp [hitems]))))

/-- Evaluates an expression, prints the value and gives what can be seen of it. -/
def observeValue (engine : Engine) (ws : Workspace) (d : Datum) :
    Run (Option Tag × Option Text) := do
  trace .debug ("eval " ++ d.text)
  let v ← Eval.eval engine (some (← ws.current)) d
  printResult v
  let heap := (← get).heap
  Object.release v
  return ((heap.get? v).map (·.tag), heap.print? v)

theorem evalAll_cons (d : Datum) (ds : List Datum) :
    evalAll engine ws (d :: ds) = (do
      let _ ← observeValue engine ws d
      evalAll engine ws ds) := by
  simp only [evalAll, observeValue, bind_assoc, pure_bind]
  rfl

/-- **An expression** is evaluated in the innermost active scope, and its value is owned until it
has been seen. -/
theorem sound_observeValue (he : engine.Sound True) (d : Datum) (hb : w.Books (0 + C))
    (hne : ws.scopes.items ≠ []) (hs : ws.share ⊆ C) :
    (observeValue engine ws d).Sound True C S w (fun _ => 0) 0 := by
  refine (Sound.trace (G := fun _ => 0) _ _ _ _ hb).bind fun {_ w1} _ hb1 _ => ?_
  refine sound_current hne hs fun {s} hscope => ?_
  refine (Eval.sound_eval he d (hb1.cast (zero_add C).symm) hscope).bind fun {v w2} _ hb2 _ => ?_
  refine (sound_printResult hb2).bind fun {_ w3} _ hb3 _ => ?_
  refine .get_bind ((Object.sound_release hb3).bind fun _ hb4 _ => .pure hb4) fun _ u hm ht hS => ?_
  -- the value is owned, so both worlds see the same of it
  have hlive : w3.heap.Keeps (Share.ref v) := (Heap.keeps_add.mp (hb3.keeps ht.wrapped)).1
  have htag : (u.heap.get? v).map (·.tag) = (w3.heap.get? v).map (·.tag) := by
    obtain ⟨h1, h2⟩ | ⟨o, n, h1, -, h2⟩ := hm.heap.get? hlive <;> simp [h1, h2, Object.tag]
  simp only [htag, hm.heap.print? (hb3.closed ht.wrapped) hlive]

theorem sound_evalAll (he : engine.Sound True) (ds : List Datum) (hb : w.Books (0 + C))
    (hne : ws.scopes.items ≠ []) (hs : ws.share ⊆ C) :
    (evalAll engine ws ds).Sound True C S w (fun _ => 0) 0 := by
  induction ds generalizing w with
  | nil => exact .pure hb
  | cons d ds ih =>
    rw [evalAll_cons]
    exact (sound_observeValue he d hb hne hs).bind fun _ hb1 _ => ih hb1

/-! ### Lines -/

theorem reporting_eq {α : Type} (act : Run α) : reporting act = (do
    match ← act.attempt with
    | .ok a => return a
    | .error f =>
      notify .error f.text
      Run.fail f) := by
  funext w
  simp only [reporting, attempt, bind, EStateM.bind]
  cases act w with
  | ok a w' => rfl
  | error e w' => cases e <;> rfl

theorem reporting_ok {α : Type} {act : Run α} {a : α} (h : reporting act w = .ok a w') :
    act w = .ok a w' := by
  unfold reporting at h
  split at h
  · cases h
  · exact h

theorem reporting_error {α : Type} {act : Run α} {e : Halt} (h : reporting act w = .error e w') :
    ∃ w1 out, act w = .error e w1 ∧ w' = { w1 with output := out } := by
  unfold reporting at h
  split at h
  · next f w1 hw =>
    cases h
    exact ⟨w1, _, hw, rfl⟩
  · exact ⟨w', w'.output, h, rfl⟩

theorem attempt_failure {α : Type} {act : Run α} {f : Failure}
    (h : act.attempt w = .ok (.error f) w') : act w = .error (.failure f) w' := by
  unfold Run.attempt at h
  split at h <;> cases h
  assumption

/-- A failure that is printed. -/
theorem sound_reporting {α : Type} {act : Run α} {G : α → Share} (h : act.Sound P C 0 w G B) :
    (reporting act).Sound P C 0 w G B := by
  have h0 : act.Sound P (0 + C) 0 w G B := by rwa [zero_add]
  rw [reporting_eq]
  refine (Sound.attempt (D := B) h0).bind fun {r w1} h1 hb1 _ => ?_
  simp only [add_zero] at hb1
  cases r with
  | ok a => exact .pure hb1
  | error f =>
    refine (Sound.print (G := fun _ => B) _ hb1).bind fun {_ w2} h2 hb2 _ => ?_
    cases h2
    refine .fail hb2 fun hP ht _ => ?_
    -- the failure told of no loss before it was printed
    obtain hf | hf := h.noLoss hP (attempt_failure h1) ht
    · exact hf
    · cases hf

/-- A line that is no command is read and evaluated. -/
theorem line_eq {text : Text} (ht : text.head? ≠ some (Text.byte ':')) :
    line engine ws text = reporting (do
      evalAll engine ws (← read text)
      return (false, ws)) := by
  cases text with
  | nil => rfl
  | cons b rest =>
    have hb : b ≠ Text.byte ':' := fun h => ht (by rw [h]; rfl)
    simp only [line, hb, if_false]

/-- Expressions do not change the stack. -/
theorem line_same {text : Text} (ht : text.head? ≠ some (Text.byte ':')) {p : Bool × Workspace}
    (h : line engine ws text w = .ok p w') : p.2 = ws := by
  rw [line_eq ht] at h
  obtain ⟨_, _, -, h1⟩ := of_bind_ok (reporting_ok h)
  obtain ⟨_, _, -, h2⟩ := of_bind_ok h1
  cases h2
  rfl

/-- A line that starts with a colon is a command. -/
theorem line_colon {text : Text} (ht : text.head? = some (Text.byte ':')) :
    line engine ws text = reporting (command ws (.ofWords (Text.fields text.tail))) := by
  cases text with
  | nil => cases ht
  | cons b rest =>
    obtain rfl := Option.some.inj ht
    simp only [line, if_true, List.tail_cons]

/-- **A line of expressions.** -/
theorem sound_line (he : engine.Sound True) {text : Text} (hb : w.Books (0 + C))
    (hne : ws.scopes.items ≠ []) (hs : ws.share ⊆ C)
    (ht : text.head? ≠ some (Text.byte ':')) :
    (line engine ws text).Sound True C 0 w (fun _ => 0) 0 := by
  rw [line_eq ht]
  refine sound_reporting ((sound_read text hb).bind fun {ds w1} _ hb1 _ => ?_)
  exact (sound_evalAll he ds hb1 hne hs).bind fun _ hb2 _ => .pure hb2

end Session

/-! ### Runs that only print -/

/-- A run that changes nothing but what is printed and logged. -/
def Run.Quiet {α : Type} (act : Run α) : Prop :=
  ∀ w, ∃ out log, act.final w = { w with output := out, log := log }

namespace Run.Quiet

variable {α β : Type}

protected theorem pure (a : α) : (pure a : Run α).Quiet := fun w => ⟨w.output, w.log, rfl⟩

protected theorem throw (e : Halt) : (throw e : Run α).Quiet := fun w => ⟨w.output, w.log, rfl⟩

protected theorem get : (get : Run World).Quiet := fun w => ⟨w.output, w.log, rfl⟩

protected theorem print (t : Text) : (Run.print t).Quiet := fun w => ⟨_, w.log, rfl⟩

protected theorem record (e : Event) : (modify (World.record e) : Run PUnit).Quiet := fun w =>
  ⟨w.output, _, rfl⟩

protected theorem bind {act : Run α} {k : α → Run β} (h : act.Quiet) (hk : ∀ a, (k a).Quiet) :
    (act >>= k).Quiet := fun w => by
  obtain ⟨out, log, hw⟩ := h w
  cases ha : act w with
  | error e w' =>
    rw [final_error ha] at hw
    exact ⟨out, log, by rw [final_error (bind_error ha), hw]⟩
  | ok a w' =>
    rw [final_ok ha] at hw
    obtain ⟨out', log', hk'⟩ := hk a w'
    refine ⟨out', log', ?_⟩
    have hfinal : (act >>= k).final w = (k a).final w' := by simp [final, bind_ok ha]
    rw [hfinal, hk', hw]

protected theorem orExhausted (x : Option α) : (Run.orExhausted x).Quiet := by
  cases x with
  | some a => exact .pure a
  | none => exact .throw _

end Run.Quiet

theorem Object.quiet_print (r : Ref) : (Object.print r).Quiet :=
  Quiet.get.bind fun _ => .orExhausted _

theorem Workspace.quiet_current (ws : Workspace) : ws.current.Quiet := by
  unfold current
  split
  · exact .pure _
  · exact .throw _

namespace ScopeTree

theorem quiet_bindingLines (b : List (Text × Ref)) : (bindingLines b).Quiet := by
  induction b with
  | nil => exact .pure _
  | cons e rest ih =>
    obtain ⟨name, value⟩ := e
    have hline : (bindingLine name value).Quiet :=
      Quiet.get.bind fun _ => (Object.quiet_print value).bind fun _ => .pure _
    exact hline.bind fun _ => ih.bind fun _ => .pure _

theorem quiet_build (hidden : Option ScopeId) (ids : List ScopeId) : (build hidden ids).Quiet := by
  induction ids with
  | nil => exact .pure _
  | cons id inner ih =>
    refine Quiet.get.bind fun w => ?_
    split
    · exact ih
    · dsimp only
      split
      · exact ih.bind fun _ => .pure _
      · exact (quiet_bindingLines _).bind fun _ => ih.bind fun _ => .pure _

theorem quiet_print (ws : Workspace) (all : Bool) : (print ws all).Quiet :=
  ws.quiet_current.bind fun _ => Quiet.get.bind fun _ => (quiet_build _ _).bind fun _ =>
    Quiet.get.bind fun _ => (Quiet.print _).bind fun _ => .print _

end ScopeTree

/-! ### Workspaces in use -/

/-- The books are right for a workspace: its stack owns its scopes, and what else is owned from
outside the heap has been lost. -/
structure Workspace.InUse (ws : Workspace) (w : World) : Prop where
  items : ws.scopes.items ≠ []
  books : ∃ L, w.Books (L + ws.share)

namespace Session

/-- However a line or a command ends, there is a workspace in use. -/
structure Leaves (act : Run (Bool × Workspace)) (ws : Workspace) (w : World) : Prop where
  ok : ∀ {p w'}, act w = .ok p w' → p.2.InUse w'
  error : ∀ {e w'}, act w = .error e w' → ws.InUse w'

theorem Leaves.of_quiet {act : Run (Bool × Workspace)} (hq : act.Quiet)
    (hp : ∀ {p w'}, act w = .ok p w' → p.2 = ws) (h : ws.InUse w) : Leaves act ws w := by
  obtain ⟨out, log, hfinal⟩ := hq w
  obtain ⟨L, hL⟩ := h.books
  have hbooks : (act.final w).Books (L + ws.share) := by
    rw [hfinal]
    exact hL.output out log
  refine ⟨fun hok => ?_, fun he => ⟨h.items, L, final_error he ▸ hbooks⟩⟩
  rw [hp hok]
  exact ⟨h.items, L, final_ok hok ▸ hbooks⟩

theorem quiet_printLibraries (libs : List Text) : (printLibraries libs).Quiet := by
  induction libs with
  | nil => exact .pure _
  | cons lib rest ih => exact Quiet.get.bind fun _ => (Quiet.print _).bind fun _ => ih

theorem leaves_push (h : ws.InUse w) : Leaves (command ws .push) ws w := by
  obtain ⟨L, hL⟩ := h.books
  have hpush : ws.pushScope.Sound True (L + ws.share) 0 w (fun p => Share.scope (some p.1)) 0 :=
    Workspace.sound_pushScope (hL.cast (zero_add _)) (fun _ _ => Workspace.sees_top
      (hL.cast (zero_add _)) (Multiset.subset_of_le (Multiset.le_add_left _ _))) fun _ => h.items
  have hcommand : (command ws .push).Sound True (L + ws.share) 0 w
      (fun p => Share.scope p.2.scopes.items.head?) 0 := by
    refine hpush.bind fun {p w1} hp hb1 _ => ?_
    obtain ⟨s, ws'⟩ := p
    obtain rfl := Workspace.pushScope_ok hp
    refine Scope.sound_nameOf (hb1.sees_of_subset fun x hx => by simp [hx]) fun name => ?_
    exact (Sound.print (G := fun _ => Share.scope (some s)) _ hb1).bind fun _ hb2 _ => .pure hb2
  refine ⟨fun {p w'} hok => ?_, fun he => ?_⟩
  · obtain ⟨⟨s, ws'⟩, w1, hp, hrest⟩ := of_bind_ok hok
    obtain ⟨_, _, -, hrest⟩ := of_bind_ok hrest
    obtain ⟨_, _, -, hrest⟩ := of_bind_ok hrest
    cases hrest
    obtain rfl := Workspace.pushScope_ok hp
    refine ⟨List.cons_ne_nil _ _, L, (hcommand.ok hok).cast ?_⟩
    rw [Workspace.share_push, add_left_comm]
    rfl
  · -- a breach in between: what the command owned is lost with it
    obtain ⟨L', hL'⟩ := hcommand.halted trivial he
    exact ⟨h.items, L' + L, hL'.cast (add_assoc _ _ _)⟩

theorem leaves_pop (h : ws.InUse w) : Leaves (command ws .pop) ws w := by
  obtain ⟨L, hL⟩ := h.books
  have hpop : ws.popScope.Sound True L 0 w Workspace.share ws.share :=
    Workspace.sound_popScope (hL.cast (add_comm _ _))
  refine ⟨fun {p w'} hok => ?_, fun {e w'} he => ?_⟩
  · obtain ⟨ws', w1, hp, hrest⟩ := of_bind_ok hok
    cases hrest
    exact ⟨Workspace.popScope_ok hp, L, (hpop.ok hp).cast (add_comm _ _)⟩
  · cases hp : ws.popScope w with
    | ok ws' w1 =>
      rw [command, bind_ok hp] at he
      cases he
    | error e' w1 =>
      rw [command, bind_error hp] at he
      cases he
      rw [Workspace.popScope_error hp]
      exact h

/-- All other commands do nothing but print, and leave the workspace as it is. -/
theorem quiet_command (ws : Workspace) {c : Command} (hpush : c ≠ .push) (hpop : c ≠ .pop) :
    (command ws c).Quiet ∧ ∀ {w p w'}, command ws c w = .ok p w' → p.2 = ws := by
  have hafter : ∀ {act : Run Unit} {b : Bool}, act.Quiet →
      (act >>= fun _ => pure (b, ws)).Quiet ∧
        ∀ {w p w'}, (act >>= fun _ => pure (b, ws)) w = .ok p w' → p.2 = ws := by
    refine fun hact => ⟨hact.bind fun _ => .pure _, fun hp => ?_⟩
    obtain ⟨_, _, -, hp⟩ := of_bind_ok hp
    cases hp
    rfl
  cases c with
  | push => exact absurd rfl hpush
  | pop => exact absurd rfl hpop
  | nothing => exact ⟨.pure _, fun hp => by cases hp; rfl⟩
  | quit => exact ⟨.pure _, fun hp => by cases hp; rfl⟩
  | scopes all => exact hafter (ScopeTree.quiet_print ws all)
  | trace level =>
    cases level with
    | none => exact ⟨.pure _, fun hp => by cases hp; rfl⟩
    | some name =>
      exact hafter ((Quiet.record _).bind fun _ => (Quiet.record _).bind fun _ => .record _)
  | libraries => exact hafter (quiet_printLibraries _)
  | unknown name => exact ⟨.throw _, nofun⟩

theorem leaves_command (h : ws.InUse w) (c : Command) : Leaves (command ws c) ws w := by
  have hother : c ≠ .push → c ≠ .pop → Leaves (command ws c) ws w := fun hpush hpop =>
    .of_quiet (quiet_command ws hpush hpop).1 (quiet_command ws hpush hpop).2 h
  cases c with
  | push => exact leaves_push h
  | pop => exact leaves_pop h
  | _ => exact hother nofun nofun

theorem Leaves.reporting {act : Run (Bool × Workspace)} (h : Leaves act ws w) :
    Leaves (Session.reporting act) ws w := by
  refine ⟨fun hok => h.ok (reporting_ok hok), fun he => ?_⟩
  obtain ⟨w1, out, hw, rfl⟩ := reporting_error he
  obtain ⟨hitems, L, hL⟩ := h.error hw
  exact ⟨hitems, L, hL.output out w1.log⟩

/-- **A line**, be it a command or not, leaves a workspace in use. -/
theorem leaves_line (he : engine.Sound True) (h : ws.InUse w) (text : Text) :
    Leaves (line engine ws text) ws w := by
  by_cases ht : text.head? = some (Text.byte ':')
  · rw [line_colon ht]
    exact (leaves_command h _).reporting
  · obtain ⟨L, hL⟩ := h.books
    have hline := sound_line he (hL.cast (zero_add _)) h.items
      (Multiset.subset_of_le (Multiset.le_add_left _ _)) ht
    refine ⟨fun {p w'} hok => ?_, fun he => ?_⟩
    · rw [line_same ht hok]
      exact ⟨h.items, L, (hline.ok hok).cast (zero_add _).symm⟩
    · obtain ⟨L', hL'⟩ := hline.halted trivial he
      exact ⟨h.items, L' + L, hL'.cast (add_assoc _ _ _)⟩

/-! ### Sessions -/

/-- The workspace and the world after lines. A line that stops early leaves the workspace as it was.
Calls and thunks are nested at most `n` levels deep. -/
def after (n : Nat) (ws : Workspace) (w : World) : List Text → Workspace × World
  | [] => (ws, w)
  | text :: rest =>
    match line (.ofDepth n) ws text w with
    | .ok (_, ws') w' => after n ws' w' rest
    | .error _ w' => after n ws w' rest

theorem inUse_after {n : Nat} (h : ws.InUse w) (lines : List Text) :
    (after n ws w lines).1.InUse (after n ws w lines).2 := by
  induction lines generalizing ws w with
  | nil => exact h
  | cons text rest ih =>
    -- the step is one line; the invariant is that the workspace is in use
    have hleaves := leaves_line (Engine.sound_ofDepth n) h text
    unfold after
    split
    · next hok => exact ih (hleaves.ok hok)
    · next he => exact ih (hleaves.error he)

/-- A session starts with a new workspace. -/
theorem inUse_make {tables : List Builtin.Table} {w₀ : World} (hw : w₀.Fresh)
    (h : Workspace.make tables w₀ = .ok ws w) : ws.InUse w := by
  have hmake : (Workspace.make tables).Sound True 0 0 w₀ Workspace.share 0 :=
    Workspace.sound_make tables hw.books
  exact ⟨by simp [Workspace.make_scopes h], 0, (hmake.ok h).cast (add_comm _ _)⟩

/-! ### Nothing is destroyed that has an owner -/

/-- **Counts cover owners.** Whatever lines a session has taken, the count of every living object
except for the empty list is at least the number of references to it that living objects and scopes
own, and for scopes the entries on the stack come on top of these. So nothing that lives refers to
anything destroyed. -/
theorem owners_le_count {n : Nat} {tables : List Builtin.Table} {w₀ w w' : World}
    {ws ws' : Workspace} {lines : List Text} (hw : w₀.Fresh)
    (hmake : Workspace.make tables w₀ = .ok ws w) (hrun : after n ws w lines = (ws', w'))
    (hwrapped : w'.conduct.wrapped = false) :
    (∀ id o, w'.heap.object? id = some o → o.dead = false → o.payload.isImmortal = false →
      w'.heap.owners (.object id) ≤ o.refs.toNat) ∧
    (∀ id x, w'.heap.scope? id = some x → x.dead = false →
      w'.heap.owners (.scope id) + ws'.scopes.items.count id ≤ x.refs.toNat) ∧
    (∀ id o, w'.heap.object? id = some o → o.dead = false →
      ∀ r ∈ o.payload.owned, w'.heap.Lives r) ∧
    (∀ id x, w'.heap.scope? id = some x → x.dead = false → ∀ r ∈ x.owned, w'.heap.Lives r) := by
  have huse : ws'.InUse w' := by
    have h := inUse_after (n := n) (inUse_make hw hmake) lines
    rwa [hrun] at h
  obtain ⟨-, L, hL⟩ := huse
  -- the books are right for stack, lost references and owners together
  obtain ⟨L', -, ha⟩ := hL.accounts
  have ha := ha hwrapped
  refine ⟨fun id o ho _ hi => ?_, fun id x hx _ => ?_, fun id o ho hd r hr => ?_,
    fun id x hx hd r hr => ?_⟩
  · rw [ha.object_count ho hi]
    exact Nat.le_add_left _ _
  · rw [ha.scope_count hx, Multiset.count_add, Multiset.count_add, ws'.count_share_scope]
    omega
  · exact ha.lives_of_object ho hd hr
  · exact ha.lives_of_scope hx hd hr

/-- The tables of the sandbox. -/
def sandbox : List Builtin.Table :=
  [Builtin.foreign, Builtin.sandbox]

/-- What a session in the sandbox that was run through ends with. -/
theorem exists_of_run {p : Workspace → World → Bool}
    (h : (match Workspace.make sandbox {} with
      | .ok ws w => p ws w
      | .error _ _ => false) = true) :
    ∃ ws w, Workspace.make sandbox {} = .ok ws w ∧ p ws w = true := by
  split at h
  · next ws w hmake => exact ⟨ws, w, hmake, h⟩
  · cases h

/-- A session with a cycle, a thunk that is evaluated within its own evaluation, a call that takes
its arguments out of a list, and failures. -/
def cyclicSession : List Text :=
  ["(define l (list 1 2))", "(set-cdr! (cdr l) l)", "(define x 0)",
    "(define p (delay (if (< x 2) (begin (set! x (+ x 1)) (force p)) (list x))))", "(force p)",
    ":push", "(define f (lambda (y) (delay (car y))))", "(apply f (list (f p)))", "(apply car 5)",
    ":pop"]

set_option maxRecDepth 100000 in
theorem owners_le_count_cyclicSession : ∃ (ws ws' : Workspace) (w w' : World),
    Workspace.make sandbox {} = .ok ws w ∧ after Engine.depth ws w cyclicSession = (ws', w') ∧
    w'.conduct = { applied := true, reentered := true } ∧
    (∀ id o, w'.heap.object? id = some o → o.dead = false → o.payload.isImmortal = false →
      w'.heap.owners (.object id) ≤ o.refs.toNat) ∧
    (∀ id x, w'.heap.scope? id = some x → x.dead = false →
      w'.heap.owners (.scope id) + ws'.scopes.items.count id ≤ x.refs.toNat) ∧
    (∀ id o, w'.heap.object? id = some o → o.dead = false →
      ∀ r ∈ o.payload.owned, w'.heap.Lives r) ∧
    (∀ id x, w'.heap.scope? id = some x → x.dead = false → ∀ r ∈ x.owned, w'.heap.Lives r) := by
  obtain ⟨ws, w, hmake, hends⟩ := exists_of_run (p := fun ws w =>
    decide ((after Engine.depth ws w cyclicSession).2.conduct =
      { applied := true, reentered := true }))
    (by decide +kernel)
  have hmarks := of_decide_eq_true hends
  rcases hrun : after Engine.depth ws w cyclicSession with ⟨ws', w'⟩
  rw [hrun] at hmarks
  exact ⟨ws, ws', w, w', hmake, hrun, hmarks,
    owners_le_count ⟨rfl, rfl, rfl, rfl⟩ hmake hrun (by rw [hmarks])⟩

set_option maxRecDepth 100000 in
/-- The empty list is not counted: after two definitions it has more owners than its count says. -/
theorem count_lt_owners_emptyList : ∃ (ws ws' : Workspace) (w w' : World) (o : Object),
    Workspace.make sandbox {} = .ok ws w ∧
    after Engine.depth ws w ["(define a '())", "(define b '())"] = (ws', w') ∧
    w'.conduct = {} ∧ w'.heap.get? Heap.emptyList = some o ∧ o.dead = false ∧
    o.refs.toNat < w'.heap.owners (.object ⟨0⟩) := by
  obtain ⟨ws, w, hmake, hends⟩ := exists_of_run (p := fun ws w =>
    match after Engine.depth ws w ["(define a '())", "(define b '())"] with
    | (_, w') => decide (w'.conduct = {}) && (w'.heap.get? Heap.emptyList).any fun o =>
      !o.dead && decide (o.refs.toNat < w'.heap.owners (.object ⟨0⟩))) (by decide +kernel)
  split at hends
  next ws' w' hrun =>
  simp only [Bool.and_eq_true, decide_eq_true_eq, Option.any_eq_true, Bool.not_eq_true'] at hends
  obtain ⟨hmarks, o, ho, hd, hlt⟩ := hends
  exact ⟨ws, ws', w, w', o, hmake, hrun, hmarks, ho, hd, hlt⟩

/-! ### Nothing destroyed is reached -/

/-- **Safety.** As long as no thunk is evaluated while it is being evaluated, and nothing that a
call takes out of a list is given up by all its owners before the call ends, a line of expressions
breaks no rule of counting, except that a count can be at its maximum, and no failure tells of
anything destroyed. -/
theorem line_no_breach {n : Nat} {tables : List Builtin.Table} {w₀ w w' w'' : World}
    {ws ws' : Workspace} {lines : List Text} {text : Text} {e : Halt} (hw : w₀.Fresh)
    (hmake : Workspace.make tables w₀ = .ok ws w) (hrun : after n ws w lines = (ws', w'))
    (htext : text.head? ≠ some (Text.byte ':'))
    (hline : line (.ofDepth n) ws' text w' = .error e w'')
    (hreentered : w''.conduct.reentered = false) (horphaned : w''.conduct.orphaned = false)
    (hwrapped : w''.conduct.wrapped = false) :
    (∀ m, e = .breach m → m = Object.overflowBreach.text) ∧
      ∀ f, e = .failure f → f.reportsLoss = false := by
  have huse : ws'.InUse w' := by
    have h := inUse_after (n := n) (inUse_make hw hmake) lines
    rwa [hrun] at h
  obtain ⟨hitems, L, hL⟩ := huse
  have hsound := sound_line (Engine.sound_ofDepth n) (hL.cast (zero_add _)) hitems
    (Multiset.subset_of_le (Multiset.le_add_left _ _)) htext
  obtain hb | rfl := hsound.noLoss trivial hline ⟨hreentered, horphaned, hwrapped⟩
  · refine ⟨fun m hm => ?_, fun f hf => ?_⟩
    · subst hm
      exact hb.elim
    · subst hf
      exact hb
  · exact ⟨fun m hm => by cases hm; rfl, nofun⟩

set_option maxRecDepth 100000 in
/-- A call with arguments out of a list that fails, after one that succeeded. -/
theorem line_no_breach_spread : ∃ (ws ws' : Workspace) (w w' w'' : World) (f : Failure),
    Workspace.make sandbox {} = .ok ws w ∧
    after Engine.depth ws w ["(define l (list 1 (delay 2)))", "(apply list l)"] = (ws', w') ∧
    line (.ofDepth Engine.depth) ws' "(apply car 5 l)" w' = .error (.failure f) w'' ∧
    w''.conduct = { applied := true } ∧ f.reportsLoss = false := by
  obtain ⟨ws, w, hmake, hends⟩ := exists_of_run (p := fun ws w =>
    match after Engine.depth ws w ["(define l (list 1 (delay 2)))", "(apply list l)"] with
    | (ws', w') => match line (.ofDepth Engine.depth) ws' "(apply car 5 l)" w' with
      | .error (.failure _) w'' => decide (w''.conduct = { applied := true })
      | .error (.breach _) _ => false
      | .error .fault _ => false
      | .error .exhausted _ => false
      | .ok _ _ => false) (by decide +kernel)
  split at hends
  next ws' w' hrun =>
  split at hends
  · next f w'' hline =>
    have hmarks := of_decide_eq_true hends
    have hsafe := line_no_breach ⟨rfl, rfl, rfl, rfl⟩ hmake hrun (by decide) hline
      (by rw [hmarks]) (by rw [hmarks]) (by rw [hmarks])
    exact ⟨ws, ws', w, w', w'', f, hmake, hrun, hline, hmarks, hsafe.2 f rfl⟩
  · cases hends
  · cases hends
  · cases hends
  · cases hends

set_option maxRecDepth 100000 in
/-- An argument that is taken out of a list can be destroyed before the call has used it: evaluating
the first item of the list replaces the second one, which nobody else owns. No thunk is evaluated
while it is being evaluated. -/
theorem line_breach_spread : ∃ (ws ws' : Workspace) (w w' w'' : World),
    Workspace.make sandbox {} = .ok ws w ∧
    after Engine.depth ws w
      ["(define l (list (delay (delay (begin (set-car! (cdr l) 0) 1))) (cons 1 2)))"] = (ws', w') ∧
    line (.ofDepth Engine.depth) ws' "(apply list l)" w' =
      .error (.breach (Object.releasedBreach .pair).text) w'' ∧
    w''.conduct = { applied := true, orphaned := true } := by
  obtain ⟨ws, w, hmake, hends⟩ := exists_of_run (p := fun ws w =>
    match after Engine.depth ws w
      ["(define l (list (delay (delay (begin (set-car! (cdr l) 0) 1))) (cons 1 2)))"] with
    | (ws', w') => match line (.ofDepth Engine.depth) ws' "(apply list l)" w' with
      | .error (.breach m) w'' => decide (m = (Object.releasedBreach .pair).text) &&
        decide (w''.conduct = { applied := true, orphaned := true })
      | .error (.failure _) _ => false
      | .error .fault _ => false
      | .error .exhausted _ => false
      | .ok _ _ => false) (by decide +kernel)
  split at hends
  next ws' w' hrun =>
  split at hends
  · next m w'' hline =>
    simp only [Bool.and_eq_true, decide_eq_true_eq] at hends
    obtain ⟨rfl, hmarks⟩ := hends
    exact ⟨ws, ws', w, w', w'', hmake, hrun, hline, hmarks⟩
  · cases hends
  · cases hends
  · cases hends
  · cases hends

end Session

end CountedLisp
