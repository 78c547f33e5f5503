import CountedLisp.Proofs.Lineage
import CountedLisp.Proofs.Observation
import Mathlib.Data.List.Chain

/-!
# The stack of scopes in sessions

The active scopes of a workspace are nested: each of them is inside the one below it on the stack,
and the global scope is at the bottom (`Workspace.Stacked`).

A line either leaves the stack as it is, puts a scope on it that is new and inside the topmost one,
or takes the topmost one away (`Session.Turn`). Since scopes stay inside the scopes that they were
made in, the active scopes stay nested whatever is evaluated. That they live is a matter of
counting: the stack owns them.
-/

namespace CountedLisp

open Run

variable {engine : Engine} {ws ws' : Workspace} {w w' : World}

/-! ### Nested scopes -/

/-- The active scopes are nested, as far as they live, with the global scope around all of them. -/
structure Workspace.Stacked (ws : Workspace) (h : Heap) : Prop where
  bottom : ws.scopes.items.getLast? = some ws.globals
  chain : ws.scopes.items.IsChain fun s t =>
    ∃ x, h.scope? s = some x ∧ (x.dead = false → x.parent = some t)

namespace Workspace

/-- Scopes stay where they are. -/
theorem Stacked.moves {p : Prop} {h h' : Heap} (hs : ws.Stacked h) (hm : h.Moves p h') :
    ws.Stacked h' := by
  refine ⟨hs.bottom, hs.chain.imp fun s t hst => ?_⟩
  obtain ⟨x, hx, hparent⟩ := hst
  obtain ⟨x', hx', hkept⟩ := Heap.Anchors.moves hm s x hx
  refine ⟨x', hx', fun hd' => ?_⟩
  obtain ⟨hd, he⟩ := hkept hd'
  rw [he, hparent hd]

theorem stacked_make {tables : List Builtin.Table} (h : make tables w = .ok ws w') :
    ws.Stacked w'.heap := by
  have hitems := make_scopes h
  exact ⟨by simp [hitems], by simp [hitems]⟩

/-- The stack owns its scopes. -/
theorem InUse.lives (h : ws.InUse w) (hw : w.conduct.wrapped = false) {s : ScopeId}
    (hs : s ∈ ws.scopes.items) : w.heap.Lives (.scope s) := by
  obtain ⟨-, L, hL⟩ := h
  exact hL.keeps hw _ (Multiset.mem_add.mpr (.inr (mem_share.mpr hs)))

/-- A scope that is pushed is inside the one that was topmost before. -/
theorem pushScope_parent {s : ScopeId} (h : ws.pushScope w = .ok (s, ws') w') :
    ∃ t rest x, ws.scopes.items = t :: rest ∧ w'.heap.scope? s = some x ∧ x.parent = some t := by
  cases hitems : ws.scopes.items with
  | nil =>
    simp only [pushScope, current, Stack.peek?, hitems] at h
    cases h
  | cons t rest =>
    unfold pushScope at h
    rw [current_eq hitems, pure_bind] at h
    obtain ⟨s', w1, hmake, h⟩ := of_bind_ok h
    obtain ⟨⟨name, serial, registry, hx⟩, -⟩ := Scope.make_ok hmake
    cases h
    exact ⟨t, rest, _, rfl, hx, rfl⟩

/-- There is a new scope inside of a living one whenever it is asked for. -/
theorem pushScope_of_lives {t : ScopeId} {rest : List ScopeId}
    (hitems : ws.scopes.items = t :: rest) (ht : w.heap.Lives (.scope t)) :
    ∃ p w', ws.pushScope w = .ok p w' := by
  obtain ⟨s, w1, hs, -⟩ := Scope.make_of_lives fun q (hq : some t = some q) =>
    Option.some.inj hq ▸ ht
  unfold pushScope
  rw [current_eq hitems, pure_bind, bind_ok hs]
  exact ⟨_, _, rfl⟩

/-- The failure of ending the global scope. -/
def underflow : Failure :=
  .of .indexOutOfRange "pop-scope" "local scope" "stack underflow"

theorem popScope_of_depth_eq_one (h : ws.depth = 1) : ws.popScope = Run.fail underflow := by
  obtain ⟨s, hs⟩ := List.length_eq_one_iff.mp h
  simp only [popScope, hs]
  rfl

end Workspace

/-! ### Relations between the beginning and the end of lines -/

section Respects

variable {R : World → World → Prop} (hR : World.Elementary R)

include hR

theorem Run.Quiet.respects {α : Type} {act : Run α} (hq : act.Quiet) : act.Respects R := by
  intro w
  obtain ⟨out, log, hfinal⟩ := hq w
  rw [hfinal]
  exact hR.silent w log out w.traceRefs

variable [IsPreorder World R]

namespace Session

theorem respects_reporting {α : Type} {act : Run α} (h : act.Respects R) :
    (reporting act).Respects R := by
  rw [reporting_eq]
  refine h.attempt.bind fun r => ?_
  cases r with
  | ok a => exact .pure a
  | error f => exact ((Quiet.print _).respects hR).bind fun _ => .fail f

theorem respects_command (ws : Workspace) (c : Command) : (command ws c).Respects R := by
  have hother : c ≠ .push → c ≠ .pop → (command ws c).Respects R := fun hpush hpop =>
    (quiet_command ws hpush hpop).1.respects hR
  cases c with
  | push =>
    exact (ws.respects_pushScope hR).bind fun p => .reading fun _ =>
      ((Quiet.print _).respects hR).bind fun _ => .pure _
  | pop => exact (ws.respects_popScope hR).bind fun _ => .pure _
  | _ => exact hother nofun nofun

/-- What the operations on the store respect, lines do. -/
theorem respects_line (he : engine.Respects R) (ws : Workspace) (text : Text) :
    (line engine ws text).Respects R := by
  by_cases ht : text.head? = some (Text.byte ':')
  · rw [line_colon ht]
    exact respects_reporting hR (respects_command hR ws _)
  · rw [line_eq ht]
    refine respects_reporting hR (Built.respects hR ?_ he)
    exact (built_read text).bind fun ds => (built_evalAll ws ds).bind fun _ => .pure _

theorem respects_after (n : Nat) (ws : Workspace) (w : World) (lines : List Text) :
    R w (after n ws w lines).2 := by
  induction lines generalizing ws w with
  | nil => exact refl w
  | cons text rest ih =>
    have hline := respects_line hR (Engine.respects_ofDepth hR n) ws text w
    unfold after
    split
    · next h => exact IsTrans.trans w _ _ (final_ok h ▸ hline) (ih _ _)
    · next h => exact IsTrans.trans w _ _ (final_error h ▸ hline) (ih _ _)

end Session

end Respects

namespace Session

/-! ### One line -/

/-- The name of the command that a line gives, if it is one. -/
def commandName? : Text → Option Text
  | b :: rest => if b = Text.byte ':' then (Text.fields rest).head? else none
  | [] => none

/-- Whether a line is to start a scope. -/
def isPush (text : Text) : Bool :=
  commandName? text = some (Text.ofString "push")

/-- Whether a line is to end a scope. -/
def isPop (text : Text) : Bool :=
  commandName? text = some (Text.ofString "pop")

/-- Whether a line ended well, with the workspace and the world after it. -/
def outcome (engine : Engine) (ws : Workspace) (w : World) (text : Text) :
    Bool × Workspace × World :=
  match line engine ws text w with
  | .ok p w' => (true, p.2, w')
  | .error _ w' => (false, ws, w')

theorem after_cons (n : Nat) (ws : Workspace) (w : World) (text : Text) (rest : List Text) :
    after n ws w (text :: rest) = after n (outcome (.ofDepth n) ws w text).2.1
      (outcome (.ofDepth n) ws w text).2.2 rest := by
  rw [after, outcome]
  cases line (.ofDepth n) ws text w <;> rfl

/-- Lines of expressions that are observed leave the world of the session. -/
theorem after_of_observeLines {n : Nat} {lines : List Text} {outcomes : List (List Outcome)}
    (ht : ∀ text ∈ lines, text.head? ≠ some (Text.byte ':'))
    (h : observeLines (.ofDepth n) ws lines w = .ok outcomes w') :
    after n ws w lines = (ws, w') := by
  induction lines generalizing w outcomes with
  | nil =>
    cases h
    rfl
  | cons text rest ih =>
    rw [observeLines] at h
    obtain ⟨first, w₁, hfirst, h⟩ := of_bind_ok h
    obtain ⟨later, w₂, hlater, h⟩ := of_bind_ok h
    cases h
    have hrest := ih (fun t hmem => ht t (List.mem_cons_of_mem _ hmem)) hlater
    have hline : line (.ofDepth n) ws text w = conclude (false, ws) first w₁ := by
      rw [line_eq_observeLine (ht text List.mem_cons_self)]
      exact bind_ok hfirst
    rw [after, hline, conclude]
    cases Outcome.failure? first with
    | none => exact hrest
    | some f => exact hrest

theorem head?_overcounted (m : Nat) : ∀ text ∈ overcounted m,
    text.head? ≠ some (Text.byte ':') := by
  intro text hmem
  simp only [overcounted, overcounting, List.mem_cons, List.mem_append, List.mem_replicate,
    List.not_mem_nil, or_false] at hmem
  obtain rfl | ⟨-, rfl⟩ | rfl := hmem <;> decide

/-- What a line does to the stack, with whether it ends well. -/
inductive Turn (ws : Workspace) (w : World) (text : Text) : Bool × Workspace × World → Prop where
  /-- The stack stays as it is. -/
  | same {done : Bool} {w' : World} (hm : w.Moves w') (hpush : isPush text = true → done = false)
    (hpop : isPop text = true → done = false) : Turn ws w text (done, ws, w')
  /-- A new scope is put on it. -/
  | push {s t : ScopeId} {rest : List ScopeId} {x : Scope} {w' : World} (hpush : isPush text = true)
    (hm : w.Moves w') (hitems : ws.scopes.items = t :: rest) (hx : w'.heap.scope? s = some x)
    (hparent : x.parent = some t) :
    Turn ws w text (true, { ws with scopes := ws.scopes.push s }, w')
  /-- The topmost scope is taken away. -/
  | pop {s t : ScopeId} {rest : List ScopeId} {w' : World} (hpop : isPop text = true)
    (hm : w.Moves w') (hitems : ws.scopes.items = s :: t :: rest) :
    Turn ws w text (true, { ws with scopes := ⟨t :: rest⟩ }, w')

theorem Command.ofWords_eq_push_iff (words : List Text) :
    Command.ofWords words = .push ↔ words.head? = some (Text.ofString "push") := by
  cases words with
  | nil => simp [Command.ofWords]
  | cons name args =>
    rw [List.head?_cons, Option.some.injEq]
    constructor
    · intro h
      unfold Command.ofWords at h
      dsimp only at h
      split_ifs at h with _ _ hpush
      exact hpush
    · rintro rfl
      rfl

theorem Command.ofWords_eq_pop_iff (words : List Text) :
    Command.ofWords words = .pop ↔ words.head? = some (Text.ofString "pop") := by
  cases words with
  | nil => simp [Command.ofWords]
  | cons name args =>
    rw [List.head?_cons, Option.some.injEq]
    constructor
    · intro h
      unfold Command.ofWords at h
      dsimp only at h
      split_ifs at h with _ _ _ hpop
      exact hpop
    · rintro rfl
      rfl

theorem commandName?_eq {text : Text} (ht : text.head? = some (Text.byte ':')) :
    commandName? text = (Text.fields text.tail).head? := by
  cases text with
  | nil => cases ht
  | cons b rest =>
    obtain rfl := Option.some.inj ht
    simp only [commandName?, if_true, List.tail_cons]

theorem commandName?_eq_none {text : Text} (ht : text.head? ≠ some (Text.byte ':')) :
    commandName? text = none := by
  cases text with
  | nil => rfl
  | cons b rest =>
    have hb : b ≠ Text.byte ':' := fun h => ht (by rw [h]; rfl)
    simp only [commandName?, hb, if_false]

theorem head?_of_commandName? {text name : Text} (h : commandName? text = some name) :
    text.head? = some (Text.byte ':') := by
  by_contra ht
  rw [commandName?_eq_none ht] at h
  cases h

theorem outcome_ok {text : Text} {p : Bool × Workspace} (h : line engine ws text w = .ok p w') :
    outcome engine ws w text = (true, p.2, w') := by
  rw [outcome, h]

theorem outcome_error {text : Text} {e : Halt} (h : line engine ws text w = .error e w') :
    outcome engine ws w text = (false, ws, w') := by
  rw [outcome, h]

theorem turn_outcome (he : engine.Moves) (ws : Workspace) (w : World) (text : Text) :
    Turn ws w text (outcome engine ws w text) := by
  have hm := respects_line World.elementary_moves he ws text w
  cases hr : line engine ws text w with
  | error e w' =>
    rw [outcome_error hr]
    exact .same (final_error hr ▸ hm) (fun _ => rfl) fun _ => rfl
  | ok p w' =>
    rw [final_ok hr] at hm
    rw [outcome_ok hr]
    by_cases ht : text.head? = some (Text.byte ':')
    · -- a command, and all but two of them leave the workspace as it is
      have hpush := Command.ofWords_eq_push_iff (Text.fields text.tail)
      have hpop := Command.ofWords_eq_pop_iff (Text.fields text.tail)
      rw [← commandName?_eq ht] at hpush hpop
      rw [line_colon ht] at hr
      have hc := reporting_ok hr
      generalize Command.ofWords (Text.fields text.tail) = c at hpush hpop hc
      have hother : c ≠ .push → c ≠ .pop → Turn ws w text (true, p.2, w') := fun h1 h2 => by
        rw [(quiet_command ws h1 h2).2 hc]
        refine .same hm (fun h => ?_) fun h => ?_
        · exact absurd (hpush.mpr (of_decide_eq_true h)) h1
        · exact absurd (hpop.mpr (of_decide_eq_true h)) h2
      cases c with
      | push =>
        obtain ⟨⟨s, ws'⟩, w1, hp, hc⟩ := of_bind_ok hc
        obtain rfl := Workspace.pushScope_ok hp
        obtain ⟨t, rest, x, hitems, hx, hparent⟩ := Workspace.pushScope_parent hp
        cases hc
        exact .push (decide_eq_true (hpush.mp rfl)) hm hitems hx hparent
      | pop =>
        obtain ⟨ws', w1, hp, hc⟩ := of_bind_ok hc
        obtain ⟨s, t, rest, hitems, rfl⟩ := Workspace.popScope_items hp
        cases hc
        exact .pop (decide_eq_true (hpop.mp rfl)) hm hitems
      | _ => exact hother nofun nofun
    · -- a line that is evaluated
      have hnone := commandName?_eq_none ht
      rw [line_same ht hr]
      exact .same hm (fun h => by simp [isPush, hnone] at h) fun h => by simp [isPop, hnone] at h

theorem Turn.stacked {text : Text} {r : Bool × Workspace × World} (ht : Turn ws w text r)
    (hs : ws.Stacked w.heap) : r.2.1.Stacked r.2.2.heap ∧ r.2.1.globals = ws.globals := by
  cases ht with
  | same hm => exact ⟨hs.moves hm.heap, rfl⟩
  | push _ hm hitems hx hparent =>
    obtain ⟨hbottom, hchain⟩ := hs.moves hm.heap
    rw [hitems] at hbottom hchain
    refine ⟨⟨?_, ?_⟩, rfl⟩
    · simp only [Stack.push, hitems]
      exact hbottom
    · simp only [Stack.push, hitems]
      exact .cons_cons ⟨_, hx, fun _ => hparent⟩ hchain
  | pop _ hm hitems =>
    obtain ⟨hbottom, hchain⟩ := hs.moves hm.heap
    rw [hitems] at hbottom hchain
    exact ⟨⟨hbottom, hchain.tail⟩, rfl⟩

theorem isPop_of_isPush {text : Text} (h : isPush text = true) : isPop text = false := by
  rw [isPop, of_decide_eq_true h]
  decide

/-- A scope that is to be started is one more on the stack, one that is ended is one less. -/
theorem Turn.depth {text : Text} {r : Bool × Workspace × World} (ht : Turn ws w text r)
    (hdone : isPush text = true → r.1 = true) :
    r.2.1.depth + (if isPop text && r.1 then 1 else 0) =
      ws.depth + if isPush text then 1 else 0 := by
  cases ht with
  | same hm hpush hpop =>
    have hno : isPush text = false := by
      refine Bool.eq_false_iff.mpr fun h => ?_
      have hok := hdone h
      rw [hpush h] at hok
      cases hok
    cases hp : isPop text with
    | false => simp [hno]
    | true => simp [hno, hpop hp]
  | push hpush => simp [isPop_of_isPush hpush, hpush, Workspace.depth, Stack.size, Stack.push]
  | pop hpop hm hitems =>
    have hno : isPush text = false :=
      Bool.eq_false_iff.mpr fun h => by rw [isPop_of_isPush h] at hpop; cases hpop
    simp [hpop, hno, Workspace.depth, Stack.size, hitems]

/-! ### Sessions -/

/-- The topmost scope is owned, so that there can be another one inside of it. -/
theorem outcome_push (h : ws.InUse w) (hw : w.conduct.wrapped = false) {text : Text}
    (hpush : isPush text = true) : (outcome engine ws w text).1 = true := by
  have hname := of_decide_eq_true hpush
  have ht := head?_of_commandName? hname
  rw [commandName?_eq ht, ← Command.ofWords_eq_push_iff] at hname
  cases hitems : ws.scopes.items with
  | nil => exact absurd hitems h.items
  | cons t rest =>
    obtain ⟨⟨s, ws'⟩, w1, hp⟩ := Workspace.pushScope_of_lives hitems (h.lives hw (by simp [hitems]))
    obtain ⟨p, w', hc⟩ : ∃ p w', command ws .push w = .ok p w' := by
      rw [command, bind_ok hp]
      exact ⟨_, _, rfl⟩
    have hline : line engine ws text w = .ok p w' := by
      rw [line_colon ht, hname, reporting, hc]
    rw [outcome_ok hline]

theorem inUse_outcome (he : engine.Sound True) (h : ws.InUse w) (text : Text) :
    (outcome engine ws w text).2.1.InUse (outcome engine ws w text).2.2 := by
  have hleaves := leaves_line he h text
  cases hr : line engine ws text w with
  | ok p w' =>
    rw [outcome_ok hr]
    exact hleaves.ok hr
  | error e w' =>
    rw [outcome_error hr]
    exact hleaves.error hr

theorem Turn.moves {text : Text} {r : Bool × Workspace × World} (ht : Turn ws w text r) :
    w.Moves r.2.2 := by
  cases ht with
  | same hm | push _ hm | pop _ hm => exact hm

theorem moves_after (n : Nat) (ws : Workspace) (w : World) (lines : List Text) :
    w.Moves (after n ws w lines).2 := by
  induction lines generalizing ws w with
  | nil => exact .refl w
  | cons text rest ih =>
    rw [after_cons]
    exact (turn_outcome (Engine.moves_ofDepth n) ws w text).moves.trans (ih _ _)

theorem stacked_after {n : Nat} (hs : ws.Stacked w.heap) (lines : List Text) :
    (after n ws w lines).1.Stacked (after n ws w lines).2.heap ∧
      (after n ws w lines).1.globals = ws.globals := by
  induction lines generalizing ws w with
  | nil => exact ⟨hs, rfl⟩
  | cons text rest ih =>
    rw [after_cons]
    obtain ⟨hs', hglobals⟩ := (turn_outcome (Engine.moves_ofDepth n) ws w text).stacked hs
    obtain ⟨hs'', hglobals'⟩ := ih hs'
    exact ⟨hs'', hglobals'.trans hglobals⟩

/-- How many of the lines end a scope. -/
def pops (n : Nat) (ws : Workspace) (w : World) : List Text → Nat
  | [] => 0
  | text :: rest =>
    let r := outcome (.ofDepth n) ws w text
    (if isPop text && r.1 then 1 else 0) + pops n r.2.1 r.2.2 rest

theorem depth_after {n : Nat} (h : ws.InUse w) {lines : List Text}
    (hw : (after n ws w lines).2.conduct.wrapped = false) :
    (after n ws w lines).1.depth + pops n ws w lines = ws.depth + lines.countP isPush := by
  induction lines generalizing ws w with
  | nil => rfl
  | cons text rest ih =>
    -- no count has started again so far, either
    have hw0 : w.conduct.wrapped = false := by
      refine Bool.eq_false_iff.mpr fun hw0 => ?_
      rw [(moves_after n ws w _).wrapped hw0] at hw
      cases hw
    have hstep := (turn_outcome (Engine.moves_ofDepth n) ws w text).depth fun hpush =>
      outcome_push h hw0 hpush
    rw [after_cons] at hw ⊢
    have hrest := ih (inUse_outcome (Engine.sound_ofDepth n) h text) hw
    rw [pops, List.countP_cons]
    omega

/-- **The active scopes are nested, one for each scope that has been started and not ended.** After
any lines the global scope is at the bottom of the stack, all scopes on it live, and each of them is
inside the one below it. Ending the global scope fails and changes nothing but what is printed, and
no line of expressions changes the stack. Only scopes with more owners than can be counted could be
lost before that. -/
theorem stack_nested {n : Nat} {tables : List Builtin.Table} {w₀ w w' : World}
    {ws ws' : Workspace} {lines : List Text} (hw : w₀.Fresh)
    (hmake : Workspace.make tables w₀ = .ok ws w) (hrun : after n ws w lines = (ws', w')) :
    (ws'.globals = ws.globals ∧ ws'.scopes.items.getLast? = some ws.globals) ∧
    (w'.conduct.wrapped = false →
      (∀ s ∈ ws'.scopes.items, w'.heap.Lives (.scope s)) ∧
      ws'.scopes.items.IsChain (fun s t => ∃ x, w'.heap.scope? s = some x ∧ x.parent = some t) ∧
      ws'.depth + pops n ws w lines = 1 + lines.countP isPush) ∧
    (ws'.depth = 1 → ∀ text, isPop text = true → line (.ofDepth n) ws' text w' =
      .error (.failure Workspace.underflow)
        (w'.print (Notice.render .error Workspace.underflow.text))) ∧
    ∀ text, text.head? ≠ some (Text.byte ':') → (after n ws' w' [text]).1 = ws' := by
  have hstacked := stacked_after (n := n) (Workspace.stacked_make hmake) lines
  have hinUse := inUse_after (n := n) (inUse_make hw hmake) lines
  rw [hrun] at hstacked hinUse
  obtain ⟨⟨hbottom, hchain⟩, hglobals⟩ := hstacked
  refine ⟨⟨hglobals, hglobals ▸ hbottom⟩, fun hwrapped => ?_, fun hone text hpop => ?_,
    fun text ht => ?_⟩
  · have hlives : ∀ s ∈ ws'.scopes.items, w'.heap.Lives (.scope s) := fun s hs =>
      hinUse.lives hwrapped hs
    refine ⟨hlives, ?_, ?_⟩
    · refine hchain.imp_of_mem_imp fun s t hs _ hst => ?_
      obtain ⟨x, hx, hparent⟩ := hst
      obtain ⟨x', hx', hd⟩ := hlives s hs
      rw [hx, Option.some.injEq] at hx'
      subst hx'
      exact ⟨x, hx, hparent hd⟩
    · have hafter : (after n ws w lines).2.conduct.wrapped = false := by
        rw [hrun]
        exact hwrapped
      have hdepth := depth_after (inUse_make hw hmake) hafter
      rw [hrun] at hdepth
      rw [hdepth, Workspace.depth, Stack.size, Workspace.make_scopes hmake]
      rfl
  · have hname := of_decide_eq_true hpop
    have ht := head?_of_commandName? hname
    rw [commandName?_eq ht, ← Command.ofWords_eq_pop_iff] at hname
    rw [line_colon ht, hname, reporting, command, Workspace.popScope_of_depth_eq_one hone]
    rfl
  · rw [after_cons, after]
    cases hr : line (.ofDepth n) ws' text w' with
    | ok p w'' => rw [outcome_ok hr, line_same ht hr]
    | error e w'' => rw [outcome_error hr]

/-- Scopes are started and ended, the global one in vain, with expressions in between that fail or
do not. -/
def pushesAndPops : List Text :=
  [":push", "(define x (list 1 2))", ":push", "(car 3)", ":pop", ":env all", ":pop", ":pop",
    ":push again", "x"]

set_option maxRecDepth 100000 in
/-- Two of three scopes that were started have been ended. -/
theorem stack_nested_pushesAndPops : ∃ (ws ws' : Workspace) (w w' : World) (s : ScopeId),
    Workspace.make sandbox {} = .ok ws w ∧ after Engine.depth ws w pushesAndPops = (ws', w') ∧
    ws'.scopes.items = [s, ws.globals] ∧ w'.heap.Lives (.scope s) ∧
    w'.heap.Lives (.scope ws.globals) ∧
    (∃ x, w'.heap.scope? s = some x ∧ x.parent = some ws.globals) ∧
    pushesAndPops.countP isPush = 3 ∧ pops Engine.depth ws w pushesAndPops = 2 := by
  obtain ⟨ws, w, hmake, hends⟩ := exists_of_run (p := fun ws w =>
    let r := after Engine.depth ws w pushesAndPops
    decide (r.1.scopes.items.length = 2 ∧ r.2.conduct.wrapped = false)) (by decide +kernel)
  rcases hrun : after Engine.depth ws w pushesAndPops with ⟨ws', w'⟩
  rw [hrun] at hends
  obtain ⟨hlength, hwrapped⟩ :
      ws'.scopes.items.length = 2 ∧ w'.conduct.wrapped = false := of_decide_eq_true hends
  obtain ⟨s, g, hitems⟩ := List.length_eq_two.mp hlength
  obtain ⟨⟨-, hbottom⟩, hstack, -, -⟩ := stack_nested ⟨rfl, rfl, rfl, rfl⟩ hmake hrun
  obtain ⟨hlives, hchain, hdepth⟩ := hstack hwrapped
  have hg : g = ws.globals := by simpa [hitems] using hbottom
  subst hg
  rw [hitems] at hlives hchain
  have hpush : pushesAndPops.countP isPush = 3 := by decide +kernel
  refine ⟨ws, ws', w, w', s, hmake, hrun, hitems, hlives s (by simp), hlives _ (by simp),
    List.isChain_pair.mp hchain, hpush, ?_⟩
  rw [Workspace.depth, Stack.size, hlength, hpush] at hdepth
  omega

/-- With more owners than can be counted the global scope is lost: a function is called as often as
can be counted and then given up, and the scope on the stack is destroyed with it. -/
theorem stack_nested_overcounted : ∃ (ws : Workspace) (w w' : World),
    Workspace.make sandbox {} = .ok ws w ∧
    after Engine.depth ws w (overcounted 4294967295) = (ws, w') ∧
    ws.scopes.items = [ws.globals] ∧ w'.heap.Dead (.scope ws.globals) := by
  have key : ∀ m, 2 + UInt32.ofNat m = 1 → ∃ (ws : Workspace) (w w' : World),
      Workspace.make sandbox {} = .ok ws w ∧ after Engine.depth ws w (overcounted m) = (ws, w') ∧
      ws.scopes.items = [ws.globals] ∧ w'.heap.Dead (.scope ws.globals) := by
    intro m hm
    obtain ⟨ws, w, outcomes, w', hmake, hlines, hitems, -, hdead, -⟩ := exists_overcounted true hm
    exact ⟨ws, w, w', hmake, after_of_observeLines (head?_overcounted m) hlines, hitems, hdead rfl⟩
  exact key _ (by decide)

end Session

end CountedLisp
