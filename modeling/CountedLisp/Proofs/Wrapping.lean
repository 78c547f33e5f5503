import CountedLisp.Proofs.Limits
import CountedLisp.Proofs.ListAccess

/-!
# Sessions that count too far

A function keeps the scope of each of its calls, and each of these owns the scope that the function
was made in. So calling one function again and again gives the global scope more and more owners,
until there are more than can be counted, and its count starts again from zero.

`Heap.Binds` says that such a function is bound to a name in a scope, and what the counts of
both are. Every call keeps it so and adds one to the count of the scope
(`Session.observeValue_application`). Once the count has come to one, giving the name another value
destroys the function, and the scope with it (`Session.observeValue_rebinding`). In a world that
does not reclaim anything the name just has the other value.
-/

namespace CountedLisp

open Run

/-! ### A function that keeps the scopes of its calls -/

/-- A function `f` in the outermost scope that gives the empty list, with the counts of both. -/
structure BoundFunction where
  scope : ScopeId
  count : UInt32
  function : ObjectId
  owners : UInt32
  calls : List ScopeId

namespace BoundFunction

def closure (c : BoundFunction) : Closure :=
  { params := [], strict := true, body := [.list []], scope := some c.scope, calls := c.calls }

def object (c : BoundFunction) : Object :=
  ⟨c.owners, false, .lambda (.user c.closure)⟩

/-- The function after one more call. -/
def called (c : BoundFunction) (t : ScopeId) : BoundFunction :=
  { c with count := c.count + 1, calls := t :: c.calls }

end BoundFunction

/-- The function is bound in its scope, with these counts. -/
structure Heap.Binds (h : Heap) (c : BoundFunction) : Prop where
  scope : ∃ x, h.scope? c.scope = some x ∧ x.dead = false ∧ x.refs = c.count ∧ x.parent = none ∧
    x.get? "f" = some (some c.function)
  function : h.object? c.function = some c.object
  nil : h.HasNil

namespace Heap.Binds

variable {h h' : Heap} {c : BoundFunction}

/-- Only a few places of the heap matter. -/
theorem congr (hc : h.Binds c) (hs : h'.scope? c.scope = h.scope? c.scope)
    (hf : h'.object? c.function = h.object? c.function)
    (hnil : h'.get? emptyList = h.get? emptyList) : h'.Binds c := by
  obtain ⟨o, ho, ht⟩ := hc.nil
  exact ⟨hs ▸ hc.scope, hf.trans hc.function, o, hnil.trans ho, ht⟩

theorem ne_emptyList (hc : h.Binds c) : (⟨0⟩ : ObjectId) ≠ c.function := by
  intro he
  obtain ⟨o, ho, ht⟩ := hc.nil
  rw [emptyList, he, show h.get? (some c.function) = _ from hc.function] at ho
  cases ho
  cases ht

/-- The function is replaced by itself with another count or other calls. -/
theorem setFunction (hc : h.Binds c) (c' : BoundFunction) (hscope : c'.scope = c.scope)
    (hcount : c'.count = c.count) (hfunction : c'.function = c.function) :
    (h.setObject c.function c'.object).Binds c' := by
  obtain ⟨o, ho, hp⟩ := hc.nil
  refine ⟨?_, ?_, o, ?_, hp⟩
  · rw [scope?_setObject, hscope, hcount, hfunction]
    exact hc.scope
  · rw [hfunction]
    exact object?_setObject_self _ hc.function
  · exact (object?_setObject_ne _ hc.ne_emptyList).trans ho

/-- The function loses one of two owners. -/
theorem drop_function (hc : h.Binds { c with owners := 2 }) :
    (h.drop #[] [.object c.function]).1.Binds { c with owners := 1 } := by
  have hone : h.dropOne (.object c.function) =
      { heap := h.setObject c.function { c with owners := 1 }.object } := by
    have hf : h.object? c.function = some { c with owners := 2 }.object := hc.function
    simp [dropOne, dropObject, hf, BoundFunction.object, BoundFunction.closure, Payload.isImmortal]
  rw [drop_cons, hone, List.append_nil, drop_nil]
  exact hc.setFunction { c with owners := 1 } rfl rfl rfl

/-- The function keeps the scope of a call. -/
theorem addCall (hc : h.Binds c) (t : ScopeId) :
    (Procedure.addCall c.function t h).Binds { c with calls := t :: c.calls } := by
  have hadd : Procedure.addCall c.function t h =
      h.setObject c.function { c with calls := t :: c.calls }.object := by
    simp [Procedure.addCall, hc.function, BoundFunction.object, BoundFunction.closure]
  rw [hadd]
  exact hc.setFunction { c with calls := t :: c.calls } rfl rfl rfl

/-- The scope of the function gets one more owner. -/
theorem retainScope (hc : h.Binds c) {x : Scope} (hx : h.scope? c.scope = some x) :
    (h.setScope c.scope { x with refs := x.refs + 1 }).Binds { c with count := c.count + 1 } := by
  obtain ⟨y, hy, hd, hcount, hp, hf⟩ := hc.scope
  obtain rfl := Option.some.inj (hx.symm.trans hy)
  refine ⟨⟨_, scope?_setScope_self _ hx, hd, ?_, hp, hf⟩, hc.function, hc.nil⟩
  rw [hcount]

theorem enter (hc : h.Binds c) (name : Text) (serial : Nat) (parent : ScopeRef) :
    (Scope.enter name serial parent h).2.Binds c := by
  obtain ⟨x, hx, -⟩ := hc.scope
  refine hc.congr ?_ ?_ ?_
  · rw [Scope.scope?_enter, scope?_addScope_old _ (lt_size_of_scope? hx)]
  · rw [Scope.enter_eq, object?_updateRegistry, object?_addScope]
  · simp [Scope.enter_eq, get?, emptyList]

theorem extend (hc : h.Binds c) (os : List Object) : (h.extend os).Binds c := by
  obtain ⟨o, ho, hp⟩ := hc.nil
  exact ⟨hc.scope, object?_extend_of_some _ hc.function, o, object?_extend_of_some _ ho, hp⟩

theorem drop_new (hc : h.Binds c) {p : Payload} (hp : p.owned = []) :
    ((h.extend [Object.new p]).drop #[] [.object ⟨h.objects.size⟩]).1.Binds c := by
  have hnew : (h.extend [Object.new p]).object? ⟨h.objects.size⟩ = some (Object.new p) :=
    object?_extend_new h _ 0
  have hfreed : ((h.extend [Object.new p]).dropOne (.object ⟨h.objects.size⟩)).freed = [] := by
    simp only [dropOne, dropObject, hnew]
    split_ifs
    · rfl
    · exact hp
    · rfl
  rw [drop_cons, hfreed, List.append_nil, drop_nil]
  have hold := hc.extend [Object.new p]
  have hne : ∀ {id : ObjectId} {o : Object}, h.object? id = some o →
      (.object ⟨h.objects.size⟩ : Handle) ≠ .object id := by
    intro id o ho he
    cases he
    exact absurd (lt_size_of_object? ho) (lt_irrefl _)
  obtain ⟨o, ho, -⟩ := hc.nil
  refine hold.congr ?_ ?_ ?_
  · rw [scope?_dropOne, if_neg Handle.noConfusion]
  · rw [object?_dropOne, if_neg (hne hc.function)]
  · exact (object?_dropOne _ _ _).trans (if_neg (hne ho))

end Heap.Binds

namespace BoundFunction

/-- The function that is bound in a scope, if there is one. -/
def find? (h : Heap) (s : ScopeId) : Option BoundFunction :=
  match h.scope? s with
  | some ⟨name, serial, none, bindings, refs, false, registry⟩ =>
    match (⟨name, serial, none, bindings, refs, false, registry⟩ : Scope).get? "f" with
    | some (some f) =>
      match h.object? f, h.get? Heap.emptyList with
      | some ⟨owners, false, .lambda (.user ⟨[], true, [.list []], some t, calls⟩)⟩, some o =>
        if t = s ∧ o.tag = .emptyList then some ⟨s, refs, f, owners, calls⟩ else none
      | _, _ => none
    | _ => none
  | _ => none

theorem of_find? {h : Heap} {s : ScopeId} {c : BoundFunction}
    (hfind : find? h s = some c) : h.Binds c ∧ c.scope = s := by
  unfold find? at hfind
  split at hfind
  · next hx =>
    split at hfind
    · next hf =>
      split at hfind
      · next ho hnil =>
        split_ifs at hfind with ht
        obtain ⟨rfl, htag⟩ := ht
        cases hfind
        exact ⟨⟨⟨_, hx, rfl, rfl, rfl, hf⟩, ho, _, hnil, htag⟩, rfl⟩
      · cases hfind
    · cases hfind
  · cases hfind

end BoundFunction

/-! ### Calling it -/

/-- Nothing is given up in a world that does not reclaim. -/
theorem World.drop_of_kept {w : World} (hr : w.reclaim = false) (work : List Handle) :
    w.drop work = w := by
  simp [World.drop, hr]

/-- A world counts in the same way as another one, and nothing is on record besides but that some
count may have started again from zero. -/
structure World.ActsAlike (w w' : World) : Prop where
  reclaim : w'.reclaim = w.reclaim
  conduct : ∃ b, w'.conduct = { w.conduct with wrapped := b }

namespace World.ActsAlike

protected theorem refl (w : World) : w.ActsAlike w :=
  ⟨rfl, w.conduct.wrapped, rfl⟩

protected theorem trans {w w' w'' : World} (h : w.ActsAlike w') (h' : w'.ActsAlike w'') :
    w.ActsAlike w'' := by
  obtain ⟨b, hb⟩ := h.conduct
  obtain ⟨b', hb'⟩ := h'.conduct
  exact ⟨h'.reclaim.trans h.reclaim, b', by rw [hb', hb]⟩

protected theorem drop (w : World) (work : List Handle) : w.ActsAlike (w.drop work) := by
  refine ⟨?_, w.conduct.wrapped, conduct_drop work w⟩
  unfold World.drop
  split <;> rfl

end World.ActsAlike

namespace BoundFunction

variable {c : BoundFunction} {engine : Engine} {w w' : World} {n : Nat}

theorem lookup (hc : w.heap.Binds c) :
    Scope.lookup (some c.scope) "f" w = .ok (some c.function) w := by
  obtain ⟨x, hx, hd, -, hp, hf⟩ := hc.scope
  unfold Scope.lookup
  rw [get_bind, Scope.resolve?_of_lives hx hd (by simp [hp]), hf]
  rfl

/-- The function while it is called: the call is one more owner of it, if owners are counted. -/
def lent (c : BoundFunction) (reclaim : Bool) : BoundFunction :=
  { c with owners := if reclaim then 2 else 1 }

theorem retain (hc : w.heap.Binds c) (howners : c.owners = 1) :
    ∃ w', Object.retain (some c.function) w = .ok (some c.function) w' ∧
      w'.heap.Binds (c.lent w.reclaim) ∧ w.ActsAlike w' := by
  rw [Object.retain_eq, hc.function]
  cases hr : w.reclaim with
  | false =>
    have hlent : c.lent false = c := by simp [lent, ← howners]
    rw [hlent]
    exact ⟨w, rfl, hc, .refl w⟩
  | true =>
    refine ⟨{ w with heap := w.heap.setObject c.function (c.lent true).object }, ?_,
      hc.setFunction (c.lent true) rfl rfl rfl, rfl, _, rfl⟩
    simp [object, closure, lent, howners, Payload.isImmortal, maxCount, hr]

theorem release (hc : w.heap.Binds (c.lent w.reclaim)) (howners : c.owners = 1) :
    (w.release (some c.function)).heap.Binds c := by
  have hself : { c with owners := 1 } = c := by simp [← howners]
  cases hr : w.reclaim with
  | false =>
    rw [hr] at hc
    rw [World.release, World.drop_of_kept hr, ← hself]
    exact hc
  | true =>
    rw [hr] at hc
    rw [World.release, World.heap_drop hr, ← hself]
    exact hc.drop_function

/-- A new object is given up again. -/
theorem nothing (hc : w.heap.Binds c) : ∃ r w', Library.nothing w = .ok r w' ∧
    (w'.release r).heap.Binds c ∧ w.ActsAlike w' ∧ w'.heap.Binds c := by
  let w' : World := { w with heap := w.heap.extend [Object.new .unspecified] }
  refine ⟨_, w', Object.make_eq _ w, ?_, ⟨rfl, _, rfl⟩, hc.extend _⟩
  cases hr : w'.reclaim with
  | true =>
    rw [World.release, World.heap_drop hr]
    exact hc.drop_new rfl
  | false =>
    rw [World.release, World.drop_of_kept hr]
    exact hc.extend _

/-- What the function runs. -/
theorem sequence (hc : w.heap.Binds c) (engine : Engine) (t : ScopeRef) :
    ∃ w', Eval.sequence engine t [.list []] w = .ok Heap.emptyList w' ∧ w'.heap.Binds c ∧
      w.ActsAlike w' := by
  obtain ⟨r, w₁, hmake, hc₁, hl, -⟩ := nothing hc
  refine ⟨w₁.release r, ?_, hc₁, hl.trans (.drop w₁ _)⟩
  rw [Eval.sequence, bind_ok hmake]
  simp only [Eval.evalLast, Eval.eval, Eval.replace]
  rfl

/-- A new scope inside of the scope of the function gives this one more owner. -/
theorem makeScope (hc : w.heap.Binds c) : ∃ t w', Scope.make (some c.scope) w = .ok t w' ∧
    w'.heap.Binds { c with count := c.count + 1 } ∧ w.ActsAlike w' := by
  obtain ⟨x, hx, hd, -⟩ := hc.scope
  have hticked : ({ w.heap with serial := w.heap.serial + 1 } : Heap).Binds c :=
    hc.congr rfl rfl rfl
  obtain ⟨name, l, hmake⟩ := Scope.make_of_retain (Scope.retain_of_living
    (w := { w with heap := { w.heap with serial := w.heap.serial + 1 } }) hx hd)
  exact ⟨_, _, hmake, (hticked.retainScope hx).enter _ _ _, rfl, _, rfl⟩

/-- The scope of a call is kept. -/
theorem callIn (hc : w.heap.Binds c) (t : ScopeId) : ∃ w',
    Procedure.callIn (.ofDepth (n + 1)) c.function c.closure [] t w = .ok Heap.emptyList w' ∧
    w'.heap.Binds { c with calls := t :: c.calls } ∧ w.ActsAlike w' := by
  have hadd : Run.modifyHeap (Procedure.addCall c.function t) w =
      .ok () { w with heap := Procedure.addCall c.function t w.heap } := rfl
  obtain ⟨l, htrace⟩ := Procedure.logs_traceCall t (c.closure.calls.length + 1)
    { w with heap := Procedure.addCall c.function t w.heap }
  obtain ⟨w', hbody, hc', hl⟩ := sequence (w := { w with
    heap := Procedure.addCall c.function t w.heap, log := l,
    frames := ⟨c.function, some t⟩ :: w.frames }) (hc.addCall t) (.ofDepth n) (some t)
  refine ⟨{ w' with frames := w.frames }, ?_, hc', hl.reclaim, hl.conduct⟩
  unfold Procedure.callIn
  rw [bind_ok hadd, bind_ok htrace]
  exact within_of_ok hbody

/-- **A call** gives the scope of the function one more owner. -/
theorem call (hc : w.heap.Binds c) : ∃ t w',
    Procedure.call (.ofDepth (n + 1)) (some c.function) [] w = .ok Heap.emptyList w' ∧
    w'.heap.Binds (c.called t) ∧ w.ActsAlike w' := by
  obtain ⟨t, w₁, hmake, hc₁, hl₁⟩ := makeScope hc
  obtain ⟨w', hcall, hc', hl⟩ := callIn (n := n) hc₁ t
  refine ⟨t, w', ?_, hc', hl₁.trans hl⟩
  rw [Procedure.call_eq hc.function rfl rfl]
  exact (bind_ok hmake).trans hcall

/-- The expression that calls the function. -/
def application : Datum :=
  .list [.atom ⟨.identifier, "f", ⟨2, 2⟩⟩]

/-- Evaluating a call of the function. -/
theorem eval_application (hc : w.heap.Binds c) (howners : c.owners = 1) : ∃ t w',
    Eval.eval (.ofDepth (n + 1)) (some c.scope) application w = .ok Heap.emptyList w' ∧
    w'.heap.Binds (c.called t) ∧ w.ActsAlike w' := by
  obtain ⟨w₁, hretain, hc₁, hl₁⟩ := retain hc howners
  obtain ⟨t, w₂, hcall, hc₂, hl₂⟩ := call (n := n) hc₁
  have hatom : Eval.eval (.ofDepth (n + 1)) (some c.scope) (.atom ⟨.identifier, "f", ⟨2, 2⟩⟩) w =
      .ok (some c.function) w₁ := by
    rw [Eval.eval, Eval.atom, if_pos rfl, bind_ok (lookup hc)]
    exact hretain
  have hform : Form.ofHead? (.atom ⟨.identifier, "f", ⟨2, 2⟩⟩) = none := by decide
  have hl := hl₁.trans hl₂
  refine ⟨t, w₂.release (some c.function), ?_, ?_, hl.trans (.drop w₂ _)⟩
  · rw [application, Eval.eval, hform]
    dsimp only
    rw [bind_ok hatom]
    refine ensuring_ok ?_
    rw [Eval.evalAll, pure_bind, ensuring_releaseAll_nil]
    exact hcall
  · exact release (c := c.called t) (hl.reclaim ▸ hc₂) howners

end BoundFunction

namespace Session

variable {c : BoundFunction} {ws : Workspace} {w w' : World} {n : Nat}

theorem heap_release_emptyList (hn : w.heap.HasNil) :
    (w.release Heap.emptyList).heap = w.heap := by
  cases hr : w.reclaim with
  | true => rw [World.release, World.heap_drop hr, hn.drop_emptyList]
  | false => rw [World.release, World.drop_of_kept hr]

theorem printResult_emptyList (hn : w.heap.HasNil) :
    ∃ l t, printResult Heap.emptyList w = .ok () { w with log := l, output := t } := by
  obtain ⟨o, ho, hp⟩ := hn.payload
  have hget : w.heap.get? Heap.emptyList = some o := ho
  have htag : o.tag ≠ .unspecified := by
    rw [Object.tag, hp]
    decide
  have htext : w.heap.print? Heap.emptyList = some (Text.ofString "()") := by
    rw [Heap.print?, Heap.print, hget]
    dsimp only
    rw [hp]
  obtain ⟨e, htrace⟩ : ∃ e, traceResult o.tag Heap.emptyList w = .ok () (w.record e) := ⟨_, rfl⟩
  have hprint : Object.print Heap.emptyList (w.record e) = .ok "()" (w.record e) := by
    unfold Object.print
    rw [get_bind, show (w.record e).heap = w.heap from rfl, htext]
    rfl
  refine ⟨w.log.push e, w.output ++ Notice.render .info "()", ?_⟩
  unfold printResult
  rw [get_bind, hget]
  dsimp only
  rw [if_neg htag, bind_ok htrace, bind_ok hprint]
  rfl

/-- The world in which an expression is evaluated: the log says so. -/
def announced (d : Datum) (w : World) : World :=
  w.record (.message .sandbox .debug none ("eval " ++ d.text))

/-- An expression in the outermost scope with a value that can be printed. -/
theorem observeValue_of_eval {engine : Engine} {s : ScopeId} {d : Datum} {r : Ref} {w'' : World}
    (hs : ws.scopes.items = [s])
    (heval : Eval.eval engine (some s) d (announced d w) = .ok r w')
    (hprint : printResult r w' = .ok () w'') :
    ∃ seen, observeValue engine ws d w = .ok seen (w''.release r) := by
  have htrace : trace .debug ("eval " ++ d.text) w = .ok () (announced d w) := rfl
  refine ⟨((w''.heap.get? r).map (·.tag), w''.heap.print? r), ?_⟩
  unfold observeValue
  rw [bind_ok htrace, Workspace.current_eq hs, pure_bind, bind_ok heval, bind_ok hprint, get_bind]
  rfl

/-- An expression in the outermost scope without a value. -/
theorem observeValue_of_eval_error {engine : Engine} {s : ScopeId} {d : Datum} {e : Halt}
    (hs : ws.scopes.items = [s])
    (heval : Eval.eval engine (some s) d (announced d w) = .error e w') :
    observeValue engine ws d w = .error e w' := by
  have htrace : trace .debug ("eval " ++ d.text) w = .ok () (announced d w) := rfl
  unfold observeValue
  rw [bind_ok htrace, Workspace.current_eq hs, pure_bind, bind_error heval]

/-- **A call is seen** as the empty list, and it gives the scope of the function one more owner. -/
theorem observeValue_application (hs : ws.scopes.items = [c.scope]) (hc : w.heap.Binds c)
    (howners : c.owners = 1) : ∃ t seen w',
      observeValue (.ofDepth (n + 1)) ws BoundFunction.application w = .ok seen w' ∧
      w'.heap.Binds (c.called t) ∧ w.ActsAlike w' := by
  obtain ⟨t, w₁, heval, hc₁, hl⟩ := BoundFunction.eval_application (n := n)
    (w := announced BoundFunction.application w) hc howners
  obtain ⟨l, text, hprint⟩ := printResult_emptyList hc₁.nil
  obtain ⟨seen, hseen⟩ := observeValue_of_eval hs heval hprint
  have hnil : ({ w₁ with log := l, output := text } : World).heap.HasNil := hc₁.nil
  refine ⟨t, seen, _, hseen, ?_, ?_⟩
  · rw [heap_release_emptyList hnil]
    exact hc₁
  · have hprinted : w.ActsAlike { w₁ with log := l, output := text } := ⟨hl.reclaim, hl.conduct⟩
    exact hprinted.trans (.drop _ _)

/-! ### Giving the name another value -/

/-- The expression that binds the name of the function to the empty list. -/
def rebinding : Datum :=
  .list [.atom ⟨.identifier, "define", ⟨2, 7⟩⟩, .atom ⟨.identifier, "f", ⟨9, 9⟩⟩, .list []]

/-- The world in which the name of the function is bound to the empty list. -/
def rebound (c : BoundFunction) (w : World) : World :=
  World.release (some c.function)
    { w with heap := Scope.store c.scope "f" Heap.emptyList w.heap }

/-- The world with a new object that holds nothing, as an answer. -/
def answered (w : World) : World :=
  { w with heap := w.heap.extend [Object.new .unspecified] }

theorem retain_emptyList (hn : w.heap.HasNil) :
    Object.retain Heap.emptyList w = .ok Heap.emptyList w := by
  obtain ⟨o, ho, hp⟩ := hn.payload
  rw [Heap.emptyList, Object.retain_eq, show w.heap.object? ⟨0⟩ = some o from ho]
  dsimp only
  rw [hp]
  rfl

theorem bind_emptyList (hc : w.heap.Binds c) :
    Scope.bind (some c.scope) "f" Heap.emptyList w = .ok () (rebound c w) := by
  obtain ⟨x, hx, hd, -, -, hf⟩ := hc.scope
  unfold Scope.bind
  rw [bind_ok (Scope.expect_of_lives "bind" hx hd)]
  dsimp only
  rw [bind_ok (retain_emptyList hc.nil), hf]
  rfl

theorem eval_rebinding (engine : Engine) (hc : w.heap.Binds c) :
    Eval.eval engine (some c.scope) rebinding w =
      .ok (some ⟨(rebound c w).heap.objects.size⟩)
        ((answered (rebound c w)).release Heap.emptyList) := by
  have hform : Form.ofHead? (.atom ⟨.identifier, "define", ⟨2, 7⟩⟩) = some .define := by decide
  have hempty : Eval.eval engine (some c.scope) (.list []) w = .ok Heap.emptyList w := by
    rw [Eval.eval]
    rfl
  have hname : Run.ofExcept (Form.define.identifier (.atom ⟨.identifier, "f", ⟨9, 9⟩⟩)) w =
      .ok "f" w := rfl
  rw [rebinding, Eval.eval, hform]
  dsimp only
  rw [Eval.form, bind_ok hname, bind_ok hempty]
  exact ensuring_ok ((bind_ok (bind_emptyList hc)).trans (Object.make_eq _ _))

theorem printResult_unspecified {r : Ref} {o : Object} (ho : w.heap.get? r = some o)
    (ht : o.tag = .unspecified) : printResult r w = .ok () w := by
  unfold printResult
  rw [get_bind, ho]
  dsimp only
  rw [if_pos ht]
  rfl

/-- The name of the function is bound to the empty list. -/
structure Rebound (s : ScopeId) (h : Heap) : Prop where
  scope : ∃ x, h.scope? s = some x ∧ x.dead = false ∧ x.parent = none ∧
    x.get? "f" = some Heap.emptyList
  nil : h.HasNil

/-- Without reclamation the name has the new value. -/
theorem rebound_of_kept (hc : w.heap.Binds c) (hr : w.reclaim = false) :
    Rebound c.scope (rebound c w).heap := by
  obtain ⟨x, hx, hd, -, hp, hf⟩ := hc.scope
  rw [rebound, World.release, World.drop_of_kept (by exact hr), Scope.store_some _ _ hx]
  exact ⟨⟨_, Heap.scope?_setScope_self _ hx, hd, hp, Scope.lookup_put _ _ _⟩, hc.nil⟩

/-- The function owns the scope that it was made in, which is destroyed with it if it seems to have
no other owner. -/
theorem dead_rebound (hc : w.heap.Binds c) (hr : w.reclaim = true) (hcount : c.count = 1)
    (howners : c.owners = 1) : (rebound c w).heap.Dead (.scope c.scope) := by
  obtain ⟨x, hx, hd, hrefs, -⟩ := hc.scope
  let y : Scope := { x with bindings := Scope.put "f" Heap.emptyList x.bindings }
  let h := w.heap.setScope c.scope y
  have hheap : (rebound c w).heap = (h.drop #[] [.object c.function]).1 := by
    rw [rebound, Scope.store_some _ _ hx, World.release, World.heap_drop (by exact hr)]
    rfl
  have hfunction : h.object? c.function = some c.object := hc.function
  have hfreed : .scope c.scope ∈ (h.dropOne (.object c.function)).freed := by
    simp [Heap.dropOne, Heap.dropObject, hfunction, BoundFunction.object, BoundFunction.closure,
      howners, Payload.isImmortal, Payload.owned, Procedure.owned, Handle.ofScope]
  have hscope : (h.dropOne (.object c.function)).heap.scope? c.scope = some y := by
    rw [Heap.scope?_dropOne, if_neg Handle.noConfusion]
    exact Heap.scope?_setScope_self _ hx
  rw [hheap, Heap.drop_cons]
  exact Heap.dead_of_drop _ hscope hd (hrefs.trans hcount) (List.mem_append_left _ hfreed)

theorem actsAlike_rebound (c : BoundFunction) (w : World) : w.ActsAlike (rebound c w) := by
  have hdrop := World.ActsAlike.drop
    { w with heap := Scope.store c.scope "f" Heap.emptyList w.heap }
    (Handle.objects [some c.function])
  exact ⟨hdrop.reclaim, hdrop.conduct⟩

/-- **A new value** for the name of the function. The function is given up, and the scope with it if
it seems to have no other owner. -/
theorem observeValue_rebinding (engine : Engine) (hs : ws.scopes.items = [c.scope])
    (hc : w.heap.Binds c) : ∃ seen w', observeValue engine ws rebinding w = .ok seen w' ∧
      w.ActsAlike w' ∧
      (w.reclaim = true → c.count = 1 → c.owners = 1 → w'.heap.Dead (.scope c.scope)) ∧
      (w.reclaim = false → Rebound c.scope w'.heap) := by
  let w₀ := announced rebinding w
  let w₁ := rebound c w₀
  let r : Ref := some ⟨w₁.heap.objects.size⟩
  have hnew : (answered w₁).heap.get? r = some (Object.new .unspecified) :=
    Heap.object?_extend_new w₁.heap _ 0
  -- giving up the empty list leaves the answer as unspecified as it was, so nothing is printed
  obtain ⟨o, ho, ht, -⟩ :=
    (World.fades_drop (Handle.objects [Heap.emptyList]) (answered w₁)).object hnew
  obtain ⟨seen, hseen⟩ := observeValue_of_eval hs (eval_rebinding engine (w := w₀) hc)
    (printResult_unspecified ho ht)
  have hrebound : w₀.ActsAlike w₁ := actsAlike_rebound c w₀
  have hlike : w.ActsAlike (answered w₁) := ⟨hrebound.reclaim, hrebound.conduct⟩
  refine ⟨seen, _, hseen, (hlike.trans (.drop _ _)).trans (.drop _ _), ?_, ?_⟩
  · intro hr hcount howners
    have hleads : w₁.heap.Leads (answered w₁).heap := Heap.Leads.addObject _ _
    refine (World.fades_drop _ _).dead ((World.fades_drop _ _).dead (hleads.dead ?_))
    exact dead_rebound (w := w₀) hc hr hcount howners
  · intro hr
    have hr₁ : (answered w₁).reclaim = false := hlike.reclaim.trans hr
    have hkept := rebound_of_kept (w := w₀) hc hr
    rw [World.release, World.release, World.drop_of_kept hr₁, World.drop_of_kept hr₁]
    exact ⟨hkept.scope, hkept.nil.extend _⟩

/-! ### Looking the name up -/

/-- The name of the function as an expression. -/
def name : Datum :=
  .atom ⟨.identifier, "f", ⟨1, 1⟩⟩

/-- The name is not seen any more once the scope has been destroyed. -/
theorem observeValue_name_of_dead (engine : Engine) {s : ScopeId} (hs : ws.scopes.items = [s])
    (hd : w.heap.Dead (.scope s)) :
    ∃ f w', observeValue engine ws name w = .error (.failure f) w' ∧ w.ActsAlike w' := by
  obtain ⟨x, hx, hdead⟩ := hd
  let f : Failure :=
    .of .typeMismatch "lookup" "live environment" ("destroyed " ++ x.name)
  have hlookup : Scope.lookup (some s) "f" (announced name w) =
      .error (.failure f) (announced name w) := Scope.lookup_of_dead hx hdead
  have heval : Eval.eval engine (some s) name (announced name w) =
      .error (.failure f) (announced name w) := by
    rw [name, Eval.eval, Eval.atom, if_pos rfl]
    exact bind_error hlookup
  exact ⟨f, _, observeValue_of_eval_error hs heval, rfl, _, rfl⟩

/-- The new value of the name is seen. -/
theorem observeValue_name_of_rebound (engine : Engine) {s : ScopeId} (hs : ws.scopes.items = [s])
    (hb : Rebound s w.heap) : ∃ seen w', observeValue engine ws name w = .ok seen w' := by
  obtain ⟨x, hx, hd, hp, hf⟩ := hb.scope
  let w₀ := announced name w
  have hlookup : Scope.lookup (some s) "f" w₀ = .ok Heap.emptyList w₀ := by
    rw [Scope.lookup_eq (w := w₀) hx hd,
      Scope.resolve?_of_lives (h := w₀.heap) hx hd (by simp [hp]), hf]
    rfl
  have heval : Eval.eval engine (some s) name w₀ = .ok Heap.emptyList w₀ := by
    rw [name, Eval.eval, Eval.atom, if_pos rfl, bind_ok hlookup]
    exact retain_emptyList (w := w₀) hb.nil
  obtain ⟨l, text, hprint⟩ := printResult_emptyList (w := w₀) hb.nil
  obtain ⟨seen, hseen⟩ := observeValue_of_eval hs heval hprint
  exact ⟨seen, _, hseen⟩

end Session

end CountedLisp
