import CountedLisp.Proofs.LineBreaks
import CountedLisp.Proofs.Literals
import CountedLisp.Proofs.Sessions

/-!
# Neat runs

Line feeds come from the program, which has them in strings and as characters, and from the
configuration. A world is neat (`World.Neat`) if there is no line feed as a character in it, and if
strings, names of foreign functions and configured values have line feeds only if `raw` holds.

The message of a report is put together from names, numbers, written objects and pieces of the
program. A run is neat (`Run.Gives`) if it keeps worlds neat and if the message of every report that
it fails with is on one line, unless the report quotes a piece of the program as it is
(`Report.Quotes`) and `raw` holds. This is shown here of every function that programs call on, for
each engine of which it is true.
-/

namespace CountedLisp

open Run Text

/-! ### Neat worlds -/

/-- A token has a line feed only if it is a string, and `raw` holds then. -/
def Token.Neat (raw : Prop) (t : Token) : Prop :=
  t.lexeme.Breaks → t.kind = .string ∧ raw

/-- It is not the line feed as a character, and a string has one only if `raw` holds. -/
def Constant.Neat (raw : Prop) : Constant → Prop
  | .char v => byte '\n' ≠ v
  | .string t => t.Breaks → raw
  | .integer _ | .double _ | .boolean _ => True

/-- All tokens of the code are neat. -/
def Code.Neat (raw : Prop) : Code → Prop
  | .expression d => ∀ t ∈ d.atoms, t.Neat raw
  | .sequence body => ∀ t ∈ Datum.atomsAll body, t.Neat raw

/-- Constants and code are neat, and the name of a foreign function has a line feed only if `raw`
holds. -/
def Payload.Neat (raw : Prop) : Payload → Prop
  | .constant c => c.Neat raw
  | .lambda (.user c) => ∀ t ∈ Datum.atomsAll c.body, t.Neat raw
  | .lambda (.native (some s)) => s.symbol.Breaks → raw
  | .thunk t => t.code.Neat raw
  | _ => True

/-- All objects are neat, and the names of scopes have no line feeds. -/
structure Heap.Neat (raw : Prop) (h : Heap) : Prop where
  object : ∀ {id o}, h.object? id = some o → o.payload.Neat raw
  scope : ∀ {id s}, h.scope? id = some s → ¬s.name.Breaks

/-- The heap is neat, and configured values have line feeds only if `raw` holds. -/
structure World.Neat (raw : Prop) (w : World) : Prop where
  heap : w.heap.Neat raw
  conf : ∀ entry ∈ w.conf, entry.2.Breaks → raw

variable {raw : Prop}

/-- What is left of an object that has been destroyed is neat: it has lost its text or its name, and
its code is as before. -/
theorem Payload.Neat.emptied {p : Payload} (hp : p.Neat raw) : p.emptied.Neat raw := by
  cases p with
  | constant c =>
    cases c with
    | string t => exact fun h => absurd h not_breaks_nil
    | _ => exact hp
  | lambda q =>
    cases q with
    | user c => exact hp
    | library f => trivial
    | native s => trivial
  | thunk t => exact hp
  | _ => trivial

namespace Heap.Neat

variable {h : Heap}

/-- Whatever a reference points to is neat. -/
theorem get {r : Ref} {o : Object} (hn : h.Neat raw) (hget : h.get? r = some o) :
    o.payload.Neat raw := by
  obtain ⟨id, rfl, ho⟩ := Option.bind_eq_some_iff.1 hget
  exact hn.object ho

/-- A neat heap has no line feed as a character, whatever `raw` is. -/
theorem not_hasNewline (hn : h.Neat raw) : ¬h.HasNewline := by
  rintro ⟨id, o, ho, hp⟩
  have hneat := hn.object ho
  rw [hp] at hneat
  exact hneat rfl

/-- Only the payload matters, so changes of counts are neat. -/
theorem setObject (hn : h.Neat raw) (id : ObjectId) {o : Object} (ho : o.payload.Neat raw) :
    (h.setObject id o).Neat raw where
  object {id' x} hx := by
    rw [object?, Heap.setObject, Array.getElem?_setIfInBounds] at hx
    split at hx
    · split at hx
      · exact Option.some.inj hx ▸ ho
      · cases hx
    · exact hn.object hx
  scope := hn.scope

/-- Only the name of a scope matters. -/
theorem setScope (hn : h.Neat raw) (id : ScopeId) {s : Scope} (hs : ¬s.name.Breaks) :
    (h.setScope id s).Neat raw where
  object := hn.object
  scope {id' x} hx := by
    rw [scope?, Heap.setScope, Array.getElem?_setIfInBounds] at hx
    split at hx
    · split at hx
      · exact Option.some.inj hx ▸ hs
      · cases hx
    · exact hn.scope hx

theorem addObject (hn : h.Neat raw) {p : Payload} (hp : p.Neat raw) :
    (h.addObject p).2.Neat raw where
  object {id x} hx := by
    rw [object?, Heap.addObject, Array.getElem?_push] at hx
    split at hx
    · exact Option.some.inj hx ▸ hp
    · exact hn.object hx
  scope := hn.scope

theorem addScope (hn : h.Neat raw) {s : Scope} (hs : ¬s.name.Breaks) :
    (h.addScope s).2.Neat raw where
  object := hn.object
  scope {id x} hx := by
    rw [scope?, Heap.addScope, Array.getElem?_push] at hx
    split at hx
    · exact Option.some.inj hx ▸ hs
    · exact hn.scope hx

theorem updateRegistry (hn : h.Neat raw) (id : Option RegistryId) (f : Registry → Registry) :
    (h.updateRegistry id f).Neat raw where
  object hx := hn.object (by rwa [object?_updateRegistry] at hx)
  scope hx := hn.scope (by rwa [scope?_updateRegistry] at hx)

/-- One reference is given up: the object or scope is still as neat as it was, or emptied. -/
theorem drops {h' : Heap} {x : Handle} {freed : List Handle} (hn : h.Neat raw)
    (hx : Drops h x h' freed) : h'.Neat raw := by
  cases hx with
  | idle => exact hn
  | lessObject ho =>
    have hp := hn.object ho
    exact hn.setObject _ hp
  | lastObject ho =>
    have hp := (hn.object ho).emptied
    exact hn.setObject _ hp
  | lessScope hs =>
    have hname := hn.scope hs
    exact hn.setScope _ hname
  | @lastScope id s hs =>
    have hname : ¬s.name.Breaks := hn.scope hs
    exact updateRegistry (hn.setScope id (s := s.destroyed) hname) _ _

/-- By induction on the references that are given up, each of which is one step. -/
theorem drop (hn : h.Neat raw) (died : Array Demise) (work : List Handle) :
    (h.drop died work).1.Neat raw := by
  fun_induction Heap.drop h died work with
  | case1 => exact hn
  | case2 h died x rest step ih => exact ih (hn.drops (drops_dropOne h x))

theorem initial : Heap.initial.Neat raw where
  object {id o} ho := by
    have hmem : o ∈ #[Object.new .emptyList] := Array.mem_of_getElem? ho
    rw [Array.mem_singleton.1 hmem]
    trivial
  scope hs := by cases hs

end Heap.Neat

namespace World.Neat

variable {w w' : World}

/-- Only the heap and the configuration matter. -/
theorem of_eq (hn : w.Neat raw) (hheap : w'.heap = w.heap) (hconf : w'.conf = w.conf) :
    w'.Neat raw :=
  ⟨hheap ▸ hn.heap, hconf ▸ hn.conf⟩

theorem withHeap (hn : w.Neat raw) {h : Heap} (hh : h.Neat raw) :
    World.Neat raw { w with heap := h } :=
  ⟨hh, hn.conf⟩

theorem drop (hn : w.Neat raw) (work : List Handle) : (w.drop work).Neat raw := by
  unfold World.drop
  split
  · exact ⟨hn.heap.drop _ work, hn.conf⟩
  · exact hn

end World.Neat

/-! ### Neat failures -/

/-- A report that shows a piece of the program as it is: one about an operand that is no name, or
one about a foreign function. -/
def Report.Quotes (r : Report) : Prop :=
  r.expected = Text.ofString "identifier" ∨ Text.ofString "native" <+: r.op

instance (r : Report) : Decidable r.Quotes :=
  inferInstanceAs (Decidable (_ ∨ _))

/-- The message of a report is on one line, unless it quotes the program and `raw` holds. -/
def Failure.Neat (raw : Prop) (f : Failure) : Prop :=
  ∀ r, f.report? = some r → f.text.Breaks → r.Quotes ∧ raw

namespace Failure

variable {kind : ErrorKind} {op expected actual : Text}

/-- A failure that is no report has no message that would have to be on one line. -/
theorem neat_plain (t : Text) : (plain t).Neat raw := fun r hr => by cases hr

/-- A failure is neat if all parts of its message are on one line. -/
theorem neat_of (hop : ¬op.Breaks) (hexpected : ¬expected.Breaks) (hactual : ¬actual.Breaks) :
    (of kind op expected actual).Neat raw := by
  intro r _ hbreaks
  rcases Report.breaks_of_text hbreaks with h | h | h
  · exact absurd h hop
  · exact absurd h hexpected
  · exact absurd h hactual

/-- A failure that quotes the program is neat if its parts have line feeds only if `raw` holds. -/
theorem neat_of_quotes {r : Report} (hquotes : r.Quotes) (hop : r.op.Breaks → raw)
    (hexpected : r.expected.Breaks → raw) (hactual : r.actual.Breaks → raw) :
    (report r).Neat raw := by
  intro _ hr hbreaks
  cases hr
  rcases Report.breaks_of_text hbreaks with h | h | h
  · exact ⟨hquotes, hop h⟩
  · exact ⟨hquotes, hexpected h⟩
  · exact ⟨hquotes, hactual h⟩

end Failure

/-! ### Neat runs -/

/-- A run that keeps worlds neat, gives only results with a property, and fails neatly. -/
structure Run.Gives (raw : Prop) {α : Type} (Q : α → Prop) (act : Run α) : Prop where
  ok : ∀ {w a w'}, w.Neat raw → act w = .ok a w' → w'.Neat raw ∧ Q a
  error : ∀ {w e w'}, w.Neat raw → act w = .error e w' →
    w'.Neat raw ∧ ∀ f, e = .failure f → f.Neat raw

/-- A run that keeps worlds neat and fails neatly. -/
abbrev Run.Neat (raw : Prop) {α : Type} (act : Run α) : Prop :=
  act.Gives raw fun _ => True

namespace Run.Gives

variable {α β : Type} {Q : α → Prop} {P : β → Prop} {act : Run α} {k : α → Run β}

protected theorem pure {a : α} (ha : Q a) : (pure a : Run α).Gives raw Q where
  ok hw h := by
    cases h
    exact ⟨hw, ha⟩
  error _ h := by cases h

protected theorem throw {e : Halt} (he : ∀ f, e = .failure f → f.Neat raw) :
    (throw e : Run α).Gives raw Q where
  ok _ h := by cases h
  error hw h := by
    cases h
    exact ⟨hw, he⟩

protected theorem fail {f : Failure} (hf : f.Neat raw) : (Run.fail f : Run α).Gives raw Q :=
  .throw fun g hg => by
    injection hg with hg
    exact hg ▸ hf

/-- A breach of the rules of counting is not reported, so that nothing is asked of its text. -/
protected theorem breach (m : Text) : (Run.breach m : Run α).Gives raw Q :=
  .throw fun _ h => by cases h

protected theorem exhausted : (throw .exhausted : Run α).Gives raw Q :=
  .throw fun _ h => by cases h

protected theorem fault : (throw .fault : Run α).Gives raw Q :=
  .throw fun _ h => by cases h

/-- What follows may use the property of the result. -/
protected theorem bind (h : act.Gives raw Q) (hk : ∀ a, Q a → (k a).Gives raw P) :
    (act >>= k).Gives raw P where
  ok {w b w'} hw hb := by
    obtain ⟨a, w₁, ha, hb⟩ := of_bind_ok hb
    obtain ⟨hw₁, hq⟩ := h.ok hw ha
    exact (hk a hq).ok hw₁ hb
  error {w e w'} hw he := by
    cases hact : act w with
    | ok a w₁ =>
      rw [bind_ok hact] at he
      obtain ⟨hw₁, hq⟩ := h.ok hw hact
      exact (hk a hq).error hw₁ he
    | error e' w₁ =>
      rw [bind_error hact] at he
      cases he
      exact h.error hw hact

theorem andThen (h : act.Gives raw Q) (hk : ∀ a, (k a).Gives raw P) : (act >>= k).Gives raw P :=
  h.bind fun a _ => hk a

/-- What follows is neat for what can be read from a neat world. -/
theorem reading {k : World → Run α} (hk : ∀ w, w.Neat raw → (k w).Gives raw Q) :
    (get >>= k : Run α).Gives raw Q where
  ok hw h := (hk _ hw).ok hw h
  error hw h := (hk _ hw).error hw h

protected theorem modify {f : World → World} (hf : ∀ w, w.Neat raw → (f w).Neat raw) :
    (modify f : Run PUnit).Neat raw where
  ok hw h := by
    cases h
    exact ⟨hf _ hw, trivial⟩
  error _ h := by cases h

/-- The last step has to keep worlds neat in either case. -/
protected theorem ensuring (h : act.Gives raw Q) {g : World → World}
    (hg : ∀ w, w.Neat raw → (g w).Neat raw) : (act.ensuring g).Gives raw Q where
  ok {w a w'} hw hact := by
    unfold Run.ensuring at hact
    split at hact
    · next hok =>
      cases hact
      exact (h.ok hw hok).imp_left (hg _)
    · cases hact
  error {w e w'} hw hact := by
    unfold Run.ensuring at hact
    split at hact
    · cases hact
    · next herr =>
      cases hact
      exact (h.error hw herr).imp_left (hg _)

protected theorem onHalt (h : act.Gives raw Q) {g : World → World}
    (hg : ∀ w, w.Neat raw → (g w).Neat raw) : (act.onHalt g).Gives raw Q where
  ok {w a w'} hw hact := by
    unfold Run.onHalt at hact
    split at hact
    · next hok =>
      cases hact
      exact h.ok hw hok
    · cases hact
  error {w e w'} hw hact := by
    unfold Run.onHalt at hact
    split at hact
    · cases hact
    · next herr =>
      cases hact
      exact (h.error hw herr).imp_left (hg _)

protected theorem onFailure (h : act.Gives raw Q) {g : World → World}
    (hg : ∀ w, w.Neat raw → (g w).Neat raw) : (act.onFailure g).Gives raw Q where
  ok {w a w'} hw hact := h.ok hw (onFailure_ok hact)
  error {w e w'} hw hact := by
    unfold Run.onFailure at hact
    split at hact
    · next herr =>
      cases hact
      exact (h.error hw herr).imp_left (hg _)
    · exact h.error hw hact

/-- The failure becomes a result, of which nothing is known then. -/
protected theorem attempt (h : act.Gives raw Q) : act.attempt.Neat raw where
  ok {w a w'} hw hact := by
    unfold Run.attempt at hact
    split at hact
    · next hok =>
      cases hact
      exact ⟨(h.ok hw hok).1, trivial⟩
    · next herr =>
      cases hact
      exact ⟨(h.error hw herr).1, trivial⟩
    · cases hact
  error {w e w'} hw hact := by
    unfold Run.attempt at hact
    split at hact
    · cases hact
    · cases hact
    · next herr =>
      cases hact
      exact h.error hw herr

/-- The frames of the call stack have no part in it. -/
protected theorem within (h : act.Gives raw Q) (f : Frame) : (Run.within f act).Gives raw Q where
  ok {w a w'} hw hact := by
    unfold Run.within at hact
    split at hact
    · next hok =>
      cases hact
      have hw₁ : World.Neat raw { w with frames := f :: w.frames } := hw.of_eq rfl rfl
      exact (h.ok hw₁ hok).imp_left fun hw' => hw'.of_eq rfl rfl
    · cases hact
  error {w e w'} hw hact := by
    unfold Run.within at hact
    split at hact
    · cases hact
    · next herr =>
      cases hact
      have hw₁ : World.Neat raw { w with frames := f :: w.frames } := hw.of_eq rfl rfl
      exact (h.error hw₁ herr).imp_left fun hw' => hw'.of_eq rfl rfl

protected theorem ofExcept {x : Except Failure α} (hok : ∀ a, x = .ok a → Q a)
    (herror : ∀ f, x = .error f → f.Neat raw) : (Run.ofExcept x).Gives raw Q := by
  cases x with
  | ok a => exact .pure (hok a rfl)
  | error f => exact .fail (herror f rfl)

protected theorem ofResult {x : Except Halt α} (hok : ∀ a, x = .ok a → Q a)
    (herror : ∀ e, x = .error e → ∀ f, e = .failure f → f.Neat raw) :
    (Run.ofResult x).Gives raw Q := by
  cases x with
  | ok a => exact .pure (hok a rfl)
  | error e => exact .throw (herror e rfl)

protected theorem orExhausted {x : Option α} (hx : ∀ a, x = some a → Q a) :
    (Run.orExhausted x).Gives raw Q := by
  cases x with
  | some a => exact .pure (hx a rfl)
  | none => exact .exhausted

protected theorem record (e : Event) : (modify (World.record e) : Run PUnit).Neat raw :=
  .modify fun _ hw => hw.of_eq rfl rfl

protected theorem print (t : Text) : (Run.print t).Neat raw :=
  .modify fun _ hw => hw.of_eq rfl rfl

/-- Giving up references shows nothing. -/
protected theorem drop (work : List Handle) : (modify (World.drop work) : Run PUnit).Neat raw :=
  .modify fun _ hw => hw.drop work

theorem modifyHeap {f : Heap → Heap} (hf : ∀ h, h.Neat raw → (f h).Neat raw) :
    (Run.modifyHeap f).Neat raw :=
  .modify fun _ hw => hw.withHeap (hf _ hw.heap)

theorem updateHeap {f : Heap → α × Heap} (hf : ∀ h, h.Neat raw → (f h).2.Neat raw) :
    (Run.updateHeap f).Neat raw where
  ok hw h := by
    cases h
    exact ⟨hw.withHeap (hf _ hw.heap), trivial⟩
  error _ h := by cases h

end Run.Gives

/-! ### Objects -/

namespace Object

/-- A new object has to be neat. -/
theorem neat_make {p : Payload} (hp : p.Neat raw) : (make p).Neat raw :=
  .updateHeap fun _ hh => hh.addObject hp

theorem neat_constant {c : Constant} (hc : c.Neat raw) : (constant c).Neat raw :=
  neat_make hc

theorem neat_retain (r : Ref) : (retain r).Neat raw := by
  unfold retain
  split
  · exact .pure trivial
  · next id =>
    refine .reading fun w hw => ?_
    split
    · exact .breach _
    · next o ho =>
      have hp := hw.heap.object ho
      split_ifs
      · exact .pure trivial
      · exact .breach _
      · exact .breach _
      · refine Gives.andThen (.modifyHeap fun h hh => ?_) fun _ => .pure trivial
        exact hh.setObject id hp

theorem neat_release (r : Ref) : (release r).Neat raw :=
  .drop _

/-- **The description of an object is on one line**: the heap has no line feed as a character, and
line feeds in strings are escaped. -/
theorem gives_describe (r : Ref) : (describe r).Gives raw fun t => ¬t.Breaks :=
  .reading fun _ hw => .orExhausted fun _ ht hbreaks =>
    hw.heap.not_hasNewline (Heap.hasNewline_of_describe ht hbreaks)

/-- So is the written form. -/
theorem gives_print (r : Ref) : (print r).Gives raw fun t => ¬t.Breaks :=
  .reading fun _ hw => .orExhausted fun _ ht hbreaks =>
    hw.heap.not_hasNewline (Heap.hasNewline_of_print _ hbreaks (.inl ht))

/-- The object in the report is described, and its description is on one line. -/
theorem neat_mismatch {α : Type} {Q : α → Prop} {op expected : Text} (hop : ¬op.Breaks)
    (hexpected : ¬expected.Breaks) (r : Ref) : (mismatch op expected r : Run α).Gives raw Q :=
  (gives_describe r).bind fun _ hactual => .fail (Failure.neat_of hop hexpected hactual)

/-- A type check gives a neat object, or a report that names types. -/
theorem gives_expect {op : Text} (hop : ¬op.Breaks) (tag : Tag) (r : Ref) :
    (expect op tag r).Gives raw fun o => o.payload.Neat raw := by
  refine .reading fun w hw => ?_
  split
  · exact .fail (Failure.neat_of hop tag.not_breaks_name (by decide))
  · next o ho =>
    split_ifs
    · refine .fail (Failure.neat_of hop ?_ ?_)
      · exact not_breaks_append (by decide) tag.not_breaks_name
      · exact not_breaks_append (by decide) o.tag.not_breaks_name
    · exact .pure (hw.heap.get ho)
    · exact neat_mismatch hop tag.not_breaks_name r

theorem neat_integerValue (r : Ref) : (integerValue r).Neat raw := by
  refine (gives_expect (by decide) _ r).andThen fun o => ?_
  split <;> exact .pure trivial

/-- The text of a string is the one thing taken out of objects that may have line feeds. -/
theorem gives_stringValue (r : Ref) : (stringValue r).Gives raw fun t => t.Breaks → raw := by
  refine (gives_expect (by decide) _ r).bind fun o ho => ?_
  split
  · next t ht =>
    rw [ht] at ho
    exact .pure ho
  · exact .pure fun h => absurd h not_breaks_nil

theorem neat_numericValue (r : Ref) : (numericValue r).Neat raw := by
  refine .reading fun w _ => ?_
  split
  · exact .pure trivial
  · exact neat_mismatch (by decide) (by decide) r

theorem neat_truthy (r : Ref) : (truthy r).Neat raw := by
  refine .reading fun w _ => ?_
  split
  · exact .fail (Failure.neat_of (by decide) (by decide) (by decide))
  · split
    · exact .fail (Failure.neat_of (by decide) (by decide) (by decide))
    · exact .pure trivial
    · exact .pure trivial

end Object

/-! ### Vectors, pairs and lists -/

/-- The message about a place that is out of range. -/
theorem Text.not_breaks_range {middle : Text} (hmiddle : ¬middle.Breaks) (i : Int) (n : Nat) :
    ¬Breaks ("index " ++ Text.ofInt i ++ middle ++ Text.ofNat n) := by
  have hindex : ¬Breaks ("index " ++ Text.ofInt i) :=
    not_breaks_append (by decide) (not_breaks_ofInt i)
  exact not_breaks_append (not_breaks_append hindex hmiddle) (not_breaks_ofNat n)

namespace Slots

theorem neat_retainAll (items : List Ref) : (retainAll items).Neat raw := by
  induction items with
  | nil => exact .pure trivial
  | cons r rest ih => exact (Object.neat_retain r).andThen fun _ => ih

theorem neat_make (items : List Ref) : (make items).Neat raw :=
  (neat_retainAll items).andThen fun _ => Object.neat_make trivial

theorem neat_contents {op : Text} (hop : ¬op.Breaks) (r : Ref) : (contents op r).Neat raw := by
  refine (Object.gives_expect hop _ r).andThen fun o => ?_
  split <;> exact .pure trivial

theorem neat_item (r : Ref) (i : Int) : (item r i).Neat raw := by
  refine (neat_contents (by decide) r).andThen fun items => ?_
  dsimp only
  split
  · exact .pure trivial
  · exact .fail (Failure.neat_of (by decide) (by decide) (not_breaks_range (by decide) i _))

theorem neat_length (r : Ref) : (length r).Neat raw :=
  (neat_contents (by decide) r).andThen fun _ => .pure trivial

end Slots

namespace Pair

theorem neat_make (left right : Ref) : (make left right).Neat raw :=
  (Object.neat_retain left).andThen fun _ => (Object.neat_retain right).andThen fun _ =>
    Object.neat_make trivial

theorem neat_sides {op : Text} (hop : ¬op.Breaks) (r : Ref) : (sides op r).Neat raw := by
  refine (Object.gives_expect hop _ r).andThen fun o => ?_
  split <;> exact .pure trivial

theorem neat_left (r : Ref) : (left r).Neat raw :=
  (neat_sides (by decide) r).andThen fun _ => .pure trivial

theorem neat_right (r : Ref) : (right r).Neat raw :=
  (neat_sides (by decide) r).andThen fun _ => .pure trivial

/-- The sides of a pair are references and have no text. -/
theorem neat_update (r left right : Ref) {h : Heap} (hh : h.Neat raw) :
    (update r left right h).Neat raw := by
  unfold update
  split
  · exact hh
  · split
    · exact hh.setObject _ trivial
    · exact hh

theorem neat_setLeft (r v : Ref) : (setLeft r v).Neat raw :=
  (neat_sides (by decide) r).andThen fun _ => (Object.neat_retain v).andThen fun _ =>
    (Gives.modifyHeap fun _ => neat_update r v _).andThen fun _ => Object.neat_release _

theorem neat_setRight (r v : Ref) : (setRight r v).Neat raw :=
  (neat_sides (by decide) r).andThen fun _ => (Object.neat_retain v).andThen fun _ =>
    (Gives.modifyHeap fun _ => neat_update r _ v).andThen fun _ => Object.neat_release _

theorem neat_makeList (items : List Ref) : (makeList items).Neat raw := by
  induction items with
  | nil => exact .pure trivial
  | cons item rest ih =>
    exact ih.andThen fun _ => (Object.neat_retain item).andThen fun _ => Object.neat_make trivial

theorem neat_along {α : Type} (r : Ref) (loop : Heap → Nat → Ref → Option α) :
    (along r loop).Neat raw :=
  .reading fun _ _ => .orExhausted fun _ _ => trivial

theorem neat_isList (r : Ref) : (isList r).Neat raw :=
  neat_along r _

theorem neat_length (r : Ref) : (length r).Neat raw := by
  refine (neat_isList r).andThen fun isList => ?_
  split_ifs
  · exact neat_along r _
  · exact Object.neat_mismatch (by decide) (by decide) r

/-- The report about a missing item consists of two numbers. -/
theorem neat_item (r : Ref) (i : Int) : (item r i).Neat raw := by
  refine (neat_isList r).andThen fun isList => ?_
  have houtside : (noItem r i).Neat raw := (neat_length r).andThen fun n =>
    .fail (Failure.neat_of (by decide) (by decide) (not_breaks_range (by decide) i _))
  split_ifs
  · refine (neat_along r _).andThen fun found => ?_
    split
    · exact .pure trivial
    · exact houtside
  · exact houtside
  · exact Object.neat_mismatch (by decide) (by decide) r

theorem neat_items (r : Ref) : (items r).Neat raw :=
  (neat_length r).andThen fun _ => neat_along r _

end Pair

/-! ### Scopes -/

namespace Scope

theorem neat_retain (s : ScopeRef) : (retain s).Neat raw := by
  unfold retain
  split
  · exact .pure trivial
  · next id =>
    refine .reading fun w hw => ?_
    split
    · exact .breach _
    · next scope hs =>
      have hname := hw.heap.scope hs
      split_ifs
      · exact .breach _
      · refine Gives.andThen (.modify fun w hw => hw.of_eq rfl rfl) fun _ => ?_
        refine Gives.andThen (.modifyHeap fun h hh => ?_) fun _ => .pure trivial
        exact hh.setScope id hname

theorem neat_traceScope (name body : Text) : (Run.traceScope name body).Neat raw := by
  refine .reading fun w _ => ?_
  split_ifs
  · exact .record _
  · exact .pure trivial

theorem neat_enter {name : Text} (hname : ¬name.Breaks) (serial : Nat) (parent : ScopeRef)
    {h : Heap} (hh : h.Neat raw) : (enter name serial parent h).2.Neat raw :=
  Heap.Neat.updateRegistry (hh.addScope hname) _ _

/-- The name of a scope is made from its number. -/
theorem neat_make (parent : ScopeRef) : (make parent).Neat raw := by
  refine (Gives.updateHeap fun h hh => ⟨hh.object, hh.scope⟩).andThen fun serial => ?_
  refine (neat_retain parent).andThen fun _ => ?_
  have hname : ¬Breaks ("env" ++ Text.ofNat serial) :=
    not_breaks_append (by decide) (not_breaks_ofNat serial)
  refine (Gives.updateHeap fun h hh => neat_enter hname serial parent hh).andThen fun _ => ?_
  exact (neat_traceScope _ _).andThen fun _ => .pure trivial

/-- The report about a destroyed scope shows its name. -/
theorem neat_expect {op : Text} (hop : ¬op.Breaks) (s : ScopeRef) : (expect op s).Neat raw := by
  refine .reading fun w hw => ?_
  split
  · next id scope hs =>
    split_ifs
    · refine .fail (Failure.neat_of hop (by decide) ?_)
      exact not_breaks_append (by decide) (hw.heap.scope hs)
    · exact .pure trivial
  · exact .fail (Failure.neat_of hop (by decide) (by decide))

theorem neat_store (id : ScopeId) (name : Text) (value : Ref) {h : Heap} (hh : h.Neat raw) :
    (store id name value h).Neat raw := by
  unfold store
  split
  · next scope hs =>
    have hname := hh.scope hs
    exact hh.setScope id hname
  · exact hh

/-- The name is not shown by any failure of binding, so nothing is asked of it. -/
theorem neat_bind (s : ScopeRef) (name : Text) (value : Ref) : (bind s name value).Neat raw := by
  refine (neat_expect (by decide) s).andThen fun p => ?_
  refine (Object.neat_retain value).andThen fun _ => ?_
  refine (Gives.modifyHeap fun _ => neat_store p.1 name value).andThen fun _ => ?_
  split
  · exact Object.neat_release _
  · exact .pure trivial

/-- A name that is not bound is shown as it is, so it has to be on one line. -/
theorem neat_unbound {op name : Text} (hop : ¬op.Breaks) (hname : ¬name.Breaks) :
    (unbound op name).Neat raw :=
  Failure.neat_of hop (by decide) hname

theorem neat_lookup (s : ScopeRef) {name : Text} (hname : ¬name.Breaks) :
    (lookup s name).Neat raw := by
  refine .reading fun w _ => ?_
  split
  · exact .pure trivial
  · exact (neat_expect (by decide) s).andThen fun _ => .fail (neat_unbound (by decide) hname)

theorem neat_assign (s : ScopeRef) {name : Text} (hname : ¬name.Breaks) (value : Ref) :
    (assign s name value).Neat raw := by
  refine (neat_expect (by decide) s).andThen fun _ => .reading fun w _ => ?_
  dsimp only
  split
  · exact .fail (neat_unbound (by decide) hname)
  · next old id _ =>
    exact (Object.neat_retain value).andThen fun _ =>
      (Gives.modifyHeap fun _ => neat_store id name value).andThen fun _ =>
        (Object.neat_release old).andThen fun _ => Object.neat_make trivial

end Scope

/-! ### Thunks and arguments -/

/-- What an engine runs is neat. -/
structure Engine.Neat (raw : Prop) (engine : Engine) : Prop where
  run : ∀ {code : Code}, code.Neat raw → ∀ s, (engine.run code s).Neat raw
  call : ∀ f args, (engine.call f args).Neat raw

variable {engine : Engine}

namespace Thunk

theorem neat_make {code : Code} (hcode : code.Neat raw) (s : ScopeRef) :
    (make code s).Neat raw :=
  (Scope.neat_retain s).andThen fun _ => Object.neat_make hcode

theorem neat_keep {id : ObjectId} {o : Object} {t : Thunk} {w : World} (hw : w.Neat raw)
    (ht : t.code.Neat raw) (value : Ref) : (keep id o t value w).Neat raw :=
  ⟨hw.heap.setObject id (o := { o with payload := .thunk { t with progress := .done value } }) ht,
    hw.conf⟩

/-- The thunk keeps its code, which is neat. -/
theorem neat_settle (r value : Ref) {w : World} (hw : w.Neat raw) :
    (settle r value w).Neat raw := by
  unfold settle
  split
  · exact hw
  · next id o t hfind =>
    obtain ⟨-, ho, hp⟩ := find?_eq_some hfind
    have ht := hw.heap.object ho
    rw [hp] at ht
    split
    · exact (neat_keep hw ht value).drop _
    · exact neat_keep hw ht value

/-- The engine runs the code of a thunk, and in a neat world this is neat. -/
theorem neat_force (he : engine.Neat raw) (r : Ref) : (force engine r).Neat raw := by
  refine .reading fun w hw => ?_
  split
  · exact .pure trivial
  · next id o t hfind =>
    obtain ⟨-, ho, hp⟩ := find?_eq_some hfind
    have ht := hw.heap.object ho
    rw [hp] at ht
    split_ifs
    · exact .fail (Failure.neat_of (by decide) (by decide) (by decide))
    · split
      · exact Object.neat_retain _
      · refine Gives.andThen (.modify fun w hw => hw.of_eq rfl rfl) fun _ => ?_
        refine ((he.run ht _).within _).andThen fun v => ?_
        refine (Gives.modify fun _ hw => neat_settle r v hw).andThen fun _ => ?_
        exact .reading fun _ _ => Object.neat_retain _

end Thunk

namespace Arguments

/-- The check is neat for every operation about which something can be said neatly. -/
theorem neat_checkCount_of {op : Text}
    (hop : ∀ {expected actual : Text}, ¬expected.Breaks → ¬actual.Breaks →
      (Failure.of .arityMismatch op expected actual).Neat raw)
    (count : Nat) (n : Int) (mode : CountMode) :
    (Run.ofExcept (checkCount op count n mode)).Neat raw := by
  have hactual : ¬Breaks (Text.ofNat count ++ " arguments") :=
    not_breaks_append (not_breaks_ofNat count) (by decide)
  have hexpected : ¬Breaks (Text.ofInt n ++ " arguments") :=
    not_breaks_append (not_breaks_ofInt n) (by decide)
  refine .ofExcept (fun _ _ => trivial) fun f hf => ?_
  unfold checkCount at hf
  split at hf
  · split at hf <;> cases hf
    exact hop hexpected hactual
  · split at hf <;> cases hf
    refine hop ?_ hactual
    rw [List.append_assoc]
    exact not_breaks_append (by decide) hexpected
  · cases hf

theorem neat_checkCount {op : Text} (hop : ¬op.Breaks) (count : Nat) (n : Int) (mode : CountMode) :
    (Run.ofExcept (checkCount op count n mode)).Neat raw :=
  neat_checkCount_of (Failure.neat_of hop) count n mode

/-- By induction on the arguments that are left. -/
theorem neat_forceAfter (he : engine.Neat raw) (owned args : List Ref) :
    (forceAfter engine owned args).Neat raw := by
  induction args generalizing owned with
  | nil => exact .pure trivial
  | cons arg rest ih =>
    refine .reading fun w _ => ?_
    split_ifs
    · refine ((Thunk.neat_force he arg).onFailure fun _ hw => hw.drop _).andThen fun v => ?_
      exact (ih _).andThen fun _ => .pure trivial
    · exact (ih _).andThen fun _ => .pure trivial

/-- A function of the values of its arguments. -/
theorem neat_forcing (he : engine.Neat raw) (args : List Ref) {f : List Ref → Run Ref}
    (hf : ∀ values, (f values).Neat raw) : (forcing engine args f).Neat raw :=
  (neat_forceAfter he [] args).andThen fun p => (hf p.1).ensuring fun _ hw => hw.drop _

end Arguments

/-! ### The library -/

namespace Library

theorem neat_nothing : nothing.Neat raw :=
  Object.neat_make trivial

theorem neat_boolean (b : Bool) : (boolean b).Neat raw :=
  Object.neat_constant trivial

theorem neat_natural (n : Nat) : (natural n).Neat raw :=
  Object.neat_constant trivial

/-- All functions of one value share the check of the number of arguments. -/
theorem neat_one {op : Text} (hop : ¬op.Breaks) {f : Ref → Run Ref} (hf : ∀ a, (f a).Neat raw)
    (args : List Ref) : (one op f args).Neat raw := by
  refine (Arguments.neat_checkCount hop _ _ _).andThen fun _ => ?_
  split
  · exact hf _
  · exact neat_nothing

theorem neat_two {op : Text} (hop : ¬op.Breaks) {f : Ref → Ref → Run Ref}
    (hf : ∀ a b, (f a b).Neat raw) (args : List Ref) : (two op f args).Neat raw := by
  refine (Arguments.neat_checkCount hop _ _ _).andThen fun _ => ?_
  split
  · exact hf _ _
  · exact neat_nothing

theorem neat_car (args : List Ref) : (car args).Neat raw :=
  neat_one (by decide) (fun a => (Pair.neat_left a).andThen fun _ => Object.neat_retain _) args

theorem neat_cdr (args : List Ref) : (cdr args).Neat raw :=
  neat_one (by decide) (fun a => (Pair.neat_right a).andThen fun _ => Object.neat_retain _) args

theorem neat_setCar (args : List Ref) : (setCar args).Neat raw :=
  neat_two (by decide) (fun a b => (Pair.neat_setLeft a b).andThen fun _ => neat_nothing) args

theorem neat_setCdr (args : List Ref) : (setCdr args).Neat raw :=
  neat_two (by decide) (fun a b => (Pair.neat_setRight a b).andThen fun _ => neat_nothing) args

theorem neat_length (args : List Ref) : (length args).Neat raw :=
  neat_one (by decide) (fun a => (Pair.neat_length a).andThen fun _ => neat_natural _) args

theorem neat_listRef (args : List Ref) : (listRef args).Neat raw :=
  neat_two (by decide) (fun a b => (Object.neat_integerValue b).andThen fun _ =>
    (Pair.neat_item a _).andThen fun _ => Object.neat_retain _) args

theorem neat_vectorRef (args : List Ref) : (vectorRef args).Neat raw :=
  neat_two (by decide) (fun a b => (Object.neat_integerValue b).andThen fun _ =>
    (Slots.neat_item a _).andThen fun _ => Object.neat_retain _) args

theorem neat_vectorLength (args : List Ref) : (vectorLength args).Neat raw :=
  neat_one (by decide) (fun a => (Slots.neat_length a).andThen fun _ => neat_natural _) args

theorem neat_isList (args : List Ref) : (isList args).Neat raw :=
  neat_one (by decide) (fun a => (Pair.neat_isList a).andThen fun _ => neat_boolean _) args

theorem neat_isNumber (args : List Ref) : (isNumber args).Neat raw :=
  neat_one (by decide) (fun _ => .reading fun _ _ => neat_boolean _) args

/-- The type predicates are one definition, of which the type is a parameter. -/
theorem neat_isOfType {op : Text} (hop : ¬op.Breaks) (tag : Tag) (args : List Ref) :
    (isOfType op tag args).Neat raw :=
  neat_one hop (fun _ => .reading fun _ _ => neat_boolean _) args

theorem neat_isPromise (args : List Ref) : (isPromise args).Neat raw :=
  neat_one (by decide) (fun _ => .reading fun _ _ => neat_boolean _) args

theorem neat_force (he : engine.Neat raw) (args : List Ref) : (force engine args).Neat raw := by
  refine neat_one (by decide) (fun a => .reading fun w _ => ?_) args
  split_ifs
  · exact Thunk.neat_force he a
  · exact Object.neat_retain a

theorem neat_numbers (args : List Ref) : (numbers args).Neat raw := by
  induction args with
  | nil => exact .pure trivial
  | cons a rest ih =>
    refine (Object.neat_numericValue a).andThen fun _ => ?_
    exact ih.andThen fun _ => .pure trivial

theorem neat_resultOf (integral : Bool) (v : Binary64) : (resultOf integral v).Neat raw := by
  unfold resultOf
  split <;> trivial

/-- The four operations differ in their unit and in the operation on numbers. -/
theorem neat_arithmetic (unit : Int) (f : Binary64 → Binary64 → Binary64) (args : List Ref) :
    (arithmetic unit f args).Neat raw :=
  (neat_numbers args).andThen fun _ => .reading fun _ _ =>
    Object.neat_constant (neat_resultOf _ _)

theorem neat_comparison {op : Text} (hop : ¬op.Breaks) (f : Binary64 → Binary64 → Bool)
    (args : List Ref) : (comparison op f args).Neat raw :=
  neat_two hop (fun a b => (Object.neat_numericValue a).andThen fun _ =>
    (Object.neat_numericValue b).andThen fun _ => neat_boolean _) args

theorem neat_negation (args : List Ref) : (negation args).Neat raw :=
  neat_one (by decide) (fun a => (Object.neat_truthy a).andThen fun _ => neat_boolean _) args

theorem neat_displayAll (args : List Ref) : (displayAll args).Neat raw := by
  induction args with
  | nil => exact .pure trivial
  | cons a rest ih =>
    refine .reading fun w _ => ?_
    dsimp only
    split
    · exact (Gives.print _).andThen fun _ => ih
    · exact (Object.gives_print a).andThen fun _ => (Gives.print _).andThen fun _ => ih

theorem neat_display (args : List Ref) : (display args).Neat raw :=
  (neat_displayAll args).andThen fun _ => (Gives.print _).andThen fun _ => neat_nothing

end Library

/-! ### Foreign functions -/

namespace Foreign

/-- Reports about a foreign function begin with the word `native`. -/
theorem quotes_operation (symbol : Text) : Text.ofString "native" <+: Signature.operation symbol :=
  List.IsPrefix.trans (by decide) (List.prefix_append (Text.ofString "native ") symbol)

/-- The operation of a report gets line feeds from the name of the foreign function only. -/
theorem breaks_operation {symbol : Text} (hsymbol : symbol.Breaks → raw) :
    (Signature.operation symbol).Breaks → raw := by
  rw [Signature.operation, breaks_append]
  exact fun h => hsymbol (h.resolve_left (by decide))

/-- A failure of a foreign function. -/
theorem neat_failure_of {kind : ErrorKind} {symbol expected actual : Text}
    (hsymbol : symbol.Breaks → raw) (hexpected : ¬expected.Breaks) (hactual : actual.Breaks → raw) :
    (Failure.of kind (Signature.operation symbol) expected actual).Neat raw :=
  Failure.neat_of_quotes (.inr (quotes_operation symbol)) (breaks_operation hsymbol)
    (fun h => absurd h hexpected) hactual

/-- The same if what was found is on one line, too. -/
theorem neat_failure {kind : ErrorKind} {symbol expected actual : Text}
    (hsymbol : symbol.Breaks → raw) (hexpected : ¬expected.Breaks) (hactual : ¬actual.Breaks) :
    (Failure.of kind (Signature.operation symbol) expected actual).Neat raw :=
  neat_failure_of hsymbol hexpected fun h => absurd h hactual

theorem not_breaks_place {what : Text} (hwhat : ¬what.Breaks) (place : Nat) :
    ¬Breaks (what ++ " for argument " ++ Text.ofNat place) :=
  not_breaks_append (not_breaks_append hwhat (by decide)) (not_breaks_ofNat place)

/-- An argument that is refused is shown in its written form, which is on one line. -/
theorem neat_checkArgument {symbol : Text} (hsymbol : symbol.Breaks → raw) (place : Nat)
    (t : ForeignType) (arg : Ref) :
    (checkArgument (Signature.operation symbol) place t arg).Neat raw := by
  refine .reading fun w _ => ?_
  dsimp only
  split_ifs
  · refine (Object.neat_integerValue arg).andThen fun v => ?_
    split_ifs
    · refine .fail (neat_failure hsymbol ?_ (not_breaks_ofInt _))
      exact not_breaks_append (by decide) (not_breaks_ofNat place)
    · exact .pure trivial
  · exact .pure trivial
  · have hexpected := not_breaks_place t.tag.not_breaks_name place
    split
    · exact .fail (neat_failure hsymbol hexpected (by decide))
    · next o _ =>
      refine (Object.gives_print arg).bind fun text htext => ?_
      refine .fail (neat_failure hsymbol hexpected ?_)
      exact not_breaks_append (not_breaks_append o.tag.not_breaks_name (by decide)) htext

theorem neat_checkArguments {symbol : Text} (hsymbol : symbol.Breaks → raw) (place : Nat)
    (types : List ForeignType) (args : List Ref) :
    (checkArguments (Signature.operation symbol) place types args).Neat raw := by
  induction types generalizing place args with
  | nil => exact .pure trivial
  | cons t types ih =>
    cases args with
    | nil => exact .pure trivial
    | cons arg args => exact (neat_checkArgument hsymbol _ _ _).andThen fun _ => ih _ _

/-- All that such a call can fail with is about the foreign function. -/
theorem neat_invoke (he : engine.Neat raw) {s : Signature} (hs : s.symbol.Breaks → raw)
    (args : List Ref) : (invoke engine s args).Neat raw := by
  unfold invoke guarded
  dsimp only
  split_ifs
  · exact .fail (neat_failure hs (by decide) (by decide))
  · refine (Arguments.neat_checkCount_of (neat_failure hs) _ _ _).andThen fun _ => ?_
    refine Arguments.neat_forcing he args fun values => ?_
    refine (neat_checkArguments hs _ _ _).andThen fun _ => ?_
    exact .fail (neat_failure hs (by decide) (by decide))

/-- The strings that describe a foreign function may have line feeds if `raw` holds. -/
theorem gives_strings (args : List Ref) :
    (strings args).Gives raw fun ts => ∀ t ∈ ts, t.Breaks → raw := by
  induction args with
  | nil => exact .pure (by simp)
  | cons a rest ih =>
    exact (Object.gives_stringValue a).bind fun t ht => ih.bind fun ts hts =>
      .pure (List.forall_mem_cons.2 ⟨ht, hts⟩)

/-- The failure of a name that is no type. -/
theorem neat_typeName {name : Text} (hname : name.Breaks → raw) :
    (Failure.of .typeMismatch "native" "integer|double|char|string|void" name).Neat raw := by
  refine Failure.neat_of_quotes (.inr (List.prefix_refl _)) (fun h => ?_) (fun h => ?_) hname
  · exact absurd (show Breaks (Text.ofString "native") from h) (by decide)
  · exact absurd (show Breaks (Text.ofString "integer|double|char|string|void") from h) (by decide)

theorem neat_parse? {name : Text} (hname : name.Breaks → raw) :
    (Run.ofExcept (ForeignType.parse? name)).Neat raw := by
  refine .ofExcept (fun _ _ => trivial) fun f hf => ?_
  obtain rfl := ForeignType.parse?_error hf
  exact neat_typeName hname

theorem neat_types {names : List Text} (hnames : ∀ t ∈ names, t.Breaks → raw) :
    (Run.ofExcept (types names)).Neat raw := by
  refine .ofExcept (fun _ _ => trivial) fun f hf => ?_
  obtain ⟨name, hmem, rfl⟩ := types_error hf
  exact neat_typeName (hnames name hmem)

theorem neat_openAll (names : List Text) : (openAll names).Neat raw := by
  induction names with
  | nil => exact .pure trivial
  | cons name rest ih =>
    refine .reading fun w _ => ?_
    split_ifs
    · exact ih
    · exact (Gives.record _).andThen fun _ => ih.andThen fun _ => .pure trivial

/-- A configured value has a line feed only if `raw` holds, and one that is missing is empty. -/
theorem breaks_setting {w : World} (hw : w.Neat raw) (key : Text) (h : (w.setting key).Breaks) :
    raw := by
  unfold World.setting at h
  cases hlookup : w.conf.lookup key with
  | none =>
    rw [hlookup] at h
    exact absurd h not_breaks_nil
  | some value =>
    rw [hlookup] at h
    exact hw.conf _ (mem_of_lookup hlookup) h

/-- The names of the places where a symbol was looked for come from the program or from the
configuration. -/
theorem breaks_places {w : World} (hw : w.Neat raw) {lib : Text} (hlib : lib.Breaks → raw)
    (h : Breaks ("not found in " ++ Text.join ", " ("process" :: w.candidates lib))) : raw := by
  rw [breaks_append] at h
  rcases (h.resolve_left (by decide)).of_join with h | ⟨name, hname, h⟩
  · exact absurd h (by decide)
  · rcases List.mem_cons.1 hname with rfl | hname
    · exact absurd h (by decide)
    · rcases breaks_of_candidates hname h with h | h
      · exact breaks_setting hw _ h
      · exact hlib h

/-- The report lists the places that were searched, the names of which are configured. -/
theorem neat_findSymbol {symbol lib : Text} (hsymbol : symbol.Breaks → raw)
    (hlib : lib.Breaks → raw) : (findSymbol symbol lib).Neat raw := by
  refine .reading fun w _ => ?_
  split_ifs
  · exact .pure trivial
  · refine .reading fun w hw => (neat_openAll _).andThen fun closed => ?_
    have hreport : (Failure.of .symbolNotFound (Signature.operation symbol) "exported symbol"
        ("not found in " ++ Text.join ", " ("process" :: w.candidates lib))).Neat raw :=
      neat_failure_of hsymbol (by decide) (breaks_places hw hlib)
    dsimp only
    split_ifs
    · -- the cause adds nothing to the line
      refine .fail fun r hr hbreaks => hreport r hr ?_
      rw [Failure.text, breaks_append, breaks_append, breaks_append] at hbreaks
      rcases hbreaks with ((h | h) | h) | h
      · exact h
      · exact absurd h (by decide)
      · exact absurd h (by decide)
      · exact absurd h (by decide)
    · exact .fail hreport

/-- The new function has the name it is called by in reports. -/
theorem neat_make {symbol lib : Text} (hsymbol : symbol.Breaks → raw) (hlib : lib.Breaks → raw)
    (result : ForeignType) (args : List ForeignType) : (make symbol lib result args).Neat raw := by
  have htype : ∀ t : ForeignType, ¬t.name.Breaks := by
    intro t
    cases t with
    | unlisted n => exact not_breaks_append (by decide) (not_breaks_ofInt _)
    | _ => decide
  unfold make
  split_ifs
  · exact .fail (neat_failure hsymbol (by decide) (htype result))
  · split
    · next f hf =>
      obtain ⟨t, n, rfl⟩ := badArgument?_eq_some hf
      exact .fail (neat_failure hsymbol (by decide) (not_breaks_place (htype t) n))
    · exact (neat_findSymbol hsymbol hlib).andThen fun _ => (Gives.record _).andThen fun _ =>
        Object.neat_make hsymbol

theorem neat_describeFunction (values : List Ref) : (describeFunction values).Neat raw := by
  refine (gives_strings values).bind fun texts htexts => ?_
  split
  · next symbol lib result args =>
    simp only [List.forall_mem_cons] at htexts
    obtain ⟨hsymbol, hlib, hresult, hargs⟩ := htexts
    exact (neat_parse? hresult).andThen fun _ => (neat_types hargs).andThen fun _ =>
      neat_make hsymbol hlib _ _
  · exact .fail (Failure.neat_of (by decide) (by decide) not_breaks_nil)

end Foreign

/-! ### Calls -/

namespace Procedure

theorem neat_close {body : List Datum} (hbody : ∀ t ∈ Datum.atomsAll body, t.Neat raw)
    (params : List Text) (strict : Bool) (s : ScopeRef) : (close params strict body s).Neat raw :=
  (Scope.neat_retain s).andThen fun _ => Object.neat_make hbody

theorem neat_bindAll (s : ScopeRef) (names : List Text) (args : List Ref) :
    (bindAll s names args).Neat raw := by
  induction names generalizing args with
  | nil => exact .pure trivial
  | cons name names ih =>
    cases args with
    | nil => exact .pure trivial
    | cons arg args => exact (Scope.neat_bind s name arg).andThen fun _ => ih _

theorem neat_traceCall (s : ScopeId) (n : Nat) : (traceCall s n).Neat raw := by
  refine .reading fun w _ => ?_
  split_ifs
  · exact .reading fun _ _ => Scope.neat_traceScope _ _
  · exact .pure trivial

/-- Counting a call leaves the code of the function as it is. -/
theorem neat_addCall (id : ObjectId) (s : ScopeId) {h : Heap} (hh : h.Neat raw) :
    (addCall id s h).Neat raw := by
  unfold addCall
  split
  · next o ho =>
    split
    · next c hc =>
      have hp := hh.object ho
      rw [hc] at hp
      exact hh.setObject id hp
    · exact hh
  · exact hh

/-- The body is neat, since the function is, and the engine runs it. -/
theorem neat_callUser (he : engine.Neat raw) (id : ObjectId) {c : Closure}
    (hc : ∀ t ∈ Datum.atomsAll c.body, t.Neat raw) (args : List Ref) :
    (callUser engine id c args).Neat raw := by
  refine (Scope.neat_make _).andThen fun scope => ?_
  unfold callIn
  refine (Gives.modifyHeap fun h => neat_addCall id scope).andThen fun _ => ?_
  refine (neat_traceCall _ _).andThen fun _ => Gives.within ?_ _
  have hbody : Code.Neat raw (.sequence c.body) := hc
  exact (Arguments.neat_checkCount (by decide) _ _ _).andThen fun _ =>
    (neat_bindAll _ _ _).andThen fun _ => he.run hbody _

/-- What `apply` notes on the conduct is no text. -/
theorem neat_spread (he : engine.Neat raw) (f : Ref) (args : List Ref) :
    (spread engine f args).Neat raw := by
  refine .reading fun w _ => ?_
  split_ifs
  · split
    · exact .fail (Failure.neat_of (by decide) (by decide) (by decide))
    · refine (Pair.neat_isList _).andThen fun isList => ?_
      split_ifs
      · refine (Pair.neat_items _).andThen fun items => ?_
        exact (he.call _ _).ensuring fun _ hw => hw.of_eq rfl rfl
      · exact Object.neat_mismatch (by decide) (by decide) _
  · exact Object.neat_mismatch (by decide) (Tag.not_breaks_name _) _

/-- **Every function of the library is neat.** -/
theorem neat_callLibrary (he : engine.Neat raw) (f : Builtin) (args : List Ref) :
    (callLibrary engine f args).Neat raw := by
  have forcing : ∀ {g : List Ref → Run Ref}, (∀ values, (g values).Neat raw) →
      (Arguments.forcing engine args g).Neat raw := Arguments.neat_forcing he args
  have count : ∀ {op : Text} {n : Int} {mode : CountMode} {act : Run Ref}, ¬op.Breaks →
      act.Neat raw → (do
        Run.ofExcept (Arguments.checkCount op args.length n mode)
        act : Run Ref).Neat raw := fun hop hact =>
    (Arguments.neat_checkCount hop _ _ _).andThen fun _ => hact
  cases f with
  | list => exact forcing Pair.neat_makeList
  | cons => exact forcing (Library.neat_two (by decide) Pair.neat_make)
  | car => exact forcing Library.neat_car
  | cdr => exact forcing Library.neat_cdr
  | setCar => exact forcing Library.neat_setCar
  | setCdr => exact forcing Library.neat_setCdr
  | length => exact forcing Library.neat_length
  | listRef => exact forcing Library.neat_listRef
  | isList => exact forcing Library.neat_isList
  | vector => exact forcing Slots.neat_make
  | vectorRef => exact forcing Library.neat_vectorRef
  | vectorLength => exact forcing Library.neat_vectorLength
  | isNumber => exact forcing Library.neat_isNumber
  | isPair | isNull | isVector | isInteger | isDouble | isChar | isString | isBoolean
  | isProcedure => exact forcing (Library.neat_isOfType (by decide) _)
  | isPromise => exact Library.neat_isPromise args
  | force => exact Library.neat_force he args
  | apply =>
    refine Gives.andThen (.modify fun w hw => hw.of_eq rfl rfl) fun _ => forcing fun values => ?_
    refine (Arguments.neat_checkCount (by decide) _ _ _).andThen fun _ => ?_
    split
    · exact neat_spread he _ _
    · exact Library.neat_nothing
  | native => exact count (by decide) (forcing Foreign.neat_describeFunction)
  | plus | times | minus | quotient => exact forcing (Library.neat_arithmetic _ _)
  | less | equal => exact count (by decide) (forcing (Library.neat_comparison (by decide) _))
  | not => exact count (by decide) (forcing Library.neat_negation)
  | display => exact forcing Library.neat_display

/-- **Every call is neat**, of a function of the program, of the library or a foreign one. -/
theorem neat_call (he : engine.Neat raw) (f : Ref) (args : List Ref) :
    (call engine f args).Neat raw := by
  refine .reading fun w hw => ?_
  split
  · next id p _ hget =>
    have hp := hw.heap.get hget
    split
    · exact neat_callUser he _ hp _
    · exact neat_callLibrary he _ _
    · exact Foreign.neat_invoke he hp _
    · exact .fault
  · exact Object.neat_mismatch (by decide) (Tag.not_breaks_name _) _

end Procedure

end CountedLisp
