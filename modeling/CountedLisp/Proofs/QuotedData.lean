import CountedLisp.Proofs.ListAccess
import CountedLisp.Proofs.Literals
import CountedLisp.Proofs.Rereading

/-!
# Quotations and what they own

Quoting a datum either makes an object that owns all its parts alone, or it leaves nothing behind.

In the first case the new objects are laid out as `Value.place` says, and `Heap.Quotes` describes
them from the outside: the shape of the datum, with the objects that it is made of. There are no
others, and none of them is in two places (`quotes_place`).

In the second case the first literal without a value ends it. What was made before is given up, item
by item on every level, and giving up a value destroys all that was made for it (`drop_place`). So
the old heap is left, with dead objects after its own (`build_error`). In a text that was read, a
literal without a value is a numeral that is out of range.
-/

namespace CountedLisp

open Run

/-! ### Numerals out of range -/

/-- A numeral that its type cannot hold, with the failure that it leads to. -/
inductive Token.OutOfRange (t : Token) : Failure → Prop where
  | integer (hk : t.kind = .integer)
    (hv : ¬(-2 ^ 63 ≤ Token.integerValue t.lexeme ∧ Token.integerValue t.lexeme < 2 ^ 63)) :
    OutOfRange t (Token.outOfRange "ParseInt" t.lexeme)
  | double (hk : t.kind = .double)
    (hv : Token.double? t.lexeme = .error (Token.outOfRange "ParseFloat" t.lexeme)) :
    OutOfRange t (Token.outOfRange "ParseFloat" t.lexeme)

theorem of_mapError_eq_error {ε ε' α : Type} {g : ε → ε'} {x : Except ε α} {e : ε'}
    (h : x.mapError g = .error e) : ∃ e', x = .error e' ∧ g e' = e := by
  cases x with
  | ok a => cases h
  | error e' => exact ⟨e', rfl, Except.error.inj h⟩

theorem of_map_eq_error {ε α β : Type} {g : α → β} {x : Except ε α} {e : ε}
    (h : x.map g = .error e) : x = .error e := by
  cases x with
  | ok a => cases h
  | error e' =>
    cases h
    rfl

namespace Token

variable {t : Token} {f : Failure} {e : Halt}

theorem integer?_eq_error {lexeme : Text} (hs : IsNumeral lexeme)
    (h : integer? lexeme = .error f) :
    ¬(-2 ^ 63 ≤ integerValue lexeme ∧ integerValue lexeme < 2 ^ 63) ∧
      f = outOfRange "ParseInt" lexeme := by
  obtain ⟨v, hv⟩ := hs.exists_value
  rw [hv.integerValue_eq]
  rw [integer?_of_isNumeralOf hv] at h
  split_ifs at h with hrange
  exact ⟨hrange, (Except.error.inj h).symm⟩

theorem double?_eq_error {s fraction : Text} (hs : IsNumeral s) (hf : IsDigits fraction)
    (h : double? (s ++ Text.byte '.' :: fraction) = .error f) :
    f = outOfRange "ParseFloat" (s ++ Text.byte '.' :: fraction) := by
  obtain ⟨negative, whole, -, -, hread⟩ := double?_of_isNumeral hs hf
  rw [hread] at h
  cases hx : Binary64.ofDecimal? negative (Text.placeValue (whole ++ fraction)) fraction.length with
  | some x => rw [hx] at h; cases h
  | none => rw [hx] at h; exact (Except.error.inj h).symm

/-- A numeral that is out of range has no value. -/
theorem OutOfRange.literal_ne (h : t.OutOfRange f) (c : Constant) : t.literal ≠ .ok c := by
  cases h with
  | integer hk hv =>
    intro hc
    rw [literal, hk] at hc
    cases hv' : integer? t.lexeme with
    | ok v => exact hv (isWord_of_integer? hv')
    | error g => rw [hv'] at hc; cases hc
  | double hk hv =>
    rw [literal, hk]
    dsimp only
    rw [hv]
    simp [Except.map, Except.mapError]

/-- In a text that was read, a literal has a value unless it is a numeral that is out of range. -/
theorem IsLegible.outOfRange (hl : t.IsLegible) (hk : t.kind ≠ .identifier)
    (he : t.literal = .error e) : ∃ f, e = .failure f ∧ t.OutOfRange f := by
  obtain ⟨kind, lexeme, span⟩ := t
  have hspelled : Spelled (some kind) lexeme := spelled_of_winner hl.winner
  cases hspelled with
  | leftParen => cases hl.isAtom
  | rightParen => cases hl.isAtom
  | quoteMark => cases hl.isAtom
  | identifier => exact absurd rfl hk
  | @string s hs =>
    rw [literal_string (s := s) rfl rfl] at he
    cases he
  | char b => cases he
  | boolean hb => cases he
  | integer hs =>
    obtain ⟨f, hf, rfl⟩ := of_mapError_eq_error he
    obtain ⟨hv, rfl⟩ := integer?_eq_error hs (of_map_eq_error hf)
    exact ⟨_, rfl, .integer rfl hv⟩
  | @double s u hs hu =>
    obtain ⟨f, hf, rfl⟩ := of_mapError_eq_error he
    have hdouble : double? (s ++ Text.byte '.' :: u) = .error f := of_map_eq_error hf
    obtain rfl := double?_eq_error hs hu hdouble
    exact ⟨_, rfl, .double rfl hdouble⟩

end Token

namespace Datum

/-- A token that has a value: a name or a literal. -/
def IsValued (t : Token) : Prop :=
  t.kind = .identifier ∨ ∃ c, t.literal = .ok c

theorem IsValued.not_outOfRange {t : Token} (hv : IsValued t) (f : Failure) : ¬t.OutOfRange f := by
  intro hr
  rcases hv with hk | ⟨c, hc⟩
  · cases hr with
    | integer hk' => cases hk.symm.trans hk'
    | double hk' => cases hk.symm.trans hk'
  · exact hr.literal_ne c hc

mutual
/-- If a datum has a value, then all its tokens do. -/
theorem isValued_of_value? (d : Datum) {v : Value} (hd : d.value? = .ok v) :
    ∀ t ∈ d.atoms, IsValued t := by
  match d with
  | .atom t =>
    intro u hu
    obtain rfl := List.mem_singleton.1 hu
    by_cases hk : u.kind = .identifier
    · exact .inl hk
    · obtain ⟨c, hc, -⟩ := value?_atom_ok hk hd
      exact .inr ⟨c, hc⟩
  | .list items =>
    obtain ⟨vs, hvs, -⟩ := value?_list_ok hd
    exact isValued_of_values? items hvs
termination_by structural d

theorem isValued_of_values? (ds : List Datum) {vs : List Value} (hds : values? ds = .ok vs) :
    ∀ t ∈ atomsAll ds, IsValued t := by
  match ds with
  | [] =>
    intro t ht
    cases ht
  | d :: ds =>
    obtain ⟨u, us, hu, hus, -⟩ := values?_cons_ok hds
    intro t ht
    rcases List.mem_append.1 ht with ht | ht
    · exact isValued_of_value? d hu t ht
    · exact isValued_of_values? ds hus t ht
termination_by structural ds
end

/-- The first token without a value, with what it stops for. -/
def StopsAt (atoms : List Token) (t : Token) (e : Halt) : Prop :=
  ∃ before after, atoms = before ++ t :: after ∧ (∀ u ∈ before, IsValued u) ∧
    t.kind ≠ .identifier ∧ t.literal = .error e

theorem values?_cons_error {d : Datum} {ds : List Datum} {e : Halt}
    (h : values? (d :: ds) = .error e) :
    value? d = .error e ∨ ∃ v, value? d = .ok v ∧ values? ds = .error e := by
  rw [values?] at h
  cases hv : value? d with
  | error g =>
    rw [hv] at h
    cases h
    exact .inl rfl
  | ok v =>
    rw [hv] at h
    exact .inr ⟨v, rfl, of_map_eq_error h⟩

mutual
/-- If a datum has no value, then this is because of its first token without one. -/
theorem stopsAt_of_value? (d : Datum) {e : Halt} (hd : d.value? = .error e) :
    ∃ t, StopsAt d.atoms t e := by
  match d with
  | .atom t =>
    rw [value?] at hd
    split_ifs at hd with hk
    exact ⟨t, [], [], rfl, by simp, hk, of_map_eq_error hd⟩
  | .list items => exact stopsAt_of_values? items (of_map_eq_error hd)
termination_by structural d

theorem stopsAt_of_values? (ds : List Datum) {e : Halt} (hds : values? ds = .error e) :
    ∃ t, StopsAt (atomsAll ds) t e := by
  match ds with
  | [] => cases hds
  | d :: ds =>
    rw [atomsAll]
    rcases values?_cons_error hds with hd | ⟨v, hv, hrest⟩
    · obtain ⟨t, before, after, hatoms, hbefore, hstops⟩ := stopsAt_of_value? d hd
      refine ⟨t, before, after ++ atomsAll ds, ?_, hbefore, hstops⟩
      rw [hatoms, List.append_assoc, List.cons_append]
    · obtain ⟨t, before, after, hatoms, hbefore, hstops⟩ := stopsAt_of_values? ds hrest
      refine ⟨t, d.atoms ++ before, after, ?_, fun u hu => ?_, hstops⟩
      · rw [hatoms, List.append_assoc]
      · rcases List.mem_append.1 hu with hu | hu
        · exact isValued_of_value? d hv u hu
        · exact hbefore u hu
termination_by structural ds
end

/-! ### The nodes of a text -/

mutual
/-- A datum and all that are in it. -/
def nodes : Datum → List Datum
  | .atom t => [.atom t]
  | .list items => .list items :: nodesAll items
termination_by structural d => d

/-- Data and all that are in them. -/
def nodesAll : List Datum → List Datum
  | [] => []
  | d :: ds => nodes d ++ nodesAll ds
termination_by structural ds => ds
end

mutual
theorem atoms_subset_of_mem_nodes (e : Datum) {d : Datum} (hd : d ∈ e.nodes) :
    d.atoms ⊆ e.atoms := by
  match e with
  | .atom t =>
    obtain rfl := List.mem_singleton.1 hd
    exact List.Subset.refl _
  | .list items =>
    rcases List.mem_cons.1 hd with rfl | hd
    · exact List.Subset.refl _
    · exact atoms_subset_of_mem_nodesAll items hd
termination_by structural e

theorem atoms_subset_of_mem_nodesAll (es : List Datum) {d : Datum} (hd : d ∈ nodesAll es) :
    d.atoms ⊆ atomsAll es := by
  match es with
  | [] => cases hd
  | e :: es =>
    rcases List.mem_append.1 hd with hd | hd
    · exact fun t ht => List.mem_append_left _ (atoms_subset_of_mem_nodes e hd ht)
    · exact fun t ht => List.mem_append_right _ (atoms_subset_of_mem_nodesAll es hd ht)
termination_by structural es
end

end Datum

/-! ### The objects of a quotation -/

namespace Heap

open Value Pair

/-- The numbers of new objects in a heap that had `n` of them. -/
def newIds (n count : Nat) : List ObjectId :=
  (List.range' n count).map ObjectId.mk

theorem mem_newIds {n count : Nat} {id : ObjectId} :
    id ∈ newIds n count ↔ n ≤ id.index ∧ id.index < n + count := by
  obtain ⟨i⟩ := id
  simp [newIds, List.mem_range'_1]

theorem nodup_newIds (n count : Nat) : (newIds n count).Nodup :=
  List.Nodup.map (fun _ _ h => ObjectId.mk.inj h) (List.nodup_range' (h := Nat.one_pos))

theorem newIds_add (n a b : Nat) : newIds n (a + b) = newIds n a ++ newIds (n + a) b := by
  rw [newIds, newIds, newIds, ← List.map_append, List.range'_append_1]

theorem linkIds_perm (n : Nat) (rs : List Ref) : (linkIds n rs).Perm (newIds n rs.length) := by
  induction rs with
  | nil => exact .refl _
  | cons r rs ih =>
    rw [List.length_cons, newIds_add, linkIds]
    exact (ih.cons _).trans (List.perm_append_singleton _ _).symm

/-- The object of a quotation, which has the shape of the datum. Its objects are given, too; each of
them has one owner. The empty list is always the same object and is not among them. -/
inductive Quotes (h : Heap) : Ref → Datum → List ObjectId → Prop where
  | name {id : ObjectId} {t : Token} (hk : t.kind = .identifier)
    (ho : h.object? id = some (Object.new (.constant (.string t.lexeme)))) :
    Quotes h (some id) (.atom t) [id]
  | literal {id : ObjectId} {t : Token} {c : Constant} (hk : t.kind ≠ .identifier)
    (hc : t.literal = .ok c) (ho : h.object? id = some (Object.new (.constant c))) :
    Quotes h (some id) (.atom t) [id]
  | nil {o : Object} (ho : h.get? emptyList = some o) (hp : o.payload = .emptyList) :
    Quotes h emptyList (.list []) []
  | cons {id : ObjectId} {left right : Ref} {d : Datum} {ds : List Datum} {ids ids' : List ObjectId}
    (ho : h.object? id = some (Object.new (.pair left right))) (hleft : Quotes h left d ids)
    (hright : Quotes h right (.list ds) ids') :
    Quotes h (some id) (.list (d :: ds)) (id :: (ids ++ ids'))

/-- The objects of several quotations. -/
inductive QuotesAll (h : Heap) : List Ref → List Datum → List ObjectId → Prop where
  | nil : QuotesAll h [] [] []
  | cons {r : Ref} {rs : List Ref} {d : Datum} {ds : List Datum} {ids ids' : List ObjectId}
    (hd : h.Quotes r d ids) (hds : QuotesAll h rs ds ids') :
    QuotesAll h (r :: rs) (d :: ds) (ids ++ ids')

variable {h : Heap}

theorem Quotes.extend {r : Ref} {d : Datum} {ids : List ObjectId} (hq : h.Quotes r d ids)
    (os : List Object) : (h.extend os).Quotes r d ids := by
  induction hq with
  | name hk ho => exact .name hk (object?_extend_of_some os ho)
  | literal hk hc ho => exact .literal hk hc (object?_extend_of_some os ho)
  | nil ho hp => exact .nil (object?_extend_of_some os ho) hp
  | cons ho _ _ ihl ihr => exact .cons (object?_extend_of_some os ho) ihl ihr

/-- The pairs of a list come after the objects of its items. -/
theorem quotes_link (hn : h.HasNil) {rs : List Ref} {ds : List Datum} {ids : List ObjectId}
    (hq : h.QuotesAll rs ds ids) (later : List Object) :
    ∃ all, (h.extend ((link h.objects.size rs).2 ++ later)).Quotes (link h.objects.size rs).1
      (.list ds) all ∧ all.Perm (ids ++ linkIds h.objects.size rs) := by
  induction hq generalizing later with
  | nil =>
    obtain ⟨o, ho, hp⟩ := (hn.extend later).payload
    exact ⟨[], .nil ho hp, .refl _⟩
  | @cons r rs d ds ids ids' hd hds ih =>
    obtain ⟨all, hall, hperm⟩ := ih (Object.new (.pair r (link h.objects.size rs).1) :: later)
    have hfirst : (link h.objects.size (r :: rs)).1 = some ⟨h.objects.size + rs.length⟩ := by
      rw [← length_link h.objects.size rs]
      rfl
    have hrest : (h.extend ((link h.objects.size (r :: rs)).2 ++ later)).Quotes
        (link h.objects.size rs).1 (.list ds) all := by
      simpa [link] using hall
    rw [hfirst]
    refine ⟨_, .cons (object?_link r rs later) (hd.extend _) hrest, ?_⟩
    have htail := hperm.append_left ids
    rw [← List.append_assoc] at htail
    exact (htail.cons _).trans List.perm_middle.symm

mutual
/-- **A quotation is made of new objects**, each of which is in one place. -/
theorem quotes_place (d : Datum) {v : Value} (hd : d.value? = .ok v) {h : Heap} (hn : h.HasNil)
    (later : List Object) : ∃ ids,
      (h.extend ((v.place h.objects.size).2 ++ later)).Quotes (v.place h.objects.size).1 d ids ∧
      ids.Perm (newIds h.objects.size (v.place h.objects.size).2.length) := by
  match d with
  | .atom t =>
    have hnew (c : Constant) :
        (h.extend ([Object.new (.constant c)] ++ later)).object? ⟨h.objects.size⟩ =
          some (Object.new (.constant c)) := object?_extend_new h _ 0
    by_cases hk : t.kind = .identifier
    · rw [Datum.value?, if_pos hk] at hd
      cases hd
      exact ⟨_, .name hk (hnew _), .refl _⟩
    · obtain ⟨c, hc, rfl⟩ := Datum.value?_atom_ok hk hd
      exact ⟨_, .literal hk hc (hnew c), .refl _⟩
  | .list items =>
    obtain ⟨vs, hvs, rfl⟩ := Datum.value?_list_ok hd
    obtain ⟨ids, hids, hperm⟩ := quotes_placeAll items hvs hn
    obtain ⟨all, hall, hperm'⟩ := quotes_link (hn.extend _) hids later
    rw [extend_extend, size_objects_extend] at hall
    rw [place_list, List.append_assoc]
    refine ⟨all, hall, hperm'.trans ?_⟩
    rw [List.length_append, newIds_add, size_objects_extend, length_link]
    exact hperm.append (linkIds_perm _ _)
termination_by structural d

theorem quotes_placeAll (ds : List Datum) {vs : List Value} (hds : Datum.values? ds = .ok vs)
    {h : Heap} (hn : h.HasNil) :
    ∃ ids, (h.extend (placeAll h.objects.size vs).2).QuotesAll (placeAll h.objects.size vs).1 ds
      ids ∧ ids.Perm (newIds h.objects.size (placeAll h.objects.size vs).2.length) := by
  match ds with
  | [] =>
    cases hds
    exact ⟨[], .nil, .refl _⟩
  | d :: ds =>
    obtain ⟨v, vs, hv, hvs, rfl⟩ := Datum.values?_cons_ok hds
    obtain ⟨ids, hids, hperm⟩ := quotes_place d hv hn
      (placeAll (h.objects.size + (v.place h.objects.size).2.length) vs).2
    obtain ⟨ids', hids', hperm'⟩ := quotes_placeAll ds hvs (hn.extend (v.place h.objects.size).2)
    rw [size_objects_extend] at hids' hperm'
    rw [extend_extend] at hids'
    rw [placeAll_cons]
    refine ⟨_, .cons hids hids', ?_⟩
    rw [List.length_append, newIds_add]
    exact hperm.append hperm'
termination_by structural ds
end

/-! ### Giving up what was made -/

mutual
/-- **Giving up a new value** destroys all objects that were made for it. -/
theorem drop_place (v : Value) {h : Heap} (hn : h.HasNil) (later : List Object) :
    ((h.extend ((v.place h.objects.size).2 ++ later)).drop #[]
        (Handle.objects [(v.place h.objects.size).1])).1 =
      h.extend ((v.place h.objects.size).2.map Object.destroyed ++ later) := by
  match v with
  | .constant c =>
    show ((h.extend ([] ++ Object.new (.constant c) :: later)).drop #[]
      [.object ⟨h.objects.size + ([] : List Object).length⟩]).1 = _
    rw [drop_cons, dropOne_new h [] rfl later]
    exact congrArg Prod.fst (drop_nil _ _)
  | .list items =>
    have hpairs := drop_link (hn.extend (placeAll h.objects.size items).2)
      (placeAll h.objects.size items).1 later
    rw [extend_extend, extend_extend, size_objects_extend] at hpairs
    rw [place_list, List.append_assoc, hpairs, drop_placeAll items hn, List.map_append,
      List.append_assoc]
termination_by structural v

theorem drop_placeAll (vs : List Value) {h : Heap} (hn : h.HasNil) (later : List Object) :
    ((h.extend ((placeAll h.objects.size vs).2 ++ later)).drop #[]
        (Handle.objects (placeAll h.objects.size vs).1)).1 =
      h.extend ((placeAll h.objects.size vs).2.map Object.destroyed ++ later) := by
  match vs with
  | [] => exact congrArg Prod.fst (drop_nil _ _)
  | v :: vs =>
    have hfirst := drop_place v hn
      ((placeAll (h.objects.size + (v.place h.objects.size).2.length) vs).2 ++ later)
    have hrest := drop_placeAll vs
      (hn.extend ((v.place h.objects.size).2.map Object.destroyed)) later
    rw [size_objects_extend, List.length_map, extend_extend, extend_extend] at hrest
    rw [placeAll_cons, Handle.objects_cons, fst_drop_append, List.append_assoc, hfirst, hrest,
      List.map_append, List.append_assoc]
termination_by structural vs
end

end Heap

/-! ### Failures -/

/-- The second world differs from the first one by dead objects that were added, and by its log. -/
structure World.Wastes (w w' : World) : Prop where
  heap : ∃ os : List Object, w'.heap = w.heap.extend (os.map Object.destroyed)
  rest : w' = { w with heap := w'.heap, log := w'.log }

theorem World.Wastes.refl (w : World) : w.Wastes w where
  heap := ⟨[], by rw [List.map_nil, Heap.extend_nil]⟩
  rest := rfl

theorem Value.placeAll_concat (n : Nat) (vs : List Value) (v : Value) :
    placeAll n (vs ++ [v]) =
      ((placeAll n vs).1 ++ [(v.place (n + (placeAll n vs).2.length)).1],
        (placeAll n vs).2 ++ (v.place (n + (placeAll n vs).2.length)).2) := by
  induction vs generalizing n with
  | nil => simp [placeAll]
  | cons u us ih =>
    rw [List.cons_append, placeAll_cons, ih, placeAll_cons]
    simp [Nat.add_assoc]

/-- Giving up the values that were made destroys all their objects, whatever was added after them
and destroyed. -/
theorem World.Wastes.releaseAll {w w' : World} (hw : w.reclaim = true) (hn : w.heap.HasNil)
    (done : List Value) (hwaste : World.Wastes
      { w with heap := w.heap.extend (Value.placeAll w.heap.objects.size done).2 } w') :
    w.Wastes (World.releaseAll (Value.placeAll w.heap.objects.size done).1 w') := by
  obtain ⟨⟨os, hheap⟩, hrest⟩ := hwaste
  have hw' : w'.reclaim = true := by rw [hrest, hw]
  have hdrop := Heap.drop_placeAll done hn (os.map Object.destroyed)
  refine ⟨⟨(Value.placeAll w.heap.objects.size done).2 ++ os, ?_⟩, ?_⟩
  · rw [World.releaseAll, World.heap_drop hw', hheap, Heap.extend_extend, hdrop, List.map_append]
  · rw [World.releaseAll, World.drop, if_pos hw', hrest]

theorem Run.onHalt_error {α : Type} {act : Run α} (after : World → World) {e : Halt} {w w' : World}
    (h : act w = .error e w') : act.onHalt after w = .error e (after w') := by
  rw [onHalt, h]

namespace Quotation

open Value

mutual
/-- **Quoting a datum without a value** fails, and leaves dead objects only. -/
theorem build_error (d : Datum) {e : Halt} (hd : d.value? = .error e) {w : World}
    (hw : w.reclaim = true) (hn : w.heap.HasNil) :
    ∃ w', build d w = .error e w' ∧ w.Wastes w' := by
  match d with
  | .atom t =>
    rw [Datum.value?] at hd
    split_ifs at hd with hk
    have he : t.literal = .error e := of_map_eq_error hd
    refine ⟨w, ?_, .refl w⟩
    rw [build, if_neg hk, Token.evaluate, he]
    rfl
  | .list items =>
    have hitems : Datum.values? items = .error e := of_map_eq_error hd
    obtain ⟨w', h', hwaste⟩ := buildAll_error items hitems [] hw hn
    refine ⟨w', ?_, hwaste⟩
    rw [placeAll, Heap.extend_nil] at h'
    rw [build]
    exact bind_error h'
termination_by structural d

/-- Some values are there already when the next datum is quoted. -/
theorem buildAll_error (ds : List Datum) {e : Halt} (hds : Datum.values? ds = .error e)
    (done : List Value) {w : World} (hw : w.reclaim = true) (hn : w.heap.HasNil) :
    ∃ w', buildAll (placeAll w.heap.objects.size done).1 ds
      { w with heap := w.heap.extend (placeAll w.heap.objects.size done).2 } =
        .error e w' ∧ w.Wastes w' := by
  match ds with
  | [] => cases hds
  | d :: ds =>
    rcases Datum.values?_cons_error hds with hd | ⟨v, hv, hrest⟩
    · obtain ⟨w₁, h₁, hwaste⟩ := build_error d hd
        (w := { w with heap := w.heap.extend (placeAll w.heap.objects.size done).2 }) hw
        (hn.extend _)
      refine ⟨_, ?_, hwaste.releaseAll hw hn⟩
      rw [buildAll]
      exact bind_error (onHalt_error _ h₁)
    · have hfirst := build_eq d hv
        (w := { w with heap := w.heap.extend (placeAll w.heap.objects.size done).2 }) hw
        (hn.extend _)
      obtain ⟨w', h', hwaste⟩ := buildAll_error ds hrest (done ++ [v]) hw hn
      refine ⟨w', ?_, hwaste⟩
      rw [placeAll_concat, ← Heap.extend_extend] at h'
      rw [Heap.size_objects_extend] at hfirst
      rw [buildAll, bind_ok (onHalt_ok _ hfirst)]
      exact h'
termination_by structural ds
end

/-- A literal of a text that was read has no value if and only if it is out of range. -/
theorem outOfRange_of_stopsAt {atoms : List Token} (hl : ∀ t ∈ atoms, t.IsLegible) {t : Token}
    {e : Halt} (he : Datum.StopsAt atoms t e) :
    ∃ before after f, atoms = before ++ t :: after ∧ (∀ u ∈ before, ∀ g, ¬u.OutOfRange g) ∧
      e = .failure f ∧ t.OutOfRange f := by
  obtain ⟨before, after, rfl, hbefore, hk, hlit⟩ := he
  have ht : t.IsLegible := hl t (by simp)
  obtain ⟨f, rfl, hrange⟩ := ht.outOfRange hk hlit
  exact ⟨before, after, f, rfl, fun u hu => (hbefore u hu).not_outOfRange, rfl, hrange⟩

/-- **All or nothing.** Whatever has been done before, a datum of a text is quoted. If none of its
numerals is out of range, then the result has the shape of the datum; it is made of new objects,
each of which has one owner and is in one place, and nothing else has changed. Otherwise the first
numeral that is out of range is the failure; whatever was made is dead by then, and nothing else has
changed, either. -/
theorem build_all_or_nothing {engine : Engine} (he : Client.Lawless engine) {w₀ w : World}
    (hw : w₀.Fresh) (deeds : List Client.Deed) (hdeeds : Client.afterDeeds engine w₀ deeds = w)
    {s : Text} {ts : List Token} {ds : List Datum} (ht : Token.tokenize s = .ok ts)
    (hr : Datum.read ts = .ok ds) {d : Datum} (hd : d ∈ Datum.nodesAll ds) :
    ((∀ t ∈ d.atoms, ∀ f, ¬t.OutOfRange f) ∧
      ∃ r w' ids, build d w = .ok r w' ∧ w'.heap.Quotes r d ids ∧ w.heap.Adds w'.heap ids ∧
        (∀ id o, w.heap.object? id = some o → w'.heap.object? id = some o) ∧
        w' = { w with heap := w'.heap }) ∨
    ∃ before t after f, d.atoms = before ++ t :: after ∧
      (∀ u ∈ before, ∀ g, ¬u.OutOfRange g) ∧ t.OutOfRange f ∧
      ∃ w' ids, build d w = .error (.failure f) w' ∧ w.heap.Adds w'.heap ids ∧
        (∀ id ∈ ids, w'.heap.Dead (.object id)) ∧
        (∀ id o, w.heap.object? id = some o → w'.heap.object? id = some o) ∧
        w' = { w with heap := w'.heap, log := w'.log } := by
  have hreclaim : w.reclaim = true := hdeeds ▸ Client.reclaim_afterDeeds he hw deeds
  have hnil : w.heap.HasNil := hdeeds ▸ Client.hasNil_afterDeeds he hw deeds
  have hlegible : ∀ t ∈ d.atoms, t.IsLegible := fun t hmem =>
    Datum.isLegible_of_read ht hr t (Datum.atoms_subset_of_mem_nodesAll ds hd hmem)
  cases hv : d.value? with
  | ok v =>
    left
    obtain ⟨ids, hquotes, hperm⟩ := Heap.quotes_place d hv hnil []
    rw [List.append_nil] at hquotes
    have hadds : w.heap.Adds (w.heap.extend (v.place w.heap.objects.size).2) ids :=
      Heap.adds_extend (hperm.nodup_iff.2 (Heap.nodup_newIds _ _)) fun id => by
        rw [hperm.mem_iff, Heap.mem_newIds]
    exact ⟨fun t hmem => (Datum.isValued_of_value? d hv t hmem).not_outOfRange, _, _, ids,
      build_eq d hv hreclaim hnil, hquotes, hadds, fun id o => Heap.object?_extend_of_some _, rfl⟩
  | error e =>
    right
    obtain ⟨t, hstops⟩ := Datum.stopsAt_of_value? d hv
    obtain ⟨before, after, f, hatoms, hbefore, rfl, hrange⟩ :=
      outOfRange_of_stopsAt hlegible hstops
    obtain ⟨w', hbuild, ⟨os, hheap⟩, hrest⟩ := build_error d hv hreclaim hnil
    refine ⟨before, t, after, f, hatoms, hbefore, hrange, w',
      Heap.newIds w.heap.objects.size os.length, hbuild, ?_, fun id hid => ?_, fun id o ho => ?_,
      hrest⟩
    · rw [hheap]
      refine Heap.adds_extend (Heap.nodup_newIds _ _) fun id => ?_
      rw [Heap.mem_newIds, List.length_map]
    · obtain ⟨hle, hlt⟩ := Heap.mem_newIds.1 hid
      exact hheap ▸ Heap.dead_extend hle hlt
    · exact hheap ▸ Heap.object?_extend_of_some _ ho

/-- A list in which a numeral is out of range after some objects have been made. -/
def outOfRangeList : Text := "(a (1 \"b\" 99999999999999999999) 2)"

/-- Whether a text is one datum with an integer that is out of range. -/
def hasOutOfRangeInteger (text : Text) : Bool :=
  match Token.tokenize text with
  | .ok ts =>
    match Datum.read ts with
    | .ok [d] => d.atoms.any fun t =>
      t.kind = .integer ∧
        ¬(-2 ^ 63 ≤ Token.integerValue t.lexeme ∧ Token.integerValue t.lexeme < 2 ^ 63)
    | _ => false
  | .error _ => false

theorem build_all_or_nothing_outOfRange : ∃ ts d t f w' ids,
    Token.tokenize outOfRangeList = .ok ts ∧ Datum.read ts = .ok [d] ∧ d ∈ Datum.nodesAll [d] ∧
    t ∈ d.atoms ∧ t.OutOfRange f ∧ build d {} = .error (.failure f) w' ∧
    Heap.Adds (World.heap {}) w'.heap ids ∧ ∀ id ∈ ids, w'.heap.Dead (.object id) := by
  have hrun : hasOutOfRangeInteger outOfRangeList = true := by decide +kernel
  unfold hasOutOfRangeInteger at hrun
  split at hrun
  · next ts ht =>
    split at hrun
    · next d hr =>
      have hd : d ∈ Datum.nodesAll [d] := by
        cases d <;> simp [Datum.nodesAll, Datum.nodes]
      obtain ⟨u, hu, hover⟩ := List.any_eq_true.1 hrun
      obtain ⟨hk, hv⟩ := of_decide_eq_true hover
      have hfresh : World.Fresh {} := ⟨rfl, rfl, rfl, rfl⟩
      rcases build_all_or_nothing (.program 0) hfresh [] rfl ht hr hd with
        ⟨hnone, -⟩ | ⟨before, t, after, f, hatoms, -, hrange, w', ids, hbuild, hadds, hdead, -⟩
      · exact absurd (.integer hk hv) (hnone u hu _)
      · refine ⟨ts, d, t, f, w', ids, ht, hr, hd, ?_, hrange, hbuild, hadds, hdead⟩
        rw [hatoms]
        simp
    · cases hrun
  · cases hrun

end Quotation

end CountedLisp
