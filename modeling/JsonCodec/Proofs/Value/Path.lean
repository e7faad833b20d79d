import Mathlib
import JsonCodec.Proofs.Association
import JsonCodec.Proofs.Value.Built
import JsonCodec.Value.Edit

set_option autoImplicit false

/-!
# Paths that read and paths that change

An edit along a path goes where a look-up goes. Where a look-up misses a key the edit creates it,
which is all that it leaves behind when it fails further on. Indexes that are built on the way are
not part of what a value holds: two values hold the same if their copies are equal.
-/
namespace JsonCodec

def PathStep.container : PathStep → Kind
  | .index _ => .array
  | .key _ => .object

namespace Edit

variable {α : Type}

theorem step_index (items : List Value) (i : Int) (edit : Edit α) :
    step (.index i) edit (.array items) =
      match items[PathStep.wrapIndex i]? with
      | some item =>
        within item (fun w => .array (items.set (PathStep.wrapIndex i) w)) edit (.array items)
      | none => .error (.indexRange (PathStep.wrapIndex i) items.length) (.array items) := by
  change (match items[PathStep.wrapIndex i]? with
    | some item => within item (fun w => .array (items.set (PathStep.wrapIndex i) w)) edit
    | none => throw (.indexRange (PathStep.wrapIndex i) items.length) : Edit α) (.array items) = _
  cases items[PathStep.wrapIndex i]? <;> rfl

/-- A step to a key leads to its value, and to null if it is missing. -/
theorem step_key {o : Object Value} (h : o.Consistent) (key : Bytes) (edit : Edit α) :
    step (.key key) edit (.object o) =
      within ((o.entries.lookup key).getD .null)
        (fun w => .object ((o.require key .null).2.setAt (o.require key .null).1 w)) edit
        (.object o) := by
  obtain ⟨-, hmember, -⟩ := h.require_spec key .null
  change (match (o.require key .null).2.memberAt? (o.require key .null).1 with
    | some member => within member
      (fun w => .object ((o.require key .null).2.setAt (o.require key .null).1 w)) edit
    | none => throw (.missingKey key) : Edit α) (.object o) = _
  rw [hmember]

end Edit

namespace Value

theorem follow_index (items : List Value) (i : Int) : (Value.array items).follow (.index i) =
    match items[PathStep.wrapIndex i]? with
    | some item => .ok item
    | none => .error (.indexRange (PathStep.wrapIndex i) items.length) := rfl

theorem follow_key (o : Object Value) (key : Bytes) : (Value.object o).follow (.key key) =
    match o.find? key with
    | some member => .ok member
    | none => .error (.missingKey key) := rfl

/-- A step that leads somewhere leads to an item or to a member. -/
theorem follow_eq_ok {v next : Value} {s : PathStep} (h : v.follow s = .ok next) :
    (∃ i items, s = .index i ∧ v = .array items ∧ items[PathStep.wrapIndex i]? = some next) ∨
      ∃ key o, s = .key key ∧ v = .object o ∧ o.find? key = some next := by
  cases s with
  | index i =>
    cases v with
    | array items =>
      rw [follow_index] at h
      cases hi : items[PathStep.wrapIndex i]? with
      | some item =>
        rw [hi] at h
        exact .inl ⟨i, items, rfl, rfl, by rw [hi, Except.ok.inj h]⟩
      | none =>
        rw [hi] at h
        cases h
    | _ => cases h
  | key key =>
    cases v with
    | object o =>
      rw [follow_key] at h
      cases hk : o.find? key with
      | some member =>
        rw [hk] at h
        exact .inr ⟨key, o, rfl, rfl, by rw [hk, Except.ok.inj h]⟩
      | none =>
        rw [hk] at h
        cases h
    | _ => cases h

theorem Consistent.follow {v next : Value} {s : PathStep} (hv : v.Consistent)
    (h : v.follow s = .ok next) : next.Consistent := by
  obtain ⟨i, items, rfl, rfl, hi⟩ | ⟨key, o, rfl, rfl, hk⟩ := follow_eq_ok h
  · exact (consistent_array items).1 hv next (List.mem_of_getElem? hi)
  · obtain ⟨ho, hvalues⟩ := (consistent_object o).1 hv
    exact hvalues _ (ho.find?_eq_some_iff.1 hk)

/-- A step leads nowhere where a key is missing, and otherwise where no edit goes either. -/
theorem follow_eq_error {v : Value} {s : PathStep} {e : AccessError} (h : v.follow s = .error e) :
    (∃ key o, s = .key key ∧ v = .object o ∧ o.find? key = none ∧ e = .missingKey key) ∨
      (∀ key, e ≠ .missingKey key) ∧
        ∀ {α : Type} (edit : Edit α), Edit.step s edit v = .error e v := by
  cases s with
  | index i =>
    refine .inr ?_
    cases v with
    | array items =>
      rw [follow_index] at h
      cases hi : items[PathStep.wrapIndex i]? with
      | some item =>
        rw [hi] at h
        cases h
      | none =>
        rw [hi] at h
        obtain rfl := Except.error.inj h
        refine ⟨fun key h => (by cases h), fun edit => ?_⟩
        rw [Edit.step_index, hi]
    | _ =>
      obtain rfl := Except.error.inj h
      exact ⟨fun key h => (by cases h), fun edit => rfl⟩
  | key key =>
    cases v with
    | object o =>
      rw [follow_key] at h
      cases hk : o.find? key with
      | some member =>
        rw [hk] at h
        cases h
      | none =>
        rw [hk] at h
        exact .inl ⟨key, o, rfl, rfl, hk, (Except.error.inj h).symm⟩
    | _ =>
      obtain rfl := Except.error.inj h
      exact .inr ⟨fun key h => (by cases h), fun edit => rfl⟩

def place (v : Value) (s : PathStep) (w : Value) : Value :=
  match s, v with
  | .index i, array items => .array (items.set (PathStep.wrapIndex i) w)
  | .key k, object members => .object ⟨Association.put members.entries k w, none⟩
  | _, v => v

/-- The value with another one in place of the part at the end of a path. -/
def replaced (v : Value) (path : List PathStep) (w : Value) : Value :=
  match path with
  | [] => w
  | s :: path =>
    match v.follow s with
    | .ok next => v.place s (next.replaced path w)
    | .error _ => v

theorem copy_place {v x y : Value} (s : PathStep) (h : x.copy = y.copy) :
    (v.place s x).copy = (v.place s y).copy := by
  unfold place
  split
  · rw [copy_array, copy_array, List.map_set, List.map_set, h]
  · rw [copy_object, copy_object, Association.map_put, Association.map_put, h]
  · rfl

theorem place_self {v next : Value} {s : PathStep} (hv : v.Consistent)
    (h : v.follow s = .ok next) : (v.place s next).copy = v.copy := by
  obtain ⟨i, items, rfl, rfl, hi⟩ | ⟨key, ⟨entries, index⟩, rfl, rfl, hk⟩ := follow_eq_ok h
  · obtain ⟨hlt, rfl⟩ := List.getElem?_eq_some_iff.1 hi
    rw [place, List.set_getElem_self]
  · obtain ⟨ho, -⟩ := (consistent_object _).1 hv
    rw [place, Association.put_self ho.nodup (ho.find?_eq_some_iff.1 hk), copy_object, copy_object]

theorem follow_place {v next : Value} {s : PathStep} (hv : v.Consistent)
    (h : v.follow s = .ok next) (w : Value) : (v.place s w).follow s = .ok w := by
  obtain ⟨i, items, rfl, rfl, hi⟩ | ⟨key, o, rfl, rfl, hk⟩ := follow_eq_ok h
  · obtain ⟨hlt, -⟩ := List.getElem?_eq_some_iff.1 hi
    rw [place, follow_index, List.getElem?_set_self hlt]
  · obtain ⟨ho, -⟩ := (consistent_object o).1 hv
    have hmem : key ∈ Association.keys o.entries :=
      List.mem_map_of_mem (ho.find?_eq_some_iff.1 hk)
    have hplaced : Object.Consistent ⟨Association.put o.entries key w, none⟩ := by
      refine Object.consistent_of_nodup ?_
      rw [← Association.keys, Association.keys_put hmem]
      exact ho.nodup
    rw [place, follow_key, hplaced.find?_eq_some_iff.2 (Association.mem_put hmem w)]

theorem replaced_cons {v next : Value} {s : PathStep} (h : v.follow s = .ok next)
    (path : List PathStep) (w : Value) :
    v.replaced (s :: path) w = v.place s (next.replaced path w) := by
  rw [replaced, h]

theorem get_cons {v next : Value} {s : PathStep} (h : v.follow s = .ok next)
    (path : List PathStep) : v.get (s :: path) = next.get path := by
  rw [get, h]
  rfl

theorem get_cons_eq_ok {v part : Value} {s : PathStep} {path : List PathStep}
    (h : v.get (s :: path) = .ok part) :
    ∃ next, v.follow s = .ok next ∧ next.get path = .ok part := by
  cases hs : v.follow s with
  | ok next => exact ⟨next, rfl, by rwa [get_cons hs] at h⟩
  | error e =>
    rw [get, hs] at h
    cases h

theorem replaced_self {v part : Value} {path : List PathStep} (hv : v.Consistent)
    (h : v.get path = .ok part) : (v.replaced path part).copy = v.copy := by
  induction path generalizing v with
  | nil => rw [replaced, Except.ok.inj h]
  | cons s path ih =>
    obtain ⟨next, hs, hpath⟩ := get_cons_eq_ok h
    rw [replaced_cons hs, copy_place s (ih (hv.follow hs) hpath), place_self hv hs]

theorem get_replaced {v part : Value} {path : List PathStep} (hv : v.Consistent)
    (h : v.get path = .ok part) (w : Value) : (v.replaced path w).get path = .ok w := by
  induction path generalizing v with
  | nil => rfl
  | cons s path ih =>
    obtain ⟨next, hs, hpath⟩ := get_cons_eq_ok h
    rw [replaced_cons hs, get_cons (follow_place hv hs _), ih (hv.follow hs) hpath]

theorem Consistent.get {v part : Value} {path : List PathStep} (hv : v.Consistent)
    (h : v.get path = .ok part) : part.Consistent := by
  induction path generalizing v with
  | nil => exact Except.ok.inj h ▸ hv
  | cons s path ih =>
    obtain ⟨next, hs, hpath⟩ := get_cons_eq_ok h
    exact ih (hv.follow hs) hpath

theorem get_eq_error {v : Value} {path : List PathStep} {e : AccessError}
    (h : v.get path = .error e) : ∃ before s rest next,
      path = before ++ s :: rest ∧ v.get before = .ok next ∧ next.follow s = .error e := by
  induction path generalizing v with
  | nil => cases h
  | cons s path ih =>
    cases hs : v.follow s with
    | ok next =>
      rw [get_cons hs] at h
      obtain ⟨before, s', rest, last, rfl, hbefore, hlast⟩ := ih h
      exact ⟨s :: before, s', rest, last, rfl, by rwa [get_cons hs], hlast⟩
    | error e' =>
      rw [get, hs] at h
      exact ⟨[], s, path, v, rfl, rfl, hs.trans h⟩

end Value

namespace Edit

/-- A path leads edits of a value to a part of it. The value is put together again as if it had been
changed in another way, up to indexes, none of which is lost track of. -/
structure Leads (v : Value) (path : List PathStep) (part : Value)
    (changed whole : Value → Value) : Prop where
  along : ∀ {α : Type} (edit : Edit α), along path edit v = within part whole edit v
  content : ∀ {w x : Value}, w.copy = x.copy → (whole w).copy = (changed x).copy
  consistent : ∀ {w : Value}, w.Consistent → (whole w).Consistent

theorem leads_nil (v : Value) : Leads v [] v id id where
  along edit := by
    rw [Edit.along, List.foldr_nil, within]
    cases edit v <;> rfl
  content := id
  consistent := id

theorem Leads.append {v part part' : Value} {path path' : List PathStep}
    {changed whole changed' whole' : Value → Value} (h : Leads v path part changed whole)
    (h' : Leads part path' part' changed' whole') :
    Leads v (path ++ path') part' (changed ∘ changed') (whole ∘ whole') where
  along edit := by
    have houter := h.along (Edit.along path' edit)
    rw [within, h'.along edit] at houter
    rw [Edit.along, List.foldr_append]
    refine houter.trans ?_
    rw [within, within]
    cases edit part' <;> rfl
  content hw := h.content (h'.content hw)
  consistent hw := h.consistent (h'.consistent hw)

theorem leads_index {items : List Value} (hv : (Value.array items).Consistent) {i : Int}
    {item : Value} (hi : items[PathStep.wrapIndex i]? = some item) :
    Leads (.array items) [.index i] item ((Value.array items).place (.index i))
      ((Value.array items).place (.index i)) where
  along edit := by
    rw [Edit.along, List.foldr_cons, List.foldr_nil, step_index, hi]
    rfl
  content hw := Value.copy_place _ hw
  consistent {w} hw := by
    rw [Value.consistent_array] at hv
    rw [Value.place, Value.consistent_array]
    intro v hmem
    rcases List.mem_or_eq_of_mem_set hmem with hmem | rfl
    · exact hv v hmem
    · exact hw

/-- A key leads to its value, and to null at the end of the object if it is missing. -/
theorem leads_key {o : Object Value} (hv : (Value.object o).Consistent) (key : Bytes) :
    ∃ whole, Leads (.object o) [.key key] ((o.entries.lookup key).getD .null)
      ((Value.object o).place (.key key)) whole := by
  obtain ⟨ho, -⟩ := (Value.consistent_object o).1 hv
  obtain ⟨-, -, hentries⟩ := ho.require_spec key .null
  refine ⟨_, step_key ho key, fun {w x} hw => ?_, fun {w} hw => ?_⟩
  · refine Eq.trans ?_ (Value.copy_place (.key key) hw)
    rw [Value.place, ← hentries w, Value.copy_object, Value.copy_object]
  · have hrequired : (Value.object (o.require key .null).2).Consistent :=
      hv.changed (Value.consistent_scalar rfl) (fun ho => ho.require key .null)
        fun m hm => Object.mem_require hm
    exact hrequired.changed hw (fun ho => ho.setAt _ w) fun m hm => Object.mem_setAt hm

theorem leads_step {v next : Value} {s : PathStep} (hv : v.Consistent)
    (h : v.follow s = .ok next) : ∃ whole, Leads v [s] next (v.place s) whole := by
  obtain ⟨i, items, rfl, rfl, hi⟩ | ⟨key, o, rfl, rfl, hk⟩ := Value.follow_eq_ok h
  · exact ⟨_, leads_index hv hi⟩
  · obtain ⟨ho, -⟩ := (Value.consistent_object o).1 hv
    obtain ⟨whole, hwhole⟩ := leads_key hv key
    rw [← ho.find?_eq_lookup, hk] at hwhole
    exact ⟨whole, hwhole⟩

theorem leads_path {v part : Value} {path : List PathStep} (hv : v.Consistent)
    (h : v.get path = .ok part) : ∃ whole, Leads v path part (v.replaced path) whole := by
  induction path generalizing v with
  | nil =>
    obtain rfl := Except.ok.inj h
    exact ⟨id, leads_nil v⟩
  | cons s path ih =>
    obtain ⟨next, hs, hpath⟩ := Value.get_cons_eq_ok h
    obtain ⟨outer, houter⟩ := leads_step hv hs
    obtain ⟨inner, hinner⟩ := ih (hv.follow hs) hpath
    refine ⟨outer ∘ inner, ?_⟩
    rw [funext (Value.replaced_cons hs path)]
    exact houter.append hinner

def walk (path : List PathStep) : Edit Value := along path get

theorem Leads.walk {v part : Value} {path : List PathStep} {changed whole : Value → Value}
    (h : Leads v path part changed whole) (rest : List PathStep) :
    walk (path ++ rest) v = within part whole (walk rest) v := by
  rw [Edit.walk, Edit.along, List.foldr_append]
  exact h.along _

/-- A walk from null fails at its first step. -/
theorem walk_null (s : PathStep) (path : List PathStep) :
    walk (s :: path) .null = .error (.mismatch (.kind s.container) .null) .null := by
  cases s <;> rfl

/-- How a walk that creates missing members goes, against a look-up. All values that are built are
consistent (`Built.consistent`). -/
structure Walks : Prop where
  found : ∀ (v part : Value) (path : List PathStep), v.Consistent → v.get path = .ok part →
    ∃ v', walk path v = .ok part v' ∧ v'.copy = v.copy ∧ v'.Consistent
  place : ∀ (v part : Value) (path : List PathStep), v.Consistent → v.get path = .ok part →
    (∃ whole, Leads v path part (v.replaced path) whole) ∧
      ∀ w, (v.replaced path w).get path = .ok w
  /-- Where a look-up first misses a key, a walk adds it to the object there, at the end and with
  null. That is what it comes to if no step is left; otherwise it fails, as null is no container. -/
  missing : ∀ (v : Value) (path : List PathStep) (key : Bytes), v.Consistent →
    v.get path = .error (.missingKey key) → ∃ before rest o v',
      path = before ++ .key key :: rest ∧ v.get before = .ok (.object o) ∧ key ∉ o.keys ∧
      v'.copy = (v.replaced before (.object ⟨o.entries ++ [(key, .null)], none⟩)).copy ∧
      v'.Consistent ∧ walk path v = match rest with
        | [] => .ok .null v'
        | s :: _ => .error (.mismatch (.kind s.container) .null) v'
  failed : ∀ (v : Value) (path : List PathStep) (e : AccessError), v.Consistent →
    v.get path = .error e → (∀ key, e ≠ .missingKey key) →
    ∃ v', walk path v = .error e v' ∧ v'.copy = v.copy ∧ v'.Consistent

theorem walk_found {v part : Value} {path : List PathStep} (hv : v.Consistent)
    (h : v.get path = .ok part) :
    ∃ v', walk path v = .ok part v' ∧ v'.copy = v.copy ∧ v'.Consistent := by
  obtain ⟨whole, hleads⟩ := leads_path hv h
  refine ⟨whole part, hleads.along get, ?_, hleads.consistent (hv.get h)⟩
  exact (hleads.content rfl).trans (Value.replaced_self hv h)

theorem walk_missing {v : Value} {path : List PathStep} {key : Bytes} (hv : v.Consistent)
    (h : v.get path = .error (.missingKey key)) : ∃ before rest o v',
      path = before ++ .key key :: rest ∧ v.get before = .ok (.object o) ∧ key ∉ o.keys ∧
      v'.copy = (v.replaced before (.object ⟨o.entries ++ [(key, .null)], none⟩)).copy ∧
      v'.Consistent ∧ walk path v = match rest with
        | [] => .ok .null v'
        | s :: _ => .error (.mismatch (.kind s.container) .null) v' := by
  obtain ⟨before, s, rest, next, rfl, hbefore, hnext⟩ := Value.get_eq_error h
  obtain ⟨k, o, rfl, rfl, hnone, hkey⟩ | ⟨hne, -⟩ := Value.follow_eq_error hnext
  · obtain rfl := AccessError.missingKey.inj hkey
    have hobject := hv.get hbefore
    obtain ⟨ho, -⟩ := (Value.consistent_object o).1 hobject
    have hmem : key ∉ Association.keys o.entries := by
      rw [← Association.lookup_isSome_iff, ← ho.find?_eq_lookup, hnone]
      exact Bool.false_ne_true
    obtain ⟨outer, houter⟩ := leads_path hv hbefore
    obtain ⟨inner, hinner⟩ := leads_key hobject key
    rw [← ho.find?_eq_lookup, hnone] at hinner
    have hleads := houter.append hinner
    refine ⟨before, rest, o, (outer ∘ inner) .null, rfl, hbefore, hmem, ?_,
      hleads.consistent (Value.consistent_scalar rfl), ?_⟩
    · rw [← Association.put_of_notMem hmem]
      exact hleads.content rfl
    · have hwalk := hleads.walk rest
      rw [List.append_assoc] at hwalk
      refine hwalk.trans ?_
      cases rest with
      | nil => rfl
      | cons s rest => rw [within, Option.getD_none, walk_null]
  · exact absurd rfl (hne key)

theorem walk_failed {v : Value} {path : List PathStep} {e : AccessError} (hv : v.Consistent)
    (h : v.get path = .error e) (hne : ∀ key, e ≠ .missingKey key) :
    ∃ v', walk path v = .error e v' ∧ v'.copy = v.copy ∧ v'.Consistent := by
  obtain ⟨before, s, rest, next, rfl, hbefore, hnext⟩ := Value.get_eq_error h
  obtain ⟨key, o, -, -, -, hkey⟩ | ⟨-, hstep⟩ := Value.follow_eq_error hnext
  · exact absurd hkey (hne key)
  · obtain ⟨whole, hleads⟩ := leads_path hv hbefore
    refine ⟨whole next, ?_, ?_, hleads.consistent (hv.get hbefore)⟩
    · rw [hleads.walk, within]
      have hrest : walk (s :: rest) next = .error e next := hstep _
      rw [hrest]
    · exact (hleads.content rfl).trans (Value.replaced_self hv hbefore)

theorem walks : Walks where
  found _ _ _ := walk_found
  place _ _ _ hv h := ⟨leads_path hv h, Value.get_replaced hv h⟩
  missing _ _ _ := walk_missing
  failed _ _ _ := walk_failed

/-- The member stays although there is nothing to be indexed in it. -/
example : walk [.key (Bytes.ascii "a"), .index 0] (.object .empty) =
    .error (.mismatch (.kind .array) .null) (.object ⟨[(Bytes.ascii "a", .null)], none⟩) := rfl

/-- A negative index wraps around. -/
example : walk [.index (-1)] (.array [.null]) =
    .error (.indexRange (2 ^ 64 - 1) 1) (.array [.null]) := rfl

end Edit
end JsonCodec
