import Mathlib
import JsonCodec.Value.Access
import JsonCodec.Proofs.Association
import JsonCodec.Proofs.Value.Built

set_option autoImplicit false

namespace JsonCodec
open Grammar

/-- What is built for big integers is built by the operations on values. -/
def DecodeOptions.BuildsValues (o : DecodeOptions) : Prop :=
  ∀ build, o.bigInteger = some build → ∀ digits, (build digits).Built

namespace Grammar

/-- The members that a tree has, in the order in which they are written, if its value is an object.
An object that was built for a big integer comes with the members it has. -/
def Tree.members? (scalar : Token → Value) : Tree → Option (Association Value)
  | .token k => match scalar k with
    | .object members => some members.entries
    | _ => none
  | .empty .object _ => some []
  | .object members => some (members.entries scalar)
  | .empty .array _ | .array _ => none

structure Writes (o : DecodeOptions) (text : Bytes) (t : Tree) : Prop where
  checks : o.Checks text
  shape : ∃ before after : Blanks, text = before.text ++ t.text ++ after.text
  depth : t.depth ≤ o.depthLimit
  readable : ∀ k ∈ t.tokens, k.Readable o

end Grammar

namespace Decode

def object? (o : DecodeOptions) (text : Bytes) (cache : KeyCache) : Option (Object Value) :=
  match (whole o (.bytes text) cache).1 with
  | .ok parsed => match parsed.value with
    | .object members => some members
    | _ => none
  | .error _ => none

variable {o : DecodeOptions} {text : Bytes} {t : Tree} {members : Object Value}

theorem object?_eq_some (cache : KeyCache) (h : object? o text cache = some members) :
    ∃ t, Writes o text t ∧ t.value (Token.value o.bigInteger) = .object members := by
  rw [object?] at h
  cases hrun : whole o (.bytes text) cache with
  | mk result keys =>
    rw [hrun] at h
    cases result with
    | error e => cases h
    | ok p =>
      obtain ⟨hc, before, t, after, ht, hd, hr, hv⟩ := whole_eq_ok hrun
      refine ⟨t, ⟨hc, ⟨before, after, ht⟩, hd, hr⟩, ?_⟩
      simp only at h
      split at h
      · rename_i hp
        rw [← hv, hp, Option.some.inj h]
      · cases h

theorem object?_of_writes (h : Writes o text t) (cache : KeyCache) :
    object? o text cache = match t.value (Token.value o.bigInteger) with
      | .object members => some members
      | _ => none := by
  obtain ⟨before, after, ht⟩ := h.shape
  obtain ⟨p, keys, hrun, hv⟩ := whole_tree h.checks ht h.depth h.readable cache
  rw [object?, hrun, ← hv]

theorem consistent_object? (ho : o.BuildsValues) (cache : KeyCache)
    (h : object? o text cache = some members) : members.Consistent := by
  obtain ⟨t, -, hv⟩ := object?_eq_some cache h
  have hbuilt := Value.built_value (Value.built_token ho) t
  rw [hv] at hbuilt
  exact ((Value.consistent_object members).1 hbuilt.consistent).1

end Decode

/-- The object that a tree gives has the members that are written, of which later ones win. -/
theorem Grammar.Tree.members?_eq_some {scalar : Token → Value} (hs : ∀ k, (scalar k).Built)
    {t : Tree} {members : Association Value} (h : t.members? scalar = some members) :
    ∃ object, t.value scalar = .object object ∧ object.entries = members.collect := by
  cases t with
  | token k =>
    rw [Tree.members?] at h
    split at h
    · rename_i object hk
      obtain rfl := Option.some.inj h
      refine ⟨object, by rw [Tree.value, hk], ?_⟩
      have hbuilt := hs k
      rw [hk] at hbuilt
      have hconsistent := ((Value.consistent_object object).1 hbuilt.consistent).1
      rw [← Association.dropRepeated_eq_collect, Object.dropRepeated_eq_self hconsistent.nodup]
    · cases h
  | empty c blanks =>
    cases c with
    | array => cases h
    | object =>
      obtain rfl := Option.some.inj h
      exact ⟨Object.empty, by rw [Tree.value], rfl⟩
  | array items => cases h
  | object ms =>
    obtain rfl := Option.some.inj h
    exact ⟨_, by rw [Tree.value], Association.dropRepeated_eq_collect _⟩

theorem Grammar.Tree.members?_eq_none {scalar : Token → Value} {t : Tree}
    (h : t.members? scalar = none) (object : Object Value) : t.value scalar ≠ .object object := by
  intro hv
  cases t with
  | token k =>
    rw [Tree.value] at hv
    rw [Tree.members?, hv] at h
    cases h
  | empty c blanks =>
    cases c with
    | array =>
      rw [Tree.value] at hv
      cases hv
    | object => cases h
  | array items =>
    rw [Tree.value] at hv
    cases hv
  | object ms => cases h

/-- What may be done to an object, or asked of it. -/
inductive Action where
  | construct (members : List (Bytes × Value))
  | parse (o : DecodeOptions) (built : o.BuildsValues) (text : Bytes) (cache : KeyCache)
  | insert (key : Bytes) (value : Value)
  | assign (key : Bytes) (value : Value)
  | subscript (key : Bytes)
  | erase (key : Bytes)
  | clear
  | find (key : Bytes)
  | fetch (key : Bytes)
  | contains (key : Bytes)

inductive Answer where
  | done
  | told (b : Bool)
  | found (v : Option Value)
  | fetched (r : Except AccessError Value)

namespace Action

def run (o : Object Value) : Action → Answer × Object Value
  | construct members => (.done, .ofList members)
  | parse options _ text cache => (.done, (Decode.object? options text cache).getD o)
  | insert key value => (.done, o.insert key value)
  | assign key value =>
    let (position, o) := o.require key .null
    (.done, o.setAt position value)
  | subscript key =>
    let (position, o) := o.require key .null
    (.found (o.memberAt? position), o)
  | erase key =>
    let (found, o) := o.erase key
    (.told found, o)
  | clear => (.done, .empty)
  | find key => (.found (o.find? key), o.indexed)
  | fetch key => (.fetched ((Value.object o).memberAt key), o.indexed)
  | contains key => (.told (o.contains key), o.indexed)

def fetched (members : Association Value) (key : Bytes) : Except AccessError Value :=
  match members.lookup key with
  | some v => .ok v
  | none => .error (.missingKey key)

/-- What an action does to a plain list of members, all of which it may go through. -/
inductive Does (members : Association Value) : Action → Answer → Association Value → Prop
  | construct (given : Association Value) : Does members (.construct given) .done given.collect
  | parse {o : DecodeOptions} {built : o.BuildsValues} {text : Bytes} {cache : KeyCache} {t : Tree}
    {written : Association Value} (h : Writes o text t)
    (hw : t.members? (Token.value o.bigInteger) = some written) :
    Does members (.parse o built text cache) .done written.collect
  | notParsed {o : DecodeOptions} {built : o.BuildsValues} {text : Bytes} {cache : KeyCache}
    (h : ∀ t, Writes o text t → t.members? (Token.value o.bigInteger) = none) :
    Does members (.parse o built text cache) .done members
  | insert (key : Bytes) (value : Value) :
    Does members (.insert key value) .done (members.put key value)
  | assign (key : Bytes) (value : Value) :
    Does members (.assign key value) .done (members.put key value)
  | subscript (key : Bytes) :
    Does members (.subscript key) (.found (some ((members.lookup key).getD .null)))
      (members.ensure key .null)
  | erase (key : Bytes) :
    Does members (.erase key) (.told (members.lookup key).isSome) (members.remove key)
  | clear : Does members .clear .done []
  | find (key : Bytes) : Does members (.find key) (.found (members.lookup key)) members
  | fetch (key : Bytes) : Does members (.fetch key) (.fetched (fetched members key)) members
  | contains (key : Bytes) :
    Does members (.contains key) (.told (members.lookup key).isSome) members

theorem consistent_run {o : Object Value} (h : o.Consistent) (action : Action) :
    (action.run o).2.Consistent := by
  cases action with
  | construct members => exact Object.consistent_ofList members
  | parse options built text cache =>
    rw [run]
    cases hp : Decode.object? options text cache with
    | none => exact h
    | some members => exact Decode.consistent_object? built cache hp
  | insert key value => exact h.insert key value
  | assign key value => exact (h.require key .null).setAt _ value
  | subscript key => exact h.require key .null
  | erase key => exact h.erase key
  | clear => exact Object.consistent_empty
  | find key => exact h.indexed
  | fetch key => exact h.indexed
  | contains key => exact h.indexed

theorem memberAt_eq_fetched {o : Object Value} (h : o.Consistent) (key : Bytes) :
    (Value.object o).memberAt key = fetched o.entries key := by
  rw [fetched, ← h.find?_eq_lookup]
  rfl

theorem entries_of_writes {options : DecodeOptions} (built : options.BuildsValues) {text : Bytes}
    {t : Tree} (h : Writes options text t) {written : Association Value}
    (hw : t.members? (Token.value options.bigInteger) = some written) (cache : KeyCache) :
    (Decode.object? options text cache).map Object.entries = some written.collect := by
  obtain ⟨object, hv, hentries⟩ := Tree.members?_eq_some (Value.built_token built) hw
  rw [Decode.object?_of_writes h, hv, ← hentries]
  rfl

theorem members?_of_object?_eq_none {options : DecodeOptions} (built : options.BuildsValues)
    {text : Bytes} {cache : KeyCache} (hp : Decode.object? options text cache = none) {t : Tree}
    (h : Writes options text t) : t.members? (Token.value options.bigInteger) = none := by
  cases hw : t.members? (Token.value options.bigInteger) with
  | none => rfl
  | some written =>
    have hentries := entries_of_writes built h hw cache
    rw [hp] at hentries
    cases hentries

/-- An object does what its members do as a plain list. -/
theorem does_run {o : Object Value} (h : o.Consistent) (action : Action) :
    Does o.entries action (action.run o).1 (action.run o).2.entries := by
  cases action with
  | construct members =>
    have hd : Does o.entries (.construct members) .done _ := .construct members
    rwa [← Object.entries_ofList] at hd
  | parse options built text cache =>
    rw [run]
    cases hp : Decode.object? options text cache with
    | none => exact .notParsed fun t ht => members?_of_object?_eq_none built hp ht
    | some members =>
      obtain ⟨t, ht, hv⟩ := Decode.object?_eq_some cache hp
      cases hw : t.members? (Token.value options.bigInteger) with
      | none => exact absurd hv (Tree.members?_eq_none hw members)
      | some written =>
        have hentries := entries_of_writes built ht hw cache
        rw [hp, Option.map_some, Option.some.injEq] at hentries
        rw [Option.getD_some, hentries]
        exact .parse ht hw
  | insert key value =>
    have hd : Does o.entries (.insert key value) .done _ := .insert key value
    rwa [← h.entries_insert] at hd
  | assign key value =>
    have hd : Does o.entries (.assign key value) .done _ := .assign key value
    rwa [← (h.require_spec key .null).2.2] at hd
  | subscript key =>
    obtain ⟨hentries, hmember, -⟩ := h.require_spec key .null
    have hd : Does o.entries (.subscript key) _ _ := .subscript key
    rwa [← hentries, ← hmember] at hd
  | erase key =>
    obtain ⟨hfound, hentries⟩ := h.erase_spec key
    have hd : Does o.entries (.erase key) _ _ := .erase key
    rwa [← hfound, ← hentries] at hd
  | clear => exact .clear
  | find key =>
    rw [run, Object.entries_indexed, h.find?_eq_lookup]
    exact .find key
  | fetch key =>
    rw [run, Object.entries_indexed, memberAt_eq_fetched h]
    exact .fetch key
  | contains key =>
    rw [run, Object.entries_indexed, h.contains_eq]
    exact .contains key

variable {members members₁ members₂ : Association Value} {action : Action} {a₁ a₂ : Answer}

/-- There is one thing only that an action does: what a text writes down does not depend on how it
is read. -/
theorem Does.unique (h : Does members action a₁ members₁) (h' : Does members action a₂ members₂) :
    a₁ = a₂ ∧ members₁ = members₂ := by
  cases h with
  | @parse _ built _ cache _ _ h hw =>
    cases h' with
    | parse h' hw' =>
      have heq := (entries_of_writes built h hw cache).symm.trans (entries_of_writes built h' hw' cache)
      exact ⟨rfl, Option.some.inj heq⟩
    | notParsed h' =>
      rw [h' _ h] at hw
      cases hw
  | notParsed h =>
    cases h' with
    | parse h' hw' =>
      rw [h _ h'] at hw'
      cases hw'
    | notParsed h' => exact ⟨rfl, rfl⟩
  | _ =>
    cases h'
    exact ⟨rfl, rfl⟩

end Action

end JsonCodec
