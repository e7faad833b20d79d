import Mathlib
import JsonCodec.Proofs.Object

set_option autoImplicit false

/-!
# Indexed look-ups

An index stands for a search: as long as every key is listed once and an index that has been built
knows the position of each, it does not matter which of the two answers. All operations keep it so.
-/
namespace JsonCodec

/-- Among keys that are all different a search finds the place of a key. -/
theorem findIdx?_key_iff {keys : List Bytes} (h : keys.Nodup) {key : Bytes} {i : Nat} :
    keys.findIdx? (· == key) = some i ↔ keys[i]? = some key := by
  rw [List.findIdx?_eq_some_iff_getElem, List.getElem?_eq_some_iff]
  simp only [beq_iff_eq]
  constructor
  · rintro ⟨hi, hkey, -⟩
    exact ⟨hi, hkey⟩
  · rintro ⟨hi, hkey⟩
    refine ⟨hi, hkey, fun j hj hjkey => ?_⟩
    exact absurd (h.getElem_inj_iff.1 (hjkey.trans hkey.symm)) (Nat.ne_of_lt hj)

namespace KeyIndex

/-- An index of keys that are all different knows where each of them stands. -/
theorem enter_eq_findIdx? {keys : List Bytes} (h : keys.Nodup) (position : Nat) (index : KeyIndex)
    (key : Bytes) :
    (enter keys position index)[key]? =
      ((keys.findIdx? (· == key)).map (position + ·)).or index[key]? := by
  induction keys generalizing position index with
  | nil => rfl
  | cons k keys ih =>
    rw [List.nodup_cons] at h
    rw [enter, List.findIdx?_cons]
    by_cases hk : k = key
    · subst hk
      rw [enter_of_notMem h.1, Std.HashMap.getElem?_insert_self]
      simp
    · rw [ih h.2, Std.HashMap.getElem?_insert]
      simp [hk, Function.comp_def, Nat.add_comm, Nat.add_left_comm]

theorem ofKeys_eq_findIdx? {keys : List Bytes} (h : keys.Nodup) (key : Bytes) :
    (ofKeys keys)[key]? = keys.findIdx? (· == key) := by
  simp [ofKeys, enter_eq_findIdx? h]

theorem ofKeys_eq_some_iff {keys : List Bytes} (h : keys.Nodup) {key : Bytes} {i : Nat} :
    (ofKeys keys)[key]? = some i ↔ keys[i]? = some key := by
  rw [ofKeys_eq_findIdx? h, findIdx?_key_iff h]

end KeyIndex

namespace Object

variable {α : Type} {o : Object α}

/-- Every key is listed once, and an index that has been built knows where. -/
structure Consistent (o : Object α) : Prop where
  nodup : o.keys.Nodup
  index : ∀ index, o.index = some index → ∀ key, index[key]? = o.keys.findIdx? (· == key)

theorem consistent_of_nodup {entries : List (Bytes × α)} (h : (entries.map Prod.fst).Nodup) :
    Consistent { entries, index := none } :=
  ⟨h, fun index hi => by cases hi⟩

theorem consistent_empty : Consistent (empty : Object α) := consistent_of_nodup List.nodup_nil

theorem Consistent.builtIndex (h : o.Consistent) (key : Bytes) :
    o.builtIndex[key]? = o.keys.findIdx? (· == key) := by
  rw [Object.builtIndex]
  cases hi : o.index with
  | none => exact KeyIndex.ofKeys_eq_findIdx? h.nodup key
  | some index => exact h.index index hi key

theorem Consistent.indexed (h : o.Consistent) : o.indexed.Consistent := by
  rw [Object.indexed]
  split_ifs with hu
  · refine ⟨h.nodup, fun index hi key => ?_⟩
    obtain rfl := Option.some.inj hi
    exact h.builtIndex key
  · exact h

/-- Whether it goes through the index or not, a look-up finds what a search finds. -/
theorem Consistent.position? (h : o.Consistent) (key : Bytes) :
    o.position? key = o.keys.findIdx? (· == key) := by
  rw [Object.position?]
  split_ifs with hu
  · exact h.builtIndex key
  · rw [keys, List.findIdx?_map]
    rfl

theorem Consistent.position?_eq_none_iff (h : o.Consistent) (key : Bytes) :
    o.position? key = none ↔ key ∉ o.keys := by
  rw [h.position?, List.findIdx?_eq_none_iff]
  constructor
  · intro hall hmem
    simpa using hall key hmem
  · intro hnot k hk
    rw [beq_eq_false_iff_ne]
    rintro rfl
    exact hnot hk

@[simp] theorem keys_setAt (o : Object α) (position : Nat) (value : α) :
    (o.setAt position value).keys = o.keys := by
  refine List.ext_getElem? fun i => ?_
  simp only [keys, setAt, List.getElem?_map, List.getElem?_modify]
  split_ifs
  · cases o.entries[i]? <;> rfl
  · simp

theorem Consistent.setAt (h : o.Consistent) (position : Nat) (value : α) :
    (o.setAt position value).Consistent := by
  refine ⟨?_, fun index hi key => ?_⟩
  · rw [keys_setAt]
    exact h.nodup
  · rw [keys_setAt]
    exact h.index index hi key

theorem Consistent.append (h : o.Consistent) {key : Bytes} (hk : key ∉ o.keys) (value : α) :
    (o.append key value).Consistent := by
  apply consistent_of_nodup
  rw [List.map_append, List.nodup_append]
  refine ⟨h.nodup, List.nodup_singleton key, fun k hmem k' hk' => ?_⟩
  obtain rfl := List.mem_singleton.1 hk'
  rintro rfl
  exact hk hmem

theorem Consistent.insert (h : o.Consistent) (key : Bytes) (value : α) :
    (o.insert key value).Consistent := by
  simp only [Object.insert]
  cases hp : o.indexed.position? key with
  | some position => exact h.indexed.setAt position value
  | none => exact h.indexed.append ((h.indexed.position?_eq_none_iff key).1 hp) value

theorem Consistent.require (h : o.Consistent) (key : Bytes) (missing : α) :
    (o.require key missing).2.Consistent := by
  simp only [Object.require]
  cases hp : o.indexed.position? key with
  | some position => exact h.indexed
  | none => exact h.indexed.append ((h.indexed.position?_eq_none_iff key).1 hp) missing

theorem Consistent.erase (h : o.Consistent) (key : Bytes) : (o.erase key).2.Consistent := by
  rw [Object.erase]
  split_ifs with hany
  · exact consistent_of_nodup (h.nodup.sublist (List.eraseP_sublist.map Prod.fst))
  · exact h

theorem consistent_ofList (members : List (Bytes × α)) : (ofList members).Consistent := by
  have hnodup := @nodup_keys_dropRepeated (Bytes × α) Prod.fst members
  have hkeys : (ofList members).keys = (dropRepeated Prod.fst members).map Prod.fst :=
    congrArg (List.map Prod.fst) (lastOfEach_fst Prod.fst members)
  refine ⟨hkeys ▸ hnodup, fun index hi key => ?_⟩
  rw [hkeys, lastOfEach_snd hi]
  exact KeyIndex.ofKeys_eq_findIdx? hnodup key

theorem mem_setAt {position : Nat} {value : α} {m : Bytes × α}
    (h : m ∈ (o.setAt position value).entries) : m ∈ o.entries ∨ m.2 = value := by
  obtain ⟨i, hi⟩ := List.mem_iff_getElem?.1 h
  rw [setAt, List.getElem?_modify] at hi
  split_ifs at hi
  · obtain ⟨member, -, rfl⟩ := Option.map_eq_some_iff.1 hi
    exact .inr rfl
  · exact .inl (List.mem_of_getElem? (by simpa using hi))

theorem mem_append {key : Bytes} {value : α} {m : Bytes × α}
    (h : m ∈ (o.append key value).entries) : m ∈ o.entries ∨ m.2 = value :=
  (List.mem_append.1 h).imp id fun h => by rw [List.mem_singleton.1 h]

theorem mem_insert {key : Bytes} {value : α} {m : Bytes × α}
    (h : m ∈ (o.insert key value).entries) : m ∈ o.entries ∨ m.2 = value := by
  rw [← entries_indexed o]
  simp only [Object.insert] at h
  cases hp : o.indexed.position? key with
  | some position =>
    rw [hp] at h
    exact mem_setAt h
  | none =>
    rw [hp] at h
    exact mem_append h

theorem mem_require {key : Bytes} {missing : α} {m : Bytes × α}
    (h : m ∈ (o.require key missing).2.entries) : m ∈ o.entries ∨ m.2 = missing := by
  rw [← entries_indexed o]
  simp only [Object.require] at h
  cases hp : o.indexed.position? key with
  | some position =>
    rw [hp] at h
    exact .inl h
  | none =>
    rw [hp] at h
    exact mem_append h

theorem mem_erase {key : Bytes} {m : Bytes × α} (h : m ∈ (o.erase key).2.entries) :
    m ∈ o.entries := by
  rw [Object.erase] at h
  split_ifs at h
  · exact List.mem_of_mem_eraseP h
  · exact h

theorem mem_dropRepeated {β : Type} {keyOf : β → Bytes} {members : List β} {m : β}
    (h : m ∈ dropRepeated keyOf members) : m ∈ members := by
  induction members with
  | nil => exact h
  | cons member rest ih =>
    rw [dropRepeated] at h
    split_ifs at h
    · exact List.mem_cons_of_mem member (ih h)
    · rcases List.mem_cons.1 h with rfl | h
      · exact List.mem_cons_self
      · exact List.mem_cons_of_mem member (ih h)

theorem mem_ofList {members : List (Bytes × α)} {m : Bytes × α}
    (h : m ∈ (ofList members).entries) : m ∈ members := by
  have hfst : (ofList members).entries = dropRepeated Prod.fst members :=
    lastOfEach_fst Prod.fst members
  rw [hfst] at h
  exact mem_dropRepeated h

end Object
end JsonCodec
