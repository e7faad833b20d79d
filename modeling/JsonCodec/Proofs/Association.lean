import Mathlib
import JsonCodec.Proofs.Index

set_option autoImplicit false

namespace JsonCodec

/-- A plain list of members, to be searched from its front. -/
abbrev Association (α : Type) := List (Bytes × α)

namespace Association

variable {α : Type}

def keys (members : Association α) : List Bytes := members.map Prod.fst

def put (members : Association α) (key : Bytes) (value : α) : Association α :=
  if key ∈ members.keys then members.map fun m => if m.1 = key then (m.1, value) else m
  else members ++ [(key, value)]

def ensure (members : Association α) (key : Bytes) (missing : α) : Association α :=
  if key ∈ members.keys then members else members ++ [(key, missing)]

def remove (members : Association α) (key : Bytes) : Association α :=
  members.filter fun m => m.1 != key

/-- Takes members one by one; each new one comes last, in place of an older one of its key. -/
def collect (members : Association α) : Association α :=
  members.foldl (fun taken m => taken.remove m.1 ++ [m]) []

theorem put_of_mem {members : Association α} {key : Bytes} (h : key ∈ members.keys) (value : α) :
    members.put key value = members.map fun m => if m.1 = key then (m.1, value) else m := if_pos h

theorem put_of_notMem {members : Association α} {key : Bytes} (h : key ∉ members.keys) (value : α) :
    members.put key value = members ++ [(key, value)] := if_neg h

theorem ensure_of_mem {members : Association α} {key : Bytes} (h : key ∈ members.keys)
    (missing : α) : members.ensure key missing = members := if_pos h

theorem ensure_of_notMem {members : Association α} {key : Bytes} (h : key ∉ members.keys)
    (missing : α) : members.ensure key missing = members ++ [(key, missing)] := if_neg h

theorem lookup_eq_findIdx? (members : Association α) (key : Bytes) :
    members.lookup key =
      (members.keys.findIdx? (· == key)).bind fun i => (members[i]?).map Prod.snd := by
  induction members with
  | nil => rfl
  | cons m members ih =>
    rw [keys, List.map_cons, List.findIdx?_cons, List.lookup_cons]
    by_cases h : m.1 = key
    · simp [h]
    · have h' : (key == m.1) = false := by simpa using Ne.symm h
      rw [h', ih, keys]
      simp [h, Option.bind_map, Function.comp_def]

theorem lookup_isSome_iff (members : Association α) (key : Bytes) :
    (members.lookup key).isSome = true ↔ key ∈ members.keys := by
  induction members with
  | nil => simp [keys]
  | cons m members ih =>
    rw [List.lookup_cons]
    by_cases h : key = m.1
    · simp [h, keys]
    · have h' : (key == m.1) = false := by simpa using h
      rw [h', ih]
      simp [keys, h]

theorem remove_of_notMem {members : Association α} {key : Bytes} (h : key ∉ members.keys) :
    members.remove key = members := by
  refine List.filter_eq_self.2 fun m hm => bne_iff_ne.2 ?_
  rintro rfl
  exact h (List.mem_map_of_mem hm)

/-- Where keys are not repeated, removing the first member of a key removes all of them. -/
theorem eraseP_eq_remove {members : Association α} (h : members.keys.Nodup) (key : Bytes) :
    members.eraseP (·.1 == key) = members.remove key := by
  induction members with
  | nil => rfl
  | cons m members ih =>
    obtain ⟨hm, hmembers⟩ := List.nodup_cons.1 h
    by_cases hk : m.1 = key
    · subst hk
      rw [List.eraseP_cons_of_pos (by simp), remove, List.filter_cons_of_neg (by simp)]
      exact (remove_of_notMem hm).symm
    · rw [List.eraseP_cons_of_neg (by simpa using hk), remove,
        List.filter_cons_of_pos (by simpa using hk), ih hmembers]
      rfl

theorem modify_eq_map {members : Association α} (h : members.keys.Nodup) {key : Bytes} {i : Nat}
    (hi : members.keys.findIdx? (· == key) = some i) (value : α) :
    members.modify i (fun m => (m.1, value)) =
      members.map fun m => if m.1 = key then (m.1, value) else m := by
  induction members generalizing i with
  | nil => cases hi
  | cons m members ih =>
    obtain ⟨hm, hmembers⟩ := List.nodup_cons.1 h
    rw [keys, List.map_cons, List.findIdx?_cons] at hi
    by_cases hk : m.1 = key
    · subst hk
      obtain rfl : 0 = i := by simpa using hi
      have hrest : members.map (fun m' => if m'.1 = m.1 then (m'.1, value) else m') = members := by
        refine (List.map_congr_left fun m' hm' => if_neg ?_).trans (List.map_id _)
        rintro heq
        exact hm (heq ▸ List.mem_map_of_mem hm')
      rw [List.modify_zero_cons, List.map_cons, hrest, if_pos rfl]
    · obtain ⟨j, hj, rfl⟩ : ∃ j, (keys members).findIdx? (· == key) = some j ∧ j + 1 = i := by
        simpa [hk, keys] using hi
      rw [List.modify_succ_cons, List.map_cons, if_neg hk, ih hmembers hj]

theorem put_self {members : Association α} (h : members.keys.Nodup) {key : Bytes} {value : α}
    (hm : (key, value) ∈ members) : members.put key value = members := by
  rw [put_of_mem (List.mem_map_of_mem hm)]
  refine (List.map_congr_left fun m hmem => ?_).trans (List.map_id members)
  split_ifs with hkey
  · obtain rfl := List.inj_on_of_nodup_map h hm hmem hkey.symm
    rfl
  · rfl

theorem keys_put {members : Association α} {key : Bytes} (h : key ∈ members.keys) (value : α) :
    (members.put key value).keys = members.keys := by
  rw [put_of_mem h, keys, keys, List.map_map]
  refine List.map_congr_left fun m _ => ?_
  simp only [Function.comp_apply]
  split_ifs <;> rfl

theorem mem_put {members : Association α} {key : Bytes} (h : key ∈ members.keys) (value : α) :
    (key, value) ∈ members.put key value := by
  obtain ⟨m, hm, rfl⟩ := List.mem_map.1 h
  rw [put_of_mem h]
  exact List.mem_map.2 ⟨m, hm, if_pos rfl⟩

theorem keys_map {β : Type} (members : Association α) (f : α → β) :
    keys (members.map fun m => (m.1, f m.2)) = members.keys := by
  simp [keys]

theorem map_put {β : Type} (members : Association α) (f : α → β) (key : Bytes) (value : α) :
    (members.put key value).map (fun m => (m.1, f m.2)) =
      put (members.map fun m => (m.1, f m.2)) key (f value) := by
  by_cases h : key ∈ members.keys
  · rw [put_of_mem h, put_of_mem (by rwa [keys_map]), List.map_map, List.map_map]
    refine List.map_congr_left fun m _ => ?_
    simp only [Function.comp_apply]
    split_ifs <;> rfl
  · rw [put_of_notMem h, put_of_notMem (by rwa [keys_map]), List.map_append, List.map_singleton]

theorem dropRepeated_append_singleton (members : Association α) (m : Bytes × α) :
    Object.dropRepeated Prod.fst (members ++ [m]) =
      remove (Object.dropRepeated Prod.fst members) m.1 ++ [m] := by
  induction members with
  | nil => rfl
  | cons a members ih =>
    rw [List.cons_append, Object.dropRepeated, Object.dropRepeated, ih, List.any_append]
    cases hany : members.any fun b => b.1 == a.1 with
    | true => simp only [Bool.true_or, ↓reduceIte]
    | false =>
      by_cases hm : a.1 = m.1
      · simp [hm, remove]
      · simp [hm, Ne.symm hm, remove]

/-- Dropping what later members repeat is taking the members one by one. -/
theorem dropRepeated_eq_collect (members : Association α) :
    Object.dropRepeated Prod.fst members = collect members := by
  induction members using List.reverseRecOn with
  | nil => rfl
  | append_singleton members m ih =>
    rw [dropRepeated_append_singleton, ih, collect, collect, List.foldl_append]
    rfl

end Association

namespace Object

variable {α : Type} {o : Object α}

open Association (lookup_eq_findIdx? lookup_isSome_iff)

theorem Consistent.find?_eq_lookup (h : o.Consistent) (key : Bytes) :
    o.find? key = o.entries.lookup key := by
  rw [find?, h.position?, lookup_eq_findIdx?]
  rfl

theorem Consistent.contains_eq (h : o.Consistent) (key : Bytes) :
    o.contains key = (o.entries.lookup key).isSome := by
  rw [contains, h.find?_eq_lookup]

theorem Consistent.mem_of_position? (h : o.Consistent) {key : Bytes} {i : Nat}
    (hi : o.position? key = some i) : key ∈ o.keys := by
  by_contra hk
  rw [(h.position?_eq_none_iff key).2 hk] at hi
  cases hi

theorem findIdx?_keys_iff (h : o.keys.Nodup) {key : Bytes} {i : Nat} :
    o.keys.findIdx? (· == key) = some i ↔ ∃ v, o.entries[i]? = some (key, v) := by
  rw [findIdx?_key_iff h, keys, List.getElem?_map]
  constructor
  · intro hkey
    obtain ⟨m, hm, rfl⟩ := Option.map_eq_some_iff.1 hkey
    exact ⟨m.2, hm⟩
  · rintro ⟨v, hv⟩
    rw [hv, Option.map_some]

theorem Consistent.find?_eq_some_iff (h : o.Consistent) {key : Bytes} {v : α} :
    o.find? key = some v ↔ (key, v) ∈ o.entries := by
  rw [find?, h.position?, Option.bind_eq_some_iff]
  constructor
  · rintro ⟨i, hi, hv⟩
    obtain ⟨w, hw⟩ := (findIdx?_keys_iff h.nodup).1 hi
    rw [memberAt?, hw, Option.map_some, Option.some.injEq] at hv
    exact hv ▸ List.mem_of_getElem? hw
  · intro hv
    obtain ⟨i, hi⟩ := List.getElem?_of_mem hv
    exact ⟨i, (findIdx?_keys_iff h.nodup).2 ⟨v, hi⟩, by rw [memberAt?, hi, Option.map_some]⟩

theorem Consistent.member_unique (h : o.Consistent) {key : Bytes} {v w : α}
    (hv : (key, v) ∈ o.entries) (hw : (key, w) ∈ o.entries) : v = w := by
  rw [← h.find?_eq_some_iff] at hv hw
  exact Option.some.inj (hv.symm.trans hw)

/-- An index that is there knows each key, and nothing else, by its position. -/
theorem Consistent.index_iff (h : o.Consistent) {index : KeyIndex} (hi : o.index = some index)
    (key : Bytes) (i : Nat) : index[key]? = some i ↔ ∃ v, o.entries[i]? = some (key, v) := by
  rw [h.index index hi, findIdx?_keys_iff h.nodup]

theorem Consistent.entries_setAt (h : o.Consistent) {key : Bytes} {i : Nat}
    (hi : o.position? key = some i) (value : α) :
    (o.setAt i value).entries = Association.put o.entries key value := by
  have hkey := h.mem_of_position? hi
  rw [h.position?] at hi
  rw [Association.put_of_mem hkey]
  exact Association.modify_eq_map h.nodup hi value

theorem Consistent.entries_insert (h : o.Consistent) (key : Bytes) (value : α) :
    (o.insert key value).entries = Association.put o.entries key value := by
  rw [← entries_indexed o]
  simp only [Object.insert]
  cases hp : o.indexed.position? key with
  | some i => exact h.indexed.entries_setAt hp value
  | none =>
    rw [Association.put_of_notMem ((h.indexed.position?_eq_none_iff key).1 hp)]
    rfl

theorem require_of_some {key : Bytes} {i : Nat} (hp : o.indexed.position? key = some i)
    (missing : α) : o.require key missing = (i, o.indexed) := by
  simp only [require, hp]

theorem require_of_none {key : Bytes} (hp : o.indexed.position? key = none) (missing : α) :
    o.require key missing = (o.indexed.size, o.indexed.append key missing) := by
  simp only [require, hp]

theorem memberAt?_append (o : Object α) (key : Bytes) (value : α) :
    (o.append key value).memberAt? o.size = some value := by
  simp [memberAt?, append, size]

theorem entries_setAt_append (o : Object α) (key : Bytes) (missing value : α) :
    ((o.append key missing).setAt o.size value).entries = o.entries ++ [(key, value)] := by
  simp [setAt, append, size, List.modify_eq_set_getElem?]

/-- To require a key is to add it if it is missing; what stands at its position is its value, and
what is put there is put by going through all members. -/
theorem Consistent.require_spec (h : o.Consistent) (key : Bytes) (missing : α) :
    (o.require key missing).2.entries = Association.ensure o.entries key missing ∧
      (o.require key missing).2.memberAt? (o.require key missing).1 =
        some ((o.entries.lookup key).getD missing) ∧
      ∀ value, ((o.require key missing).2.setAt (o.require key missing).1 value).entries =
        Association.put o.entries key value := by
  rw [← entries_indexed o, ← h.indexed.find?_eq_lookup, find?]
  cases hp : o.indexed.position? key with
  | some i =>
    have hkey := h.indexed.mem_of_position? hp
    rw [require_of_some hp]
    refine ⟨(Association.ensure_of_mem hkey missing).symm, ?_, h.indexed.entries_setAt hp⟩
    rw [h.indexed.position?] at hp
    obtain ⟨v, hv⟩ := (findIdx?_keys_iff h.indexed.nodup).1 hp
    rw [entries_indexed] at hv
    simp [memberAt?, hv]
  | none =>
    have hkey := (h.indexed.position?_eq_none_iff key).1 hp
    rw [require_of_none hp]
    refine ⟨(Association.ensure_of_notMem hkey missing).symm, memberAt?_append _ _ _,
      fun value => ?_⟩
    rw [Association.put_of_notMem hkey]
    exact entries_setAt_append _ _ _ _

theorem Consistent.erase_spec (h : o.Consistent) (key : Bytes) :
    (o.erase key).1 = (o.entries.lookup key).isSome ∧
      (o.erase key).2.entries = Association.remove o.entries key := by
  have hany : o.entries.any (·.1 == key) = (o.entries.lookup key).isSome := by
    rw [Bool.eq_iff_iff, lookup_isSome_iff]
    simp [Association.keys]
  rw [Object.erase, hany]
  cases hk : (o.entries.lookup key).isSome with
  | true => exact ⟨rfl, Association.eraseP_eq_remove h.nodup key⟩
  | false =>
    have hkey : key ∉ Association.keys o.entries := by
      rw [← lookup_isSome_iff, hk]
      exact Bool.false_ne_true
    exact ⟨rfl, (Association.remove_of_notMem hkey).symm⟩

theorem entries_ofList (members : List (Bytes × α)) :
    (ofList members).entries = Association.collect members :=
  (lastOfEach_fst Prod.fst members).trans (Association.dropRepeated_eq_collect members)

end Object
end JsonCodec
