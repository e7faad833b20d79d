import Mathlib
import JsonCodec.Object

set_option autoImplicit false

namespace JsonCodec

namespace KeyIndex

theorem enter_of_notMem {key : Bytes} {keys : List Bytes} (h : key ∉ keys) (position : Nat)
    (index : KeyIndex) : (enter keys position index)[key]? = index[key]? := by
  induction keys generalizing position index with
  | nil => rfl
  | cons k keys ih =>
    obtain ⟨hk, hkeys⟩ := not_or.1 (List.mem_cons.not.1 h)
    rw [enter, ih hkeys, Std.HashMap.getElem?_insert]
    simp [Ne.symm hk]

theorem enter_of_mem {key : Bytes} {keys : List Bytes} (h : key ∈ keys) (position : Nat)
    (index : KeyIndex) : ∃ found, position ≤ found ∧
      (enter keys position index)[key]? = some found := by
  induction keys generalizing position index with
  | nil => exact absurd h List.not_mem_nil
  | cons k keys ih =>
    by_cases hkeys : key ∈ keys
    · obtain ⟨found, hle, hfound⟩ := ih hkeys (position + 1) (index.insert k position)
      exact ⟨found, by omega, hfound⟩
    · obtain rfl : key = k := (List.mem_cons.1 h).resolve_right hkeys
      refine ⟨position, le_rfl, ?_⟩
      rw [enter, enter_of_notMem hkeys, Std.HashMap.getElem?_insert_self]

theorem size_enter_le (keys : List Bytes) (position : Nat) (index : KeyIndex) :
    (enter keys position index).size ≤ index.size + keys.length := by
  induction keys generalizing position index with
  | nil => exact le_rfl
  | cons k keys ih =>
    have h := ih (position + 1) (index.insert k position)
    have hsize := Std.HashMap.size_insert_le (m := index) (k := k) (v := position)
    rw [enter, List.length_cons]
    omega

/-- An index has as many entries as there are keys only if all keys are different. -/
theorem nodup_of_size_enter {keys : List Bytes} {position : Nat} {index : KeyIndex}
    (h : (enter keys position index).size = index.size + keys.length) :
    keys.Nodup ∧ ∀ key ∈ keys, key ∉ index := by
  induction keys generalizing position index with
  | nil => exact ⟨List.nodup_nil, by simp⟩
  | cons k keys ih =>
    rw [enter, List.length_cons] at h
    have hle := size_enter_le keys (position + 1) (index.insert k position)
    have hsize := Std.HashMap.size_insert (m := index) (k := k) (v := position)
    have hk : k ∉ index := by
      intro hk
      rw [if_pos hk] at hsize
      omega
    rw [if_neg hk] at hsize
    obtain ⟨hnodup, hnew⟩ := @ih (position + 1) (index.insert k position) (by omega)
    refine ⟨List.nodup_cons.2 ⟨fun hmem => hnew k hmem (by simp), hnodup⟩, ?_⟩
    intro key hkey
    rcases List.mem_cons.1 hkey with rfl | hmem
    · exact hk
    · intro hin
      exact hnew key hmem (by simp [hin])

end KeyIndex

namespace Object

variable {β γ : Type} {keyOf : β → Bytes}

theorem any_key_iff (member : β) (rest : List β) :
    rest.any (keyOf · == keyOf member) = true ↔ keyOf member ∈ rest.map keyOf := by
  simp only [List.any_eq_true, beq_iff_eq, List.mem_map]

theorem dropRepeated_eq_self {members : List β} (h : (members.map keyOf).Nodup) :
    dropRepeated keyOf members = members := by
  induction members with
  | nil => rfl
  | cons member rest ih =>
    rw [List.map_cons, List.nodup_cons] at h
    rw [dropRepeated, if_neg ((any_key_iff member rest).not.2 h.1), ih h.2]

theorem dropRepeated_map (f : β → γ) (keyOf : γ → Bytes) (members : List β) :
    dropRepeated keyOf (members.map f) = (dropRepeated (keyOf ∘ f) members).map f := by
  induction members with
  | nil => rfl
  | cons member rest ih =>
    simp only [List.map_cons, dropRepeated, List.any_map, ih, Function.comp_def]
    split_ifs <;> rfl

theorem mem_keys_dropRepeated (members : List β) (key : Bytes) :
    key ∈ (dropRepeated keyOf members).map keyOf ↔ key ∈ members.map keyOf := by
  induction members with
  | nil => rfl
  | cons member rest ih =>
    unfold dropRepeated
    split_ifs with h
    · rw [any_key_iff] at h
      rw [ih, List.map_cons, List.mem_cons]
      exact ⟨.inr, fun hk => hk.elim (fun he => he ▸ h) id⟩
    · rw [List.map_cons, List.map_cons, List.mem_cons, List.mem_cons, ih]

theorem nodup_keys_dropRepeated (members : List β) :
    ((dropRepeated keyOf members).map keyOf).Nodup := by
  induction members with
  | nil => exact List.nodup_nil
  | cons member rest ih =>
    unfold dropRepeated
    split_ifs with h
    · exact ih
    · rw [any_key_iff] at h
      rw [List.map_cons, List.nodup_cons]
      exact ⟨fun hk => h ((mem_keys_dropRepeated rest _).1 hk), ih⟩

/-- The last member of a key is the one that stands where the index says. -/
theorem filter_enter (members : List β) (position : Nat) (index : KeyIndex) :
    ((members.zipIdx position).filter fun (member, i) =>
        (KeyIndex.enter (members.map keyOf) position index)[keyOf member]? == some i).map Prod.fst =
      dropRepeated keyOf members := by
  induction members generalizing position index with
  | nil => rfl
  | cons member rest ih =>
    rw [List.zipIdx_cons, List.map_cons, KeyIndex.enter, dropRepeated]
    by_cases h : keyOf member ∈ rest.map keyOf
    · obtain ⟨found, hle, hfound⟩ := KeyIndex.enter_of_mem h (position + 1)
        (index.insert (keyOf member) position)
      rw [if_pos ((any_key_iff member rest).2 h), List.filter_cons_of_neg, ih]
      simp only [hfound, beq_iff_eq, Option.some.injEq]
      omega
    · rw [if_neg ((any_key_iff member rest).not.2 h), List.filter_cons_of_pos, List.map_cons, ih]
      simp [KeyIndex.enter_of_notMem h]

theorem keepIndexed_ofKeys (members : List β) :
    keepIndexed keyOf (KeyIndex.ofKeys (members.map keyOf)) members = dropRepeated keyOf members :=
  filter_enter members 0 ∅

theorem lastOfEach_fst (keyOf : β → Bytes) (members : List β) :
    (lastOfEach keyOf members).1 = dropRepeated keyOf members := by
  unfold lastOfEach
  split_ifs with h
  · rfl
  · simp only
    split_ifs with hs
    · have hnodup := @KeyIndex.nodup_of_size_enter (members.map keyOf) 0 ∅
        (by simpa [KeyIndex.ofKeys] using hs)
      rw [dropRepeated_eq_self hnodup.1]
    · exact keepIndexed_ofKeys members

/-- In both ways of dropping repeated members the index that is kept up is that of the kept ones. -/
theorem lastOfEach_snd {members : List β} {index : KeyIndex}
    (h : (lastOfEach keyOf members).2 = some index) :
    index = KeyIndex.ofKeys ((dropRepeated keyOf members).map keyOf) := by
  rw [lastOfEach] at h
  by_cases hshort : members.length < indexThreshold
  · rw [if_pos hshort] at h
    cases h
  · rw [if_neg hshort] at h
    simp only at h
    split_ifs at h with hs
    · have hnodup := @KeyIndex.nodup_of_size_enter (members.map keyOf) 0 ∅
        (by simpa [KeyIndex.ofKeys] using hs)
      rw [dropRepeated_eq_self hnodup.1]
      exact (Option.some.inj h).symm
    · rw [keepIndexed_ofKeys] at h
      exact (Option.some.inj h).symm

theorem lastOfEach_map (f : β → γ) (keyOf : γ → Bytes) (members : List β) :
    lastOfEach keyOf (members.map f) =
      ((lastOfEach (keyOf ∘ f) members).1.map f, (lastOfEach (keyOf ∘ f) members).2) := by
  refine Prod.ext ?_ ?_
  · rw [lastOfEach_fst, lastOfEach_fst, dropRepeated_map]
  · simp only [lastOfEach, List.length_map, List.map_map]
    split_ifs
    · rfl
    · rfl
    · have h := @keepIndexed_ofKeys γ keyOf (members.map f)
      rw [List.map_map] at h
      simp only [h, @keepIndexed_ofKeys β (keyOf ∘ f) members, dropRepeated_map, List.map_map]

end Object
end JsonCodec
