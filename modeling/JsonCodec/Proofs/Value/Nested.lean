import Mathlib
import JsonCodec.Encode.Order
import JsonCodec.Value.Basic

set_option autoImplicit false

namespace JsonCodec.Value

def isScalar : Value → Bool
  | array _ | object _ => false
  | _ => true

/-- Every value is a scalar, or put together from values of which the same is known. -/
@[elab_as_elim]
theorem nested {motive : Value → Prop} (scalar : ∀ v, v.isScalar = true → motive v)
    (array : ∀ items, (∀ v ∈ items, motive v) → motive (.array items))
    (object : ∀ entries index, (∀ m ∈ entries, motive m.2) → motive (.object ⟨entries, index⟩))
    (v : Value) : motive v :=
  match v with
  | .array items => array items fun v hv =>
    have := List.sizeOf_lt_of_mem hv
    nested scalar array object v
  | .object ⟨entries, index⟩ => object entries index fun m hm =>
    have := List.sizeOf_lt_of_mem hm
    have : sizeOf m.2 < sizeOf m := by
      obtain ⟨key, value⟩ := m
      simp
    nested scalar array object m.2
  | .null => scalar .null rfl
  | .bool b => scalar (.bool b) rfl
  | .int64 n => scalar (.int64 n) rfl
  | .uint64 n => scalar (.uint64 n) rfl
  | .int128 n => scalar (.int128 n) rfl
  | .uint128 n => scalar (.uint128 n) rfl
  | .float x => scalar (.float x) rfl
  | .string text => scalar (.string text) rfl
termination_by sizeOf v
decreasing_by
  · simp
    omega
  · simp
    omega

mutual

def All (P : Value → Prop) : Value → Prop
  | array items => P (.array items) ∧ AllItems P items
  | object ⟨entries, index⟩ => P (.object ⟨entries, index⟩) ∧ AllMembers P entries
  | value => P value

def AllItems (P : Value → Prop) : List Value → Prop
  | [] => True
  | item :: rest => item.All P ∧ AllItems P rest

def AllMembers (P : Value → Prop) : List (Bytes × Value) → Prop
  | [] => True
  | (_, value) :: rest => value.All P ∧ AllMembers P rest

end

variable {P : Value → Prop}

theorem allItems_iff (items : List Value) : AllItems P items ↔ ∀ v ∈ items, v.All P := by
  induction items with
  | nil => simp [AllItems]
  | cons item rest ih => simp [AllItems, ih]

theorem allMembers_iff (members : List (Bytes × Value)) :
    AllMembers P members ↔ ∀ m ∈ members, m.2.All P := by
  induction members with
  | nil => simp [AllMembers]
  | cons member rest ih =>
    obtain ⟨key, value⟩ := member
    simp [AllMembers, ih]

theorem all_scalar {v : Value} (hs : v.isScalar = true) : v.All P ↔ P v := by
  cases v with
  | array items => cases hs
  | object members => cases hs
  | _ => exact Iff.rfl

theorem all_array (items : List Value) :
    (Value.array items).All P ↔ P (.array items) ∧ ∀ v ∈ items, v.All P := by
  rw [All, allItems_iff]

theorem all_object (entries : List (Bytes × Value)) (index : Option KeyIndex) :
    (Value.object ⟨entries, index⟩).All P ↔
      P (.object ⟨entries, index⟩) ∧ ∀ m ∈ entries, m.2.All P := by
  rw [All, allMembers_iff]

theorem All.self {v : Value} (h : v.All P) : P v := by
  cases v with
  | array items => exact ((all_array items).1 h).1
  | object members => exact ((all_object members.entries members.index).1 h).1
  | _ => exact h

inductive Within (w : Value) : Value → Prop
  | self : Within w w
  | item {items : List Value} {v : Value} (hv : v ∈ items) (h : Within w v) :
    Within w (.array items)
  | member {entries : List (Bytes × Value)} {index : Option KeyIndex} {m : Bytes × Value}
    (hm : m ∈ entries) (h : Within w m.2) : Within w (.object ⟨entries, index⟩)

theorem all_iff_within (v : Value) : v.All P ↔ ∀ w, Within w v → P w := by
  constructor
  · intro h w hw
    induction hw with
    | self => exact h.self
    | item hv _ ih => exact ih (((all_array _).1 h).2 _ hv)
    | member hm _ ih => exact ih (((all_object _ _).1 h).2 _ hm)
  · intro h
    induction v using nested with
    | scalar v hs => exact (all_scalar hs).2 (h v .self)
    | array items ih =>
      rw [all_array]
      exact ⟨h _ .self, fun v hv => ih v hv fun w hw => h w (.item hv hw)⟩
    | object entries index ih =>
      rw [all_object]
      exact ⟨h _ .self, fun m hm => ih m hm fun w hw => h w (.member hm hw)⟩

theorem All.imp {Q : Value → Prop} (himp : ∀ v, P v → Q v) {v : Value} (h : v.All P) : v.All Q :=
  (all_iff_within v).2 fun w hw => himp w ((all_iff_within v).1 h w hw)

mutual

def depth : Value → Nat
  | array items => depthItems items + 1
  | object ⟨entries, _⟩ => depthMembers entries + 1
  | _ => 0

def depthItems : List Value → Nat
  | [] => 0
  | item :: rest => max item.depth (depthItems rest)

def depthMembers : List (Bytes × Value) → Nat
  | [] => 0
  | (_, value) :: rest => max value.depth (depthMembers rest)

end

theorem depthItems_le_iff (items : List Value) (n : Nat) :
    depthItems items ≤ n ↔ ∀ v ∈ items, v.depth ≤ n := by
  induction items with
  | nil => simp [depthItems]
  | cons item rest ih => simp [depthItems, ih]

theorem depthMembers_le_iff (members : List (Bytes × Value)) (n : Nat) :
    depthMembers members ≤ n ↔ ∀ m ∈ members, m.2.depth ≤ n := by
  induction members with
  | nil => simp [depthMembers]
  | cons member rest ih =>
    obtain ⟨key, value⟩ := member
    simp [depthMembers, ih]

mutual

/-- The value with the members of all its objects in the order of their keys. -/
def sorted : Value → Value
  | array items => .array (sortedItems items)
  | object ⟨entries, _⟩ => .object ⟨sortMembers (sortedMembers entries), none⟩
  | value => value

def sortedItems : List Value → List Value
  | [] => []
  | item :: rest => item.sorted :: sortedItems rest

def sortedMembers : List (Bytes × Value) → List (Bytes × Value)
  | [] => []
  | (key, value) :: rest => (key, value.sorted) :: sortedMembers rest

end

theorem copyItems_eq_map (items : List Value) : copyItems items = items.map copy := by
  induction items with
  | nil => rfl
  | cons item rest ih => rw [copyItems, ih, List.map_cons]

theorem copyMembers_eq_map (members : List (Bytes × Value)) :
    copyMembers members = members.map fun m => (m.1, m.2.copy) := by
  induction members with
  | nil => rfl
  | cons member rest ih => rw [copyMembers, ih, List.map_cons]

theorem sortedItems_eq_map (items : List Value) : sortedItems items = items.map sorted := by
  induction items with
  | nil => rfl
  | cons item rest ih => rw [sortedItems, ih, List.map_cons]

theorem sortedMembers_eq_map (members : List (Bytes × Value)) :
    sortedMembers members = members.map fun m => (m.1, m.2.sorted) := by
  induction members with
  | nil => rfl
  | cons member rest ih => rw [sortedMembers, ih, List.map_cons]

@[simp] theorem copy_array (items : List Value) :
    (Value.array items).copy = .array (items.map copy) := by
  rw [copy, copyItems_eq_map]

@[simp] theorem copy_object (entries : List (Bytes × Value)) (index : Option KeyIndex) :
    (Value.object ⟨entries, index⟩).copy =
      .object ⟨entries.map fun m => (m.1, m.2.copy), none⟩ := by
  rw [copy, copyMembers_eq_map]

@[simp] theorem sorted_array (items : List Value) :
    (Value.array items).sorted = .array (items.map sorted) := by
  rw [sorted, sortedItems_eq_map]

@[simp] theorem sorted_object (entries : List (Bytes × Value)) (index : Option KeyIndex) :
    (Value.object ⟨entries, index⟩).sorted =
      .object ⟨sortMembers (entries.map fun m => (m.1, m.2.sorted)), none⟩ := by
  rw [sorted, sortedMembers_eq_map]

theorem copy_scalar {v : Value} (h : v.isScalar = true) : v.copy = v := by
  cases v with
  | array items => cases h
  | object members => cases h
  | _ => rfl

theorem sorted_scalar {v : Value} (h : v.isScalar = true) : v.sorted = v := by
  cases v with
  | array items => cases h
  | object members => cases h
  | _ => rfl

/-- A function that changes nothing but scalars, at any depth. An index may be dropped. -/
structure KeepsContainers (f : Value → Value) : Prop where
  scalar : ∀ v, v.isScalar = true → (f v).isScalar = true
  array : ∀ items, f (.array items) = .array (items.map f)
  object : ∀ entries index, ∃ index',
    f (.object ⟨entries, index⟩) = .object ⟨entries.map fun m => (m.1, f m.2), index'⟩

theorem keepsContainers_id : KeepsContainers id where
  scalar _ := id
  array items := by rw [List.map_id]; rfl
  object entries index := ⟨index, by simp only [id_eq, Prod.mk.eta, List.map_id']⟩

theorem keepsContainers_copy : KeepsContainers copy where
  scalar v hs := by rwa [copy_scalar hs]
  array := copy_array
  object entries index := ⟨none, copy_object entries index⟩

end JsonCodec.Value
