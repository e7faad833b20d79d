import Mathlib
import JsonCodec.Encode.Options
import JsonCodec.Proofs.Numeral
import JsonCodec.Proofs.Utf8
import JsonCodec.Proofs.Value.Nested

set_option autoImplicit false

namespace JsonCodec.Value

def integer? : Value → Option Int
  | int64 n => some n.toInt
  | uint64 n => some n.toNat
  | int128 n => some n.toInt
  | uint128 n => some n.toNat
  | _ => none

def settledFloat (o : EncodeOptions) (x : Binary64) : Value :=
  if x.isFinite then .float x
  else if o.nonFiniteAsNull then .null
  else if x.isNaN then .float .nan
  else .float x

def settledScalar (o : EncodeOptions) : Value → Value
  | float x => settledFloat o x
  | v => (v.integer?.bind ofInteger?).getD v

mutual

/-- What a value becomes, apart from the order of members. -/
def settled (o : EncodeOptions) : Value → Value
  | array items => .array (settledItems o items)
  | object ⟨entries, _⟩ => .object ⟨settledMembers o entries, none⟩
  | value => settledScalar o value

def settledItems (o : EncodeOptions) : List Value → List Value
  | [] => []
  | item :: rest => item.settled o :: settledItems o rest

def settledMembers (o : EncodeOptions) : List (Bytes × Value) → List (Bytes × Value)
  | [] => []
  | (key, value) :: rest => (key, value.settled o) :: settledMembers o rest

end

def normal (o : EncodeOptions) (v : Value) : Value :=
  (if o.sortKeys then v.sorted else v).settled o

/-- Every object lists each of its keys once. -/
def KeysDistinct (v : Value) : Prop :=
  v.All fun
    | object members => members.keys.Nodup
    | _ => True

def KeysIncrease (v : Value) : Prop :=
  v.All fun
    | object members => members.keys.Pairwise (· < ·)
    | _ => True

/-- Every string and every key is well-formed UTF-8. -/
def TextsWellFormed (v : Value) : Prop :=
  v.All fun
    | string text => Utf8.WellFormed text
    | object members => ∀ key ∈ members.keys, Utf8.WellFormed key
    | _ => True

theorem textsWellFormed_array (items : List Value) :
    (Value.array items).TextsWellFormed ↔ ∀ v ∈ items, v.TextsWellFormed := by
  rw [TextsWellFormed, all_array]
  exact and_iff_right trivial

theorem textsWellFormed_object (entries : List (Bytes × Value)) (index : Option KeyIndex) :
    (Value.object ⟨entries, index⟩).TextsWellFormed ↔
      ∀ m ∈ entries, Utf8.WellFormed m.1 ∧ m.2.TextsWellFormed := by
  rw [TextsWellFormed, all_object, forall₂_and]
  exact and_congr_left' List.forall_mem_map

variable {o : EncodeOptions}

theorem settledItems_eq_map (items : List Value) :
    settledItems o items = items.map (settled o) := by
  induction items with
  | nil => rfl
  | cons item rest ih => rw [settledItems, ih, List.map_cons]

theorem settledMembers_eq_map (members : List (Bytes × Value)) :
    settledMembers o members = members.map fun m => (m.1, m.2.settled o) := by
  induction members with
  | nil => rfl
  | cons member rest ih => rw [settledMembers, ih, List.map_cons]

@[simp] theorem settled_array (items : List Value) :
    (Value.array items).settled o = .array (items.map (settled o)) := by
  rw [settled, settledItems_eq_map]

@[simp] theorem settled_object (entries : List (Bytes × Value)) (index : Option KeyIndex) :
    (Value.object ⟨entries, index⟩).settled o =
      .object ⟨entries.map fun m => (m.1, m.2.settled o), none⟩ := by
  rw [settled, settledMembers_eq_map]

theorem settled_scalar {v : Value} (h : v.isScalar = true) : v.settled o = v.settledScalar o := by
  cases v with
  | array items => cases h
  | object members => cases h
  | _ => rfl

theorem isScalar_ofInteger? {z : Int} {v : Value} (h : ofInteger? z = some v) :
    v.isScalar = true := by
  rw [ofInteger?] at h
  split_ifs at h <;> obtain rfl := Option.some.inj h <;> rfl

theorem integer_ofInteger? {z : Int} {v : Value} (h : ofInteger? z = some v) :
    v.integer? = some z := by
  rw [ofInteger?] at h
  split_ifs at h with h₁ h₂ h₃ h₄
  · obtain rfl := Option.some.inj h
    rw [integer?, Int64.toInt_ofInt_of_le h₁.1 h₁.2]
  · obtain rfl := Option.some.inj h
    simp only [integer?, UInt64.toNat_ofNat', Option.some.injEq]
    omega
  · obtain rfl := Option.some.inj h
    simp only [integer?, BitVec.toInt_ofInt, Option.some.injEq]
    rw [Int.bmod_eq_of_le] <;> omega
  · obtain rfl := Option.some.inj h
    simp only [integer?, BitVec.toNat_ofNat, Option.some.injEq]
    omega

theorem isScalar_settledScalar {v : Value} (h : v.isScalar = true) :
    (v.settledScalar o).isScalar = true := by
  rw [settledScalar.eq_def]
  split
  · unfold settledFloat
    split_ifs <;> rfl
  · cases hz : v.integer?.bind ofInteger? with
    | some w =>
      obtain ⟨z, -, hz⟩ := Option.bind_eq_some_iff.1 hz
      exact isScalar_ofInteger? hz
    | none => exact h

theorem sortMembers_perm (members : List (Bytes × Value)) :
    (sortMembers members).Perm members := List.mergeSort_perm _ _

theorem sortMembers_map (f : Value → Value) (members : List (Bytes × Value)) :
    sortMembers (members.map fun m => (m.1, f m.2)) =
      (sortMembers members).map fun m => (m.1, f m.2) :=
  (List.map_mergeSort (f := fun m : Bytes × Value => (m.1, f m.2)) fun _ _ _ _ => rfl).symm

theorem pairwise_sortMembers (members : List (Bytes × Value)) :
    (sortMembers members).Pairwise fun a b => a.1 ≤ b.1 := by
  have h : (sortMembers members).Pairwise fun a b => decide (a.1 ≤ b.1) = true := by
    refine List.pairwise_mergeSort ?_ ?_ members
    · intro a b c hab hbc
      simp only [decide_eq_true_eq] at hab hbc ⊢
      exact List.le_trans hab hbc
    · intro a b
      simp only [Bool.or_eq_true, decide_eq_true_eq]
      exact List.le_total a.1 b.1
  simpa only [decide_eq_true_eq] using h

theorem sortMembers_sortMembers (members : List (Bytes × Value)) :
    sortMembers (sortMembers members) = sortMembers members :=
  List.mergeSort_of_pairwise (by simpa only [decide_eq_true_eq] using pairwise_sortMembers members)

theorem inOrder_perm (members : List (Bytes × Value)) : (inOrder o members).Perm members := by
  rw [inOrder]
  split_ifs
  · exact sortMembers_perm members
  · exact .refl members

theorem inOrder_map (f : Value → Value) (members : List (Bytes × Value)) :
    inOrder o (members.map fun m => (m.1, f m.2)) =
      (inOrder o members).map fun m => (m.1, f m.2) := by
  rw [inOrder, inOrder, sortMembers_map]
  split_ifs <;> rfl

theorem inOrder_inOrder (members : List (Bytes × Value)) :
    inOrder o (inOrder o members) = inOrder o members := by
  rw [inOrder, inOrder]
  split_ifs
  · exact sortMembers_sortMembers members
  · rfl

theorem inOrder_congr {o' : EncodeOptions} (hsort : o.sortKeys = o'.sortKeys) :
    inOrder o = inOrder o' := by
  funext members
  rw [inOrder, inOrder, hsort]

theorem inOrder_ne_nil {members : List (Bytes × Value)} (h : members ≠ []) :
    inOrder o members ≠ [] := fun hnil => h (List.nil_perm.1 (hnil ▸ inOrder_perm members))

def ordered (o : EncodeOptions) (v : Value) : Value := if o.sortKeys then v.sorted else v

theorem ordered_scalar {v : Value} (hs : v.isScalar = true) : v.ordered o = v := by
  rw [ordered, sorted_scalar hs, ite_self]

theorem ordered_array (items : List Value) :
    (Value.array items).ordered o = .array (items.map (ordered o)) := by
  unfold ordered
  split_ifs
  · exact sorted_array items
  · rw [List.map_id']

theorem ordered_object (entries : List (Bytes × Value)) (index : Option KeyIndex) :
    ∃ index', (Value.object ⟨entries, index⟩).ordered o =
      .object ⟨(inOrder o entries).map fun m => (m.1, m.2.ordered o), index'⟩ := by
  unfold ordered inOrder
  split_ifs
  · exact ⟨none, by rw [sorted_object, sortMembers_map]⟩
  · exact ⟨index, by rw [List.map_id']⟩

theorem keepsContainers_settled : KeepsContainers (settled o) where
  scalar v hs := by
    rw [settled_scalar hs]
    exact isScalar_settledScalar hs
  array := settled_array
  object entries index := ⟨none, settled_object entries index⟩

theorem depth_sorted (v : Value) : v.sorted.depth = v.depth := by
  induction v using nested with
  | scalar v h => rw [sorted_scalar h]
  | array items ih =>
    rw [sorted_array, depth, depth]
    refine congrArg (· + 1) (eq_of_forall_ge_iff fun n => ?_)
    simp only [depthItems_le_iff, List.forall_mem_map]
    exact forall₂_congr fun v hv => by rw [ih v hv]
  | object entries index ih =>
    rw [sorted_object, depth, depth]
    refine congrArg (· + 1) (eq_of_forall_ge_iff fun n => ?_)
    simp only [depthMembers_le_iff, (sortMembers_perm _).mem_iff, List.forall_mem_map]
    exact forall₂_congr fun m hm => by rw [ih m hm]

/-- What holds at every depth of the ordered value, if all that holds of the value is known to
outlive the ordering of its members. -/
theorem All.sorted {P Q : Value → Prop} (hscalar : ∀ v, v.isScalar = true → P v → Q v)
    (harray : ∀ items, P (.array items) → Q (.array (items.map Value.sorted)))
    (hobject : ∀ entries index, P (.object ⟨entries, index⟩) →
      Q (Value.object ⟨entries, index⟩).sorted)
    {v : Value} (h : v.All P) : v.sorted.All Q := by
  induction v using nested with
  | scalar v hs =>
    rw [sorted_scalar hs]
    exact (all_scalar hs).2 (hscalar v hs ((all_scalar hs).1 h))
  | array items ih =>
    rw [all_array] at h
    rw [sorted_array, all_array, List.forall_mem_map]
    exact ⟨harray items h.1, fun v hv => ih v hv (h.2 v hv)⟩
  | object entries index ih =>
    rw [all_object] at h
    have hself := hobject entries index h.1
    rw [sorted_object] at hself ⊢
    rw [all_object]
    refine ⟨hself, fun m hm => ?_⟩
    rw [(sortMembers_perm _).mem_iff, List.mem_map] at hm
    obtain ⟨m, hm, rfl⟩ := hm
    exact ih m hm (h.2 m hm)

theorem keys_sorted (entries : List (Bytes × Value)) :
    ((sortMembers (entries.map fun m => (m.1, m.2.sorted))).map Prod.fst).Perm
      (entries.map Prod.fst) := by
  have h := (sortMembers_perm (entries.map fun m => (m.1, m.2.sorted))).map Prod.fst
  rwa [List.map_map] at h

theorem KeysDistinct.sorted {v : Value} (h : v.KeysDistinct) : v.sorted.KeysDistinct := by
  refine All.sorted (fun _ _ => id) (fun _ _ => trivial) (fun entries index h => ?_) h
  rw [sorted_object]
  exact (keys_sorted entries).nodup_iff.2 h

theorem textsWellFormed_sorted (v : Value) : v.sorted.TextsWellFormed ↔ v.TextsWellFormed := by
  induction v using nested with
  | scalar v hs => rw [sorted_scalar hs]
  | array items ih =>
    rw [sorted_array, textsWellFormed_array, textsWellFormed_array, List.forall_mem_map]
    exact forall₂_congr ih
  | object entries index ih =>
    simp only [sorted_object, textsWellFormed_object, (sortMembers_perm _).mem_iff,
      List.forall_mem_map]
    exact forall₂_congr fun m hm => and_congr_right' (ih m hm)

end JsonCodec.Value
