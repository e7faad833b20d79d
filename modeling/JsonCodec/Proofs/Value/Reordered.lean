import Mathlib
import JsonCodec.Proofs.Value.Normal

set_option autoImplicit false

namespace JsonCodec.Value

/-- Nothing but the order of members is different, at any depth. -/
inductive Reordered : Value → Value → Prop
  | refl (v : Value) : Reordered v v
  | trans {u v w : Value} (huv : Reordered u v) (hvw : Reordered v w) : Reordered u w
  | members {entries entries' : List (Bytes × Value)} (index index' : Option KeyIndex)
    (h : entries.Perm entries') :
    Reordered (.object ⟨entries, index⟩) (.object ⟨entries', index'⟩)
  | item (before after : List Value) {v w : Value} (h : Reordered v w) :
    Reordered (.array (before ++ v :: after)) (.array (before ++ w :: after))
  | member (before after : List (Bytes × Value)) (key : Bytes) (index : Option KeyIndex)
    {v w : Value} (h : Reordered v w) :
    Reordered (.object ⟨before ++ (key, v) :: after, index⟩)
      (.object ⟨before ++ (key, w) :: after, index⟩)

theorem increase_sortMembers {members : List (Bytes × Value)}
    (h : (members.map Prod.fst).Nodup) :
    (sortMembers members).Pairwise fun a b => a.1 < b.1 := by
  have hnodup : ((sortMembers members).map Prod.fst).Nodup :=
    ((sortMembers_perm members).map Prod.fst).nodup_iff.2 h
  have hne := List.pairwise_map.1 hnodup
  exact ((pairwise_sortMembers members).and hne).imp fun h => Std.lt_of_le_of_ne h.1 h.2

/-- Distinct keys leave only one order. -/
theorem sortMembers_eq_of_perm {members members' : List (Bytes × Value)}
    (hkeys : (members.map Prod.fst).Nodup) (h : members.Perm members') :
    sortMembers members = sortMembers members' := by
  have hkeys' := (h.map Prod.fst).nodup_iff.1 hkeys
  refine List.Perm.eq_of_pairwise (fun a b _ _ hab hba => absurd hba (List.lt_asymm hab))
    (increase_sortMembers hkeys) (increase_sortMembers hkeys') ?_
  exact ((sortMembers_perm members).trans h).trans (sortMembers_perm members').symm

theorem KeysDistinct.increase {v : Value} (h : v.KeysDistinct) : v.sorted.KeysIncrease := by
  refine All.sorted (fun v hs h => ?_) (fun _ _ => trivial) (fun entries index h => ?_) h
  · cases v with
    | object members => cases hs
    | _ => trivial
  · have hkeys : ((entries.map fun m => (m.1, m.2.sorted)).map Prod.fst).Nodup := by
      rw [List.map_map]
      exact h
    rw [sorted_object]
    exact List.pairwise_map.2 (increase_sortMembers hkeys)

namespace Reordered

theorem keysDistinct {v w : Value} (h : Reordered v w) (hv : v.KeysDistinct) : w.KeysDistinct := by
  induction h with
  | refl v => exact hv
  | trans _ _ ihuv ihvw => exact ihvw (ihuv hv)
  | members index index' h =>
    obtain ⟨hkeys, hvalues⟩ := (all_object _ _).1 hv
    exact (all_object _ _).2 ⟨(h.map Prod.fst).nodup_iff.1 hkeys,
      fun m hm => hvalues m (h.mem_iff.2 hm)⟩
  | item before after _ ih =>
    obtain ⟨-, hitems⟩ := (all_array _).1 hv
    refine (all_array _).2 ⟨trivial, ?_⟩
    simp only [List.forall_mem_append, List.forall_mem_cons] at hitems ⊢
    exact ⟨hitems.1, ih hitems.2.1, hitems.2.2⟩
  | member before after key index _ ih =>
    obtain ⟨hkeys, hvalues⟩ := (all_object _ _).1 hv
    refine (all_object _ _).2 ⟨by simpa [Object.keys] using hkeys, ?_⟩
    simp only [List.forall_mem_append, List.forall_mem_cons] at hvalues ⊢
    exact ⟨hvalues.1, ih hvalues.2.1, hvalues.2.2⟩

theorem sorted_eq {v w : Value} (h : Reordered v w) (hv : v.KeysDistinct) :
    v.sorted = w.sorted := by
  induction h with
  | refl v => rfl
  | trans huv _ ihuv ihvw => exact (ihuv hv).trans (ihvw (huv.keysDistinct hv))
  | members index index' h =>
    obtain ⟨hkeys, -⟩ := (all_object _ _).1 hv
    rw [sorted_object, sorted_object, sortMembers_eq_of_perm ?_ (h.map _)]
    rw [List.map_map]
    exact hkeys
  | item before after _ ih =>
    obtain ⟨-, hitems⟩ := (all_array _).1 hv
    rw [sorted_array, sorted_array, List.map_append, List.map_append, List.map_cons,
      List.map_cons, ih (hitems _ (by simp))]
  | member before after key index _ ih =>
    obtain ⟨-, hvalues⟩ := (all_object _ _).1 hv
    rw [sorted_object, sorted_object, List.map_append, List.map_append, List.map_cons,
      List.map_cons, ih (hvalues (key, _) (by simp))]

theorem items {f : Value → Value} {items : List Value} (before : List Value)
    (h : ∀ v ∈ items, Reordered v (f v)) :
    Reordered (.array (before ++ items)) (.array (before ++ items.map f)) := by
  induction items generalizing before with
  | nil => exact .refl _
  | cons v rest ih =>
    have hrest := ih (before ++ [f v]) fun w hw => h w (List.mem_cons_of_mem v hw)
    rw [List.append_assoc, List.append_assoc] at hrest
    exact (item before rest (h v List.mem_cons_self)).trans hrest

theorem values {f : Value → Value} {entries : List (Bytes × Value)}
    (before : List (Bytes × Value)) (index : Option KeyIndex)
    (h : ∀ m ∈ entries, Reordered m.2 (f m.2)) :
    Reordered (.object ⟨before ++ entries, index⟩)
      (.object ⟨before ++ entries.map fun m => (m.1, f m.2), index⟩) := by
  induction entries generalizing before with
  | nil => exact .refl _
  | cons m rest ih =>
    have hrest := ih (before ++ [(m.1, f m.2)]) fun w hw => h w (List.mem_cons_of_mem m hw)
    rw [List.append_assoc, List.append_assoc] at hrest
    exact (member before rest m.1 index (h m List.mem_cons_self)).trans hrest

theorem sorted (v : Value) : Reordered v v.sorted := by
  induction v using nested with
  | scalar v hs =>
    rw [sorted_scalar hs]
    exact .refl v
  | array items ih =>
    rw [sorted_array]
    exact Reordered.items [] ih
  | object entries index ih =>
    rw [sorted_object]
    exact (values [] index ih).trans (members index none (sortMembers_perm _).symm)

end Reordered
end JsonCodec.Value
