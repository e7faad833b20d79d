import Mathlib
import JsonCodec.Proofs.Association
import JsonCodec.Proofs.Binary64.Nearest
import JsonCodec.Proofs.Value.Built
import JsonCodec.Proofs.Value.Integer
import JsonCodec.Proofs.Value.Reordered

set_option autoImplicit false

/-!
# Equal values

Equality asks one value only for its members and the other one for their keys. It is symmetric all
the same, since keys are distinct. It is no equivalence: NaN equals nothing, and an integer that is
no double may equal the same double as its neighbour. Where neither occurs it is one.
-/
namespace JsonCodec

namespace Binary64

theorem equal_iff (x y : Binary64) : x.equal y = true ↔
    x.isNaN = false ∧ x.magnitude = y.magnitude ∧
      (x.isNegative = y.isNegative ∨ x.magnitude = 0) := by
  simp only [equal, isZero, isNaN, Bool.and_eq_true, Bool.or_eq_true, Bool.not_eq_true',
    beq_iff_eq, decide_eq_false_iff_not]
  constructor
  · rintro ⟨⟨⟨hx, -⟩, hmagnitude⟩, hsign⟩
    exact ⟨hx, hmagnitude, hsign⟩
  · rintro ⟨hx, hmagnitude, hsign⟩
    exact ⟨⟨⟨hx, hmagnitude ▸ hx⟩, hmagnitude⟩, hsign⟩

theorem equal_comm (x y : Binary64) : x.equal y = y.equal x := by
  rw [Bool.eq_iff_iff, equal_iff, equal_iff]
  simp only [isNaN, decide_eq_false_iff_not]
  constructor
  · rintro ⟨hnan, hmagnitude, hsign⟩
    exact ⟨hmagnitude ▸ hnan, hmagnitude.symm, hsign.imp Eq.symm hmagnitude.symm.trans⟩
  · rintro ⟨hnan, hmagnitude, hsign⟩
    exact ⟨hmagnitude ▸ hnan, hmagnitude.symm, hsign.imp Eq.symm hmagnitude.symm.trans⟩

theorem equal_trans {x y z : Binary64} (hxy : x.equal y = true) (hyz : y.equal z = true) :
    x.equal z = true := by
  rw [equal_iff] at hxy hyz ⊢
  obtain ⟨hnan, hmagnitude, hsign⟩ := hxy
  obtain ⟨-, hmagnitude', hsign'⟩ := hyz
  refine ⟨hnan, hmagnitude.trans hmagnitude', ?_⟩
  rcases hsign with hsign | hzero
  · exact hsign'.imp hsign.trans hmagnitude.trans
  · exact .inr hzero

theorem equal_self_iff (x : Binary64) : x.equal x = true ↔ x.isNaN = false := by
  simp [equal_iff]

theorem ofInt_eq (n : Int) : ofInt n = nearest (decide (n < 0)) n.natAbs := by
  rw [ofInt, ofRatio_eq _ _ Nat.one_pos, Nat.cast_one, div_one]

theorem isNegative_ofInt (n : Int) : (ofInt n).isNegative = decide (n < 0) := by
  rw [ofInt_eq, isNegative_nearest _ (Nat.cast_nonneg _)]

theorem units_ofInt {n : Int} (h : n.natAbs ≤ 2 ^ 53) : (ofInt n).units = n.natAbs * one := by
  rw [ofInt_eq, units_nearest_natCast _ h]

theorem isNaN_ofInt (n : Int) : (ofInt n).isNaN = false := by
  obtain ⟨m, -, h⟩ := exists_nearest (Nat.cast_nonneg n.natAbs : (0 : ℚ) ≤ n.natAbs)
  have hle := Nat.min_le_right m infiniteMagnitude
  rw [ofInt_eq, h, isNaN, magnitude_ofMagnitude _ (hle.trans_lt infiniteMagnitude_lt)]
  exact decide_eq_false (Nat.not_lt.2 hle)

/-- Up to 2^53 no two integers become the same double. -/
theorem ofInt_injective {m n : Int} (hm : m.natAbs ≤ 2 ^ 53) (hn : n.natAbs ≤ 2 ^ 53)
    (h : (ofInt m).equal (ofInt n) = true) : m = n := by
  obtain ⟨-, hmagnitude, hsign⟩ := (equal_iff _ _).1 h
  have hunits : m.natAbs * one = n.natAbs * one := by
    rw [← units_ofInt hm, ← units_ofInt hn, units_eq, units_eq, hmagnitude]
  have habs := Nat.eq_of_mul_eq_mul_right one_pos hunits
  rw [isNegative_ofInt, isNegative_ofInt, decide_eq_decide] at hsign
  rcases hsign with hsign | hzero
  · omega
  · have hm0 : m.natAbs * one = 0 := by
      rw [← units_ofInt hm, units_eq, hzero]
      decide
    have hm0 := (Nat.mul_eq_zero.1 hm0).resolve_right one_pos.ne'
    omega

end Binary64

namespace Value

def equalPlain : Value → Value → Bool
  | null, null => true
  | bool a, bool b => a == b
  | string s, string t => s == t
  | _, _ => false

theorem equalScalars_eq (v w : Value) :
    v.equalScalars w = match v.signedMagnitude?, w.signedMagnitude? with
      | some a, some b => a.same b
      | _, _ => match v.toFloat?, w.toFloat? with
        | some x, some y => x.equal y
        | _, _ => equalPlain v w := rfl

theorem toFloat?_of_integer {v : Value} {n : Int} (h : v.integer? = some n) :
    v.toFloat? = some (Binary64.ofInt n) := by
  cases v <;> cases h <;> rfl

theorem integer?_of_toFloat? {v : Value} (h : v.toFloat? = none) : v.integer? = none := by
  cases v <;> first | rfl | cases h

theorem equalPlain_iff (v w : Value) :
    equalPlain v w = true ↔ v = w ∧ v.isScalar = true ∧ v.toFloat? = none := by
  cases v <;> cases w <;> simp [equalPlain, toFloat?, isScalar]

theorem equalScalars_of_float {v w : Value} (h : v.integer? = none ∨ w.integer? = none)
    {x y : Binary64} (hx : v.toFloat? = some x) (hy : w.toFloat? = some y) :
    v.equalScalars w = x.equal y := by
  rw [equalScalars_eq, hx, hy]
  rcases h with h | h
  · rw [signedMagnitude?_eq_none h]
  · rw [signedMagnitude?_eq_none h]
    cases v.signedMagnitude? <;> rfl

theorem equalScalars_of_plain {v w : Value} (h : v.toFloat? = none ∨ w.toFloat? = none) :
    v.equalScalars w = equalPlain v w := by
  rw [equalScalars_eq]
  rcases h with h | h
  · rw [signedMagnitude?_eq_none (integer?_of_toFloat? h), h]
  · rw [signedMagnitude?_eq_none (integer?_of_toFloat? h), h]
    cases v.signedMagnitude? <;> cases v.toFloat? <;> rfl

/-- Two scalars are equal as integers, as doubles, or as what they are. -/
theorem equalScalars_iff (v w : Value) : v.equalScalars w = true ↔
    (∃ n, v.integer? = some n ∧ w.integer? = some n) ∨
    (v.integer? = none ∨ w.integer? = none) ∧
      (∃ x y, v.toFloat? = some x ∧ w.toFloat? = some y ∧ x.equal y = true) ∨
    v = w ∧ v.isScalar = true ∧ v.toFloat? = none := by
  constructor
  · intro h
    by_cases hnone : v.toFloat? = none ∨ w.toFloat? = none
    · rw [equalScalars_of_plain hnone, equalPlain_iff] at h
      exact .inr (.inr h)
    · obtain ⟨hx, hy⟩ := not_or.1 hnone
      obtain ⟨x, hx⟩ := Option.ne_none_iff_exists'.1 hx
      obtain ⟨y, hy⟩ := Option.ne_none_iff_exists'.1 hy
      by_cases hint : v.integer? = none ∨ w.integer? = none
      · rw [equalScalars_of_float hint hx hy] at h
        exact .inr (.inl ⟨hint, x, y, hx, hy, h⟩)
      · obtain ⟨hm, hn⟩ := not_or.1 hint
        obtain ⟨m, hm⟩ := Option.ne_none_iff_exists'.1 hm
        obtain ⟨n, hn⟩ := Option.ne_none_iff_exists'.1 hn
        obtain rfl := (equalScalars_integer hm hn).1 h
        exact .inl ⟨m, hm, hn⟩
  · rintro (⟨n, hv, hw⟩ | ⟨hint, x, y, hx, hy, h⟩ | ⟨rfl, hs, hx⟩)
    · exact (equalScalars_integer hv hw).2 rfl
    · rwa [equalScalars_of_float hint hx hy]
    · rw [equalScalars_of_plain (.inl hx), equalPlain_iff]
      exact ⟨rfl, hs, hx⟩

theorem equalScalars_comm (v w : Value) : v.equalScalars w = w.equalScalars v := by
  have himp (v w : Value) (h : v.equalScalars w = true) : w.equalScalars v = true := by
    rw [equalScalars_iff] at h ⊢
    rcases h with ⟨n, hv, hw⟩ | ⟨hint, x, y, hx, hy, h⟩ | ⟨rfl, h⟩
    · exact .inl ⟨n, hw, hv⟩
    · rw [Binary64.equal_comm] at h
      exact .inr (.inl ⟨hint.symm, y, x, hy, hx, h⟩)
    · exact .inr (.inr ⟨rfl, h⟩)
  exact Bool.eq_iff_iff.2 ⟨himp v w, himp w v⟩

theorem isScalar_of_equalScalars {v w : Value} (h : v.equalScalars w = true) :
    w.isScalar = true := by
  rw [equalScalars_comm] at h
  cases w with
  | array items => cases v <;> cases h
  | object members => cases v <;> cases h
  | _ => rfl

theorem equalScalars_self_iff {v : Value} (hs : v.isScalar = true) :
    v.equalScalars v = true ↔ ∀ x, v = .float x → x.isNaN = false := by
  rw [equalScalars_iff]
  cases v <;> simp_all [integer?, toFloat?, isScalar, Binary64.equal_self_iff]

theorem equalItems_iff (xs ys : List Value) : equalItems xs ys = true ↔
    xs.length = ys.length ∧
      ∀ (i : Nat) (v w : Value), xs[i]? = some v → ys[i]? = some w → v.equal w = true := by
  induction xs generalizing ys with
  | nil => cases ys <;> simp [equalItems]
  | cons x xs ih =>
    cases ys with
    | nil => simp [equalItems]
    | cons y ys =>
      rw [equalItems, Bool.and_eq_true, ← Nat.and_forall_add_one, ih]
      simp [and_left_comm]

theorem equal_arrays_iff (items others : List Value) :
    (Value.array items).equal (.array others) = true ↔ items.length = others.length ∧
      ∀ (i : Nat) (v w : Value), items[i]? = some v → others[i]? = some w → v.equal w = true := by
  rw [equal, equalItems_iff]

theorem equal_array_iff (items : List Value) (w : Value) : (Value.array items).equal w = true ↔
    ∃ others, w = .array others ∧ items.length = others.length ∧
      ∀ (i : Nat) (v w : Value), items[i]? = some v → others[i]? = some w → v.equal w = true := by
  cases w <;> simp [equal, equalItems_iff]

theorem equalMembers_iff (entries : List (Bytes × Value)) (o : Object Value) :
    equalMembers entries o = true ↔
      ∀ m ∈ entries, ∃ w, o.find? m.1 = some w ∧ w.equal m.2 = true := by
  induction entries with
  | nil => simp [equalMembers]
  | cons m entries ih =>
    obtain ⟨key, v⟩ := m
    rw [equalMembers, List.forall_mem_cons, ← ih]
    cases o.find? key <;> simp

/-- What is found of each member is what has to be equal to it, not the other way round. -/
theorem equal_objects_iff (o : Object Value) {o' : Object Value} (ho' : o'.Consistent) :
    (Value.object o).equal (.object o') = true ↔ o.entries.length = o'.entries.length ∧
      ∀ m ∈ o.entries, ∃ w, (m.1, w) ∈ o'.entries ∧ w.equal m.2 = true := by
  simp [equal, Object.size, equalMembers_iff, ho'.indexed.find?_eq_some_iff]

theorem keys_subset_of_length {entries others : List (Bytes × Value)}
    (h : (entries.map Prod.fst).Nodup) (hlen : entries.length = others.length)
    (hsub : entries.map Prod.fst ⊆ others.map Prod.fst) :
    others.map Prod.fst ⊆ entries.map Prod.fst :=
  ((List.subperm_of_subset h hsub).perm_of_length_le (by simp [hlen])).symm.subset

theorem equal_objects_symm {o o' : Object Value} (ho : o.Consistent) (ho' : o'.Consistent)
    (hcomm : ∀ m ∈ o.entries, ∀ m' ∈ o'.entries, m.2.equal m'.2 = m'.2.equal m.2)
    (h : (Value.object o).equal (.object o') = true) :
    (Value.object o').equal (.object o) = true := by
  rw [equal_objects_iff _ ho'] at h
  rw [equal_objects_iff _ ho]
  obtain ⟨hlen, hmembers⟩ := h
  have hsub : o.keys ⊆ o'.keys := by
    intro key hkey
    obtain ⟨m, hm, rfl⟩ := List.mem_map.1 hkey
    obtain ⟨w, hfound, -⟩ := hmembers m hm
    exact List.mem_map.2 ⟨(m.1, w), hfound, rfl⟩
  have hkeys := keys_subset_of_length ho.nodup hlen hsub
  refine ⟨hlen.symm, fun m hm => ?_⟩
  -- The member of the same key on this side was looked up on the other side, and found there.
  obtain ⟨⟨key, v⟩, hmem, rfl⟩ := List.mem_map.1 (hkeys (List.mem_map_of_mem hm))
  obtain ⟨w, hfound, heq⟩ := hmembers (m.1, v) hmem
  obtain rfl := ho'.member_unique hfound hm
  exact ⟨v, hmem, (hcomm _ hmem _ hm).trans heq⟩

theorem equal_comm_of_scalar {v w : Value} (hs : v.isScalar = true) : v.equal w = w.equal v := by
  rw [equal_scalar hs]
  cases hw : w.isScalar with
  | true => rw [equal_scalar hw, equalScalars_comm]
  | false =>
    have hv : v.equalScalars w = false := Bool.eq_false_iff.2 fun h => by
      rw [isScalar_of_equalScalars h] at hw
      cases hw
    rw [hv]
    cases v with
    | array items => cases hs
    | object members => cases hs
    | _ =>
      cases w with
      | array others => simp [equal]
      | object o => simp [equal]
      | _ => cases hw

theorem equal_comm {v w : Value} (hv : v.Consistent) (hw : w.Consistent) :
    v.equal w = w.equal v := by
  induction v using nested generalizing w with
  | scalar v hs => exact equal_comm_of_scalar hs
  | array items ih =>
    cases w with
    | array others =>
      rw [consistent_array] at hv hw
      have hitem (i : Nat) (v w : Value) (hi : items[i]? = some v) (hi' : others[i]? = some w) :
          v.equal w = w.equal v :=
        have hmem := List.mem_of_getElem? hi
        ih v hmem (hv v hmem) (hw w (List.mem_of_getElem? hi'))
      rw [Bool.eq_iff_iff, equal_arrays_iff, equal_arrays_iff, eq_comm]
      refine and_congr_right' ⟨fun h i w v hi' hi => ?_, fun h i v w hi hi' => ?_⟩
      · rw [← hitem i v w hi hi']
        exact h i v w hi hi'
      · rw [hitem i v w hi hi']
        exact h i w v hi' hi
    | object o => simp [equal]
    | _ => exact (equal_comm_of_scalar rfl).symm
  | object entries index ih =>
    cases w with
    | object o =>
      obtain ⟨hself, hvalues⟩ := (consistent_object _).1 hv
      obtain ⟨ho, hothers⟩ := (consistent_object _).1 hw
      have hcomm (m : Bytes × Value) (hm : m ∈ entries) (m' : Bytes × Value)
          (hm' : m' ∈ o.entries) : m.2.equal m'.2 = m'.2.equal m.2 :=
        ih m hm (hvalues m hm) (hothers m' hm')
      exact Bool.eq_iff_iff.2 ⟨equal_objects_symm hself ho hcomm,
        equal_objects_symm ho hself fun m' hm' m hm => (hcomm m hm m' hm').symm⟩
    | array others => simp [equal]
    | _ => exact (equal_comm_of_scalar rfl).symm

/-- An object is equal to one of as many members, of which each one is found and equal. -/
theorem equal_object_iff {entries : List (Bytes × Value)} {index : Option KeyIndex} {w : Value}
    (hv : (Value.object ⟨entries, index⟩).Consistent) (hw : w.Consistent) :
    (Value.object ⟨entries, index⟩).equal w = true ↔
      ∃ o, w = .object o ∧ entries.length = o.entries.length ∧
        ∀ m ∈ entries, ∃ v, (m.1, v) ∈ o.entries ∧ m.2.equal v = true := by
  cases w with
  | object o =>
    obtain ⟨-, hvalues⟩ := (consistent_object _).1 hv
    obtain ⟨ho, hothers⟩ := (consistent_object _).1 hw
    simp only [object.injEq, exists_eq_left', equal_objects_iff _ ho]
    refine and_congr_right' (forall₂_congr fun m hm => exists_congr fun w => ?_)
    exact and_congr_right fun hw => by rw [equal_comm (hothers _ hw) (hvalues m hm)]
  | _ => simp [equal]

def NaNFree (v : Value) : Prop := v.All fun w => ∀ x, w = .float x → x.isNaN = false

theorem equal_self_iff {v : Value} (hv : v.Consistent) : v.equal v = true ↔ v.NaNFree := by
  induction v using nested with
  | scalar v hs => rw [equal_scalar hs, equalScalars_self_iff hs, NaNFree, all_scalar hs]
  | array items ih =>
    rw [consistent_array] at hv
    rw [equal_array_iff, NaNFree, all_array]
    constructor
    · rintro ⟨_, ⟨⟩, -, hitems⟩
      refine ⟨by simp, fun v hmem => (ih v hmem (hv v hmem)).1 ?_⟩
      obtain ⟨i, hi⟩ := List.getElem?_of_mem hmem
      exact hitems i v v hi hi
    · rintro ⟨-, hitems⟩
      refine ⟨items, rfl, rfl, fun i v w hi hi' => ?_⟩
      obtain rfl := Option.some.inj (hi.symm.trans hi')
      have hmem := List.mem_of_getElem? hi
      exact (ih v hmem (hv v hmem)).2 (hitems v hmem)
  | object entries index ih =>
    obtain ⟨ho, hvalues⟩ := (consistent_object _).1 hv
    rw [equal_object_iff hv hv, NaNFree, all_object]
    constructor
    · rintro ⟨_, ⟨⟩, -, hmembers⟩
      refine ⟨by simp, fun m hm => (ih m hm (hvalues m hm)).1 ?_⟩
      obtain ⟨w, hfound, heq⟩ := hmembers m hm
      obtain rfl := ho.member_unique hfound hm
      exact heq
    · rintro ⟨-, hmembers⟩
      exact ⟨_, rfl, rfl, fun m hm => ⟨m.2, hm, (ih m hm (hvalues m hm)).2 (hmembers m hm)⟩⟩

theorem Consistent.sorted {v : Value} (h : v.Consistent) : v.sorted.Consistent := by
  refine All.sorted (fun _ _ => id) (fun _ _ => trivial) (fun entries index h => ?_) h
  rw [sorted_object]
  exact Object.consistent_of_nodup ((keys_sorted entries).nodup_iff.2 h.nodup)

theorem equal_sorted_left {v w : Value} (hv : v.Consistent) (hw : w.Consistent) :
    v.sorted.equal w = v.equal w := by
  rw [Bool.eq_iff_iff]
  induction v using nested generalizing w with
  | scalar v hs => rw [sorted_scalar hs]
  | array items ih =>
    rw [sorted_array, equal_array_iff, equal_array_iff]
    refine exists_congr fun others => and_congr_right fun h => ?_
    subst h
    rw [consistent_array] at hv hw
    rw [List.length_map]
    refine and_congr_right fun hlen => ?_
    constructor
    · intro h i v w hi hi'
      have hmem := List.mem_of_getElem? hi
      rw [← ih v hmem (hv v hmem) (hw w (List.mem_of_getElem? hi'))]
      exact h i v.sorted w (by rw [List.getElem?_map, hi, Option.map_some]) hi'
    · intro h i v w hi hi'
      rw [List.getElem?_map, Option.map_eq_some_iff] at hi
      obtain ⟨v, hi, rfl⟩ := hi
      have hmem := List.mem_of_getElem? hi
      rw [ih v hmem (hv v hmem) (hw w (List.mem_of_getElem? hi'))]
      exact h i v w hi hi'
  | object entries index ih =>
    have hsorted := hv.sorted
    rw [sorted_object] at hsorted ⊢
    rw [equal_object_iff hsorted hw, equal_object_iff hv hw]
    refine exists_congr fun o => and_congr_right fun h => ?_
    subst h
    obtain ⟨-, hvalues⟩ := (consistent_object _).1 hv
    obtain ⟨-, hothers⟩ := (consistent_object _).1 hw
    have hperm := sortMembers_perm (entries.map fun m => (m.1, m.2.sorted))
    simp only [hperm.length_eq, hperm.mem_iff, List.length_map, List.forall_mem_map]
    refine and_congr_right fun hlen => forall₂_congr fun m hm => ?_
    exact exists_congr fun v => and_congr_right fun hv => ih m hm (hvalues m hm) (hothers _ hv)

theorem equal_of_reordered {v w : Value} (hv : v.Consistent) (hw : w.Consistent)
    (hnan : v.NaNFree) (h : Reordered v w) : v.equal w = true := by
  calc v.equal w = w.equal v := equal_comm hv hw
    _ = w.sorted.equal v := (equal_sorted_left hw hv).symm
    _ = v.sorted.equal v := by rw [h.sorted_eq hv.keysDistinct]
    _ = v.equal v := equal_sorted_left hv hv
    _ = true := (equal_self_iff hv).2 hnan

/-- Equality is transitive on the values made of scalars on which it is. -/
theorem equal_trans_of {P : Value → Prop}
    (hP : ∀ u v w, P u → P v → P w → u.equalScalars v = true → v.equalScalars w = true →
      u.equalScalars w = true)
    {u v w : Value} (hu : u.All P) (hv : v.All P) (hw : w.All P) (hcu : u.Consistent)
    (hcv : v.Consistent) (hcw : w.Consistent) (huv : u.equal v = true) (hvw : v.equal w = true) :
    u.equal w = true := by
  induction u using nested generalizing v w with
  | scalar u hs =>
    rw [equal_scalar hs] at huv ⊢
    rw [equal_scalar (isScalar_of_equalScalars huv)] at hvw
    exact hP u v w hu.self hv.self hw.self huv hvw
  | array items ih =>
    obtain ⟨others, rfl, hlen, hitems⟩ := (equal_array_iff items v).1 huv
    obtain ⟨others', rfl, hlen', hitems'⟩ := (equal_array_iff others w).1 hvw
    rw [consistent_array] at hcu hcv hcw
    refine (equal_array_iff items _).2 ⟨others', rfl, hlen.trans hlen', fun i u w hi hi' => ?_⟩
    obtain ⟨v, hmid⟩ : ∃ v, others[i]? = some v := by
      obtain ⟨hlt, -⟩ := List.getElem?_eq_some_iff.1 hi
      exact ⟨_, List.getElem?_eq_getElem (hlen ▸ hlt)⟩
    have hmem := List.mem_of_getElem? hi
    have hmem' := List.mem_of_getElem? hmid
    have hmem'' := List.mem_of_getElem? hi'
    exact ih u hmem (((all_array _).1 hu).2 u hmem) (((all_array _).1 hv).2 v hmem')
      (((all_array _).1 hw).2 w hmem'') (hcu u hmem) (hcv v hmem') (hcw w hmem'')
      (hitems i u v hi hmid) (hitems' i v w hmid hi')
  | object entries index ih =>
    obtain ⟨o, rfl, hlen, hmembers⟩ := (equal_object_iff hcu hcv).1 huv
    obtain ⟨o', rfl, hlen', hmembers'⟩ := (equal_object_iff hcv hcw).1 hvw
    refine (equal_object_iff hcu hcw).2 ⟨o', rfl, hlen.trans hlen', fun m hm => ?_⟩
    obtain ⟨v, hmid, heq⟩ := hmembers m hm
    obtain ⟨w, hend, heq'⟩ := hmembers' _ hmid
    exact ⟨w, hend, ih m hm (((all_object _ _).1 hu).2 m hm) (((all_object _ _).1 hv).2 _ hmid)
      (((all_object _ _).1 hw).2 _ hend) (((consistent_object _).1 hcu).2 m hm)
      (((consistent_object _).1 hcv).2 _ hmid) (((consistent_object _).1 hcw).2 _ hend) heq heq'⟩

def FloatFree (v : Value) : Prop := v.All fun w => ∀ x, w ≠ .float x

/-- Every integer in a value is at most 2^53, and so is a double. -/
def IntegersExact (v : Value) : Prop :=
  v.All fun w => ∀ n, w.integer? = some n → n.natAbs ≤ 2 ^ 53

theorem equalScalars_trans_of_floatFree {u v w : Value} (hu : ∀ x, u ≠ .float x)
    (hv : ∀ x, v ≠ .float x) (hw : ∀ x, w ≠ .float x) (huv : u.equalScalars v = true)
    (hvw : v.equalScalars w = true) : u.equalScalars w = true := by
  have hinteger {v : Value} (hv : ∀ x, v ≠ .float x) {x : Binary64} (hx : v.toFloat? = some x) :
      v.integer? ≠ none := by
    cases v with
    | float y => exact absurd rfl (hv y)
    | _ => first | exact Option.some_ne_none _ | cases hx
  rw [equalScalars_iff] at huv hvw ⊢
  rcases huv with ⟨n, hn, hn'⟩ | ⟨hint, x, y, hx, hy, -⟩ | ⟨rfl, hplain⟩
  · rcases hvw with ⟨m, hm, hm'⟩ | ⟨hint, y, z, hy, hz, -⟩ | ⟨rfl, -, hnone⟩
    · rw [hn', Option.some.injEq] at hm
      exact .inl ⟨n, hn, hm ▸ hm'⟩
    · exact (hint.elim (hinteger hv hy) (hinteger hw hz)).elim
    · rw [toFloat?_of_integer hn'] at hnone
      cases hnone
  · exact (hint.elim (hinteger hu hx) (hinteger hv hy)).elim
  · exact hvw

theorem equalScalars_of_exact {v w : Value} (hv : ∀ n, v.integer? = some n → n.natAbs ≤ 2 ^ 53)
    (hw : ∀ n, w.integer? = some n → n.natAbs ≤ 2 ^ 53) {x y : Binary64}
    (hx : v.toFloat? = some x) (hy : w.toFloat? = some y) :
    v.equalScalars w = x.equal y := by
  by_cases hint : v.integer? = none ∨ w.integer? = none
  · exact equalScalars_of_float hint hx hy
  · obtain ⟨hm, hn⟩ := not_or.1 hint
    obtain ⟨m, hm⟩ := Option.ne_none_iff_exists'.1 hm
    obtain ⟨n, hn⟩ := Option.ne_none_iff_exists'.1 hn
    obtain rfl := Option.some.inj ((toFloat?_of_integer hm).symm.trans hx)
    obtain rfl := Option.some.inj ((toFloat?_of_integer hn).symm.trans hy)
    rw [Bool.eq_iff_iff, equalScalars_integer hm hn]
    refine ⟨?_, Binary64.ofInt_injective (hv m hm) (hw n hn)⟩
    rintro rfl
    exact (Binary64.equal_self_iff _).2 (Binary64.isNaN_ofInt m)

theorem equalScalars_trans_of_exact {u v w : Value}
    (hu : ∀ n, u.integer? = some n → n.natAbs ≤ 2 ^ 53)
    (hv : ∀ n, v.integer? = some n → n.natAbs ≤ 2 ^ 53)
    (hw : ∀ n, w.integer? = some n → n.natAbs ≤ 2 ^ 53) (huv : u.equalScalars v = true)
    (hvw : v.equalScalars w = true) : u.equalScalars w = true := by
  by_cases huv' : u.toFloat? = none ∨ v.toFloat? = none
  · rw [equalScalars_of_plain huv', equalPlain_iff] at huv
    obtain ⟨rfl, -⟩ := huv
    exact hvw
  by_cases hvw' : v.toFloat? = none ∨ w.toFloat? = none
  · rw [equalScalars_of_plain hvw', equalPlain_iff] at hvw
    obtain ⟨rfl, -⟩ := hvw
    exact huv
  obtain ⟨hx, hy⟩ := not_or.1 huv'
  obtain ⟨-, hz⟩ := not_or.1 hvw'
  obtain ⟨x, hx⟩ := Option.ne_none_iff_exists'.1 hx
  obtain ⟨y, hy⟩ := Option.ne_none_iff_exists'.1 hy
  obtain ⟨z, hz⟩ := Option.ne_none_iff_exists'.1 hz
  rw [equalScalars_of_exact hu hv hx hy] at huv
  rw [equalScalars_of_exact hv hw hy hz] at hvw
  rw [equalScalars_of_exact hu hw hx hz]
  exact Binary64.equal_trans huv hvw

/-- How far equality of values is an equivalence that does not look at the order of members. All
values that are built are consistent (`Built.consistent`). -/
structure Equality : Prop where
  symm : ∀ a b : Value, a.Consistent → b.Consistent → (a.equal b = true ↔ b.equal a = true)
  refl : ∀ a : Value, a.Consistent → (a.equal a = true ↔ a.NaNFree)
  reordered : ∀ a b : Value, a.Consistent → b.Consistent → a.NaNFree → Reordered a b →
    a.equal b = true
  /-- Either there are no floats, or all integers are doubles. -/
  trans : ∀ a b c : Value, a.Consistent → b.Consistent → c.Consistent →
    a.FloatFree ∧ b.FloatFree ∧ c.FloatFree ∨
      a.IntegersExact ∧ b.IntegersExact ∧ c.IntegersExact →
    a.equal b = true → b.equal c = true → a.equal c = true

theorem equality : Equality where
  symm _ _ ha hb := by rw [equal_comm ha hb]
  refl _ ha := equal_self_iff ha
  reordered _ _ ha hb := equal_of_reordered ha hb
  trans _ _ _ ha hb hc := by
    rintro (⟨hfa, hfb, hfc⟩ | ⟨hea, heb, hec⟩)
    · exact equal_trans_of (fun _ _ _ => equalScalars_trans_of_floatFree) hfa hfb hfc ha hb hc
    · exact equal_trans_of (fun _ _ _ => equalScalars_trans_of_exact) hea heb hec ha hb hc

/-- Beyond 2^53 an integer may equal a double that its neighbour equals too. -/
example : let x := Value.float (Binary64.ofInt (2 ^ 53))
    (Value.int64 (2 ^ 53 + 1)).equal x = true ∧ x.equal (.int64 (2 ^ 53)) = true ∧
      (Value.int64 (2 ^ 53 + 1)).equal (.int64 (2 ^ 53)) = false := by
  decide +kernel

end Value
end JsonCodec
