import Mathlib
import JsonCodec.Proofs.Encode.Alike
import JsonCodec.Proofs.Value.Normal

set_option autoImplicit false

namespace JsonCodec

namespace EncodeOptions

structure SameLayout (o o' : EncodeOptions) : Prop where
  indent : o.indent = o'.indent
  sortKeys : o.sortKeys = o'.sortKeys
  newline : o.newline = o'.newline

def definedFlags : UInt32 := 31

def policyFlags : UInt32 := 24

theorem and_flag {flags flags' mask : UInt32} (h : flags &&& mask = flags' &&& mask)
    (flag : UInt32) (hmask : mask &&& flag = flag) : flags &&& flag = flags' &&& flag := by
  rw [← hmask, ← UInt32.and_assoc, h, UInt32.and_assoc]

theorem ofFlags_congr (d : Dialect) {flags flags' : UInt32}
    (h : flags &&& definedFlags = flags' &&& definedFlags) :
    ofFlags d flags = ofFlags d flags' := by
  rw [ofFlags, ofFlags, and_flag h 1 (by decide), and_flag h 2 (by decide),
    and_flag h 4 (by decide), and_flag h 8 (by decide), and_flag h 16 (by decide)]

theorem sameLayout_ofFlags (d d' : Dialect) {flags flags' : UInt32}
    (h : flags &&& ~~~policyFlags = flags' &&& ~~~policyFlags) :
    SameLayout (ofFlags d flags) (ofFlags d' flags') where
  indent := by simp only [ofFlags, and_flag h 1 (by decide)]
  sortKeys := by simp only [ofFlags, and_flag h 2 (by decide)]
  newline := by simp only [ofFlags, and_flag h 4 (by decide)]

theorem nonFiniteAsNull_ofFlags (d : Dialect) (flags : UInt32) :
    (ofFlags d flags).nonFiniteAsNull = true ↔ flags &&& 8 ≠ 0 ∨ flags &&& 16 ≠ 0 := by
  simp [nonFiniteAsNull, ofFlags]

end EncodeOptions

namespace Value

open EncodeOptions (SameLayout)

variable {o o' : EncodeOptions}

def HoldsNonFinite (v : Value) : Prop := ∃ x, x.isFinite = false ∧ Within (.float x) v

mutual

/-- The value with null for every float that is not finite. -/
def sanitized : Value → Value
  | float x => if x.isFinite then .float x else .null
  | array items => .array (sanitizedItems items)
  | object ⟨entries, index⟩ => .object ⟨sanitizedMembers entries, index⟩
  | value => value

def sanitizedItems : List Value → List Value
  | [] => []
  | item :: rest => item.sanitized :: sanitizedItems rest

def sanitizedMembers : List (Bytes × Value) → List (Bytes × Value)
  | [] => []
  | (key, value) :: rest => (key, value.sanitized) :: sanitizedMembers rest

end

theorem sanitizedItems_eq_map (items : List Value) :
    sanitizedItems items = items.map sanitized := by
  induction items with
  | nil => rfl
  | cons item rest ih => rw [sanitizedItems, ih, List.map_cons]

theorem sanitizedMembers_eq_map (members : List (Bytes × Value)) :
    sanitizedMembers members = members.map fun m => (m.1, m.2.sanitized) := by
  induction members with
  | nil => rfl
  | cons member rest ih => rw [sanitizedMembers, ih, List.map_cons]

@[simp] theorem sanitized_array (items : List Value) :
    (Value.array items).sanitized = .array (items.map sanitized) := by
  rw [sanitized, sanitizedItems_eq_map]

@[simp] theorem sanitized_object (entries : List (Bytes × Value)) (index : Option KeyIndex) :
    (Value.object ⟨entries, index⟩).sanitized =
      .object ⟨entries.map fun m => (m.1, m.2.sanitized), index⟩ := by
  rw [sanitized, sanitizedMembers_eq_map]

theorem keepsContainers_sanitized : KeepsContainers sanitized where
  scalar v hs := by
    cases v with
    | array items => cases hs
    | object members => cases hs
    | float x =>
      rw [sanitized]
      split_ifs <;> rfl
    | _ => rfl
  array := sanitized_array
  object entries index := ⟨index, sanitized_object entries index⟩

theorem sanitized_eq_self {v : Value} (h : ¬ v.HoldsNonFinite) : v.sanitized = v := by
  induction v using nested with
  | scalar v hs =>
    cases v with
    | array items => cases hs
    | object members => cases hs
    | float x =>
      have hx : x.isFinite = true := by
        by_contra hx
        exact h ⟨x, by simpa using hx, .self⟩
      rw [sanitized, if_pos hx]
    | _ => rfl
  | array items ih =>
    rw [sanitized_array, List.map_congr_left (g := id) fun v hv => ih v hv ?_, List.map_id]
    exact fun ⟨x, hx, hw⟩ => h ⟨x, hx, .item hv hw⟩
  | object entries index ih =>
    rw [sanitized_object, List.map_congr_left (g := id) fun m hm => ?_, List.map_id]
    rw [ih m hm fun ⟨x, hx, hw⟩ => h ⟨x, hx, .member hm hw⟩]
    rfl

theorem writtenAlike_sanitized (hlayout : SameLayout o o') {v : Value}
    (h : o.nonFiniteAsNull = true ∨ ¬ v.HoldsNonFinite) : WrittenAlike o' o v.sanitized v := by
  refine writtenAlike_of_scalars hlayout.indent.symm hlayout.sortKeys.symm
    keepsContainers_sanitized fun w hw hs level out => ?_
  rw [write_scalar hs, write_scalar (keepsContainers_sanitized.scalar w hs)]
  cases w with
  | array items => cases hs
  | object members => cases hs
  | float x =>
    rw [sanitized]
    split_ifs with hx
    · simp only [writeScalar, Binary64.encode, if_pos hx]
    · have hnull : o.nonFiniteAsNull = true :=
        h.resolve_right fun h => h ⟨x, by simpa using hx, hw⟩
      simp only [writeScalar, Binary64.encode, if_neg hx, if_pos hnull]
      rfl
  | _ => rfl

theorem encode_sanitized (hlayout : SameLayout o o') {v : Value}
    (h : o.nonFiniteAsNull = true ∨ ¬ v.HoldsNonFinite) : v.sanitized.encode o' = v.encode o :=
  (writtenAlike_sanitized hlayout h).encode hlayout.newline.symm

def Writable (o : EncodeOptions) (v : Value) : Prop :=
  ∀ x, v = .float x →
    x.isFinite = true ∨ o.nonFiniteAsNull = true ∨ o.dialect.hasNonFinite = true

theorem isOk_bind {ε α β : Type} {x : Except ε α} {f : α → Except ε β} {P : Prop}
    (h : ∀ a, (f a).isOk = true ↔ P) : (x >>= f).isOk = true ↔ x.isOk = true ∧ P := by
  cases x with
  | error e => simp [bind, Except.bind, Except.isOk, Except.toBool]
  | ok a => simpa [bind, Except.bind, Except.isOk, Except.toBool] using h a

theorem isOk_iff {ε α : Type} {x : Except ε α} : x.isOk = true ↔ ∃ a, x = .ok a := by
  cases x <;> simp [Except.isOk, Except.toBool]

theorem not_isOk_iff {ε α : Type} {x : Except ε α} : ¬ x.isOk = true ↔ ∃ e, x = .error e := by
  cases x <;> simp [Except.isOk, Except.toBool]

theorem isOk_pure {ε α : Type} (a : α) : (pure a : Except ε α).isOk = true ↔ True :=
  ⟨fun _ => trivial, fun _ => rfl⟩

def WrittenIf (o : EncodeOptions) (v : Value) (P : Prop) : Prop :=
  ∀ level out, (write o level out v).isOk = true ↔ P

theorem isOk_writeItems {items : List Value} {P : Value → Prop}
    (h : ∀ v ∈ items, WrittenIf o v (P v)) (level : Nat) (first : Bool) (out : Output) :
    (writeItems o level first out items).isOk = true ↔ ∀ v ∈ items, P v := by
  induction items generalizing first out with
  | nil => simp [Except.isOk, Except.toBool]
  | cons item rest ih =>
    have hrest := ih fun v hv => h v (List.mem_cons_of_mem item hv)
    rw [writeItems, isOk_bind (hrest false), h item List.mem_cons_self, List.forall_mem_cons]

theorem isOk_writeMembers {members : List (Bytes × Value)} {P : Value → Prop}
    (h : ∀ m ∈ members, WrittenIf o m.2 (P m.2)) (level : Nat) (first : Bool) (out : Output) :
    (writeMembers o level first out members).isOk = true ↔ ∀ m ∈ members, P m.2 := by
  induction members generalizing first out with
  | nil => simp [Except.isOk, Except.toBool]
  | cons member rest ih =>
    have hrest := ih fun m hm => h m (List.mem_cons_of_mem member hm)
    rw [writeMembers, isOk_bind (hrest false), h member List.mem_cons_self,
      List.forall_mem_cons]

theorem isOk_encode_float (x : Binary64) : (x.encode o).isOk = true ↔ Writable o (.float x) := by
  simp only [Binary64.encode, Writable, float.injEq, forall_eq']
  split_ifs <;> simp_all [Except.isOk, Except.toBool]

theorem writtenIf_all (v : Value) : WrittenIf o v (v.All (Writable o)) := by
  induction v using nested with
  | scalar v hs =>
    intro level out
    rw [write_scalar hs]
    cases v with
    | array items => cases hs
    | object members => cases hs
    | float x =>
      rw [writeScalar, isOk_bind fun _ => isOk_pure _, and_true, isOk_encode_float]
      rfl
    | _ => simp [writeScalar, All, Writable, Except.isOk, Except.toBool]
  | array items ih =>
    intro level out
    have hself : Writable o (.array items) := by simp [Writable]
    rw [all_array, and_iff_right hself]
    by_cases hne : items = []
    · rw [hne, write_emptyArray]
      simp [Except.isOk, Except.toBool]
    · rw [write_array hne, isOk_bind fun _ => isOk_pure _, and_true, isOk_writeItems ih]
  | object entries index ih =>
    intro level out
    have hself : Writable o (.object ⟨entries, index⟩) := by simp [Writable]
    rw [all_object, and_iff_right hself]
    by_cases hne : entries = []
    · rw [hne, write_emptyObject]
      simp [Except.isOk, Except.toBool]
    · have hmembers (m : Bytes × Value) (hm : m ∈ inOrder o entries) :=
        ih m ((inOrder_perm _).mem_iff.1 hm)
      rw [write_object index hne, isOk_bind fun _ => isOk_pure _, and_true,
        isOk_writeMembers hmembers]
      simp only [(inOrder_perm _).mem_iff]

/-- A value cannot be encoded exactly if it holds a float that has no text. -/
theorem isOk_encode (o : EncodeOptions) (v : Value) :
    (v.encode o).isOk = true ↔
      v.HoldsNonFinite → o.nonFiniteAsNull = true ∨ o.dialect.hasNonFinite = true := by
  have hall : v.All (Writable o) ↔
      (v.HoldsNonFinite → o.nonFiniteAsNull = true ∨ o.dialect.hasNonFinite = true) := by
    rw [all_iff_within]
    constructor
    · rintro h ⟨x, hx, hw⟩
      exact (h _ hw x rfl).resolve_left (by simp [hx])
    · rintro h w hw x rfl
      exact (em (x.isFinite = true)).imp_right fun hx => h ⟨x, by simpa using hx, hw⟩
  rw [encode, isOk_bind fun _ => isOk_pure _, and_true, writtenIf_all, hall]

/-- How floats that are not finite are dealt with, under the options of a word of flags. -/
structure NonFinitePolicy (v : Value) (flags : UInt32) : Prop where
  extended : ∃ text, v.encode (.ofFlags .extended flags) = .ok text
  strict : (∃ e, v.encode (.ofFlags .strict flags) = .error e) ↔
    v.HoldsNonFinite ∧ flags &&& 8 = 0 ∧ flags &&& 16 = 0
  failure : ∀ d e, v.encode (.ofFlags d flags) = .error e →
    Encode.code (v.encode (.ofFlags d flags)) = .nonFiniteFloat ∧
      Encode.textOrEmpty (v.encode (.ofFlags d flags)) = []
  /-- With one of the two flags such a float is written as a null in its place would be. -/
  replaced : ∀ d, flags &&& 8 ≠ 0 ∨ flags &&& 16 ≠ 0 →
    ∃ text, v.encode (.ofFlags d flags) = .ok text ∧
      v.sanitized.encode (.ofFlags d (flags &&& ~~~EncodeOptions.policyFlags)) = .ok text
  finite : ¬ v.HoldsNonFinite → ∀ d d' flags',
    flags' &&& ~~~EncodeOptions.policyFlags = flags &&& ~~~EncodeOptions.policyFlags →
    ∃ text, v.encode (.ofFlags d flags) = .ok text ∧ v.encode (.ofFlags d' flags') = .ok text
  undefined : ∀ d flags',
    flags' &&& EncodeOptions.definedFlags = flags &&& EncodeOptions.definedFlags →
    v.encode (.ofFlags d flags') = v.encode (.ofFlags d flags)

theorem nonFinitePolicy (v : Value) (flags : UInt32) : NonFinitePolicy v flags where
  extended := isOk_iff.1 ((isOk_encode _ v).2 fun _ => .inr rfl)
  strict := by
    have hstrict : ¬ (EncodeOptions.ofFlags .strict flags).dialect.hasNonFinite = true := by
      exact Bool.false_ne_true
    rw [← not_isOk_iff, isOk_encode, or_iff_left hstrict, EncodeOptions.nonFiniteAsNull_ofFlags,
      Classical.not_imp, not_or, not_not, not_not]
  failure d e h := by
    rw [h]
    exact ⟨rfl, rfl⟩
  replaced d hflags := by
    have hnull := (EncodeOptions.nonFiniteAsNull_ofFlags d flags).2 hflags
    obtain ⟨text, htext⟩ := isOk_iff.1 ((isOk_encode _ v).2 fun _ => .inl hnull)
    refine ⟨text, htext, ?_⟩
    rw [← htext]
    exact encode_sanitized (EncodeOptions.sameLayout_ofFlags d d (by simp [UInt32.and_assoc]))
      (.inl hnull)
  finite hv d d' flags' hflags := by
    obtain ⟨text, htext⟩ := isOk_iff.1 ((isOk_encode (.ofFlags d flags) v).2 fun h => absurd h hv)
    refine ⟨text, htext, ?_⟩
    have hsame := encode_sanitized (EncodeOptions.sameLayout_ofFlags d d' hflags.symm) (.inr hv)
    rw [← htext, ← hsame, sanitized_eq_self hv]
  undefined d flags' hflags := by rw [EncodeOptions.ofFlags_congr d hflags]

example : (array [.float .nan, .float (.infinity true)]).encode (.ofFlags .strict 16) =
    .ok (Bytes.ascii "[null,null]") := by
  decide +kernel

end Value
end JsonCodec
