import Mathlib
import JsonCodec.Proofs.Decode.Document
import JsonCodec.Proofs.Index
import JsonCodec.Proofs.Value.Normal

set_option autoImplicit false

namespace JsonCodec
namespace Value

/-- A value that was put together, changed or copied. Items of arrays change freely; members of
objects only as the object lets them. -/
inductive Built : Value → Prop
  | scalar {v : Value} (h : v.isScalar = true) : Built v
  | array {items : List Value} (h : ∀ v ∈ items, Built v) : Built (.array items)
  | empty : Built (.object .empty)
  | ofList {members : List (Bytes × Value)} (h : ∀ m ∈ members, Built m.2) :
      Built (.object (.ofList members))
  | look {o : Object Value} (h : Built (.object o)) : Built (.object o.indexed)
  | insert {o : Object Value} (h : Built (.object o)) (key : Bytes) {v : Value} (hv : Built v) :
      Built (.object (o.insert key v))
  | require {o : Object Value} (h : Built (.object o)) (key : Bytes) :
      Built (.object (o.require key .null).2)
  | setAt {o : Object Value} (h : Built (.object o)) (position : Nat) {v : Value} (hv : Built v) :
      Built (.object (o.setAt position v))
  | erase {o : Object Value} (h : Built (.object o)) (key : Bytes) :
      Built (.object (o.erase key).2)
  | copy {v : Value} (h : Built v) : Built v.copy

def Consistent (v : Value) : Prop :=
  v.All fun
    | object members => members.Consistent
    | _ => True

theorem consistent_array (items : List Value) :
    (Value.array items).Consistent ↔ ∀ v ∈ items, v.Consistent := by
  rw [Consistent, all_array]
  exact and_iff_right trivial

theorem consistent_object (o : Object Value) :
    (Value.object o).Consistent ↔ o.Consistent ∧ ∀ m ∈ o.entries, m.2.Consistent :=
  all_object o.entries o.index

theorem consistent_scalar {v : Value} (h : v.isScalar = true) : v.Consistent := by
  cases v with
  | array items => cases h
  | object members => cases h
  | _ => trivial

/-- A change that brings in one value at most keeps an object consistent at every depth. -/
theorem Consistent.changed {o o' : Object Value} {v : Value} (h : (Value.object o).Consistent)
    (hv : v.Consistent) (ho : o.Consistent → o'.Consistent)
    (hm : ∀ m ∈ o'.entries, m ∈ o.entries ∨ m.2 = v) : (Value.object o').Consistent := by
  rw [consistent_object] at h ⊢
  refine ⟨ho h.1, fun m hmem => ?_⟩
  rcases hm m hmem with hold | rfl
  · exact h.2 m hold
  · exact hv

theorem Consistent.copy {v : Value} (h : v.Consistent) : v.copy.Consistent := by
  induction v using nested with
  | scalar v hs =>
    rw [copy_scalar hs]
    exact h
  | array items ih =>
    rw [consistent_array] at h
    rw [copy_array, consistent_array, List.forall_mem_map]
    exact fun v hv => ih v hv (h v hv)
  | object entries index ih =>
    rw [consistent_object] at h
    rw [copy_object, consistent_object, List.forall_mem_map]
    refine ⟨Object.consistent_of_nodup ?_, fun m hm => ih m hm (h.2 m hm)⟩
    rw [List.map_map]
    exact h.1.nodup

theorem Built.consistent {v : Value} (h : v.Built) : v.Consistent := by
  induction h with
  | scalar h => exact consistent_scalar h
  | array h ih => exact (consistent_array _).2 ih
  | empty => exact (consistent_object _).2 ⟨Object.consistent_empty, List.forall_mem_nil _⟩
  | ofList h ih =>
    refine (consistent_object _).2 ⟨Object.consistent_ofList _, fun m hm => ?_⟩
    exact ih m (Object.mem_ofList hm)
  | look h ih =>
    apply ih.changed (consistent_scalar (v := .null) rfl) Object.Consistent.indexed
    intro m hm
    rw [Object.entries_indexed] at hm
    exact .inl hm
  | insert h key hv ih ihv =>
    exact ih.changed ihv (fun ho => ho.insert key _) fun m hm => Object.mem_insert hm
  | require h key ih =>
    exact ih.changed (consistent_scalar rfl) (fun ho => ho.require key .null) fun m hm =>
      Object.mem_require hm
  | setAt h position hv ih ihv =>
    exact ih.changed ihv (fun ho => ho.setAt position _) fun m hm => Object.mem_setAt hm
  | erase h key ih =>
    exact ih.changed (consistent_scalar (v := .null) rfl) (fun ho => ho.erase key) fun m hm =>
      .inl (Object.mem_erase hm)
  | copy h ih => exact ih.copy

theorem Consistent.keysDistinct {v : Value} (h : v.Consistent) : v.KeysDistinct := by
  refine All.imp (fun v hv => ?_) h
  cases v with
  | object members => exact hv.nodup
  | _ => trivial

theorem Built.keysDistinct {v : Value} (h : v.Built) : v.KeysDistinct := h.consistent.keysDistinct

/-- A property that comes from the items and members of a container to the container, if the keys
have a property of theirs. -/
structure ContainerClosed (K : Bytes → Prop) (P : Value → Prop) : Prop where
  array : ∀ items, (∀ v ∈ items, P v) → P (.array items)
  object : ∀ members, (∀ m ∈ members, K m.1 ∧ P m.2) → P (.object (.ofList members))

variable {scalar : Grammar.Token → Value} {K : Bytes → Prop} {P : Value → Prop}

mutual

theorem ContainerClosed.value (hc : ContainerClosed K P) (t : Grammar.Tree)
    (hk : ∀ k ∈ t.tokens, P (scalar k))
    (hn : ∀ pieces, .string pieces ∈ t.tokens → K (Grammar.Piece.spelled none pieces)) :
    P (t.value scalar) := by
  match t with
  | .token k =>
    rw [Grammar.Tree.value]
    exact hk k (by rw [Grammar.Tree.tokens, List.mem_singleton])
  | .empty .array _ =>
    rw [Grammar.Tree.value]
    exact hc.array [] (List.forall_mem_nil _)
  | .empty .object _ =>
    rw [Grammar.Tree.value]
    exact hc.object [] (List.forall_mem_nil _)
  | .array items =>
    rw [Grammar.Tree.tokens] at hk hn
    rw [Grammar.Tree.value]
    exact hc.array _ (hc.values items hk hn)
  | .object members =>
    rw [Grammar.Tree.tokens] at hk hn
    rw [Grammar.Tree.value, ← Object.lastOfEach_fst]
    exact hc.object _ (hc.entries members hk hn)

theorem ContainerClosed.values (hc : ContainerClosed K P) (items : Grammar.Items)
    (hk : ∀ k ∈ items.tokens, P (scalar k))
    (hn : ∀ pieces, .string pieces ∈ items.tokens → K (Grammar.Piece.spelled none pieces)) :
    ∀ v ∈ items.values scalar, P v := by
  match items with
  | .last _ item _ =>
    rw [Grammar.Items.tokens] at hk hn
    rw [Grammar.Items.values, List.forall_mem_singleton]
    exact hc.value item hk hn
  | .more _ item _ rest =>
    simp only [Grammar.Items.tokens, List.mem_append, or_imp, forall_and] at hk hn
    rw [Grammar.Items.values, List.forall_mem_cons]
    exact ⟨hc.value item hk.1 hn.1, hc.values rest hk.2 hn.2⟩

theorem ContainerClosed.entries (hc : ContainerClosed K P) (members : Grammar.Members)
    (hk : ∀ k ∈ members.tokens, P (scalar k))
    (hn : ∀ pieces, .string pieces ∈ members.tokens → K (Grammar.Piece.spelled none pieces)) :
    ∀ m ∈ members.entries scalar, K m.1 ∧ P m.2 := by
  match members with
  | .last name _ value _ =>
    simp only [Grammar.Members.tokens, List.mem_cons, or_imp, forall_and] at hk hn
    rw [Grammar.Members.entries, List.forall_mem_singleton]
    exact ⟨hn.1 name.pieces rfl, hc.value value hk.2 hn.2⟩
  | .more name _ value _ rest =>
    simp only [Grammar.Members.tokens, List.mem_cons, List.mem_append, or_imp, forall_and] at hk hn
    rw [Grammar.Members.entries, List.forall_mem_cons]
    exact ⟨⟨hn.1 name.pieces rfl, hc.value value hk.2.1 hn.2.1⟩,
      hc.entries rest hk.2.2 hn.2.2⟩

end

theorem containerClosed_built : ContainerClosed (fun _ => True) Built where
  array _ h := .array h
  object _ h := .ofList fun m hm => (h m hm).2

theorem built_value (hs : ∀ k, (scalar k).Built) (t : Grammar.Tree) : (t.value scalar).Built :=
  containerClosed_built.value t (fun k _ => hs k) fun _ _ => trivial

theorem built_floatValue? {text : Bytes} {v : Value} (h : Numeral.floatValue? text = some v) :
    v.Built := by
  rw [Numeral.floatValue?] at h
  split at h
  · obtain rfl := Option.some.inj h
    exact .scalar rfl
  · cases h

theorem built_ofNumeral? {big : Option BigInteger}
    (hbig : ∀ build, big = some build → ∀ digits, (build digits).Built) {n : Grammar.Numeral}
    {v : Value} (h : ofNumeral? big n.text = some v) : v.Built := by
  cases hi : n.isIntegral with
  | true =>
    rw [ofNumeral?_integral big hi] at h
    cases hz : ofInteger? n.integer with
    | some w =>
      rw [hz] at h
      obtain rfl := Option.some.inj h
      exact .scalar (isScalar_ofInteger? hz)
    | none =>
      rw [hz] at h
      cases big with
      | some build =>
        obtain rfl := Option.some.inj h
        exact hbig build rfl _
      | none => exact built_floatValue? h
  | false =>
    rw [ofNumeral?_float big hi] at h
    exact built_floatValue? h

theorem built_token {big : Option BigInteger}
    (hbig : ∀ build, big = some build → ∀ digits, (build digits).Built) (k : Grammar.Token) :
    (k.value big).Built := by
  cases k with
  | word w => cases w <;> exact .scalar rfl
  | string pieces => exact .scalar rfl
  | numeral n =>
    rw [Grammar.Token.value]
    cases h : ofNumeral? big n.text with
    | some v => exact built_ofNumeral? hbig h
    | none => exact .scalar rfl

end Value

/-- What is decoded is built like any other value, if the big integers in it are. -/
theorem Decode.built {o : DecodeOptions}
    (hbig : ∀ build, o.bigInteger = some build → ∀ digits, (build digits).Built) {text : Bytes}
    {cache keys : KeyCache} {p : Parsed} (h : whole o (.bytes text) cache = (.ok p, keys)) :
    p.value.Built := by
  obtain ⟨-, before, t, after, -, -, -, hv⟩ := whole_eq_ok h
  rw [hv]
  exact Value.built_value (Value.built_token hbig) t

end JsonCodec
