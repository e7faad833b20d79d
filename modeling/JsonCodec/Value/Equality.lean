import JsonCodec.Value.Number

set_option autoImplicit false

namespace JsonCodec.Value

def equalScalars (v w : Value) : Bool :=
  match v.signedMagnitude?, w.signedMagnitude? with
  | some a, some b => a.same b
  | _, _ =>
    match v.toFloat?, w.toFloat? with
    | some x, some y => x.equal y
    | _, _ =>
      match v, w with
      | null, null => true
      | bool a, bool b => a == b
      | string s, string t => s == t
      | _, _ => false

theorem sizeOf_find? {o : Object Value} {key : Bytes} {v : Value} (h : o.find? key = some v) :
    sizeOf v < sizeOf o.entries := by
  obtain ⟨position, -, hmember⟩ := Option.bind_eq_some_iff.1 h
  obtain ⟨m, hm, rfl⟩ := Option.map_eq_some_iff.1 hmember
  have hsnd : sizeOf m.2 < sizeOf m := by
    obtain ⟨key, value⟩ := m
    simp only [Prod.mk.sizeOf_spec]
    omega
  exact Nat.lt_trans hsnd (List.sizeOf_lt_of_mem (List.mem_of_getElem? hm))

mutual

def equal : Value → Value → Bool
  | array xs, w => match w with
    | array ys => equalItems xs ys
    | _ => false
  | object members, w => match w with
    | object other => members.size == other.size && equalMembers members.entries other.indexed
    | _ => false
  | v, w => equalScalars v w
termination_by v w => sizeOf v + sizeOf w
decreasing_by
  · simp only [array.sizeOf_spec]
    omega
  · obtain ⟨entries, index⟩ := members
    obtain ⟨others, index⟩ := other
    simp only [Object.entries_indexed, object.sizeOf_spec, Object.mk.sizeOf_spec]
    omega

def equalItems : List Value → List Value → Bool
  | [], ys => ys.isEmpty
  | x :: xs, ys => match ys with
    | [] => false
    | y :: ys => equal x y && equalItems xs ys
termination_by xs ys => sizeOf xs + sizeOf ys

/-- Whether each member is found in an object, and what is found there is equal to it. -/
def equalMembers : List (Bytes × Value) → Object Value → Bool
  | [], _ => true
  | (key, value) :: rest, other => match _ : other.find? key with
    | some found => equal found value && equalMembers rest other
    | none => false
termination_by entries other => sizeOf entries + sizeOf other.entries
decreasing_by
  -- The roles change: what was found is on the left now.
  · next hfound =>
    have hlt := sizeOf_find? hfound
    simp only [List.cons.sizeOf_spec, Prod.mk.sizeOf_spec]
    omega
  · simp only [List.cons.sizeOf_spec]
    omega

end

instance : BEq Value := ⟨equal⟩

end JsonCodec.Value
