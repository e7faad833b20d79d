import Mathlib
import JsonCodec.Encode.Writer
import JsonCodec.Proofs.Value.Normal

set_option autoImplicit false

/-!
# Values written alike

The writer goes through a value container by container, and looks at its options only where lines
are started, where members are put in order and where scalars stand. So a value and its image under
a function that keeps containers are written alike if their scalars are.
-/
namespace JsonCodec.Value

/-- The first value under the first options is written as the second is under the second. -/
def WrittenAlike (o o' : EncodeOptions) (v w : Value) : Prop :=
  ∀ level out, write o level out v = write o' level out w

variable {o o' : EncodeOptions}

theorem startLine_congr (hindent : o.indent = o'.indent) : startLine o = startLine o' := by
  funext level out
  rw [startLine, startLine, hindent]

theorem writeColon_congr (hindent : o.indent = o'.indent) : writeColon o = writeColon o' := by
  funext out
  rw [writeColon, writeColon, hindent]

theorem write_scalar {v : Value} (hs : v.isScalar = true) (level : Nat) (out : Output) :
    write o level out v = writeScalar o out v := by
  cases v with
  | array items => cases hs
  | object members => cases hs
  | _ => simp [write]

@[simp] theorem writeItems_nil (level : Nat) (first : Bool) (out : Output) :
    writeItems o level first out [] = .ok out := by
  rw [writeItems]

@[simp] theorem writeMembers_nil (level : Nat) (first : Bool) (out : Output) :
    writeMembers o level first out [] = .ok out := by
  rw [writeMembers]

theorem write_emptyArray (o : EncodeOptions) (level : Nat) (out : Output) :
    write o level out (.array []) = .ok (out.append [Byte.openBracket, Byte.closeBracket]) := by
  simp [write, writeScalar]

theorem write_emptyObject (o : EncodeOptions) (index : Option KeyIndex) (level : Nat)
    (out : Output) :
    write o level out (.object ⟨[], index⟩) =
      .ok (out.append [Byte.openBrace, Byte.closeBrace]) := by
  simp [write, writeScalar]

theorem write_array {items : List Value} (hne : items ≠ []) (level : Nat) (out : Output) :
    write o level out (.array items) = do
      let out ← writeItems o (level + 1) true (out.push Byte.openBracket) items
      return (startLine o level out).push Byte.closeBracket := by
  obtain ⟨item, rest, rfl⟩ := List.exists_cons_of_ne_nil hne
  rw [write]

theorem write_object {entries : List (Bytes × Value)} (index : Option KeyIndex)
    (hne : entries ≠ []) (level : Nat) (out : Output) :
    write o level out (.object ⟨entries, index⟩) = do
      let out ← writeMembers o (level + 1) true (out.push Byte.openBrace) (inOrder o entries)
      return (startLine o level out).push Byte.closeBrace := by
  obtain ⟨member, rest, rfl⟩ := List.exists_cons_of_ne_nil hne
  rw [write]

theorem WrittenAlike.encode {v w : Value} (h : WrittenAlike o o' v w)
    (hnewline : o.newline = o'.newline) : v.encode o = w.encode o' := by
  rw [Value.encode, Value.encode, h, hnewline]

section

variable {f : Value → Value} (hindent : o.indent = o'.indent)
include hindent

theorem writeItems_map {items : List Value} (h : ∀ v ∈ items, WrittenAlike o o' (f v) v)
    (level : Nat) (first : Bool) (out : Output) :
    writeItems o level first out (items.map f) = writeItems o' level first out items := by
  induction items generalizing first out with
  | nil => rw [List.map_nil, writeItems_nil, writeItems_nil]
  | cons item rest ih =>
    have hrest := ih fun v hv => h v (List.mem_cons_of_mem item hv)
    simp only [List.map_cons, writeItems, h item List.mem_cons_self level, hrest,
      startLine_congr hindent]

theorem writeMembers_map {members : List (Bytes × Value)}
    (h : ∀ m ∈ members, WrittenAlike o o' (f m.2) m.2) (level : Nat) (first : Bool)
    (out : Output) :
    writeMembers o level first out (members.map fun m => (m.1, f m.2)) =
      writeMembers o' level first out members := by
  induction members generalizing first out with
  | nil => rw [List.map_nil, writeMembers_nil, writeMembers_nil]
  | cons member rest ih =>
    obtain ⟨key, value⟩ := member
    have hrest := ih fun m hm => h m (List.mem_cons_of_mem _ hm)
    simp only [List.map_cons, writeMembers, h _ List.mem_cons_self level, hrest,
      startLine_congr hindent, writeColon_congr hindent]

theorem writtenAlike_array {items : List Value} (h : ∀ v ∈ items, WrittenAlike o o' (f v) v) :
    WrittenAlike o o' (.array (items.map f)) (.array items) := by
  intro level out
  cases items with
  | nil => rw [List.map_nil, write_emptyArray, write_emptyArray]
  | cons item rest =>
    rw [write_array (by simp), write_array (by simp), writeItems_map hindent h,
      startLine_congr hindent]

theorem writtenAlike_object (hsort : o.sortKeys = o'.sortKeys) {entries : List (Bytes × Value)}
    (index index' : Option KeyIndex) (h : ∀ m ∈ entries, WrittenAlike o o' (f m.2) m.2) :
    WrittenAlike o o' (.object ⟨entries.map fun m => (m.1, f m.2), index⟩)
      (.object ⟨entries, index'⟩) := by
  intro level out
  cases entries with
  | nil => rw [List.map_nil, write_emptyObject, write_emptyObject]
  | cons member rest =>
    have hmembers (m : Bytes × Value) (hm : m ∈ inOrder o' (member :: rest)) :=
      h m ((inOrder_perm _).mem_iff.1 hm)
    rw [write_object _ (by simp), write_object _ (by simp), inOrder_congr hsort, inOrder_map,
      writeMembers_map hindent hmembers, startLine_congr hindent]

/-- Scalars are all that has to be looked at, those that stand inside the value. -/
theorem writtenAlike_of_scalars (hsort : o.sortKeys = o'.sortKeys) (hf : KeepsContainers f)
    {v : Value}
    (h : ∀ w, Within w v → w.isScalar = true → WrittenAlike o o' (f w) w) :
    WrittenAlike o o' (f v) v := by
  induction v using nested with
  | scalar v hs => exact h v .self hs
  | array items ih =>
    rw [hf.array]
    exact writtenAlike_array hindent fun v hv => ih v hv fun w hw => h w (.item hv hw)
  | object entries index ih =>
    obtain ⟨index', hobject⟩ := hf.object entries index
    rw [hobject]
    exact writtenAlike_object hindent hsort index' index fun m hm =>
      ih m hm fun w hw => h w (.member hm hw)

end

theorem writtenAlike_newline (newline : Bool) (v : Value) :
    WrittenAlike { o with newline } o v v := by
  have hindent : ({ o with newline } : EncodeOptions).indent = o.indent := rfl
  refine writtenAlike_of_scalars hindent rfl keepsContainers_id fun w _ hs level out => ?_
  rw [id_eq, write_scalar hs, write_scalar hs]
  cases w <;> rfl

theorem writtenAlike_copy (v : Value) : WrittenAlike o o v.copy v :=
  writtenAlike_of_scalars rfl rfl keepsContainers_copy fun w _ hs => by
    rw [copy_scalar hs]
    exact fun _ _ => rfl

theorem writtenAlike_inOrder (entries : List (Bytes × Value)) (index index' : Option KeyIndex) :
    WrittenAlike o o (.object ⟨inOrder o entries, index⟩) (.object ⟨entries, index'⟩) := by
  intro level out
  by_cases hne : entries = []
  · rw [hne, List.perm_nil.1 (inOrder_perm []), write_emptyObject, write_emptyObject]
  · rw [write_object _ (inOrder_ne_nil hne), write_object _ hne, inOrder_inOrder]

theorem writtenAlike_ordered (v : Value) : WrittenAlike o o (v.ordered o) v := by
  induction v using nested with
  | scalar v hs =>
    rw [ordered_scalar hs]
    exact fun _ _ => rfl
  | array items ih =>
    rw [ordered_array]
    exact writtenAlike_array rfl ih
  | object entries index ih =>
    obtain ⟨index', hordered⟩ := @ordered_object o entries index
    have hmembers (m : Bytes × Value) (hm : m ∈ inOrder o entries) :=
      ih m ((inOrder_perm _).mem_iff.1 hm)
    rw [hordered]
    intro level out
    rw [writtenAlike_object rfl rfl index' index hmembers, writtenAlike_inOrder]

end JsonCodec.Value
