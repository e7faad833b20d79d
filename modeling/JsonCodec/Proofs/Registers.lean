import Mathlib
import JsonCodec.Proofs.Action

set_option autoImplicit false

/-!
# Objects in registers

Objects are worked on, copied and moved, in any order, and grow and shrink past the size from which
they use an index. All the while they are plain lists of members.
-/
namespace JsonCodec

inductive Operation where
  | on (r : Nat) (action : Action)
  | copy (r s : Nat)
  | move (r s : Nat)

abbrev Registers := Nat → Object Value

abbrev Lists := Nat → Association Value

/-- The copy of an object, with copies of all values in it. -/
def Object.copied (o : Object Value) : Object Value := ⟨Value.copyMembers o.entries, none⟩

namespace Operation

def run (registers : Registers) : Operation → Answer × Registers
  | on r action =>
    let (answer, o) := action.run (registers r)
    (answer, Function.update registers r o)
  | copy r s =>
    (.done, if r = s then registers else Function.update registers r (registers s).copied)
  | move r s =>
    (.done, if r = s then registers
      else Function.update (Function.update registers r (registers s)) s .empty)

inductive Does (lists : Lists) : Operation → Answer → Lists → Prop
  | on {r : Nat} {action : Action} {answer : Answer} {members : Association Value}
    (h : action.Does (lists r) answer members) :
    Does lists (.on r action) answer (Function.update lists r members)
  | copySelf (r : Nat) : Does lists (.copy r r) .done lists
  | copy {r s : Nat} (h : r ≠ s) : Does lists (.copy r s) .done
      (Function.update lists r ((lists s).map fun m => (m.1, m.2.copy)))
  | moveSelf (r : Nat) : Does lists (.move r r) .done lists
  | move {r s : Nat} (h : r ≠ s) : Does lists (.move r s) .done
      (Function.update (Function.update lists r (lists s)) s [])

end Operation

namespace Registers

def lists (registers : Registers) : Lists := fun r => (registers r).entries

def Consistent (registers : Registers) : Prop := ∀ r, (registers r).Consistent

variable {registers : Registers}

theorem lists_update (registers : Registers) (r : Nat) (o : Object Value) :
    lists (Function.update registers r o) = Function.update registers.lists r o.entries := by
  funext s
  by_cases h : s = r
  · subst h
    simp [lists]
  · simp [lists, h]

theorem Consistent.update (h : registers.Consistent) (r : Nat) {o : Object Value}
    (ho : o.Consistent) : Consistent (Function.update registers r o) := by
  intro s
  by_cases hs : s = r
  · subst hs
    rwa [Function.update_self]
  · rw [Function.update_of_ne hs]
    exact h s

end Registers

theorem Object.entries_copied (o : Object Value) :
    o.copied.entries = o.entries.map fun m => (m.1, m.2.copy) := Value.copyMembers_eq_map o.entries

theorem Object.Consistent.copied {o : Object Value} (h : o.Consistent) : o.copied.Consistent := by
  refine Object.consistent_of_nodup ?_
  have hkeys : (Value.copyMembers o.entries).map Prod.fst = o.keys := by
    rw [Value.copyMembers_eq_map, List.map_map]
    rfl
  rw [hkeys]
  exact h.nodup

namespace Operation

variable {registers : Registers} {operation : Operation} {answer : Answer} {lists : Lists}

theorem consistent_run (h : registers.Consistent) (operation : Operation) :
    (operation.run registers).2.Consistent := by
  cases operation with
  | on r action => exact h.update r (Action.consistent_run (h r) action)
  | copy r s =>
    rw [run]
    split_ifs
    · exact h
    · exact h.update r (h s).copied
  | move r s =>
    rw [run]
    split_ifs
    · exact h
    · exact (h.update r (h s)).update s Object.consistent_empty

/-- Registers do what their lists of members do. -/
theorem does_run (h : registers.Consistent) (operation : Operation) :
    Does registers.lists operation (operation.run registers).1
      (operation.run registers).2.lists := by
  cases operation with
  | on r action =>
    rw [run, Registers.lists_update]
    exact .on (Action.does_run (h r) action)
  | copy r s =>
    rw [run]
    split_ifs with hrs
    · subst hrs
      exact .copySelf r
    · rw [Registers.lists_update, Object.entries_copied]
      exact .copy hrs
  | move r s =>
    rw [run]
    split_ifs with hrs
    · subst hrs
      exact .moveSelf r
    · rw [Registers.lists_update, Registers.lists_update]
      exact .move hrs

theorem Does.unique {a₁ a₂ : Answer} {lists₁ lists₂ : Lists} (h : Does lists operation a₁ lists₁)
    (h' : Does lists operation a₂ lists₂) : a₁ = a₂ ∧ lists₁ = lists₂ := by
  cases h with
  | on hd =>
    cases h' with
    | on hd' =>
      obtain ⟨rfl, rfl⟩ := hd.unique hd'
      exact ⟨rfl, rfl⟩
  | copySelf =>
    cases h' with
    | copySelf => exact ⟨rfl, rfl⟩
    | copy hne => exact absurd rfl hne
  | copy hne =>
    cases h' with
    | copySelf => exact absurd rfl hne
    | copy => exact ⟨rfl, rfl⟩
  | moveSelf =>
    cases h' with
    | moveSelf => exact ⟨rfl, rfl⟩
    | move hne => exact absurd rfl hne
  | move hne =>
    cases h' with
    | moveSelf => exact absurd rfl hne
    | move => exact ⟨rfl, rfl⟩

theorem does_iff (h : registers.Consistent) (operation : Operation) :
    Does registers.lists operation answer lists ↔
      answer = (operation.run registers).1 ∧ lists = (operation.run registers).2.lists := by
  constructor
  · intro hd
    exact hd.unique (does_run h operation)
  · rintro ⟨rfl, rfl⟩
    exact does_run h operation

end Operation

namespace Registers

def empty : Registers := fun _ => .empty

theorem consistent_empty : Consistent empty := fun _ => Object.consistent_empty

def run (registers : Registers) : List Operation → List Answer × Registers
  | [] => ([], registers)
  | operation :: operations =>
    let (answer, registers) := operation.run registers
    let (answers, registers) := run registers operations
    (answer :: answers, registers)

inductive Runs : Lists → List Operation → List Answer → Lists → Prop
  | nil (lists : Lists) : Runs lists [] [] lists
  | cons {lists lists₁ lists₂ : Lists} {operation : Operation} {operations : List Operation}
    {answer : Answer} {answers : List Answer} (h : operation.Does lists answer lists₁)
    (hs : Runs lists₁ operations answers lists₂) :
    Runs lists (operation :: operations) (answer :: answers) lists₂

variable {registers : Registers}

theorem consistent_run (h : registers.Consistent) (operations : List Operation) :
    (registers.run operations).2.Consistent := by
  induction operations generalizing registers with
  | nil => exact h
  | cons operation operations ih => exact ih (Operation.consistent_run h operation)

theorem runs_iff (h : registers.Consistent) {operations : List Operation} {answers : List Answer}
    {lists : Lists} : Runs registers.lists operations answers lists ↔
      answers = (registers.run operations).1 ∧ lists = (registers.run operations).2.lists := by
  induction operations generalizing registers answers with
  | nil =>
    constructor
    · rintro ⟨⟩
      exact ⟨rfl, rfl⟩
    · rintro ⟨rfl, rfl⟩
      exact .nil _
  | cons operation operations ih =>
    have hrun := Operation.consistent_run h operation
    constructor
    · intro hruns
      cases hruns with
      | cons hd hs =>
        obtain ⟨rfl, rfl⟩ := (Operation.does_iff h operation).1 hd
        obtain ⟨rfl, rfl⟩ := (ih hrun).1 hs
        exact ⟨rfl, rfl⟩
    · rintro ⟨rfl, rfl⟩
      exact .cons ((Operation.does_iff h operation).2 ⟨rfl, rfl⟩) ((ih hrun).2 ⟨rfl, rfl⟩)

/-- Objects that start out empty and what plain lists of members would have become of them. -/
structure Ordered (operations : List Operation) : Prop where
  plain : ∀ answers lists, Runs (fun _ => []) operations answers lists ↔
    answers = (empty.run operations).1 ∧ lists = (empty.run operations).2.lists
  distinct : ∀ r, ((empty.run operations).2 r).keys.Nodup
  index : ∀ (r : Nat) (index : KeyIndex), ((empty.run operations).2 r).index = some index →
    ∀ (key : Bytes) (position : Nat), index[key]? = some position ↔
      ∃ v, ((empty.run operations).2 r).entries[position]? = some (key, v)

theorem ordered (operations : List Operation) : Ordered operations where
  plain _ _ := runs_iff consistent_empty
  distinct r := (consistent_run consistent_empty operations r).nodup
  index r _ hi key position :=
    (consistent_run consistent_empty operations r).index_iff hi key position

end Registers
end JsonCodec
