import Mathlib
import JsonCodec.Proofs.RoundTrip
import JsonCodec.Proofs.Value.Reordered

set_option autoImplicit false

namespace JsonCodec
open Grammar

namespace Value

variable {o : EncodeOptions}

/-- What sorted keys make of a text. -/
structure Canonical (o : EncodeOptions) (v : Value) : Prop where
  same : ∀ w, Reordered v w → w.encode o = v.encode o
  /-- The keys of every object increase in the text, so that none is repeated, and its members are
  those of the value. -/
  ordered : ∀ text, v.encode o = .ok text →
    ∃ (t : Tree) (after : Blanks), text = t.text ++ after.text ∧ t.KeysIncrease ∧
      ∃ w, Reordered v w ∧ (t.value (Token.value none)).copy = w.settled o
  /-- To sort what is written is not to sort the value: it still has its own order, in which it is
  written where keys are not to be sorted. -/
  kept : ∀ text, v.encode { o with sortKeys := false } = .ok text →
    ∃ (t : Tree) (after : Blanks), text = t.text ++ after.text ∧
      (t.value (Token.value none)).copy = v.settled { o with sortKeys := false }

theorem canonical (ho : o.sortKeys = true) {v : Value} (hkeys : v.KeysDistinct) :
    Canonical o v where
  same w h := by
    have hordered : w.ordered o = v.ordered o := by
      rw [ordered, ordered, if_pos ho, if_pos ho, h.sorted_eq hkeys]
    rw [← (writtenAlike_ordered w).encode rfl, hordered, (writtenAlike_ordered v).encode rfl]
  ordered text h := by
    obtain ⟨t, htext, -, hshows⟩ := exists_tree h
    rw [if_pos ho] at hshows
    exact ⟨t, lineEnd o, htext, hshows.ordered hkeys.increase, v.sorted, .sorted v,
      hshows.value hkeys.sorted⟩
  kept text h := by
    obtain ⟨t, htext, -, hshows⟩ := exists_tree h
    rw [if_neg Bool.false_ne_true] at hshows
    exact ⟨t, _, htext, hshows.value hkeys⟩

/-- Two members that stand in the order `b`, `a`. -/
theorem canonical_mixedValue :
    ({ sortKeys := true } : EncodeOptions).sortKeys = true ∧ mixedValue.KeysDistinct ∧
      Canonical { sortKeys := true } mixedValue :=
  ⟨rfl, keysDistinct_mixedValue, canonical rfl keysDistinct_mixedValue⟩

end Value
end JsonCodec
