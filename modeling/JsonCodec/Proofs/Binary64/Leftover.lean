import Mathlib
import JsonCodec.Proofs.Binary64.Recognition

set_option autoImplicit false

/-!
# What a text goes on with

A text that goes on after the numeral it starts with is invalid, with two exceptions: a numeral
beyond all doubles is out of range whatever follows it, and what follows a numeral that is too small
for any double but zero is not looked at.
-/
namespace JsonCodec
namespace Binary64

namespace Recognised

def value : Recognised → Binary64
  | decimal negative digits e => nearest negative (digits * (10 : ℚ) ^ e)
  | named x => x

def Overflows : Recognised → Prop
  | decimal _ digits e => overflowLimit ≤ digits * (10 : ℚ) ^ e
  | named _ => False

/-- It is not zero, but at most half of the least positive double. -/
def Vanishes : Recognised → Prop
  | decimal _ digits e => digits ≠ 0 ∧ 2 * (digits * (10 : ℚ) ^ e * one) ≤ 1
  | named _ => False

variable {r : Recognised}

theorem Overflows.isInfinite (h : r.Overflows) : r.value.isInfinite = true := by
  cases r with
  | decimal negative digits e => exact (isInfinite_nearest negative (by positivity)).2 h
  | named x => exact h.elim

theorem Vanishes.isZero (h : r.Vanishes) : r.value.isZero = true := by
  cases r with
  | decimal negative digits e => exact (isZero_nearest negative (by positivity)).2 h.2
  | named x => exact h.elim

theorem Vanishes.not_overflows (h : r.Vanishes) : ¬ r.Overflows := by
  intro ho
  have hz := h.isZero
  have hi := ho.isInfinite
  rw [Binary64.isZero, beq_iff_eq] at hz
  rw [Binary64.isInfinite, beq_iff_eq, hz] at hi
  exact absurd hi (by decide)

end Recognised

section Read
variable {text rest : Bytes} {r : Recognised}

theorem read_overflows (h : recognise text = some (r, rest)) (ho : r.Overflows) :
    read text = .error .outOfRange := by
  cases r with
  | decimal negative digits e =>
    have hinf := (isInfinite_nearest negative (by positivity)).2 ho
    simp [read, h, ofDecimal_eq, hinf]
  | named x => exact ho.elim

theorem isInfinite_of_inRange {negative : Bool} {digits : Nat} {e : Int}
    (ho : ¬ (Recognised.decimal negative digits e).Overflows) :
    (nearest negative (digits * (10 : ℚ) ^ e)).isInfinite = false := by
  rw [Bool.eq_false_iff, ne_eq, isInfinite_nearest negative (by positivity)]
  exact ho

theorem read_inRange (h : recognise text = some (r, rest)) (ho : ¬ r.Overflows)
    (hr : rest = [] ∨ r.Vanishes) : read text = .ok r.value := by
  cases r with
  | decimal negative digits e =>
    have hinf := isInfinite_of_inRange ho
    rcases hr with rfl | hv
    · simp [read, h, ofDecimal_eq, hinf, Recognised.value]
    · have hz : (nearest negative (digits * (10 : ℚ) ^ e)).isZero = true := hv.isZero
      simp [read, h, ofDecimal_eq, hinf, Recognised.value, hv.1, hz]
  | named x =>
    obtain rfl : rest = [] := hr.resolve_right id
    simp [read, h, Recognised.value]

theorem read_leftover (h : recognise text = some (r, rest)) (ho : ¬ r.Overflows) (hne : rest ≠ [])
    (hv : ¬ r.Vanishes) : read text = .error .invalid := by
  have hempty : rest.isEmpty = false := by simpa using hne
  cases r with
  | decimal negative digits e =>
    have hinf := isInfinite_of_inRange ho
    have hz : (digits ≠ 0 && (nearest negative (digits * (10 : ℚ) ^ e)).isZero) = false := by
      rw [Bool.eq_false_iff, ne_eq, Bool.and_eq_true, decide_eq_true_eq,
        isZero_nearest negative (by positivity)]
      exact hv
    simp only [read, h, ofDecimal_eq, hinf, hz, hempty, Bool.false_eq_true, ↓reduceIte]
  | named x => simp [read, h, hne]

end Read

/-- What is read of a text follows from the numeral it starts with and from whether it goes on. -/
structure Outcome (text : Bytes) : Prop where
  ok (x : Binary64) : read text = .ok x ↔ ∃ taken r rest, Leads text taken r rest ∧
    ¬ r.Overflows ∧ r.value = x ∧ (rest = [] ∨ r.Vanishes)
  outOfRange : read text = .error .outOfRange ↔
    ∃ taken r rest, Leads text taken r rest ∧ r.Overflows
  invalid : read text = .error .invalid ↔ ∀ taken r rest, Leads text taken r rest →
    ¬ r.Overflows ∧ rest ≠ [] ∧ ¬ r.Vanishes
  /-- What follows a numeral that is read as zero without being zero is not looked at. -/
  dropped {taken : Bytes} {r : Recognised} {rest : Bytes} : Leads text taken r rest →
    r.Vanishes → read text = read taken ∧ r.value.isZero = true

theorem read_cases (text : Bytes) :
    recognise text = none ∧ read text = .error .invalid ∨
      ∃ taken r rest, Leads text taken r rest ∧
        (r.Overflows ∧ read text = .error .outOfRange ∨
          ¬ r.Overflows ∧ (rest = [] ∨ r.Vanishes) ∧ read text = .ok r.value ∨
          ¬ r.Overflows ∧ rest ≠ [] ∧ ¬ r.Vanishes ∧ read text = .error .invalid) := by
  cases h : recognise text with
  | none => exact .inl ⟨rfl, by rw [read, h]⟩
  | some out =>
    obtain ⟨r, rest⟩ := out
    obtain ⟨taken, hlead⟩ := recognise_iff.1 h
    refine .inr ⟨taken, r, rest, hlead, ?_⟩
    by_cases ho : r.Overflows
    · exact .inl ⟨ho, read_overflows h ho⟩
    by_cases hr : rest = [] ∨ r.Vanishes
    · exact .inr (.inl ⟨ho, hr, read_inRange h ho hr⟩)
    · obtain ⟨hne, hv⟩ := not_or.1 hr
      exact .inr (.inr ⟨ho, hne, hv, read_leftover h ho hne hv⟩)

theorem Leads.recognise {text taken rest : Bytes} {r : Recognised} (h : Leads text taken r rest) :
    recognise text = some (r, rest) := recognise_iff.2 ⟨taken, h⟩

theorem outcome_read (text : Bytes) : Outcome text where
  ok x := by
    constructor
    · intro h
      rcases read_cases text with
        ⟨-, he⟩ | ⟨taken, r, rest, hl, ⟨-, he⟩ | ⟨ho, hr, he⟩ | ⟨-, -, -, he⟩⟩
      all_goals cases h.symm.trans he
      exact ⟨taken, r, rest, hl, ho, rfl, hr⟩
    · rintro ⟨taken, r, rest, hl, ho, rfl, hr⟩
      exact read_inRange hl.recognise ho hr
  outOfRange := by
    constructor
    · intro h
      rcases read_cases text with
        ⟨-, he⟩ | ⟨taken, r, rest, hl, ⟨ho, he⟩ | ⟨-, -, he⟩ | ⟨-, -, -, he⟩⟩
      all_goals cases h.symm.trans he
      exact ⟨taken, r, rest, hl, ho⟩
    · rintro ⟨taken, r, rest, hl, ho⟩
      exact read_overflows hl.recognise ho
  invalid := by
    constructor
    · intro h taken r rest hl
      have ho : ¬ r.Overflows := fun ho => by
        cases h.symm.trans (read_overflows hl.recognise ho)
      have hr : ¬ (rest = [] ∨ r.Vanishes) := fun hr => by
        cases h.symm.trans (read_inRange hl.recognise ho hr)
      exact ⟨ho, not_or.1 hr⟩
    · intro h
      rcases read_cases text with
        ⟨-, he⟩ | ⟨taken, r, rest, hl, ⟨ho, -⟩ | ⟨-, hr, -⟩ | ⟨-, -, -, he⟩⟩
      · exact he
      · exact absurd ho (h taken r rest hl).1
      · exact absurd hr (not_or.2 (h taken r rest hl).2)
      · exact he
  dropped hl hv := by
    have ho := hv.not_overflows
    rw [read_inRange hl.recognise ho (.inr hv), read_inRange hl.whole ho (.inl rfl)]
    exact ⟨rfl, hv.isZero⟩

/-- A text that goes on after a numeral can be read, and what follows is lost. -/
theorem leftover_read_as_zero :
    read (Bytes.ascii "1e-400x") = .ok (zero false) ∧
      recognise (Bytes.ascii "1e-400x") = some (.decimal false 1 (-400), Bytes.ascii "x") :=
  ⟨by decide, by decide⟩

end Binary64
end JsonCodec
